import Mathlib
import MintWatch.Abi.Display
import MintWatch.Proofs.Abi.Typing
import MintWatch.Proofs.Chain.TransactionMembers
import MintWatch.Proofs.Lists
/-!
# What is shown of a value

Where nothing is cut, two values of one type without texts are shown alike only if they are
the same.  What is shown of a value of one word ends where a comma or a closing bracket
follows, and everything else is such pieces in brackets with commas between them.  So the
front of a longer text shows one value at most, and what is left behind it is known too;
this is what the induction over the type carries.
-/

namespace MintWatch
namespace Abi

namespace Ty

mutual

/-- Whether texts occur in a type. -/
def hasString : Ty → Bool
  | .string => true
  | .array item => hasString item
  | .fixedArray item _ => hasString item
  | .tuple items => someString items
  | _ => false

/-- Whether texts occur in some type of a list. -/
def someString : List Ty → Bool
  | [] => false
  | ty :: rest => hasString ty || someString rest

end

theorem someString_eq_false_iff
    (types : List Ty) :
    someString types = false ↔ ∀ ty ∈ types, ty.hasString = false :=
  forall_iff_of_cons (fun types => someString types = false) rfl
    (fun ty rest => by rw [someString, Bool.or_eq_false_iff]) types

end Ty

namespace Value

mutual

/-- Whether byte strings have at most 32 bytes and arrays at most ten items, at all levels. -/
def isShort : Value → Bool
  | .bytes value => value.length ≤ 32
  | .array items => items.length ≤ 10 && areShort items
  | .fixedArray items => items.length ≤ 10 && areShort items
  | .tuple items => areShort items
  | _ => true

def areShort : List Value → Bool
  | [] => true
  | value :: rest => isShort value && areShort rest

end

theorem areShort_eq_true_iff
    (values : List Value) :
    areShort values = true ↔ ∀ value ∈ values, value.isShort = true :=
  forall_iff_of_cons (fun values => areShort values = true) rfl
    (fun value rest => by rw [areShort, Bool.and_eq_true]) values

theorem displayItems_eq_map
    (values : List Value) :
    displayItems values = values.map display :=
  eq_map_of_cons displayItems rfl (fun _ _ => rfl) values

end Value

/-! ## Where a value ends -/

/-- The characters that may follow a value inside another one. -/
def endsValue (c : Char) : Bool :=
  c == ',' || c == ']' || c == ')'

/-- Whether what follows a value is nothing, or begins with a character that ends values. -/
def FollowsValue (rest : List Char) : Prop :=
  ∀ c ∈ rest.head?, endsValue c = true

/-- Whether no character ends the value. -/
def IsToken (text : String) : Prop :=
  ∀ c ∈ text.toList, endsValue c = false

theorem IsToken.append
    {front back : String}
    (hfront : IsToken front)
    (hback : IsToken back) :
    IsToken (front ++ back) := by
  unfold IsToken
  rw [String.toList_append, List.forall_mem_append]
  exact ⟨hfront, hback⟩

/-- What follows a token tells where the token ends. -/
theorem IsToken.append_inj
    {first second : String} {rest other : List Char}
    (hfirst : IsToken first)
    (hsecond : IsToken second)
    (hrest : FollowsValue rest)
    (hother : FollowsValue other)
    (hsame : first.toList ++ rest = second.toList ++ other) :
    first = second ∧ rest = other := by
  have htoken : ∀ {text : String} {more : List Char}, IsToken text → FollowsValue more →
      (text.toList ++ more).takeWhile (fun c => !endsValue c) = text.toList := by
    intro text more htext hmore
    apply takeWhile_append_of_stop
    · intro c hmember
      rw [htext c hmember, Bool.not_false]
    · intro c hhead
      rw [hmore c hhead, Bool.not_true]
  have hfront : first.toList = second.toList := by
    rw [← htoken hfirst hrest, hsame, htoken hsecond hother]
  rw [hfront] at hsame
  exact ⟨String.toList_injective hfront, List.append_cancel_left hsame⟩

/-- Whether a text is not empty, and its first character ends no value. -/
def StartsValue (text : String) : Prop :=
  ∃ c rest, text.toList = c :: rest ∧ endsValue c = false

theorem StartsValue.append
    {front : String}
    (hfront : StartsValue front)
    (back : String) :
    StartsValue (front ++ back) := by
  obtain ⟨c, rest, htext, hc⟩ := hfront
  exact ⟨c, rest ++ back.toList, by rw [String.toList_append, htext, List.cons_append], hc⟩

theorem IsToken.startsValue
    {text : String}
    (htoken : IsToken text)
    (hsome : text.toList ≠ []) :
    StartsValue text := by
  obtain ⟨c, rest, htext⟩ := List.exists_cons_of_ne_nil hsome
  refine ⟨c, rest, htext, htoken c ?_⟩
  rw [htext]
  exact List.mem_cons_self

theorem endsValue_digitChar
    (value : Nat) :
    endsValue (Nat.digitChar value) = false := by
  simp [endsValue, Nat.digitChar_ne]

theorem endsValue_of_mem_toDigits
    {base number : Nat} {c : Char}
    (hbase : 1 < base)
    (hmember : c ∈ Nat.toDigits base number) :
    endsValue c = false := by
  induction number using Nat.strongRecOn with
  | ind number ih =>
      rw [Nat.toDigits_eq_if hbase] at hmember
      split at hmember
      · rw [List.mem_singleton.mp hmember]
        exact endsValue_digitChar number
      · rename_i hlarge
        rcases List.mem_append.mp hmember with hfront | hlast
        · exact ih (number / base) (Nat.div_lt_self (by omega) hbase) hfront
        · rw [List.mem_singleton.mp hlast]
          exact endsValue_digitChar (number % base)

theorem isToken_toDigits
    {base : Nat}
    (hbase : 1 < base) (number : Nat) :
    IsToken (String.ofList (Nat.toDigits base number)) := by
  intro c hmember
  rw [String.toList_ofList] at hmember
  exact endsValue_of_mem_toDigits hbase hmember

theorem startsValue_toDigits
    {base : Nat}
    (hbase : 1 < base) (number : Nat) :
    StartsValue (String.ofList (Nat.toDigits base number)) := by
  apply (isToken_toDigits hbase number).startsValue
  rw [String.toList_ofList]
  exact Nat.toDigits_ne_nil

theorem isToken_toString
    (number : Int) :
    IsToken (toString number) := by
  rw [Int.toString_eq_repr]
  cases number with
  | ofNat number => exact isToken_toDigits (by decide) number
  | negSucc number =>
      exact IsToken.append (by simp [IsToken, endsValue]) (isToken_toDigits (by decide) _)

theorem startsValue_toString
    (number : Int) :
    StartsValue (toString number) := by
  rw [Int.toString_eq_repr]
  cases number with
  | ofNat number => exact startsValue_toDigits (by decide) number
  | negSucc number => exact StartsValue.append ⟨'-', [], by simp, by decide⟩ _

theorem isToken_encodeMarked
    (bytes : Bytes) :
    IsToken (Hex.encodeMarked bytes) := by
  have hdigit : ∀ value < 16, endsValue (Hex.digit value) = false := by
    decide
  refine IsToken.append (by simp [IsToken, endsValue]) ?_
  intro c hmember
  rw [Hex.encode, String.toList_ofList, Hex.digits_eq_map_nibbles] at hmember
  obtain ⟨value, hvalue, rfl⟩ := List.mem_map.mp hmember
  exact hdigit value (Hex.lt_of_mem_nibbles hvalue)

/-! ## Numbers -/

theorem length_toString_le_iff
    (number : Nat) :
    (toString number).length ≤ 20 ↔ number < 10 ^ 20 := by
  rw [Nat.toString_eq_repr, ← String.length_toList, Nat.toList_repr]
  exact Nat.length_toDigits_le_iff (by decide) (by decide)

theorem showNat_of_lt
    {number : Nat}
    (hsmall : number < 10 ^ 20) :
    showNat number = String.ofList (Nat.toDigits 10 number) := by
  have hlength := (length_toString_le_iff number).mpr hsmall
  unfold showNat
  rw [if_neg (by omega), Nat.toString_eq_repr, Nat.repr_eq_ofList_toDigits]

theorem showNat_of_le
    {number : Nat}
    (hlarge : 10 ^ 20 ≤ number) :
    showNat number = "0x" ++ String.ofList (Nat.toDigits 16 number) := by
  have hlength : ¬ (toString number).length ≤ 20 := by
    rw [length_toString_le_iff]
    omega
  unfold showNat
  rw [if_pos (by omega)]
  rfl

theorem isToken_showNat
    (number : Nat) :
    IsToken (showNat number) := by
  rcases Nat.lt_or_ge number (10 ^ 20) with hsmall | hlarge
  · rw [showNat_of_lt hsmall]
    exact isToken_toDigits (by decide) number
  · rw [showNat_of_le hlarge]
    exact IsToken.append (by simp [IsToken, endsValue]) (isToken_toDigits (by decide) number)

theorem startsValue_showNat
    (number : Nat) :
    StartsValue (showNat number) := by
  rcases Nat.lt_or_ge number (10 ^ 20) with hsmall | hlarge
  · rw [showNat_of_lt hsmall]
    exact startsValue_toDigits (by decide) number
  · rw [showNat_of_le hlarge]
    exact StartsValue.append ⟨'0', ['x'], by simp, by decide⟩ _

/-- A number in decimal digits has no mark in front. -/
theorem showNat_ne_of_lt_of_le
    {small large : Nat}
    (hsmall : small < 10 ^ 20)
    (hlarge : 10 ^ 20 ≤ large) :
    showNat small ≠ showNat large := by
  intro hsame
  have hmark : 'x' ∈ (showNat large).toList := by
    rw [showNat_of_le hlarge]
    simp
  rw [← hsame, showNat_of_lt hsmall, String.toList_ofList] at hmark
  exact absurd (Nat.isDigit_of_mem_toDigits (by decide) (by decide) hmark) (by decide)

theorem showNat_injective :
    Function.Injective showNat := by
  intro first second hsame
  rcases Nat.lt_or_ge first (10 ^ 20) with hfirst | hfirst
  · rcases Nat.lt_or_ge second (10 ^ 20) with hsecond | hsecond
    · rw [showNat_of_lt hfirst, showNat_of_lt hsecond, ← Nat.repr_eq_ofList_toDigits,
        ← Nat.repr_eq_ofList_toDigits] at hsame
      exact Nat.repr_injective hsame
    · exact absurd hsame (showNat_ne_of_lt_of_le hfirst hsecond)
  · rcases Nat.lt_or_ge second (10 ^ 20) with hsecond | hsecond
    · exact absurd hsame.symm (showNat_ne_of_lt_of_le hsecond hfirst)
    · rw [showNat_of_le hfirst, showNat_of_le hsecond] at hsame
      have hbound : first + second < 2 ^ (first + second) := Nat.lt_two_pow_self
      have hone := Quantity.read_marked_ofNat (show first < 2 ^ (first + second) by omega)
      have hother := Quantity.read_marked_ofNat (show second < 2 ^ (first + second) by omega)
      rw [Hex.ofNat, hsame] at hone
      exact Except.ok.inj (hone.symm.trans hother)

/-! ## Bytes -/

theorem encodeMarked_injective :
    Function.Injective Hex.encodeMarked := by
  intro first second hsame
  have hfirst := Transaction.readInput_eq_ok_iff.mpr (Hex.denotes_encodeMarked first)
  have hsecond := Transaction.readInput_eq_ok_iff.mpr (Hex.denotes_encodeMarked second)
  rw [hsame] at hfirst
  exact Except.ok.inj (hfirst.symm.trans hsecond)

theorem hex_injective
    {n : Nat} :
    Function.Injective (Octets.hex (n := n)) := by
  intro first second hsame
  exact Octets.eq_of_toList_eq (encodeMarked_injective hsame)

/-- The bytes that are shown of a word are all of it that is not zero. -/
theorem eq_of_shownBytes_eq
    {first second : Word} {size : Nat}
    (hfirst : (first.toList.drop size).all (· == 0) = true)
    (hsecond : (second.toList.drop size).all (· == 0) = true)
    (hsame : shownBytes first size = shownBytes second size) :
    first = second := by
  have hzeros : ∀ word : Word, (word.toList.drop size).all (· == 0) = true →
      word.toList.drop size = List.replicate (32 - size) 0 := by
    intro word hall
    refine List.eq_replicate_iff.mpr ⟨?_, ?_⟩
    · rw [List.length_drop, word.length_toList]
    · intro byte hmember
      simpa using List.all_eq_true.mp hall byte hmember
  apply Octets.eq_of_toList_eq
  calc
    first.toList = first.toList.take size ++ first.toList.drop size :=
      (List.take_append_drop size _).symm
    _ = second.toList.take size ++ second.toList.drop size := by
      rw [hzeros first hfirst, hzeros second hsecond]
      exact congrArg (· ++ _) hsame
    _ = second.toList := List.take_append_drop size _

/-! ## Lists of values -/

namespace Value

/-- Whether two values are told apart by what is shown of them, in front of whatever may
follow a value; and where they are the same, what follows them is. -/
def ShownApart (first second : Value) : Prop :=
  ∀ rest other, FollowsValue rest → FollowsValue other →
    first.display.toList ++ rest = second.display.toList ++ other →
      first = second ∧ rest = other

theorem shownApart_of_isToken
    {first second : Value}
    (hfirst : IsToken first.display)
    (hsecond : IsToken second.display)
    (hinjective : first.display = second.display → first = second) :
    first.ShownApart second := by
  intro rest other hrest hother hsame
  have htokens := hfirst.append_inj hsecond hrest hother hsame
  exact ⟨hinjective htokens.1, htokens.2⟩

theorem startsValue_showArray
    (items : List String) :
    StartsValue (showArray items) := by
  have hstart : StartsValue "[" := ⟨'[', [], by simp, by decide⟩
  unfold showArray
  split
  · exact (hstart.append _).append _
  · exact (((hstart.append _).append _).append _).append _

/-- What is shown of a value does not begin like the end of another one. -/
theorem startsValue_display
    (value : Value) :
    StartsValue value.display := by
  have hmarked : ∀ bytes, StartsValue (Hex.encodeMarked bytes) := fun bytes =>
    StartsValue.append ⟨'0', ['x'], by simp, by decide⟩ _
  have hquoted : StartsValue "\"" := ⟨'"', [], by simp, by decide⟩
  have htuple : StartsValue "(" := ⟨'(', [], by simp, by decide⟩
  cases value with
  | bool flag =>
      cases flag with
      | false => exact ⟨'f', "alse".toList, by simp [display], by decide⟩
      | true => exact ⟨'t', "rue".toList, by simp [display], by decide⟩
  | int number bits => exact startsValue_toString number
  | uint number bits => exact startsValue_showNat number
  | fixedBytes word size => exact hmarked _
  | address address => exact hmarked _
  | function bytes => exact hmarked _
  | bytes bytes =>
      rw [display, showBytes]
      split
      · exact hmarked _
      · exact (((hmarked _).append _).append _).append _
  | string text =>
      rw [display, showText]
      split
      · exact (hquoted.append _).append _
      · exact (((hquoted.append _).append _).append _).append _
  | array items => exact startsValue_showArray _
  | fixedArray items => exact startsValue_showArray _
  | tuple items => exact (htuple.append _).append _

/-- What is shown of the values behind the first of a list, and what follows them. -/
def shownBehind (values : List Value) (more : List Char) : List Char :=
  values.flatMap (fun value => ',' :: ' ' :: value.display.toList) ++ more

theorem followsValue_shownBehind
    {close : Char}
    (hclose : endsValue close = true)
    (values : List Value) (rest : List Char) :
    FollowsValue (shownBehind values (close :: rest)) := by
  cases values with
  | nil => simpa [shownBehind, FollowsValue] using hclose
  | cons value others => simp [shownBehind, FollowsValue, endsValue]

theorem intercalate_cons_append
    (value : Value) (values : List Value) (more : List Char) :
    (String.intercalate ", " ((value :: values).map display)).toList ++ more =
      value.display.toList ++ shownBehind values more := by
  induction values generalizing value with
  | nil => simp [shownBehind]
  | cons next others ih =>
      have hnext := ih next
      rw [List.map_cons] at hnext
      rw [List.map_cons, List.map_cons, String.intercalate_cons_cons, String.toList_append,
        String.toList_append, List.append_assoc, hnext]
      simp [shownBehind]

/-- Whether the values that stand at one place of two lists are told apart. -/
def AreShownApart (firsts seconds : List Value) : Prop :=
  ∀ (index : Nat) (first second : Value), firsts[index]? = some first →
    seconds[index]? = some second → first.ShownApart second

theorem areShownApart_cons_iff
    {first second : Value} {firsts seconds : List Value} :
    AreShownApart (first :: firsts) (second :: seconds) ↔
      first.ShownApart second ∧ AreShownApart firsts seconds := by
  constructor
  · intro hapart
    exact ⟨hapart 0 first second rfl rfl, fun index => hapart (index + 1)⟩
  · intro hapart index
    cases index with
    | zero =>
        intro one other hone hother
        rw [List.getElem?_cons_zero, Option.some.injEq] at hone hother
        rw [← hone, ← hother]
        exact hapart.1
    | succ index => exact hapart.2 index

theorem eq_of_shownBehind_eq
    {close : Char} {firsts seconds : List Value} {rest other : List Char}
    (hclose : close ≠ ',' ∧ endsValue close = true)
    (hapart : AreShownApart firsts seconds)
    (hsame : shownBehind firsts (close :: rest) = shownBehind seconds (close :: other)) :
    firsts = seconds ∧ rest = other := by
  induction firsts generalizing seconds with
  | nil =>
      cases seconds with
      | nil => exact ⟨rfl, (List.cons.inj hsame).2⟩
      | cons second seconds => exact absurd (List.cons.inj hsame).1 hclose.1
  | cons first firsts ih =>
      cases seconds with
      | nil => exact absurd (List.cons.inj hsame).1.symm hclose.1
      | cons second seconds =>
          rw [areShownApart_cons_iff] at hapart
          have hdisplays : first.display.toList ++ shownBehind firsts (close :: rest) =
              second.display.toList ++ shownBehind seconds (close :: other) := by
            simpa [shownBehind] using hsame
          have hfirst := hapart.1 _ _ (followsValue_shownBehind hclose.2 firsts rest)
            (followsValue_shownBehind hclose.2 seconds other) hdisplays
          have hothers := ih hapart.2 hfirst.2
          exact ⟨by rw [hfirst.1, hothers.1], hothers.2⟩

/-- A list in front of its closing bracket is told from any other whose values are told
apart from its own. -/
theorem eq_of_intercalate_eq
    {close : Char} {firsts seconds : List Value} {rest other : List Char}
    (hclose : close ≠ ',' ∧ endsValue close = true)
    (hapart : AreShownApart firsts seconds)
    (hsame : (String.intercalate ", " (firsts.map display)).toList ++ close :: rest =
      (String.intercalate ", " (seconds.map display)).toList ++ close :: other) :
    firsts = seconds ∧ rest = other := by
  have hempty : ∀ {value : Value} {values : List Value} {more less : List Char},
      close :: less ≠
        (String.intercalate ", " ((value :: values).map display)).toList ++ more := by
    intro value values more less hfront
    obtain ⟨c, others, hdisplay, hc⟩ := startsValue_display value
    rw [intercalate_cons_append, hdisplay, List.cons_append] at hfront
    rw [← (List.cons.inj hfront).1, hclose.2] at hc
    cases hc
  cases firsts with
  | nil =>
      cases seconds with
      | nil => exact ⟨rfl, (List.cons.inj hsame).2⟩
      | cons second seconds => exact absurd hsame hempty
  | cons first firsts =>
      cases seconds with
      | nil => exact absurd hsame.symm hempty
      | cons second seconds =>
          rw [areShownApart_cons_iff] at hapart
          rw [intercalate_cons_append, intercalate_cons_append] at hsame
          have hfirst := hapart.1 _ _ (followsValue_shownBehind hclose.2 firsts rest)
            (followsValue_shownBehind hclose.2 seconds other) hsame
          have hothers := eq_of_shownBehind_eq hclose hapart.2 hfirst.2
          exact ⟨by rw [hfirst.1, hothers.1], hothers.2⟩

/-- What is shown of a list of values between brackets. -/
def shownList (start : Char) (values : List Value) (close : Char) : List Char :=
  start :: ((String.intercalate ", " (values.map display)).toList ++ [close])

theorem shownApart_of_shownList
    {start close : Char} {first second : Value} {firsts seconds : List Value}
    (hclose : close ≠ ',' ∧ endsValue close = true)
    (hfirst : first.display.toList = shownList start firsts close)
    (hsecond : second.display.toList = shownList start seconds close)
    (hapart : AreShownApart firsts seconds)
    (hvalues : firsts = seconds → first = second) :
    first.ShownApart second := by
  intro rest other _ _ hsame
  rw [hfirst, hsecond] at hsame
  have hlists := eq_of_intercalate_eq hclose hapart
    (by simpa [shownList] using hsame : _ ++ close :: rest = _ ++ close :: other)
  exact ⟨hvalues hlists.1, hlists.2⟩

theorem toList_showArray
    {items : List Value}
    (hshort : items.length ≤ 10) :
    (showArray (displayItems items)).toList = shownList '[' items ']' := by
  have hwhole : showArray (items.map display) =
      "[" ++ String.intercalate ", " (items.map display) ++ "]" := by
    unfold showArray
    rw [List.length_map]
    exact if_pos hshort
  rw [displayItems_eq_map, hwhole]
  simp [shownList]

theorem toList_display_tuple
    (items : List Value) :
    (Value.tuple items).display.toList = shownList '(' items ')' := by
  rw [display, displayItems_eq_map]
  simp [shownList]

/-! ## Values of a type -/

theorem isToken_of_isWord
    {ty : Ty} {value : Value}
    (hword : ty.isWord = true)
    (htyped : ty.HasValue value) :
    IsToken value.display := by
  cases ty with
  | bool =>
      obtain ⟨flag, rfl⟩ := htyped
      cases flag <;> simp [display, IsToken, endsValue]
  | int width =>
      obtain ⟨number, rfl, -⟩ := htyped
      exact isToken_toString number
  | uint width =>
      obtain ⟨number, rfl, -⟩ := htyped
      exact isToken_showNat number
  | fixedBytes width =>
      obtain ⟨word, rfl, -⟩ := htyped
      exact isToken_encodeMarked _
  | address =>
      obtain ⟨address, rfl⟩ := htyped
      exact isToken_encodeMarked _
  | function =>
      obtain ⟨bytes, rfl⟩ := htyped
      exact isToken_encodeMarked _
  | _ => cases hword

theorem eq_of_display_eq_of_isWord
    {ty : Ty} {first second : Value}
    (hword : ty.isWord = true)
    (hfirst : ty.HasValue first)
    (hsecond : ty.HasValue second)
    (hsame : first.display = second.display) :
    first = second := by
  cases ty with
  | bool =>
      obtain ⟨flag, rfl⟩ := hfirst
      obtain ⟨other, rfl⟩ := hsecond
      cases flag <;> cases other <;> simp_all [display]
  | int width =>
      obtain ⟨number, rfl, -⟩ := hfirst
      obtain ⟨other, rfl, -⟩ := hsecond
      rw [display, display, Int.toString_eq_repr, Int.toString_eq_repr] at hsame
      rw [Int.repr_injective hsame]
  | uint width =>
      obtain ⟨number, rfl, -⟩ := hfirst
      obtain ⟨other, rfl, -⟩ := hsecond
      rw [showNat_injective hsame]
  | fixedBytes width =>
      obtain ⟨word, rfl, hzeros⟩ := hfirst
      obtain ⟨other, rfl, hotherZeros⟩ := hsecond
      rw [eq_of_shownBytes_eq hzeros hotherZeros (encodeMarked_injective hsame)]
  | address =>
      obtain ⟨address, rfl⟩ := hfirst
      obtain ⟨other, rfl⟩ := hsecond
      rw [hex_injective hsame]
  | function =>
      obtain ⟨bytes, rfl⟩ := hfirst
      obtain ⟨other, rfl⟩ := hsecond
      rw [hex_injective hsame]
  | _ => cases hword

theorem areShownApart_of_forall
    {firsts seconds : List Value}
    (heach : ∀ first ∈ firsts, ∀ second ∈ seconds, first.ShownApart second) :
    AreShownApart firsts seconds :=
  fun _ first second hfirst hsecond =>
    heach first (List.mem_of_getElem? hfirst) second (List.mem_of_getElem? hsecond)

end Value

namespace Ty

/-- Whether short values of a type are told apart by what is shown of them. -/
def ShowsApart (ty : Ty) : Prop :=
  ∀ first second, ty.HasValue first → ty.HasValue second →
    first.isShort = true → second.isShort = true → first.ShownApart second

theorem areShownApart_of_haveValues
    {types : List Ty} {firsts seconds : List Value}
    (hshows : ∀ ty ∈ types, ty.ShowsApart)
    (hfirsts : HaveValues types firsts)
    (hseconds : HaveValues types seconds)
    (hfirstsShort : Value.areShort firsts = true)
    (hsecondsShort : Value.areShort seconds = true) :
    Value.AreShownApart firsts seconds := by
  rw [Value.areShort_eq_true_iff] at hfirstsShort hsecondsShort
  intro index first second hfirst hsecond
  have hplace : index < types.length := by
    rw [← haveValues_length hfirsts]
    exact (List.getElem?_eq_some_iff.mp hfirst).1
  have hty : types[index]? = some types[index] := List.getElem?_eq_getElem hplace
  exact hshows _ (List.getElem_mem hplace) first second
    (hasValue_of_getElem? hfirsts hty hfirst) (hasValue_of_getElem? hseconds hty hsecond)
    (hfirstsShort first (List.mem_of_getElem? hfirst))
    (hsecondsShort second (List.mem_of_getElem? hsecond))

theorem shownApart_of_items
    {item : Ty} {first second : Value} {items others : List Value}
    (hitem : item.ShowsApart)
    (hitems : ∀ one ∈ items, item.HasValue one)
    (hothers : ∀ one ∈ others, item.HasValue one)
    (hitemsShort : (items.length ≤ 10 && Value.areShort items) = true)
    (hothersShort : (others.length ≤ 10 && Value.areShort others) = true)
    (hfirst : first.display = showArray (Value.displayItems items))
    (hsecond : second.display = showArray (Value.displayItems others))
    (hvalues : items = others → first = second) :
    first.ShownApart second := by
  simp only [Bool.and_eq_true, decide_eq_true_eq, Value.areShort_eq_true_iff]
    at hitemsShort hothersShort
  have hapart : Value.AreShownApart items others := by
    apply Value.areShownApart_of_forall
    intro one hone two htwo
    exact hitem one two (hitems one hone) (hothers two htwo)
      (hitemsShort.2 one hone) (hothersShort.2 two htwo)
  have hfirstList := Value.toList_showArray hitemsShort.1
  have hsecondList := Value.toList_showArray hothersShort.1
  rw [← hfirst] at hfirstList
  rw [← hsecond] at hsecondList
  exact Value.shownApart_of_shownList (by decide) hfirstList hsecondList hapart hvalues

theorem showsApart
    (ty : Ty)
    (htextless : ty.hasString = false) :
    ty.ShowsApart := by
  induction ty using layoutInduction with
  | word ty hword =>
      intro first second hfirst hsecond _ _
      exact Value.shownApart_of_isToken (Value.isToken_of_isWord hword hfirst)
        (Value.isToken_of_isWord hword hsecond)
        (Value.eq_of_display_eq_of_isWord hword hfirst hsecond)
  | bytes =>
      intro first second hfirst hsecond hfirstShort hsecondShort
      obtain ⟨bytes, rfl⟩ := hfirst
      obtain ⟨other, rfl⟩ := hsecond
      have hshown : ∀ bytes, (Value.bytes bytes).isShort = true →
          (Value.bytes bytes).display = Hex.encodeMarked bytes := by
        intro bytes hshort
        rw [Value.isShort, decide_eq_true_eq] at hshort
        exact if_pos hshort
      have hinjective : (Value.bytes bytes).display = (Value.bytes other).display →
          Value.bytes bytes = Value.bytes other := by
        rw [hshown bytes hfirstShort, hshown other hsecondShort]
        exact fun hsame => congrArg Value.bytes (encodeMarked_injective hsame)
      apply Value.shownApart_of_isToken _ _ hinjective
      · rw [hshown bytes hfirstShort]
        exact isToken_encodeMarked bytes
      · rw [hshown other hsecondShort]
        exact isToken_encodeMarked other
  | string => cases htextless
  | array item ih =>
      intro first second hfirst hsecond hfirstShort hsecondShort
      obtain ⟨items, rfl, hitems⟩ := hfirst
      obtain ⟨others, rfl, hothers⟩ := hsecond
      exact shownApart_of_items (ih htextless) hitems hothers hfirstShort hsecondShort rfl rfl
        (congrArg Value.array)
  | fixedArray item count ih =>
      intro first second hfirst hsecond hfirstShort hsecondShort
      obtain ⟨items, rfl, -, hitems⟩ := hfirst
      obtain ⟨others, rfl, -, hothers⟩ := hsecond
      exact shownApart_of_items (ih htextless) hitems hothers hfirstShort hsecondShort rfl rfl
        (congrArg Value.fixedArray)
  | tuple items ih =>
      intro first second hfirst hsecond hfirstShort hsecondShort
      obtain ⟨firsts, rfl, hfirsts⟩ := hfirst
      obtain ⟨seconds, rfl, hseconds⟩ := hsecond
      rw [hasString, someString_eq_false_iff] at htextless
      have hapart := areShownApart_of_haveValues
        (fun ty hmember => ih ty hmember (htextless ty hmember))
        hfirsts hseconds hfirstShort hsecondShort
      exact Value.shownApart_of_shownList (by decide) (Value.toList_display_tuple firsts)
        (Value.toList_display_tuple seconds) hapart (congrArg Value.tuple)

end Ty

/-- Decoded values inhabit the types of their parameters, so this holds of all that can be
decoded. -/
theorem Value.display_determines_value :
    (∀ ty : Ty, ty.hasString = false → ∀ first second : Value,
        ty.HasValue first → ty.HasValue second → first.isShort = true → second.isShort = true →
          (first.display = second.display ↔ first = second)) ∧
      (∀ number bits, (Value.uint number bits).display =
        if number < 10 ^ 20 then String.ofList (Nat.toDigits 10 number)
        else "0x" ++ String.ofList (Nat.toDigits 16 number)) ∧
      ∀ first second bits, first ≠ second →
        (Value.uint first bits).display ≠ (Value.uint second bits).display := by
  refine ⟨?_, ?_, ?_⟩
  · intro ty htextless first second hfirst hsecond hfirstShort hsecondShort
    have hnothing : FollowsValue [] := by
      simp [FollowsValue]
    constructor
    · intro hsame
      exact (ty.showsApart htextless first second hfirst hsecond hfirstShort hsecondShort
        [] [] hnothing hnothing (by rw [hsame])).1
    · exact congrArg Value.display
  · intro number bits
    split
    · rename_i hsmall
      exact showNat_of_lt hsmall
    · rename_i hlarge
      exact showNat_of_le (by omega)
  · intro first second bits hdiffers hsame
    exact hdiffers (showNat_injective hsame)

/-! The same two numbers in one list and in two lists. -/

theorem Value.display_determines_value_nested :
    (Ty.array (.array (.uint .byte))).hasString = false ∧
      (Ty.array (.array (.uint .byte))).HasValue
        (.array [.array [.uint 1 8], .array [.uint 2 8]]) ∧
      (Ty.array (.array (.uint .byte))).HasValue (.array [.array [.uint 1 8, .uint 2 8]]) ∧
      (Value.array [.array [.uint 1 8], .array [.uint 2 8]]).isShort = true ∧
      (Value.array [.array [.uint 1 8, .uint 2 8]]).isShort = true ∧
      (Value.array [.array [.uint 1 8], .array [.uint 2 8]]).display ≠
        (Value.array [.array [.uint 1 8, .uint 2 8]]).display := by
  have htextless : (Ty.array (.array (.uint .byte))).hasString = false := rfl
  have htwo : (Ty.array (.array (.uint .byte))).HasValue
      (.array [.array [.uint 1 8], .array [.uint 2 8]]) := by
    simp [Ty.HasValue, Width.byte, Width.bits]
  have hone : (Ty.array (.array (.uint .byte))).HasValue
      (.array [.array [.uint 1 8, .uint 2 8]]) := by
    simp [Ty.HasValue, Width.byte, Width.bits]
  obtain ⟨happart, -, -⟩ := Value.display_determines_value
  refine ⟨htextless, htwo, hone, rfl, rfl, ?_⟩
  rw [ne_eq, happart _ htextless _ _ htwo hone rfl rfl]
  simp

end Abi
end MintWatch
