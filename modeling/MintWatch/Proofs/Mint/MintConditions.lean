import Mathlib
import MintWatch.Proofs.Mint.Evidence
import MintWatch.Proofs.Lists
/-!
# The conditions of a mint

A call proves the mint of a record if six conditions hold, among them that the text of the
record's owner is an address with blanks around it, a mark in front and digits of either
case.  They are checked in order: the mismatch that is reported is the one of the first
condition that fails, and it tells what was found.  So it makes no difference how the
address of the owner is written, or which arguments follow the first two.
-/

namespace MintWatch

/-! ## Blanks around a text -/

namespace Text

theorem exists_blanks_around_trimChars
    (chars : List Char) :
    ∃ before after, chars = before ++ (trimChars chars ++ after) ∧
      (∀ c ∈ before, isBlank c = true) ∧ ∀ c ∈ after, isBlank c = true := by
  have hfront : chars = chars.takeWhile isBlank ++ trimStart chars :=
    List.takeWhile_append_dropWhile.symm
  have hback :
      trimStart chars =
        trimChars chars ++ ((trimStart chars).reverse.takeWhile isBlank).reverse := by
    have hreverse :
        (trimStart chars).reverse =
          (trimStart chars).reverse.takeWhile isBlank ++ trimStart (trimStart chars).reverse :=
      List.takeWhile_append_dropWhile.symm
    rw [trimChars, ← List.reverse_append, ← hreverse, List.reverse_reverse]
  refine ⟨chars.takeWhile isBlank, _, hfront.trans (congrArg _ hback), ?_, ?_⟩
  · intro c hmember
    exact List.mem_takeWhile_imp hmember
  · intro c hmember
    exact List.mem_takeWhile_imp (List.mem_reverse.mp hmember)

theorem trimChars_of_blanks_around
    {before text after : List Char}
    (hbefore : ∀ c ∈ before, isBlank c = true)
    (htext : ∀ c ∈ text, isBlank c = false)
    (hafter : ∀ c ∈ after, isBlank c = true) :
    trimChars (before ++ (text ++ after)) = text := by
  have hback : trimStart (text ++ after).reverse = text.reverse := by
    rw [List.reverse_append]
    apply dropWhile_append_of_stop
    · intro c hmember
      exact hafter c (List.mem_reverse.mp hmember)
    · intro c hhead
      exact htext c (List.mem_reverse.mp (List.mem_of_mem_head? hhead))
  cases text with
  | nil =>
      have hall : ∀ c ∈ before ++ ([] ++ after), isBlank c = true := by
        intro c hmember
        rcases List.mem_append.mp hmember with hleft | hright
        · exact hbefore c hleft
        · exact hafter c hright
      have hnone : trimStart (before ++ ([] ++ after)) = [] :=
        List.dropWhile_eq_nil_iff.mpr hall
      rw [trimChars, hnone]
      rfl
  | cons c rest =>
      have hfront : trimStart (before ++ (c :: rest ++ after)) = c :: rest ++ after := by
        apply dropWhile_append_of_stop hbefore
        intro head hhead
        obtain rfl := Option.some.inj hhead
        exact htext _ List.mem_cons_self
      rw [trimChars, hfront, hback, List.reverse_reverse]

end Text

/-! ## Texts of an address -/

namespace Hex

/-- The marks that may stand in front of hexadecimal digits. -/
def marks : List (List Char) :=
  [[], ['0', 'x'], ['0', 'X']]

theorem exists_mark
    (chars : List Char) :
    ∃ mark ∈ marks, chars = mark ++ dropMark chars := by
  unfold dropMark
  split
  · exact ⟨['0', 'x'], by simp [marks], rfl⟩
  · exact ⟨['0', 'X'], by simp [marks], rfl⟩
  · exact ⟨[], by simp [marks], rfl⟩

theorem length_digits
    (bytes : Bytes) :
    (digits bytes).length = 2 * bytes.length := by
  rw [digits_eq_map_nibbles, List.length_map, length_nibbles]

section Digits

variable {chars : List Char} {bytes : Bytes} {c : Char}

theorem exists_digit_of_mem
    (hdigits : chars.map Char.toLower = digits bytes)
    (hmember : c ∈ chars) :
    ∃ value < 16, digitValue? c.toNat = some value := by
  have hlower : c.toLower ∈ digits bytes := by
    rw [← hdigits]
    exact List.mem_map_of_mem hmember
  rw [digits_eq_map_nibbles] at hlower
  obtain ⟨value, hvalue, hdigit⟩ := List.mem_map.mp hlower
  have hsmall := lt_of_mem_nibbles hvalue
  exact ⟨value, hsmall, (digitValue?_eq_some_iff c hsmall).mpr hdigit.symm⟩

theorem digitValue?_of_isBlank
    (hblank : Text.isBlank c = true) :
    digitValue? c.toNat = none := by
  simp only [Text.isBlank, Bool.or_eq_true, Bool.and_eq_true, decide_eq_true_eq,
    beq_iff_eq] at hblank
  have hcode : c.toNat ≤ 32 ∨ 128 ≤ c.toNat := by
    omega
  cases hcode with
  | inl hlow =>
      unfold digitValue?
      rw [if_neg (by omega), if_neg (by omega), if_neg (by omega)]
  | inr hwide => exact digitValue?_of_wide hwide

theorem isBlank_of_mem_digits
    (hdigits : chars.map Char.toLower = digits bytes)
    (hmember : c ∈ chars) :
    Text.isBlank c = false := by
  obtain ⟨value, -, hvalue⟩ := exists_digit_of_mem hdigits hmember
  by_contra hblank
  rw [digitValue?_of_isBlank (by simpa using hblank)] at hvalue
  cases hvalue

theorem isBlank_of_mem_mark
    {mark : List Char}
    (hmark : mark ∈ marks)
    (hmember : c ∈ mark) :
    Text.isBlank c = false := by
  have hplain : marks.all (fun mark => mark.all fun c => !Text.isBlank c) = true := by
    rfl
  have hmarkPlain := List.all_eq_true.mp hplain mark hmark
  simpa using List.all_eq_true.mp hmarkPlain c hmember

/-- Digits do not begin with a mark: an `x` of either case is no digit. -/
theorem dropMark_of_digits
    (hdigits : chars.map Char.toLower = digits bytes) :
    dropMark chars = chars := by
  unfold dropMark
  split
  · obtain ⟨value, -, hvalue⟩ := exists_digit_of_mem (c := 'x') hdigits (by simp)
    cases hvalue
  · obtain ⟨value, -, hvalue⟩ := exists_digit_of_mem (c := 'X') hdigits (by simp)
    cases hvalue
  · rfl

theorem dropMark_append
    {mark : List Char}
    (hmark : mark ∈ marks)
    (hdigits : chars.map Char.toLower = digits bytes) :
    dropMark (mark ++ chars) = chars := by
  simp only [marks, List.mem_cons, List.not_mem_nil, or_false] at hmark
  rcases hmark with rfl | rfl | rfl
  · exact dropMark_of_digits hdigits
  · rfl
  · rfl

end Digits
end Hex

/-- Whether a text is an address with blanks around it: its forty digits, in either case,
behind one of some marks. -/
def Address.IsWrittenIn (owner : Address) (text : String) (marks : List (List Char)) : Prop :=
  ∃ before mark digits after, text.toList = before ++ ((mark ++ digits) ++ after) ∧
    (∀ c ∈ before, Text.isBlank c = true) ∧ (∀ c ∈ after, Text.isBlank c = true) ∧
    mark ∈ marks ∧ digits.length = 40 ∧ digits.map Char.toLower = Hex.digits owner.toList

theorem Address.IsWrittenIn.exists_trimChars
    {owner : Address} {text : String} {marks : List (List Char)}
    (hwritten : owner.IsWrittenIn text marks)
    (hmarks : marks ⊆ Hex.marks) :
    ∃ mark ∈ marks, ∃ digits, Text.trimChars text.toList = mark ++ digits ∧
      digits.map Char.toLower = Hex.digits owner.toList := by
  obtain ⟨before, mark, digits, after, htext, hbefore, hafter, hmark, -, hdigits⟩ := hwritten
  have hplain : ∀ c ∈ mark ++ digits, Text.isBlank c = false := by
    intro c hmember
    rcases List.mem_append.mp hmember with hleft | hright
    · exact Hex.isBlank_of_mem_mark (hmarks hmark) hleft
    · exact Hex.isBlank_of_mem_digits hdigits hright
  refine ⟨mark, hmark, digits, ?_, hdigits⟩
  rw [htext, Text.trimChars_of_blanks_around hbefore hplain hafter]

theorem Hex.denotes_trim_iff
    {text : String} {owner : Address} :
    Hex.Denotes (Text.trim text) owner.toList ↔ owner.IsWrittenIn text Hex.marks := by
  unfold Hex.Denotes Text.trim
  rw [String.toList_ofList]
  constructor
  · intro hdigits
    obtain ⟨before, after, htext, hbefore, hafter⟩ :=
      Text.exists_blanks_around_trimChars text.toList
    obtain ⟨mark, hmark, hchars⟩ := Hex.exists_mark (Text.trimChars text.toList)
    refine ⟨before, mark, _, after, ?_, hbefore, hafter, hmark, ?_, hdigits⟩
    · rw [← hchars]
      exact htext
    · have hlength := congrArg List.length hdigits
      rwa [List.length_map, Hex.length_digits, owner.length_toList] at hlength
  · intro hwritten
    obtain ⟨mark, hmark, digits, htrim, hdigits⟩ :=
      hwritten.exists_trimChars (List.Subset.refl Hex.marks)
    rw [htrim, Hex.dropMark_append hmark hdigits]
    exact hdigits

theorem ContentRecord.owner?_eq_some_iff_isWritten
    {record : ContentRecord} {owner : Address} :
    record.owner? = some owner ↔ owner.IsWrittenIn record.ownerAddress Hex.marks := by
  rw [owner?_eq_some_iff, Hex.denotes_trim_iff]

/-! ## Conditions in order -/

/-- The first of some conditions that fails stands at a place: those before it hold. -/
inductive FailsFirstAt : List Prop → Nat → Prop where
  | here {condition : Prop} {others : List Prop} :
      ¬ condition → FailsFirstAt (condition :: others) 0
  | later {condition : Prop} {others : List Prop} {place : Nat} :
      condition → FailsFirstAt others place → FailsFirstAt (condition :: others) (place + 1)

namespace FailsFirstAt

variable {conditions : List Prop} {place other : Nat}

theorem unique
    (hplace : FailsFirstAt conditions place)
    (hother : FailsFirstAt conditions other) :
    place = other := by
  induction hplace generalizing other with
  | here hfails =>
      cases hother with
      | here => rfl
      | later hholds => exact absurd hholds hfails
  | later hholds hlater ih =>
      cases hother with
      | here hfails => exact absurd hholds hfails
      | later _ hother => rw [ih hother]

theorem not_forall
    (hplace : FailsFirstAt conditions place) :
    ¬ ∀ condition ∈ conditions, condition := by
  intro hall
  induction hplace with
  | here hfails => exact hfails (hall _ List.mem_cons_self)
  | later hholds hlater ih => exact ih (List.forall_mem_cons.mp hall).2

end FailsFirstAt

/-- Whether a call is made with an address and a text as its first two arguments. -/
def DecodedCall.MintsTo (call : DecodedCall) (recipient : Address) (metadata : String) : Prop :=
  ∃ others, call.arguments.map Argument.value = .address recipient :: .string metadata :: others

section Conditions

variable (call : DecodedCall) (record : ContentRecord) (mintFunction : String)

/-- What makes a call the mint of a record, in the order in which it is checked. -/
def mintConditions : List Prop :=
  [call.name = mintFunction,
    ∃ recipient metadata, call.MintsTo recipient metadata,
    ∃ owner : Address, owner.IsWrittenIn record.ownerAddress Hex.marks,
    ∃ recipient metadata, call.MintsTo recipient metadata ∧
      recipient.IsWrittenIn record.ownerAddress Hex.marks,
    ∃ reference, record.metadataRef = some reference,
    ∃ recipient metadata, call.MintsTo recipient metadata ∧
      record.metadataRef = some metadata]

namespace MintMismatch

/-- The place of the condition that a mismatch says has failed. -/
def place : MintMismatch → Nat
  | .wrongFunction _ _ => 0
  | .unexpectedArguments _ => 1
  | .invalidOwner _ => 2
  | .wrongRecipient _ _ => 3
  | .missingMetadata => 4
  | .wrongMetadata _ _ => 5

/-- Whether a mismatch tells what was expected and what was found. -/
def Reports : MintMismatch → Prop
  | .wrongFunction expected found => expected = mintFunction ∧ found = call.name
  | .unexpectedArguments signature => signature = call.signature
  | .invalidOwner owner => owner = record.ownerAddress
  | .wrongRecipient expected found =>
    expected.IsWrittenIn record.ownerAddress Hex.marks ∧
      ∃ metadata, call.MintsTo found metadata
  | .missingMetadata => True
  | .wrongMetadata expected found =>
    record.metadataRef = some expected ∧ ∃ recipient, call.MintsTo recipient found

end MintMismatch
end Conditions

section Mints

variable {call : DecodedCall} {record : ContentRecord} {mintFunction : String}
  {recipient : Address} {metadata : String}

theorem DecodedCall.mintArguments?_eq_some_iff_mintsTo :
    call.mintArguments? = some (recipient, metadata) ↔ call.MintsTo recipient metadata :=
  mintArguments?_eq_some_iff

theorem checkMint_eq_ok_iff_mintsTo :
    checkMint call record mintFunction = .ok () ↔
      call.name = mintFunction ∧ ∃ recipient metadata, call.MintsTo recipient metadata ∧
        recipient.IsWrittenIn record.ownerAddress Hex.marks ∧
        record.metadataRef = some metadata := by
  simp only [checkMint_eq_ok_iff, DecodedCall.mintArguments?_eq_some_iff_mintsTo,
    ContentRecord.owner?_eq_some_iff_isWritten]

theorem forall_mintConditions_of_ok
    (hok : checkMint call record mintFunction = .ok ()) :
    ∀ condition ∈ mintConditions call record mintFunction, condition := by
  obtain ⟨hname, recipient, metadata, hmints, hwritten, hreference⟩ :=
    checkMint_eq_ok_iff_mintsTo.mp hok
  simp only [mintConditions, List.forall_mem_cons, List.not_mem_nil, false_implies,
    implies_true, and_true]
  exact ⟨hname, ⟨recipient, metadata, hmints⟩, ⟨recipient, hwritten⟩,
    ⟨recipient, metadata, hmints, hwritten⟩, ⟨metadata, hreference⟩,
    recipient, metadata, hmints, hreference⟩

/-- A mismatch that is reported is about the first condition that fails. -/
theorem failsFirstAt_of_error
    {mismatch : MintMismatch}
    (herror : checkMint call record mintFunction = .error mismatch) :
    FailsFirstAt (mintConditions call record mintFunction) mismatch.place ∧
      mismatch.Reports call record mintFunction := by
  unfold mintConditions
  simp only [← DecodedCall.mintArguments?_eq_some_iff_mintsTo,
    ← ContentRecord.owner?_eq_some_iff_isWritten]
  unfold checkMint at herror
  -- The conditions are gone through in order; each is either the one that fails, or it holds
  -- and the check goes on to the next.
  by_cases hname : call.name = mintFunction
  swap
  · rw [if_pos hname] at herror
    cases herror
    exact ⟨.here hname, rfl, rfl⟩
  rw [if_neg (by simpa using hname)] at herror
  rcases Option.eq_none_or_eq_some call.mintArguments? with hnone | ⟨found, harguments⟩
  · simp only [hnone] at herror
    cases herror
    exact ⟨.later hname (.here (by simp [hnone])), rfl⟩
  obtain ⟨recipient, metadata⟩ := found
  have hmints := DecodedCall.mintArguments?_eq_some_iff_mintsTo.mp harguments
  rcases Option.eq_none_or_eq_some record.owner? with hnone | ⟨owner, howner⟩
  · simp only [harguments, hnone] at herror
    cases herror
    exact ⟨.later hname (.later ⟨_, _, harguments⟩ (.here (by simp [hnone]))), rfl⟩
  have hwritten := ContentRecord.owner?_eq_some_iff_isWritten.mp howner
  simp only [harguments, howner] at herror
  by_cases hsame : recipient = owner
  swap
  · rw [if_pos hsame] at herror
    cases herror
    have hother : ¬ ∃ first second, call.mintArguments? = some (first, second) ∧
        record.owner? = some first := by
      simpa [harguments, howner] using Ne.symm hsame
    exact ⟨.later hname (.later ⟨_, _, harguments⟩ (.later ⟨_, howner⟩ (.here hother))),
      hwritten, metadata, hmints⟩
  rw [if_neg (by simpa using hsame)] at herror
  subst hsame
  rcases Option.eq_none_or_eq_some record.metadataRef with hnone | ⟨reference, hreference⟩
  · simp only [hnone] at herror
    cases herror
    exact ⟨.later hname (.later ⟨_, _, harguments⟩ (.later ⟨_, howner⟩
      (.later ⟨_, _, harguments, howner⟩ (.here (by simp [hnone]))))), trivial⟩
  simp only [hreference] at herror
  by_cases htext : metadata = reference
  · rw [if_neg (by simpa using htext)] at herror
    cases herror
  · rw [if_pos htext] at herror
    cases herror
    have hother : ¬ ∃ first second, call.mintArguments? = some (first, second) ∧
        record.metadataRef = some second := by
      simpa [harguments, hreference] using htext
    exact ⟨.later hname (.later ⟨_, _, harguments⟩ (.later ⟨_, howner⟩
      (.later ⟨_, _, harguments, howner⟩ (.later ⟨_, hreference⟩ (.here hother))))),
      hreference, recipient, hmints⟩

theorem DecodedCall.MintsTo.unique
    {first : Address} {second : String}
    (hmints : call.MintsTo recipient metadata)
    (hother : call.MintsTo first second) :
    recipient = first ∧ metadata = second := by
  rw [← mintArguments?_eq_some_iff_mintsTo] at hmints hother
  rw [hmints] at hother
  simpa using hother

theorem Address.IsWrittenIn.unique
    {owner other : Address} {text : String}
    (hwritten : owner.IsWrittenIn text Hex.marks)
    (hother : other.IsWrittenIn text Hex.marks) :
    owner = other := by
  rw [← Hex.denotes_trim_iff, ← Octets.parse_eq_ok_iff] at hwritten hother
  rw [hwritten] at hother
  exact Except.ok.inj hother

/-- Two mismatches at one place that both tell what was found are the same. -/
theorem MintMismatch.eq_of_reports
    {mismatch other : MintMismatch}
    (hplace : mismatch.place = other.place)
    (hreports : mismatch.Reports call record mintFunction)
    (hother : other.Reports call record mintFunction) :
    mismatch = other := by
  cases mismatch with
  | wrongFunction expected found =>
      cases other <;> cases hplace
      rw [hreports.1, hreports.2, hother.1, hother.2]
  | unexpectedArguments signature =>
      cases other <;> cases hplace
      exact congrArg _ (Eq.trans hreports (Eq.symm hother))
  | invalidOwner owner =>
      cases other <;> cases hplace
      exact congrArg _ (Eq.trans hreports (Eq.symm hother))
  | wrongRecipient expected found =>
      cases other <;> cases hplace
      obtain ⟨metadata, hmints⟩ := hreports.2
      obtain ⟨second, hsecond⟩ := hother.2
      rw [hreports.1.unique hother.1, (hmints.unique hsecond).1]
  | missingMetadata =>
      cases other <;> cases hplace
      rfl
  | wrongMetadata expected found =>
      cases other <;> cases hplace
      obtain ⟨recipient, hmints⟩ := hreports.2
      obtain ⟨first, hfirst⟩ := hother.2
      have hexpected := hreports.1.symm.trans hother.1
      rw [Option.some.inj hexpected, (hmints.unique hfirst).2]

theorem checkMint_eq_error_iff
    {mismatch : MintMismatch} :
    checkMint call record mintFunction = .error mismatch ↔
      FailsFirstAt (mintConditions call record mintFunction) mismatch.place ∧
        mismatch.Reports call record mintFunction := by
  constructor
  · exact failsFirstAt_of_error
  · intro hmismatch
    obtain ⟨hfails, hreports⟩ := hmismatch
    cases hcheck : checkMint call record mintFunction with
    | ok _ => exact absurd (forall_mintConditions_of_ok hcheck) hfails.not_forall
    | error found =>
        have hfound := failsFirstAt_of_error hcheck
        rw [MintMismatch.eq_of_reports (hfound.1.unique hfails) hfound.2 hreports]

/-! ## What the outcome does not depend on -/

theorem checkMint_of_other_text
    {text : String} {owner : Address}
    (hwritten : owner.IsWrittenIn record.ownerAddress Hex.marks)
    (htext : owner.IsWrittenIn text Hex.marks) :
    checkMint call { record with ownerAddress := text } mintFunction =
      checkMint call record mintFunction := by
  have howner : record.owner? = some owner :=
    ContentRecord.owner?_eq_some_iff_isWritten.mpr hwritten
  have hother : ({ record with ownerAddress := text } : ContentRecord).owner? = some owner :=
    ContentRecord.owner?_eq_some_iff_isWritten.mpr htext
  simp only [checkMint, howner, hother]

theorem checkMint_of_other_arguments
    {first second : Argument} {rest : List Argument}
    (harguments : call.arguments = first :: second :: rest)
    (others : List Argument) :
    checkMint { call with arguments := first :: second :: others } record mintFunction =
      checkMint call record mintFunction := by
  have hmint :
      ({ call with arguments := first :: second :: others } : DecodedCall).mintArguments? =
        call.mintArguments? := by
    simp only [DecodedCall.mintArguments?, harguments]
  simp only [checkMint, hmint]

end Mints

/-- A call proves the mint of a record exactly if all conditions hold, and what is reported
otherwise is the first that fails.  The record's owner may be written in any way that is an
address, and further arguments do not matter. -/
theorem checkMint_decides_conditions
    (call : DecodedCall) (record : ContentRecord) (mintFunction : String) :
    (checkMint call record mintFunction = .ok () ↔
        call.name = mintFunction ∧ ∃ recipient metadata, call.MintsTo recipient metadata ∧
          recipient.IsWrittenIn record.ownerAddress Hex.marks ∧
          record.metadataRef = some metadata) ∧
      (∀ mismatch, checkMint call record mintFunction = .error mismatch ↔
        FailsFirstAt (mintConditions call record mintFunction) mismatch.place ∧
          mismatch.Reports call record mintFunction) ∧
      (∀ (owner : Address) (text : String), owner.IsWrittenIn record.ownerAddress Hex.marks →
        owner.IsWrittenIn text Hex.marks →
          checkMint call { record with ownerAddress := text } mintFunction =
            checkMint call record mintFunction) ∧
      ∀ first second rest others, call.arguments = first :: second :: rest →
        checkMint { call with arguments := first :: second :: others } record mintFunction =
          checkMint call record mintFunction := by
  refine ⟨checkMint_eq_ok_iff_mintsTo, fun mismatch => checkMint_eq_error_iff, ?_, ?_⟩
  · intro owner text hwritten htext
    exact checkMint_of_other_text hwritten htext
  · intro first second rest others harguments
    exact checkMint_of_other_arguments harguments others

/-! A mint for an owner whose address stands behind an upper-case mark. -/

def upperMarkRecord : ContentRecord where
  id := 1
  ownerAddress := "0X00000000000000000000000000000000000000aa"
  metadataRef := some "ipfs://meta"
  txHash := some "0x01"
  confirmed := false

def upperMarkCall : DecodedCall where
  name := "mintNFT"
  signature := "mintNFT(address,string)"
  arguments :=
    [⟨"address", "recipient", .address (Octets.ofNat 20 0xAA)⟩,
      ⟨"string", "tokenURI", .string "ipfs://meta"⟩]

theorem checkMint_accepts_upper_mark :
    checkMint upperMarkCall upperMarkRecord "mintNFT" = .ok () ∧
      ¬ (upperMarkCall.name = "mintNFT" ∧
        ∃ recipient metadata, upperMarkCall.MintsTo recipient metadata ∧
          recipient.IsWrittenIn upperMarkRecord.ownerAddress [[], ['0', 'x']] ∧
          upperMarkRecord.metadataRef = some metadata) := by
  constructor
  · have howner : upperMarkRecord.owner? = some (Octets.ofNat 20 0xAA) := by
      cbv
    exact checkMint_eq_ok_iff.mpr ⟨rfl, _, "ipfs://meta", rfl, howner, rfl⟩
  · intro hlower
    obtain ⟨-, recipient, metadata, -, hwritten, -⟩ := hlower
    obtain ⟨mark, hmark, digits, htrim, hdigits⟩ :=
      hwritten.exists_trimChars (List.cons_subset_cons _ (List.cons_subset_cons _
        (List.nil_subset _)))
    have hchars :
        Text.trimChars upperMarkRecord.ownerAddress.toList =
          '0' :: 'X' :: upperMarkRecord.ownerAddress.toList.drop 2 := by
      decide
    rw [hchars] at htrim
    simp only [List.mem_cons, List.not_mem_nil, or_false] at hmark
    rcases hmark with rfl | rfl
    · -- Without a mark the second character would be a digit.
      have hmember : 'X' ∈ digits := by
        rw [List.nil_append] at htrim
        rw [← htrim]
        exact List.mem_cons_of_mem _ List.mem_cons_self
      obtain ⟨value, -, hvalue⟩ := Hex.exists_digit_of_mem hdigits hmember
      cases hvalue
    · simp at htrim

end MintWatch
