import Mathlib
import MintWatch.Proofs.Abi.EncodedSize
import MintWatch.Proofs.Abi.Walks
import MintWatch.Proofs.Bytes.Utf8Text
import MintWatch.Proofs.Interface.Selectors
/-!
# Reading back what was encoded

The reader gives back the values of an encoding, and every word it takes on the way is
canonical, so the check of words lets the encoding pass.  The statement that carries the
induction speaks of a part standing in a frame: in place at a position, or behind an
offset that is written there.  What else the frame holds does not matter, which is why
the same statement serves nested lists, whose frames reach to the end of the data.
-/

namespace MintWatch
namespace Abi

/-! ## Prefixes of bytes from a position on -/

theorem prefix_drop_of_append
    {front back data : Bytes} {position : Nat}
    (hstart : front ++ back <+: data.drop position) :
    front <+: data.drop position ∧ back <+: data.drop (position + front.length) := by
  obtain ⟨rest, hrest⟩ := hstart
  constructor
  · exact ⟨back ++ rest, by rw [← hrest, List.append_assoc]⟩
  · refine ⟨rest, ?_⟩
    rw [← List.drop_drop, ← hrest, List.append_assoc, List.drop_left]

theorem le_length_of_start_drop
    {bytes data : Bytes} {position : Nat}
    (hstart : bytes <+: data.drop position)
    (hsome : 0 < bytes.length) :
    position + bytes.length ≤ data.length := by
  have hle := hstart.length_le
  rw [List.length_drop] at hle
  omega

theorem take_of_start
    {bytes data : Bytes} {count : Nat}
    (hstart : bytes <+: data)
    (hlength : bytes.length = count) :
    data.take count = bytes := by
  obtain ⟨rest, rfl⟩ := hstart
  rw [← hlength, List.take_left]

/-! ## Frames that hold what is looked for -/

namespace Frame

variable {frame : Frame} {position : Nat}

theorem word_of_start
    {bytes : Bytes}
    (hstart : bytes <+: frame.data.drop position)
    (hlength : bytes.length = 32) :
    frame.word position = .ok ⟨bytes, hlength⟩ := by
  rw [word_eq_ok_iff]
  exact (take_of_start hstart hlength).symm

theorem number_of_start
    {number : Nat}
    (hstart : Part.word number <+: frame.data.drop position)
    (hlt : number < UInt64.size) :
    frame.number position = .ok number := by
  have hword := word_of_start hstart (Part.length_word number)
  generalize hgiven : (⟨Part.word number, Part.length_word number⟩ : Word) = word at hword
  have hbytes : word.toList = Part.word number := by
    rw [← hgiven]
  have hsmall : number < 256 ^ 32 :=
    hlt.trans (by norm_num [UInt64.size])
  exact number_eq_ok_iff.mpr ⟨word, hword, toNat_of_toList_eq_word hbytes hsmall, hlt⟩

theorem openAt_of_le
    (hdepth : frame.depth < depthLimit)
    (hle : position ≤ frame.data.length) :
    frame.openAt position = .ok ⟨frame.data.drop position, frame.depth + 1⟩ :=
  openAt_eq_ok_iff.mpr ⟨hdepth, hle, rfl⟩

theorem follow_of_start
    {offset : Nat}
    (hstart : Part.word offset <+: frame.data.drop position)
    (hle : offset ≤ frame.data.length)
    (hsize : frame.data.length < UInt64.size)
    (hdepth : frame.depth < depthLimit) :
    frame.follow position = .ok ⟨frame.data.drop offset, frame.depth + 1⟩ :=
  follow_eq_ok_iff.mpr
    ⟨offset, number_of_start hstart (by omega), openAt_of_le hdepth hle⟩

theorem contents_of_start
    {bytes : Bytes}
    (hstart : Part.word bytes.length ++ padToWords bytes <+: frame.data)
    (hsize : frame.data.length < UInt64.size) :
    frame.contents = .ok bytes := by
  have hparts : _ ∧ _ := prefix_drop_of_append (show _ <+: frame.data.drop 0 from hstart)
  rw [Part.length_word, Nat.zero_add] at hparts
  have hbytes : bytes <+: frame.data.drop 32 :=
    (List.prefix_append bytes _).trans hparts.2
  have hle := hbytes.length_le
  have hdrop : (frame.data.drop 32).length ≤ frame.data.length := by
    rw [List.length_drop]
    omega
  rw [contents_eq_ok_iff]
  exact ⟨bytes.length, number_of_start hparts.1 (by omega), hle,
    (take_of_start hbytes rfl).symm⟩

end Frame

/-! ## Parts that stand in data -/

/-- A part stands at a position; if it goes behind the heads, then at an offset there. -/
def Part.StandsAt (data : Bytes) (position offset : Nat) : Part → Prop
  | .inPlace bytes => bytes <+: data.drop position
  | .behind bytes => word offset <+: data.drop position ∧ bytes <+: data.drop offset

/-- The heads of parts stand at a position, and what is behind them at an offset. -/
def Part.StandAt (data : Bytes) (position offset : Nat) (parts : List Part) : Prop :=
  heads offset parts <+: data.drop position ∧ tails parts <+: data.drop offset

theorem Part.StandAt.cons
    {data : Bytes} {position offset : Nat} {part : Part} {rest : List Part}
    (hstand : Part.StandAt data position offset (part :: rest)) :
    part.StandsAt data position offset ∧
      Part.StandAt data (position + part.headSize) (offset + part.tailSize) rest := by
  obtain ⟨hheads, htails⟩ := hstand
  cases part with
  | inPlace bytes =>
      have hsplit := prefix_drop_of_append hheads
      exact ⟨hsplit.1, hsplit.2, htails⟩
  | behind bytes =>
      have hsplit := prefix_drop_of_append hheads
      have hsplitTails := prefix_drop_of_append htails
      rw [length_word] at hsplit
      exact ⟨⟨hsplit.1, hsplitTails.1⟩, hsplit.2, hsplitTails.2⟩

theorem Part.standAt_of_join
    {data : Bytes} {parts : List Part}
    (hstart : join parts <+: data) :
    Part.StandAt data 0 (headSizes parts) parts := by
  have hsplit := prefix_drop_of_append (show join parts <+: data.drop 0 from hstart)
  rw [length_heads, Nat.zero_add] at hsplit
  exact hsplit

namespace Ty

theorem length_encode_pos
    {ty : Ty} {value : Value}
    (htyped : ty.HasValue value)
    (hfilled : ty.hasEmptyTuple = false) :
    0 < value.encode.length := by
  have hleast := le_length_encode ty value htyped
  have hpos := leastWords_pos ty hfilled
  omega

/-! ## Reading back -/

section ReadingBack

variable {frame : Frame} {position offset : Nat}

/-- The frame that the contents of a value are read in starts with them. -/
theorem exists_frame_of_standsAt
    {ty : Ty} {value : Value}
    (htyped : ty.HasValue value)
    (hfilled : ty.hasEmptyTuple = false)
    (hsize : frame.data.length < UInt64.size)
    (hdepth : frame.depth < Frame.depthLimit)
    (hstands : value.part.StandsAt frame.data position offset) :
    ∃ inner,
      (if ty.isDynamic then frame.follow position else frame.openAt position) = .ok inner ∧
        inner.depth = frame.depth + 1 ∧ inner.data.length ≤ frame.data.length ∧
        value.encode <+: inner.data := by
  have hpos := length_encode_pos htyped hfilled
  unfold Value.part at hstands
  rw [isDynamic_eq_of_hasValue ty value htyped] at hstands
  by_cases hdynamic : ty.isDynamic = true
  · rw [if_pos hdynamic] at hstands ⊢
    obtain ⟨hword, hcontents⟩ := hstands
    have hle := le_length_of_start_drop hcontents hpos
    refine ⟨_, Frame.follow_of_start hword (by omega) hsize hdepth, rfl, ?_, hcontents⟩
    simp
  · rw [if_neg hdynamic] at hstands ⊢
    have hle := le_length_of_start_drop hstands hpos
    refine ⟨_, Frame.openAt_of_le hdepth (by omega), rfl, ?_, hstands⟩
    simp

/-- A value that stands in a frame is read, and every word taken for it is canonical. -/
def ReadsBack (ty : Ty) : Prop :=
  ∀ value, ty.HasValue value → ty.hasEmptyTuple = false →
    ∀ frame position offset, frame.data.length < UInt64.size →
      frame.depth + ty.levels ≤ Frame.depthLimit →
      value.part.StandsAt frame.data position offset →
      ∃ leaves, trace ty frame position = .ok (value, leaves) ∧
        ∀ leaf ∈ leaves, isCanonical leaf.type leaf.word = true

theorem traceItems_readsBack
    {types : List Ty} {values : List Value}
    (hreads : ∀ ty ∈ types, ty.ReadsBack)
    (htyped : HaveValues types values)
    (hfilled : someEmptyTuple types = false)
    (hsize : frame.data.length < UInt64.size)
    (hdepth : frame.depth + deepest types ≤ Frame.depthLimit)
    (hstand : Part.StandAt frame.data position offset (Value.parts values)) :
    ∃ leaves, traceItems types frame position = .ok (values, leaves) ∧
      ∀ leaf ∈ leaves, isCanonical leaf.type leaf.word = true := by
  induction types generalizing position offset values with
  | nil =>
      obtain rfl : values = [] := htyped
      exact ⟨[], rfl, by simp⟩
  | cons ty rest ih =>
      obtain ⟨first, others, rfl, hfirst, hothers⟩ := htyped
      rw [List.forall_mem_cons] at hreads
      simp only [someEmptyTuple, Bool.or_eq_false_iff] at hfilled
      simp only [deepest] at hdepth
      rw [Value.parts_cons] at hstand
      obtain ⟨hfirstStands, hothersStand⟩ := hstand.cons
      rw [headSize_part hfirst] at hothersStand
      obtain ⟨firstLeaves, htrace, hcanonical⟩ :=
        hreads.1 first hfirst hfilled.1 frame position offset hsize (by omega) hfirstStands
      obtain ⟨otherLeaves, hotherTrace, hotherCanonical⟩ :=
        ih hreads.2 hothers hfilled.2 (by omega) hothersStand
      refine ⟨firstLeaves ++ otherLeaves, ?_, ?_⟩
      · exact traceItems_cons_eq_ok_iff.mpr
          ⟨first, firstLeaves, others, otherLeaves, htrace, hotherTrace, rfl, rfl⟩
      · exact List.forall_mem_append.mpr ⟨hcanonical, hotherCanonical⟩

theorem readsBack_of_isWord
    {ty : Ty}
    (hword : ty.isWord = true) :
    ty.ReadsBack := by
  intro value htyped _ frame position offset _ _ hstands
  have hlength := length_encode_of_isWord hword htyped
  unfold Value.part at hstands
  rw [isDynamic_eq_of_hasValue ty value htyped, isDynamic_of_isWord hword] at hstands
  have hread := Frame.word_of_start hstands hlength
  refine ⟨[⟨ty, ⟨value.encode, hlength⟩⟩], ?_, ?_⟩
  · rw [trace_word_eq_ok_iff hword]
    exact ⟨_, hread, (wordValue_of_encode hword htyped rfl).symm, rfl⟩
  · simp only [List.mem_singleton, forall_eq]
    exact isCanonical_of_encode hword htyped rfl

theorem readsBack
    (ty : Ty) :
    ty.ReadsBack := by
  induction ty using layoutInduction with
  | word ty hword => exact readsBack_of_isWord hword
  | bytes =>
      intro value htyped hfilled frame position offset hsize hdepth hstands
      simp only [levels] at hdepth
      obtain ⟨inner, hfollow, -, hshorter, hcontents⟩ :=
        exists_frame_of_standsAt htyped hfilled hsize (by omega) hstands
      obtain ⟨content, rfl⟩ := htyped
      have hread := Frame.contents_of_start hcontents (by omega)
      exact ⟨[], trace_bytes_eq_ok_iff.mpr ⟨inner, content, hfollow, hread, rfl, rfl⟩, by simp⟩
  | string =>
      intro value htyped hfilled frame position offset hsize hdepth hstands
      simp only [levels] at hdepth
      obtain ⟨inner, hfollow, -, hshorter, hcontents⟩ :=
        exists_frame_of_standsAt htyped hfilled hsize (by omega) hstands
      obtain ⟨text, rfl⟩ := htyped
      have hread := Frame.contents_of_start hcontents (by omega)
      refine ⟨[], trace_string_eq_ok_iff.mpr ⟨inner, _, hfollow, hread, ?_, rfl⟩, by simp⟩
      rw [Utf8.decodeLossy_encode]
  | array item ih =>
      intro value htyped hfilled frame position offset hsize hdepth hstands
      simp only [levels] at hdepth
      obtain ⟨inner, hfollow, hlevel, hshorter, hcontents⟩ :=
        exists_frame_of_standsAt htyped hfilled hsize (by omega) hstands
      obtain ⟨values, rfl, hvalues⟩ := htyped
      simp only [hasEmptyTuple] at hfilled
      have hall := (haveValues_replicate item values.length values).mpr ⟨rfl, hvalues⟩
      have hsplit := prefix_drop_of_append (show _ <+: inner.data.drop 0 from hcontents)
      rw [Part.length_word, Nat.zero_add] at hsplit
      obtain ⟨hlengthWord, hitems⟩ := hsplit
      -- Every item takes at least a word, so a list that is there has no more items than
      -- the data has words.
      have hleast : 32 * (values.length * item.leastWords) ≤ (inner.data.drop 32).length := by
        have hjoin := le_length_join (fun ty _ => le_length_encode ty) hall
        rw [leastWordsOf_replicate] at hjoin
        exact hjoin.trans hitems.length_le
      have hcount : values.length ≤ values.length * item.leastWords :=
        Nat.le_mul_of_pos_right _ (leastWords_pos item hfilled)
      have hdrop : (inner.data.drop 32).length = inner.data.length - 32 := List.length_drop
      have hnumber := Frame.number_of_start hlengthWord (by omega)
      by_cases hnone : values.length = 0
      · obtain rfl := List.length_eq_zero_iff.mp hnone
        refine ⟨[], trace_array_eq_ok_iff.mpr ⟨inner, 0, hfollow, hnumber, ?_⟩, by simp⟩
        exact Or.inl ⟨Or.inl rfl, rfl, rfl⟩
      · have hwords : item.leastWords ≠ 0 := (leastWords_pos item hfilled).ne'
        have hopen : inner.openAt 32 = .ok ⟨inner.data.drop 32, inner.depth + 1⟩ :=
          Frame.openAt_of_le (by omega) (by omega)
        generalize hframe : (⟨inner.data.drop 32, inner.depth + 1⟩ : Frame) = items at hopen
        have hdata : items.data = inner.data.drop 32 := by
          rw [← hframe]
        have hlevelItems : items.depth = inner.depth + 1 := by
          rw [← hframe]
        rw [← hdata] at hitems hleast hdrop
        have hdeepest := deepest_replicate_le item values.length
        obtain ⟨leaves, hread, hcanonical⟩ :=
          traceItems_readsBack (fun ty hmember => List.eq_of_mem_replicate hmember ▸ ih) hall
            (someEmptyTuple_replicate values.length hfilled) (by omega) (by omega)
            (Part.standAt_of_join hitems)
        refine ⟨leaves, trace_array_eq_ok_iff.mpr
          ⟨inner, values.length, hfollow, hnumber, ?_⟩, hcanonical⟩
        refine Or.inr ⟨by simp [hnone, hwords], items, values, hopen, ?_, hread, rfl⟩
        unfold Frame.wordCount
        omega
  | fixedArray item count ih =>
      intro value htyped hfilled frame position offset hsize hdepth hstands
      simp only [levels] at hdepth
      obtain ⟨inner, hinner, hlevel, hshorter, hcontents⟩ :=
        exists_frame_of_standsAt htyped hfilled hsize (by omega) hstands
      obtain ⟨values, rfl, hvalues⟩ := htyped
      simp only [hasEmptyTuple] at hfilled
      have hall := (haveValues_replicate item count.val values).mpr hvalues
      have hdeepest := deepest_replicate_le item count.val
      obtain ⟨leaves, hread, hcanonical⟩ :=
        traceItems_readsBack (fun ty hmember => List.eq_of_mem_replicate hmember ▸ ih) hall
          (someEmptyTuple_replicate count.val hfilled) (by omega) (by omega)
          (Part.standAt_of_join hcontents)
      exact ⟨leaves, trace_fixedArray_eq_ok_iff.mpr ⟨inner, values, hinner, hread, rfl⟩,
        hcanonical⟩
  | tuple items ih =>
      intro value htyped hfilled frame position offset hsize hdepth hstands
      simp only [levels] at hdepth
      obtain ⟨inner, hinner, hlevel, hshorter, hcontents⟩ :=
        exists_frame_of_standsAt htyped hfilled hsize (by omega) hstands
      obtain ⟨values, rfl, hvalues⟩ := htyped
      simp only [hasEmptyTuple, Bool.or_eq_false_iff] at hfilled
      obtain ⟨leaves, hread, hcanonical⟩ :=
        traceItems_readsBack ih hvalues hfilled.2 (by omega) (by omega)
          (Part.standAt_of_join hcontents)
      exact ⟨leaves, trace_tuple_eq_ok_iff.mpr ⟨inner, values, hinner, hread, rfl⟩,
        hcanonical⟩

end ReadingBack

theorem isEmpty_eq_false
    (ty : Ty)
    (hfilled : ty.hasEmptyTuple = false) :
    ty.isEmpty = false := by
  induction ty using layoutInduction with
  | word ty hword => cases ty <;> simp_all [isWord, isEmpty]
  | bytes => rfl
  | string => rfl
  | array item ih => exact ih hfilled
  | fixedArray item count ih => exact ih hfilled
  | tuple items ih =>
      simp only [hasEmptyTuple, Bool.or_eq_false_iff] at hfilled
      cases items with
      | nil => simp at hfilled
      | cons ty rest =>
          have hrest := (someEmptyTuple_eq_false_iff _).mp hfilled.2
          have hfirst := ih ty List.mem_cons_self (hrest ty List.mem_cons_self)
          simp only [isEmpty, allEmpty, hfirst, Bool.false_and]

theorem readParams_encodeParams
    {types : List Ty} {values : List Value}
    (hsome : types ≠ [])
    (hfilled : someEmptyTuple types = false)
    (hdepth : deepest types ≤ Frame.depthLimit)
    (htyped : HaveValues types values)
    (hsize : (Value.encodeParams values).length < UInt64.size) :
    readParams types (Value.encodeParams values) = .ok values ∧
      checkParams types (Value.encodeParams values) = .ok () := by
  have hleast := le_length_join (fun ty _ => le_length_encode ty) htyped
  have hsized : allEmpty types = false := by
    obtain ⟨ty, rest, rfl⟩ := List.exists_cons_of_ne_nil hsome
    simp only [someEmptyTuple, Bool.or_eq_false_iff] at hfilled
    rw [allEmpty, isEmpty_eq_false ty hfilled.1, Bool.false_and]
  have hread :
      ∃ leaves, traceItems types ⟨Value.encodeParams values, 0⟩ 0 = .ok (values, leaves) ∧
        ∀ leaf ∈ leaves, isCanonical leaf.type leaf.word = true := by
    apply traceItems_readsBack (fun ty _ => readsBack ty) htyped hfilled hsize
    · simpa using hdepth
    · exact Part.standAt_of_join (List.prefix_refl _)
  obtain ⟨leaves, htrace, hcanonical⟩ := hread
  constructor
  · rw [readParams_eq_traceParams, traceParams, hsized, if_neg (by simp), if_neg ?_, htrace]
    · rfl
    · unfold Value.encodeParams
      omega
  · have hjudged := checkItems_judged (fun ty _ => checksWhatItReads ty)
      (Value.encodeParams values) 0 (fun _ => rfl) htrace
    exact hjudged.eq_ok hcanonical

end Ty
end Abi

/-! ## Calls -/

theorem decodeFunction_encodeParams
    {interface : Interface} {index : InterfaceIndex} {replaced : List IndexedFunction}
    {function : IndexedFunction} {values : List Abi.Value}
    (hbuild : InterfaceIndex.build interface = .ok (index, replaced))
    (hfunction : function ∈ index.functions)
    (hfilled : Abi.Ty.someEmptyTuple (function.inputs.map ResolvedParam.ty) = false)
    (hdepth : Abi.Ty.deepest (function.inputs.map ResolvedParam.ty) ≤ Abi.Frame.depthLimit)
    (htyped : Abi.Ty.HaveValues (function.inputs.map ResolvedParam.ty) values)
    (hsize : (Abi.Value.encodeParams values).length < UInt64.size) :
    ∃ arguments : List Argument,
      index.decodeFunction (function.selector.toList ++ Abi.Value.encodeParams values) =
          .ok ⟨function.name, function.signature, arguments⟩ ∧
        arguments.map Argument.value = values ∧
        arguments.map Argument.kind = function.inputs.map ResolvedParam.kind ∧
        ∀ (position : Nat) (param : ResolvedParam) (argument : Argument),
          function.inputs[position]? = some param → arguments[position]? = some argument →
          argument.name =
            if Text.isAllBlank param.name then "arg" ++ toString position else param.name := by
  have hlength : values.length = function.inputs.length := by
    simpa using Abi.Ty.haveValues_length htyped
  have hlookup := (InterfaceIndex.isKeyedBy_of_buildWith hbuild).lookup_selector hfunction
  have hvalues :
      decodeValues (function.inputs.map ResolvedParam.ty) (Abi.Value.encodeParams values) =
        .ok values := by
    rw [decodeValues_eq_ok_iff]
    by_cases hnone : function.inputs.map ResolvedParam.ty = []
    · rw [hnone] at htyped
      exact Or.inl ⟨hnone, htyped⟩
    · exact Or.inr ⟨hnone, Abi.Ty.readParams_encodeParams hnone hfilled hdepth htyped hsize⟩
  refine ⟨argumentsFrom 0 function.inputs values, ?_, map_value_argumentsFrom 0 hlength,
    map_kind_argumentsFrom 0 hlength, ?_⟩
  · rw [InterfaceIndex.decodeFunction_eq_ok_iff]
    have htake :
        (function.selector.toList ++ Abi.Value.encodeParams values).take 4 =
          function.selector.toList := by
      rw [List.take_append_of_le_length (by rw [function.selector.length_toList]),
        List.take_of_length_le (by rw [function.selector.length_toList])]
    have hdrop :
        (function.selector.toList ++ Abi.Value.encodeParams values).drop 4 =
          Abi.Value.encodeParams values := by
      rw [List.drop_append_of_le_length (by rw [function.selector.length_toList]),
        List.drop_of_length_le (by rw [function.selector.length_toList]), List.nil_append]
    refine ⟨function.selector, function, _, htake.symm, hlookup, ?_, rfl⟩
    rw [hdrop]
    exact decodeArguments_eq_ok_iff.mpr ⟨values, hvalues, hlength, rfl⟩
  · intro position param argument hparam hargument
    rw [name_of_getElem?_argumentsFrom hparam hargument, Nat.zero_add]

/-! A function with a nameless list of texts and a signed number. -/

def storeParams : List Param :=
  [.plain "" "string[]", .plain "level" "int8"]

def storeInputs : List ResolvedParam :=
  [⟨"", .array .string⟩, ⟨"level", .int .byte⟩]

def storeFunction : IndexedFunction :=
  ⟨Selector.ofSignature (signatureText "store" storeInputs), "store", storeInputs⟩

def storeValues : List Abi.Value :=
  [.array [.string "a", .string "bc"], .int (-3) 8]

theorem build_store :
    InterfaceIndex.build [.function "store" storeParams] =
      .ok (⟨[storeFunction], none⟩, []) :=
  InterfaceIndex.build_function rfl rfl

theorem decodeFunction_encodeParams_store :
    InterfaceIndex.build [.function "store" storeParams] =
        .ok (⟨[storeFunction], none⟩, []) ∧
      Abi.Ty.someEmptyTuple (storeInputs.map ResolvedParam.ty) = false ∧
      Abi.Ty.deepest (storeInputs.map ResolvedParam.ty) ≤ Abi.Frame.depthLimit ∧
      Abi.Ty.HaveValues (storeInputs.map ResolvedParam.ty) storeValues ∧
      (Abi.Value.encodeParams storeValues).length < UInt64.size ∧
      ∃ arguments : List Argument,
        (⟨[storeFunction], none⟩ : InterfaceIndex).decodeFunction
              (storeFunction.selector.toList ++ Abi.Value.encodeParams storeValues) =
            .ok ⟨"store", storeFunction.signature, arguments⟩ ∧
          arguments.map Argument.value = storeValues ∧
          arguments.map Argument.kind = ["string[]", "int8"] ∧
          ∀ argument, arguments[0]? = some argument → argument.name = "arg0" := by
  have hfilled : Abi.Ty.someEmptyTuple (storeInputs.map ResolvedParam.ty) = false := rfl
  have hdepth :
      Abi.Ty.deepest (storeInputs.map ResolvedParam.ty) ≤ Abi.Frame.depthLimit := by
    decide
  have htyped : Abi.Ty.HaveValues (storeInputs.map ResolvedParam.ty) storeValues := by
    refine ⟨_, _, rfl, ⟨_, rfl, ?_⟩, _, _, rfl, ⟨_, rfl, by decide, by decide⟩, rfl⟩
    simp [Abi.Ty.HasValue]
  have hsize : (Abi.Value.encodeParams storeValues).length < UInt64.size := by
    decide +kernel
  obtain ⟨arguments, hdecode, hvalues, hkinds, hnames⟩ :=
    decodeFunction_encodeParams build_store List.mem_cons_self hfilled hdepth htyped hsize
  refine ⟨build_store, hfilled, hdepth, htyped, hsize, arguments, hdecode, hvalues, hkinds, ?_⟩
  intro argument hargument
  have hname := hnames 0 ⟨"", .array .string⟩ argument rfl hargument
  have hblank : Text.isAllBlank "" = true := by decide
  have htext : "arg" ++ toString 0 = "arg0" := by decide
  rw [hname, if_pos hblank, htext]

end MintWatch
