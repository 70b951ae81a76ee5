import Mathlib
import MintWatch.Proofs.Abi.Placeholders
import MintWatch.Proofs.Abi.RoundTrip
/-!
# Finding the constructor's arguments

Where the bytecode is not known, the arguments of a constructor are looked for at the end
of the payload, in as many bytes as placeholders are encoded in.  That is their place
exactly if the texts among them take as many words as there are texts: the types fix
everything else, and a placeholder text takes one word.
-/

namespace MintWatch

section Detecting

variable {inputs : List ResolvedParam} {values : List Abi.Value}

theorem expectedSize_of_guessable
    (hguessable : Abi.Ty.someArrayOrFunction (inputs.map ResolvedParam.ty) = false)
    (hfits : ∀ part ∈ Abi.Ty.subtypesOf (inputs.map ResolvedParam.ty),
      part.isOversized = false) :
    expectedSize inputs =
      .ok (32 * (Abi.Ty.plainWordsOf (inputs.map ResolvedParam.ty) +
        Abi.Ty.textCountOf (inputs.map ResolvedParam.ty))) := by
  have heach := (Abi.Ty.someArrayOrFunction_eq_false_iff _).mp hguessable
  have hnone := (Abi.Ty.firstStop?_eq_firstUnguessable? hfits).trans
    (Abi.Ty.firstUnguessable?_eq_none_iff.mpr hguessable)
  obtain ⟨placeholders, hplaceholders, htyped, hone⟩ :=
    (Abi.Ty.builds_placeholders _).built hnone
  obtain ⟨hcount, hlength⟩ :=
    Abi.Ty.sizes_of_list (fun ty hmember => Abi.Ty.isSizedByTexts ty (heach ty hmember)) htyped
  unfold expectedSize
  rw [hplaceholders]
  simp only [hlength, Abi.textWords_eq_length hone, hcount]

theorem detectArguments_append_eq_ok_iff
    {expected : Nat}
    (code data : Bytes)
    (hexpected : expectedSize inputs = .ok expected) :
    detectArguments inputs (code ++ data) = .ok data ↔ data.length = expected := by
  unfold detectArguments
  rw [hexpected]
  simp only [List.length_append]
  split
  · rename_i hshort
    simp only [reduceCtorEq, false_iff]
    omega
  · rename_i hlong
    rw [Except.ok.injEq]
    constructor
    · intro hsection
      have hlength := congrArg List.length hsection
      rw [List.length_drop, List.length_append] at hlength
      omega
    · intro hlength
      rw [← hlength, Nat.add_sub_cancel, List.drop_left]

theorem detectArguments_encodeParams_iff
    (code : Bytes)
    (hguessable : Abi.Ty.someArrayOrFunction (inputs.map ResolvedParam.ty) = false)
    (htyped : Abi.Ty.HaveValues (inputs.map ResolvedParam.ty) values)
    (hheld : Abi.Value.areHeld values = true) :
    (Abi.Value.textsOf values).length = Abi.Ty.textCountOf (inputs.map ResolvedParam.ty) ∧
      (detectArguments inputs (code ++ Abi.Value.encodeParams values) =
          .ok (Abi.Value.encodeParams values) ↔
        Abi.textWords (Abi.Value.textsOf values) = (Abi.Value.textsOf values).length) := by
  have heach := (Abi.Ty.someArrayOrFunction_eq_false_iff _).mp hguessable
  obtain ⟨hcount, hlength⟩ :=
    Abi.Ty.sizes_of_list (fun ty hmember => Abi.Ty.isSizedByTexts ty (heach ty hmember)) htyped
  have hexpected := expectedSize_of_guessable hguessable (Abi.Ty.subtypesOf_fit htyped hheld)
  refine ⟨hcount, ?_⟩
  rw [detectArguments_append_eq_ok_iff code _ hexpected, hlength, hcount]
  omega

theorem argumentSection_bytecode
    (inputs : List ResolvedParam) (code data : Bytes) :
    argumentSection inputs (code ++ data) (some code) = .ok data := by
  simp [argumentSection]

theorem decodeArguments_encodeParams
    (hfilled : Abi.Ty.someEmptyTuple (inputs.map ResolvedParam.ty) = false)
    (hdepth : Abi.Ty.deepest (inputs.map ResolvedParam.ty) ≤ Abi.Frame.depthLimit)
    (htyped : Abi.Ty.HaveValues (inputs.map ResolvedParam.ty) values)
    (hsize : (Abi.Value.encodeParams values).length < UInt64.size) :
    decodeArguments inputs (Abi.Value.encodeParams values) =
      .ok (argumentsFrom 0 inputs values) := by
  have hlength : values.length = inputs.length := by
    simpa using Abi.Ty.haveValues_length htyped
  rw [decodeArguments_eq_ok_iff]
  refine ⟨values, ?_, hlength, rfl⟩
  rw [decodeValues_eq_ok_iff]
  by_cases hnone : inputs.map ResolvedParam.ty = []
  · rw [hnone] at htyped
    exact Or.inl ⟨hnone, htyped⟩
  · exact Or.inr ⟨hnone, Abi.Ty.readParams_encodeParams hnone hfilled hdepth htyped hsize⟩

namespace InterfaceIndex

theorem decodeConstructor_of_section
    {index : InterfaceIndex} {payload data : Bytes} {bytecode : Option Bytes}
    {arguments : List Argument}
    (hconstructor : index.constructor? = some inputs)
    (hsection : argumentSection inputs payload bytecode = .ok data)
    (harguments : decodeArguments inputs data = .ok arguments) :
    index.decodeConstructor payload bytecode =
      .ok ⟨constructorName, signatureText constructorName inputs, arguments⟩ :=
  decodeConstructor_eq_ok_iff.mpr ⟨inputs, data, arguments, hconstructor, hsection, harguments, rfl⟩

/-- The section that is chosen for values that can be held is their encoding exactly if the
texts take as many words as there are texts.  The arguments are then read back, if the
lengths of what is read fit 64 bits. -/
theorem decodeConstructor_detects_arguments
    {index : InterfaceIndex}
    (code : Bytes)
    (hconstructor : index.constructor? = some inputs)
    (hguessable : Abi.Ty.someArrayOrFunction (inputs.map ResolvedParam.ty) = false)
    (hfilled : Abi.Ty.someEmptyTuple (inputs.map ResolvedParam.ty) = false)
    (htyped : Abi.Ty.HaveValues (inputs.map ResolvedParam.ty) values)
    (hheld : Abi.Value.areHeld values = true) :
    let data := Abi.Value.encodeParams values
    let texts := Abi.Value.textsOf values
    let textCount := Abi.Ty.textCountOf (inputs.map ResolvedParam.ty)
    texts.length = textCount ∧
      (detectArguments inputs (code ++ data) = .ok data ↔
        (texts.map fun text => (text.length + 31) / 32).sum = textCount) ∧
      ((∀ text ∈ texts, 1 ≤ text.length ∧ text.length ≤ 32) →
        detectArguments inputs (code ++ data) = .ok data) ∧
      (textCount = 0 → detectArguments inputs (code ++ data) = .ok data) ∧
      (detectArguments inputs (code ++ data) = .ok data →
        Abi.Ty.deepest (inputs.map ResolvedParam.ty) ≤ Abi.Frame.depthLimit →
        data.length < UInt64.size →
          ∃ arguments, arguments.map Argument.value = values ∧
            index.decodeConstructor (code ++ data) none =
              .ok ⟨constructorName, signatureText constructorName inputs, arguments⟩ ∧
            index.decodeConstructor (code ++ data) (some code) =
              index.decodeConstructor (code ++ data) none) := by
  intro data texts textCount
  obtain ⟨hcount, hiff⟩ := detectArguments_encodeParams_iff code hguessable htyped hheld
  have hshort : (∀ text ∈ texts, 1 ≤ text.length ∧ text.length ≤ 32) →
      detectArguments inputs (code ++ data) = .ok data :=
    fun hone => hiff.mpr (Abi.textWords_eq_length hone)
  refine ⟨hcount, ?_, hshort, ?_, ?_⟩
  · rw [hcount] at hiff
    exact hiff
  · intro hnone
    have hempty : texts = [] := List.eq_nil_of_length_eq_zero (hcount.trans hnone)
    apply hshort
    simp [hempty]
  · intro hchosen hdepth hsize
    have hlength : values.length = inputs.length := by
      simpa using Abi.Ty.haveValues_length htyped
    have harguments := decodeArguments_encodeParams hfilled hdepth htyped hsize
    have hsection : argumentSection inputs (code ++ data) none = .ok data := hchosen
    have hdetected := decodeConstructor_of_section hconstructor hsection harguments
    have hgiven := decodeConstructor_of_section hconstructor
      (argumentSection_bytecode inputs code data) harguments
    exact ⟨_, map_value_argumentsFrom 0 hlength, hdetected, hgiven.trans hdetected.symm⟩

/-! A constructor with two byte strings, of which one is empty and the other needs two
words, so that together they take as many words as placeholders do. -/

def pagesInputs : List ResolvedParam :=
  [⟨"cap", .uint .full⟩, ⟨"pages", .tuple [.fixedArray .bytes ⟨2, by decide, by decide⟩, .bool]⟩]

def pagesIndex : InterfaceIndex :=
  ⟨[], some pagesInputs⟩

def pagesValues : List Abi.Value :=
  [.uint 7 256, .tuple [.fixedArray [.bytes [], .bytes (List.replicate 33 1)], .bool true]]

theorem decodeConstructor_detects_arguments_pages :
    pagesIndex.constructor? = some pagesInputs ∧
      Abi.Ty.someArrayOrFunction (pagesInputs.map ResolvedParam.ty) = false ∧
      Abi.Ty.someEmptyTuple (pagesInputs.map ResolvedParam.ty) = false ∧
      Abi.Ty.HaveValues (pagesInputs.map ResolvedParam.ty) pagesValues ∧
      Abi.Value.areHeld pagesValues = true ∧
      ∃ arguments, arguments.map Argument.value = pagesValues ∧
        pagesIndex.decodeConstructor ([0x60, 0x80] ++ Abi.Value.encodeParams pagesValues) none =
          .ok ⟨"constructor", signatureText "constructor" pagesInputs, arguments⟩ := by
  have hconstructor : pagesIndex.constructor? = some pagesInputs := rfl
  have hguessable : Abi.Ty.someArrayOrFunction (pagesInputs.map ResolvedParam.ty) = false := rfl
  have hfilled : Abi.Ty.someEmptyTuple (pagesInputs.map ResolvedParam.ty) = false := rfl
  have htyped : Abi.Ty.HaveValues (pagesInputs.map ResolvedParam.ty) pagesValues := by
    refine ⟨_, _, rfl, ⟨7, rfl, by decide⟩, _, _, rfl, ⟨_, rfl, _, _, rfl, ?_, _, _, rfl, ?_⟩, rfl⟩
    · exact ⟨_, rfl, rfl, by simp [Abi.Ty.HasValue]⟩
    · exact ⟨⟨true, rfl⟩, rfl⟩
  have hheld : Abi.Value.areHeld pagesValues = true := by
    decide
  obtain ⟨-, hiff, -, -, hdecode⟩ :=
    decodeConstructor_detects_arguments [0x60, 0x80] hconstructor hguessable hfilled htyped hheld
  have hchosen := hiff.mpr (by decide)
  have hdepth :
      Abi.Ty.deepest (pagesInputs.map ResolvedParam.ty) ≤ Abi.Frame.depthLimit := by
    decide
  obtain ⟨arguments, hvalues, hdetected, -⟩ := hdecode hchosen hdepth (by decide +kernel)
  exact ⟨hconstructor, hguessable, hfilled, htyped, hheld, arguments, hvalues, hdetected⟩

end InterfaceIndex

end Detecting
end MintWatch
