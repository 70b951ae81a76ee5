import Mathlib
import MintWatch.Proofs.Abi.StaticWords
import MintWatch.Proofs.Call.Classification
import MintWatch.Proofs.Call.ConstructorArguments
/-!
# Calldata of static functions

Where all parameters of a function are static, accepted calldata of the right length is the
encoding of the call, up to the bytes behind function values that no check looks at.  So
other calldata of that length gives the same call exactly if it differs in such bytes only,
and one calldata stands for each call exactly if no word is of a function value.
-/

namespace MintWatch

/-! ## Arguments -/

section Arguments

variable {inputs : List ResolvedParam} {data other : Bytes} {arguments : List Argument}

theorem encodeParams_of_decodeArguments
    (hstatic : Abi.Ty.anyDynamic (inputs.map ResolvedParam.ty) = false)
    (hdecode : decodeArguments inputs data = .ok arguments) :
    Abi.Value.encodeParams (arguments.map Argument.value) =
      Abi.cleared (Abi.Ty.wordTypesOf (inputs.map ResolvedParam.ty)) data := by
  rcases decodeArguments_eq_ok_iff_trace.mp hdecode with
    ⟨rfl, rfl⟩ | ⟨hsized, values, leaves, htrace, hcanonical, rfl⟩
  · rfl
  · obtain ⟨-, hitems⟩ := (Abi.Ty.traceParams_eq_ok_iff hsized).mp htrace
    have hlength : values.length = inputs.length := by
      simpa using Abi.Ty.length_of_traceItems hitems
    rw [map_value_argumentsFrom 0 hlength]
    exact Abi.Ty.join_parts_of_traceItems (fun ty _ => Abi.Ty.encodesWhatItReads ty) hstatic
      hitems hcanonical

theorem decodeArguments_of_cleared_eq
    (hstatic : Abi.Ty.anyDynamic (inputs.map ResolvedParam.ty) = false)
    (hlength : data.length = other.length)
    (hsame : Abi.cleared (Abi.Ty.wordTypesOf (inputs.map ResolvedParam.ty)) data =
      Abi.cleared (Abi.Ty.wordTypesOf (inputs.map ResolvedParam.ty)) other)
    (hdecode : decodeArguments inputs data = .ok arguments) :
    decodeArguments inputs other = .ok arguments := by
  rw [decodeArguments_eq_ok_iff_trace] at hdecode ⊢
  rcases hdecode with hnone | ⟨hsized, values, leaves, htrace, hcanonical, rfl⟩
  · exact Or.inl hnone
  · obtain ⟨henough, hitems⟩ := (Abi.Ty.traceParams_eq_ok_iff hsized).mp htrace
    rw [← List.drop_zero (l := data), ← List.drop_zero (l := other)] at hsame
    obtain ⟨others, hothers, hclean⟩ := Abi.Ty.traceItems_readsClearedBytes
      (fun ty _ => Abi.Ty.readsClearedBytes ty) hstatic hlength hsame hitems hcanonical
    rw [hlength] at henough
    exact Or.inr ⟨hsized, values, others,
      (Abi.Ty.traceParams_eq_ok_iff hsized).mpr ⟨henough, hothers⟩, hclean, rfl⟩

end Arguments

/-! ## Calls -/

namespace InterfaceIndex

section Calls

variable {index : InterfaceIndex} {function : IndexedFunction} {calldata other : Bytes}
  {call : DecodedCall}

/-- A call says which selector its calldata started with. -/
theorem take_of_decodeFunction
    (hkeyed : IsKeyedBy Selector.ofSignature index)
    (hdecode : index.decodeFunction calldata = .ok call) :
    calldata.take 4 = (Selector.ofSignature call.signature).toList := by
  obtain ⟨selector, function, arguments, hselector, hlookup, -, rfl⟩ :=
    decodeFunction_eq_ok_iff.mp hdecode
  obtain ⟨hfunction, rfl⟩ := mem_of_lookup hlookup
  rw [← hselector, hkeyed.selectors function hfunction]

theorem decodeFunction_eq_ok_iff_of_mem
    (hkeyed : IsKeyedBy Selector.ofSignature index)
    (hfunction : function ∈ index.functions)
    (hselector : calldata.take 4 = function.selector.toList) :
    index.decodeFunction calldata = .ok call ↔
      ∃ arguments, decodeArguments function.inputs (calldata.drop 4) = .ok arguments ∧
        call = ⟨function.name, function.signature, arguments⟩ := by
  rw [decodeFunction_of_lookup_eq_some hselector.symm (hkeyed.lookup_selector hfunction),
    map_eq_ok_iff]
  simp only [mapError_eq_ok_iff, eq_comm (b := call)]

theorem encodeParams_of_decodeFunction
    (hkeyed : IsKeyedBy Selector.ofSignature index)
    (hfunction : function ∈ index.functions)
    (hstatic : Abi.Ty.anyDynamic (function.inputs.map ResolvedParam.ty) = false)
    (hselector : calldata.take 4 = function.selector.toList)
    (hdecode : index.decodeFunction calldata = .ok call) :
    Abi.Value.encodeParams (call.arguments.map Argument.value) =
      Abi.cleared (Abi.Ty.wordTypesOf (function.inputs.map ResolvedParam.ty)) (calldata.drop 4) := by
  obtain ⟨arguments, harguments, rfl⟩ :=
    (decodeFunction_eq_ok_iff_of_mem hkeyed hfunction hselector).mp hdecode
  exact encodeParams_of_decodeArguments hstatic harguments

theorem decodeFunction_eq_ok_iff_cleared
    (hkeyed : IsKeyedBy Selector.ofSignature index)
    (hfunction : function ∈ index.functions)
    (hstatic : Abi.Ty.anyDynamic (function.inputs.map ResolvedParam.ty) = false)
    (hselector : calldata.take 4 = function.selector.toList)
    (hdecode : index.decodeFunction calldata = .ok call)
    (hlength : other.length = calldata.length) :
    index.decodeFunction other = .ok call ↔
      other.take 4 = calldata.take 4 ∧
        Abi.cleared (Abi.Ty.wordTypesOf (function.inputs.map ResolvedParam.ty)) (other.drop 4) =
          Abi.cleared (Abi.Ty.wordTypesOf (function.inputs.map ResolvedParam.ty))
            (calldata.drop 4) := by
  constructor
  · intro hother
    have hfront : other.take 4 = calldata.take 4 := by
      rw [take_of_decodeFunction hkeyed hother, take_of_decodeFunction hkeyed hdecode]
    refine ⟨hfront, ?_⟩
    rw [← encodeParams_of_decodeFunction hkeyed hfunction hstatic (hfront.trans hselector) hother,
      encodeParams_of_decodeFunction hkeyed hfunction hstatic hselector hdecode]
  · rintro ⟨hfront, hsame⟩
    have hdropped : (calldata.drop 4).length = (other.drop 4).length := by
      rw [List.length_drop, List.length_drop, hlength]
    rw [decodeFunction_eq_ok_iff_of_mem hkeyed hfunction hselector] at hdecode
    rw [decodeFunction_eq_ok_iff_of_mem hkeyed hfunction (hfront.trans hselector)]
    obtain ⟨arguments, harguments, rfl⟩ := hdecode
    exact ⟨arguments, decodeArguments_of_cleared_eq hstatic hdropped hsame.symm harguments, rfl⟩

theorem static_calldata_is_determined_by_call
    {interface : Interface} {replaced : List IndexedFunction}
    (hbuild : build interface = .ok (index, replaced))
    (hfunction : function ∈ index.functions)
    (hstatic : Abi.Ty.anyDynamic (function.inputs.map ResolvedParam.ty) = false)
    (hselector : calldata.take 4 = function.selector.toList)
    (hlength : calldata.length =
      4 + 32 * Abi.Ty.wordsOf (function.inputs.map ResolvedParam.ty))
    (hdecode : index.decodeFunction calldata = .ok call) :
    let types := Abi.Ty.wordTypesOf (function.inputs.map ResolvedParam.ty)
    let encoded := Abi.Value.encodeParams (call.arguments.map Argument.value)
    encoded = Abi.cleared types (calldata.drop 4) ∧
      (∀ other : Bytes, other.length = calldata.length →
        (index.decodeFunction other = .ok call ↔
          other.take 4 = calldata.take 4 ∧
            Abi.cleared types (other.drop 4) = Abi.cleared types (calldata.drop 4))) ∧
      (.function ∉ types → calldata = function.selector.toList ++ encoded) ∧
      ((∀ other : Bytes, other.length = calldata.length →
          index.decodeFunction other = .ok call → other = calldata) ↔
        .function ∉ types) := by
  intro types encoded
  have hkeyed : IsKeyedBy Selector.ofSignature index := isKeyedBy_of_buildWith hbuild
  have hencoded : encoded = Abi.cleared types (calldata.drop 4) :=
    encodeParams_of_decodeFunction hkeyed hfunction hstatic hselector hdecode
  have hsame : ∀ other : Bytes, other.length = calldata.length →
      (index.decodeFunction other = .ok call ↔
        other.take 4 = calldata.take 4 ∧
          Abi.cleared types (other.drop 4) = Abi.cleared types (calldata.drop 4)) :=
    fun other hother =>
      decodeFunction_eq_ok_iff_cleared hkeyed hfunction hstatic hselector hdecode hother
  have hwords : (calldata.drop 4).length = 32 * types.length := by
    rw [List.length_drop, hlength, Abi.Ty.length_wordTypesOf]
    omega
  have hfront : (calldata.take 4).length = 4 := by
    rw [hselector, function.selector.length_toList]
  refine ⟨hencoded, hsame, ?_, ?_⟩
  · intro hchecked
    rw [hencoded, Abi.cleared_eq_self hchecked hwords, ← hselector, List.take_append_drop]
  · rw [← Abi.determined_by_cleared_iff hwords]
    constructor
    · -- Other arguments are put behind the selector, which gives calldata of the same length.
      intro hunique data hdata hcleared
      have hlengths : (calldata.take 4 ++ data).length = calldata.length := by
        rw [List.length_append, hdata, ← List.length_append, List.take_append_drop]
      have hcalldata := hunique _ hlengths ((hsame _ hlengths).mpr
        ⟨List.take_left' hfront, by rw [List.drop_left' hfront, hcleared]⟩)
      rw [← hcalldata, List.drop_left' hfront]
    · intro hunique other hother hdecoded
      obtain ⟨hstart, hcleared⟩ := (hsame other hother).mp hdecoded
      have hdata := hunique (other.drop 4) (by rw [List.length_drop, List.length_drop, hother])
        hcleared
      rw [← List.take_append_drop 4 other, hstart, hdata, List.take_append_drop]

/-! A function with a signed number and three pairs in a fixed array. -/

def limitsParams : List Param :=
  [.plain "low" "int8", ⟨"steps", "tuple[3]", [.plain "on" "bool", .plain "size" "uint8"]⟩]

def limitsInputs : List ResolvedParam :=
  [⟨"low", .int .byte⟩,
    ⟨"steps", .fixedArray (.tuple [.bool, .uint .byte]) ⟨3, by decide, by decide⟩⟩]

def limitsFunction : IndexedFunction :=
  ⟨Selector.ofSignature (signatureText "limits" limitsInputs), "limits", limitsInputs⟩

def limitsValues : List Abi.Value :=
  [.int (-1) 8, .fixedArray [.tuple [.bool true, .uint 7 8], .tuple [.bool false, .uint 9 8],
    .tuple [.bool true, .uint 255 8]]]

def limitsCalldata : Bytes :=
  limitsFunction.selector.toList ++ Abi.Value.encodeParams limitsValues

theorem static_calldata_is_determined_by_call_limits :
    build [.function "limits" limitsParams] = .ok (⟨[limitsFunction], none⟩, []) ∧
      Abi.Ty.anyDynamic (limitsInputs.map ResolvedParam.ty) = false ∧
      limitsCalldata.take 4 = limitsFunction.selector.toList ∧
      limitsCalldata.length = 4 + 32 * Abi.Ty.wordsOf (limitsInputs.map ResolvedParam.ty) ∧
      ∃ call, (⟨[limitsFunction], none⟩ : InterfaceIndex).decodeFunction limitsCalldata =
          .ok call ∧
        ∀ other : Bytes, other.length = limitsCalldata.length →
          (⟨[limitsFunction], none⟩ : InterfaceIndex).decodeFunction other = .ok call →
            other = limitsCalldata := by
  have hinputs : ResolvedParam.ofParams limitsParams = .ok limitsInputs := by
    cbv
  have hbuild : build [.function "limits" limitsParams] = .ok (⟨[limitsFunction], none⟩, []) :=
    build_function rfl hinputs
  have hstatic : Abi.Ty.anyDynamic (limitsInputs.map ResolvedParam.ty) = false := rfl
  have hselector : limitsCalldata.take 4 = limitsFunction.selector.toList :=
    List.take_left' limitsFunction.selector.length_toList
  have hdata : limitsCalldata.drop 4 = Abi.Value.encodeParams limitsValues :=
    List.drop_left' limitsFunction.selector.length_toList
  have htyped : Abi.Ty.HaveValues (limitsInputs.map ResolvedParam.ty) limitsValues := by
    refine ⟨_, _, rfl, ⟨-1, rfl, by decide, by decide⟩, _, _, rfl, ⟨_, rfl, rfl, ?_⟩, rfl⟩
    rw [List.forall_mem_cons, List.forall_mem_cons, List.forall_mem_singleton]
    exact ⟨⟨_, rfl, _, _, rfl, ⟨true, rfl⟩, _, _, rfl, ⟨7, rfl, by decide⟩, rfl⟩,
      ⟨_, rfl, _, _, rfl, ⟨false, rfl⟩, _, _, rfl, ⟨9, rfl, by decide⟩, rfl⟩,
      ⟨_, rfl, _, _, rfl, ⟨true, rfl⟩, _, _, rfl, ⟨255, rfl, by decide⟩, rfl⟩⟩
  have hwords : (Abi.Value.encodeParams limitsValues).length = 32 * 7 :=
    Abi.Ty.length_join_of_static (fun ty _ => Abi.Ty.length_encode_of_static ty) hstatic htyped
  have hlength : limitsCalldata.length =
      4 + 32 * Abi.Ty.wordsOf (limitsInputs.map ResolvedParam.ty) := by
    unfold limitsCalldata
    rw [List.length_append, limitsFunction.selector.length_toList, hwords]
    rfl
  have hdecoded := decodeArguments_encodeParams rfl (by decide) htyped
    (by rw [hwords]; decide)
  rw [← hdata] at hdecoded
  have hdecode := (decodeFunction_eq_ok_iff_of_mem (isKeyedBy_of_buildWith hbuild)
    List.mem_cons_self hselector).mpr ⟨_, hdecoded, rfl⟩
  obtain ⟨-, -, -, hunique⟩ := static_calldata_is_determined_by_call hbuild List.mem_cons_self
    hstatic hselector hlength hdecode
  have hchecked : Abi.Ty.function ∉ Abi.Ty.wordTypesOf (limitsInputs.map ResolvedParam.ty) := by
    simp [limitsInputs, Abi.Ty.wordTypesOf, Abi.Ty.wordTypes]
  exact ⟨hbuild, hstatic, hselector, hlength, _, hdecode, hunique.mpr hchecked⟩

/-! A function whose parameter is a function value, and calldata for it that ends in any byte. -/

def hookFunction : IndexedFunction :=
  ⟨Selector.ofSignature (signatureText "hook" [⟨"target", .function⟩]), "hook",
    [⟨"target", .function⟩]⟩

def hookCalldata (last : UInt8) : Bytes :=
  hookFunction.selector.toList ++ (List.replicate 31 0 ++ [last])

/-- The last byte of a word that holds a function value is taken as it comes. -/
theorem decodeFunction_takes_function_padding :
    build [.function "hook" [.plain "target" "function"]] =
        .ok (⟨[hookFunction], none⟩, []) ∧
      Abi.Ty.anyDynamic (hookFunction.inputs.map ResolvedParam.ty) = false ∧
      Abi.Ty.someEmptyTuple (hookFunction.inputs.map ResolvedParam.ty) = false ∧
      (hookCalldata 0).length =
        4 + 32 * Abi.Ty.wordsOf (hookFunction.inputs.map ResolvedParam.ty) ∧
      (hookCalldata 1).length =
        4 + 32 * Abi.Ty.wordsOf (hookFunction.inputs.map ResolvedParam.ty) ∧
      hookCalldata 0 ≠ hookCalldata 1 ∧
      ∃ call, (⟨[hookFunction], none⟩ : InterfaceIndex).decodeFunction (hookCalldata 0) = .ok call ∧
        (⟨[hookFunction], none⟩ : InterfaceIndex).decodeFunction (hookCalldata 1) = .ok call := by
  have hbuild : build [.function "hook" [.plain "target" "function"]] =
      .ok (⟨[hookFunction], none⟩, []) :=
    build_function rfl rfl
  have hlength : ∀ last, (hookCalldata last).length =
      4 + 32 * Abi.Ty.wordsOf (hookFunction.inputs.map ResolvedParam.ty) := by
    intro last
    unfold hookCalldata
    rw [List.length_append, hookFunction.selector.length_toList]
    rfl
  have hdecode : ∀ last, decodeArguments hookFunction.inputs (List.replicate 31 0 ++ [last]) =
        .ok [⟨"function", "target", .function (Octets.zero 24)⟩] →
      (⟨[hookFunction], none⟩ : InterfaceIndex).decodeFunction (hookCalldata last) =
        .ok ⟨"hook", hookFunction.signature,
          [⟨"function", "target", .function (Octets.zero 24)⟩]⟩ := by
    intro last harguments
    have hselector : (hookCalldata last).take 4 = hookFunction.selector.toList :=
      List.take_left' hookFunction.selector.length_toList
    have hdata : (hookCalldata last).drop 4 = List.replicate 31 0 ++ [last] :=
      List.drop_left' hookFunction.selector.length_toList
    rw [← hdata] at harguments
    exact (decodeFunction_eq_ok_iff_of_mem (isKeyedBy_of_buildWith hbuild) List.mem_cons_self
      hselector).mpr ⟨_, harguments, rfl⟩
  refine ⟨hbuild, rfl, rfl, hlength 0, hlength 1, ?_, _, hdecode 0 rfl, hdecode 1 rfl⟩
  simp [hookCalldata]

end Calls

end InterfaceIndex
end MintWatch
