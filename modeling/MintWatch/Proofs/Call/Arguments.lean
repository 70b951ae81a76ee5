import Mathlib
import MintWatch.Call.Decoder
import MintWatch.Proofs.Fallible
/-!
# Decoded arguments

What a decoded call consists of: the arguments carry the values that were read, in the
order of the parameters, under the kinds and names of the parameters.  The equivalences
say what a successful decoding did, so that nothing later opens the decoder again.
-/

namespace MintWatch

/-! ## The arguments of values -/

section ArgumentsFrom

variable {params : List ResolvedParam} {values : List Abi.Value}

theorem map_value_argumentsFrom
    (start : Nat)
    (hlength : values.length = params.length) :
    (argumentsFrom start params values).map Argument.value = values := by
  induction params generalizing start values with
  | nil =>
      rw [List.length_eq_zero_iff.mp hlength]
      rfl
  | cons param rest ih =>
      obtain ⟨value, others, rfl⟩ := List.exists_cons_of_length_eq_add_one hlength
      have hrest : others.length = rest.length := by simpa using hlength
      simp [argumentsFrom, ResolvedParam.argument, ih (start + 1) hrest]

theorem map_kind_argumentsFrom
    (start : Nat)
    (hlength : values.length = params.length) :
    (argumentsFrom start params values).map Argument.kind =
      params.map ResolvedParam.kind := by
  induction params generalizing start values with
  | nil =>
      rw [List.length_eq_zero_iff.mp hlength]
      rfl
  | cons param rest ih =>
      obtain ⟨value, others, rfl⟩ := List.exists_cons_of_length_eq_add_one hlength
      have hrest : others.length = rest.length := by simpa using hlength
      simp [argumentsFrom, ResolvedParam.argument, ih (start + 1) hrest]

theorem exists_argument_of_getElem?_argumentsFrom
    {start index : Nat} {argument : Argument}
    (hargument : (argumentsFrom start params values)[index]? = some argument) :
    ∃ param value, params[index]? = some param ∧ values[index]? = some value ∧
      argument = param.argument (start + index) value := by
  induction params generalizing start values index with
  | nil => simp [argumentsFrom] at hargument
  | cons first rest ih =>
      cases values with
      | nil => simp [argumentsFrom] at hargument
      | cons value others =>
          rw [argumentsFrom] at hargument
          cases index with
          | zero =>
              rw [List.getElem?_cons_zero, Option.some.injEq] at hargument
              exact ⟨first, value, rfl, rfl, hargument.symm⟩
          | succ index =>
              rw [List.getElem?_cons_succ] at hargument
              obtain ⟨param, found, hparam, hfound, hsame⟩ := ih hargument
              rw [Nat.add_right_comm, Nat.add_assoc] at hsame
              exact ⟨param, found, hparam, hfound, hsame⟩

theorem name_of_getElem?_argumentsFrom
    {start index : Nat} {param : ResolvedParam} {argument : Argument}
    (hparam : params[index]? = some param)
    (hargument : (argumentsFrom start params values)[index]? = some argument) :
    argument.name =
      if Text.isAllBlank param.name then "arg" ++ toString (start + index) else param.name := by
  obtain ⟨other, value, hother, -, rfl⟩ := exists_argument_of_getElem?_argumentsFrom hargument
  obtain rfl : param = other := by simpa [hparam] using hother
  rfl

end ArgumentsFrom

/-! ## What a decoding did -/

theorem decodeValues_eq_ok_iff
    {types : List Abi.Ty} {data : Bytes} {values : List Abi.Value} :
    decodeValues types data = .ok values ↔
      types = [] ∧ values = [] ∨
        types ≠ [] ∧ Abi.Ty.readParams types data = .ok values ∧
          Abi.Ty.checkParams types data = .ok () := by
  unfold decodeValues
  by_cases hnone : types = []
  · simp [hnone, eq_comm]
  · have hsome : types.isEmpty = false := by simpa using hnone
    simp only [hsome, Bool.false_eq_true, if_false, hnone, false_and, ne_eq, not_false_eq_true,
      true_and, false_or]
    cases Abi.Ty.readParams types data with
    | error fault => simp
    | ok read => cases Abi.Ty.checkParams types data <;> simp

theorem decodeArguments_eq_ok_iff
    {inputs : List ResolvedParam} {data : Bytes} {arguments : List Argument} :
    decodeArguments inputs data = .ok arguments ↔
      ∃ values, decodeValues (inputs.map ResolvedParam.ty) data = .ok values ∧
        values.length = inputs.length ∧ arguments = argumentsFrom 0 inputs values := by
  unfold decodeArguments
  cases decodeValues (inputs.map ResolvedParam.ty) data with
  | error fault => simp
  | ok values =>
      by_cases hlength : values.length = inputs.length
      · simp [hlength, eq_comm]
      · simp [hlength]

theorem argumentSection_some_eq_ok_iff
    {inputs : List ResolvedParam} {payload code data : Bytes} :
    argumentSection inputs payload (some code) = .ok data ↔
      code.length ≤ payload.length ∧ data = payload.drop code.length := by
  unfold argumentSection
  dsimp only
  split
  · rename_i hshort
    simp only [reduceCtorEq, false_iff]
    rintro ⟨hle, -⟩
    omega
  · rename_i hlong
    rw [Except.ok.injEq, and_iff_right (by omega), eq_comm]

namespace InterfaceIndex

theorem decodeFunction_eq_ok_iff
    {index : InterfaceIndex} {calldata : Bytes} {call : DecodedCall} :
    index.decodeFunction calldata = .ok call ↔
      ∃ selector function arguments, selector.toList = calldata.take 4 ∧
        index.lookup selector = some function ∧
        decodeArguments function.inputs (calldata.drop 4) = .ok arguments ∧
        call = ⟨function.name, function.signature, arguments⟩ := by
  simp only [← Octets.ofList?_eq_some]
  unfold decodeFunction
  cases Octets.ofList? 4 (calldata.take 4) with
  | none => simp
  | some selector =>
      simp only [Option.some.injEq, exists_and_left, exists_eq_left']
      cases index.lookup selector with
      | none => simp
      | some function =>
          simp only [Option.some.injEq, exists_eq_left']
          cases decodeArguments function.inputs (calldata.drop 4) <;> simp [eq_comm]

theorem decodeConstructor_eq_ok_iff
    {index : InterfaceIndex} {payload : Bytes} {bytecode : Option Bytes} {call : DecodedCall} :
    index.decodeConstructor payload bytecode = .ok call ↔
      ∃ inputs data arguments, index.constructor? = some inputs ∧
        argumentSection inputs payload bytecode = .ok data ∧
        decodeArguments inputs data = .ok arguments ∧
        call = ⟨constructorName, signatureText constructorName inputs, arguments⟩ := by
  unfold decodeConstructor
  cases index.constructor? with
  | none => simp
  | some inputs =>
      simp only [Option.some.injEq, exists_and_left, exists_eq_left']
      cases argumentSection inputs payload bytecode with
      | error error => simp
      | ok data =>
          simp only [Except.ok.injEq, exists_eq_left']
          cases decodeArguments inputs data <;> simp [eq_comm]

end InterfaceIndex
end MintWatch
