import Mathlib
import MintWatch.Proofs.Abi.LongerData
import MintWatch.Proofs.Call.Classification
/-!
# Longer calldata

What calldata is decoded to does not change when bytes are put behind it, nor what a
deployment payload is decoded to where the bytecode is known.  Prefixes of one byte string
therefore cannot be decoded to different calls: cutting calldata short makes it fail or
leaves the call as it is.
-/

namespace MintWatch

/-- What a decoder that does not look at the end of its input guarantees. -/
structure IgnoresWhatFollows (decode : Bytes → Except AbiError DecodedCall) : Prop where
  extended : ∀ data more call, decode data = .ok call → decode (data ++ more) = .ok call
  /-- Prefixes of one byte string are decoded alike. -/
  agreeing : ∀ whole first second firstCall secondCall,
    first <+: whole → second <+: whole →
      decode first = .ok firstCall → decode second = .ok secondCall → firstCall = secondCall
  /-- What is cut short is decoded alike or fails. -/
  truncated : ∀ data call count, decode data = .ok call →
    decode (data.take count) = .ok call ∨ ∃ error, decode (data.take count) = .error error

theorem IgnoresWhatFollows.of_append
    {decode : Bytes → Except AbiError DecodedCall}
    (hextended : ∀ data more call, decode data = .ok call → decode (data ++ more) = .ok call) :
    IgnoresWhatFollows decode := by
  have hwhole : ∀ {whole front : Bytes} {call : DecodedCall}, front <+: whole →
      decode front = .ok call → decode whole = .ok call := by
    rintro whole front call ⟨more, rfl⟩ hfront
    exact hextended front more call hfront
  refine ⟨hextended, ?_, ?_⟩
  · intro whole first second firstCall secondCall hfirst hsecond hfirstCall hsecondCall
    have hsame := (hwhole hfirst hfirstCall).symm.trans (hwhole hsecond hsecondCall)
    exact Except.ok.inj hsame
  · intro data call count hcall
    cases hcut : decode (data.take count) with
    | error error => exact Or.inr ⟨error, rfl⟩
    | ok other =>
        have hsame := (hwhole (List.take_prefix count data) hcut).symm.trans hcall
        exact Or.inl hsame

theorem decodeArguments_append
    {inputs : List ResolvedParam} {data : Bytes} {arguments : List Argument}
    (more : Bytes)
    (hdecode : decodeArguments inputs data = .ok arguments) :
    decodeArguments inputs (data ++ more) = .ok arguments := by
  rw [decodeArguments_eq_ok_iff_trace] at hdecode ⊢
  rcases hdecode with hnone | ⟨hsized, values, leaves, htrace, hread⟩
  · exact Or.inl hnone
  · have hlonger := Abi.Ty.traceParams_append more hsized htrace
    exact Or.inr ⟨hsized, values, leaves, hlonger, hread⟩

namespace InterfaceIndex

variable {index : InterfaceIndex} {call : DecodedCall}

theorem decodeFunction_append
    {calldata : Bytes}
    (more : Bytes)
    (hdecode : index.decodeFunction calldata = .ok call) :
    index.decodeFunction (calldata ++ more) = .ok call := by
  obtain ⟨selector, function, arguments, hselector, hlookup, harguments, hcall⟩ :=
    decodeFunction_eq_ok_iff.mp hdecode
  have hlong : 4 ≤ calldata.length := by
    have hlength := congrArg List.length hselector
    rw [selector.length_toList, List.length_take] at hlength
    omega
  have htake : (calldata ++ more).take 4 = calldata.take 4 :=
    List.take_append_of_le_length hlong
  have hdrop : (calldata ++ more).drop 4 = calldata.drop 4 ++ more :=
    List.drop_append_of_le_length hlong
  refine decodeFunction_eq_ok_iff.mpr
    ⟨selector, function, arguments, hselector.trans htake.symm, hlookup, ?_, hcall⟩
  rw [hdrop]
  exact decodeArguments_append more harguments

theorem decodeConstructor_append
    {payload code : Bytes}
    (more : Bytes)
    (hdecode : index.decodeConstructor payload (some code) = .ok call) :
    index.decodeConstructor (payload ++ more) (some code) = .ok call := by
  obtain ⟨inputs, data, arguments, hconstructor, hsection, harguments, hcall⟩ :=
    decodeConstructor_eq_ok_iff.mp hdecode
  obtain ⟨hlong, rfl⟩ := argumentSection_some_eq_ok_iff.mp hsection
  have hdrop : (payload ++ more).drop code.length = payload.drop code.length ++ more :=
    List.drop_append_of_le_length hlong
  have hlonger : argumentSection inputs (payload ++ more) (some code) =
      .ok (payload.drop code.length ++ more) := by
    rw [argumentSection_some_eq_ok_iff, List.length_append]
    exact ⟨by omega, hdrop.symm⟩
  exact decodeConstructor_eq_ok_iff.mpr
    ⟨inputs, _, arguments, hconstructor, hlonger, decodeArguments_append more harguments, hcall⟩

theorem decoding_ignores_what_follows
    (index : InterfaceIndex) :
    IgnoresWhatFollows index.decodeFunction ∧
      ∀ code, IgnoresWhatFollows fun payload => index.decodeConstructor payload (some code) := by
  constructor
  · exact .of_append fun _ more _ hdecode => decodeFunction_append more hdecode
  · exact fun code => .of_append fun _ more _ hdecode => decodeConstructor_append more hdecode

/-! Any bytes behind the argument of the function `level`, and of a constructor like it. -/

theorem decodeConstructor_level :
    (⟨[], some levelInputs⟩ : InterfaceIndex).decodeConstructor
        ([0x60, 0x80] ++ Abi.Part.word 7) (some [0x60, 0x80]) =
      .ok ⟨"constructor", signatureText "constructor" levelInputs,
        [⟨"uint8", "arg0", .uint 7 8⟩]⟩ :=
  rfl

theorem decoding_ignores_what_follows_level :
    (∀ more, (⟨[levelFunction], none⟩ : InterfaceIndex).decodeFunction (levelCalldata ++ more) =
        .ok ⟨"level", levelFunction.signature, [⟨"uint8", "arg0", .uint 7 8⟩]⟩) ∧
      ∀ more, (⟨[], some levelInputs⟩ : InterfaceIndex).decodeConstructor
          ([0x60, 0x80] ++ Abi.Part.word 7 ++ more) (some [0x60, 0x80]) =
        .ok ⟨"constructor", signatureText "constructor" levelInputs,
          [⟨"uint8", "arg0", .uint 7 8⟩]⟩ := by
  obtain ⟨hfunction, -⟩ := decoding_ignores_what_follows ⟨[levelFunction], none⟩
  obtain ⟨-, hconstructor⟩ := decoding_ignores_what_follows ⟨[], some levelInputs⟩
  constructor
  · exact fun more => hfunction.extended levelCalldata more _ decodeFunction_level
  · exact fun more => (hconstructor [0x60, 0x80]).extended _ more _ decodeConstructor_level

end InterfaceIndex
end MintWatch
