import Mathlib
import MintWatch.Mint.Verifier
import MintWatch.Proofs.Abi.Walks
import MintWatch.Proofs.Bytes.HexText
import MintWatch.Proofs.Chain.TransactionMembers
import MintWatch.Proofs.Chain.TransactionReply
import MintWatch.Proofs.Interface.Selectors
/-!
# What a confirmation rests on

A record is confirmed only on the evidence of a transaction, and the evidence can be
read off the bytes of its input: the selector of an indexed mint function, the word of
the owner's address, and behind an offset the length and the bytes of the metadata
reference.  The sender of a transaction chooses these bytes; further arguments may
follow, and contents may lie anywhere and overlap.
-/

namespace MintWatch

/-- What the calldata of a mint of a record consists of.  The arguments start behind the
selector; the first is a whole word, and the second is an offset from their start, at
which a length and as many bytes stand. -/
structure IsMintOf (record : ContentRecord) (index : InterfaceIndex) (mintFunction : String)
    (calldata : Bytes) : Prop where
  function : ∃ function ∈ index.functions, ∃ first second others,
    function.name = mintFunction ∧ function.inputs = first :: second :: others ∧
      first.ty = .address ∧ second.ty = .string ∧
      function.selector = Selector.ofSignature function.signature ∧
      calldata.take 4 = function.selector.toList
  recipient : ∃ owner : Address,
    Hex.Denotes (Text.trim record.ownerAddress) owner.toList ∧
      (calldata.drop 4).take 32 = List.replicate 12 0 ++ owner.toList
  metadata : ∃ reference offset bytes,
    record.metadataRef = some reference ∧ offset < 2 ^ 64 ∧ bytes.length < 2 ^ 64 ∧
      ((calldata.drop 4).drop 32).take 32 = bigEndianBytes 32 offset ∧
      ((calldata.drop 4).drop offset).take 32 = bigEndianBytes 32 bytes.length ∧
      ((calldata.drop 4).drop (offset + 32)).take bytes.length = bytes ∧
      Utf8.decodeLossy bytes = reference ∧
      (Utf8.replacement ∉ reference.toList → bytes = Utf8.encode reference)

/-! ## The bytes of the first arguments -/

namespace Abi
namespace Ty

theorem eq_address_of_hasValue
    {ty : Ty} {owner : Address}
    (htyped : ty.HasValue (.address owner)) :
    ty = .address := by
  cases ty <;> simp [HasValue] at htyped ⊢

theorem eq_string_of_hasValue
    {ty : Ty} {text : String}
    (htyped : ty.HasValue (.string text)) :
    ty = .string := by
  cases ty <;> simp [HasValue] at htyped ⊢

theorem take_of_trace_address
    {frame : Frame} {position : Nat} {owner : Address} {leaves : List Leaf}
    (htrace : trace .address frame position = .ok (.address owner, leaves))
    (hcanonical : ∀ leaf ∈ leaves, isCanonical leaf.type leaf.word = true) :
    (frame.data.drop position).take 32 = List.replicate 12 0 ++ owner.toList := by
  obtain ⟨word, hword, hvalue, rfl⟩ := (trace_word_eq_ok_iff rfl).mp htrace
  have hclean : isCanonical .address word = true := hcanonical _ List.mem_cons_self
  rw [isCanonical_address_iff] at hclean
  rw [Frame.word_eq_ok_iff] at hword
  simp only [wordValue, Value.address.injEq] at hvalue
  rw [← hword, hclean, hvalue]

theorem layout_of_trace_string
    {data : Bytes} {depth position : Nat} {text : String} {leaves : List Leaf}
    (htrace : trace .string ⟨data, depth⟩ position = .ok (.string text, leaves)) :
    ∃ offset bytes, offset < UInt64.size ∧ bytes.length < UInt64.size ∧
      (data.drop position).take 32 = Part.word offset ∧
      (data.drop offset).take 32 = Part.word bytes.length ∧
      (data.drop (offset + 32)).take bytes.length = bytes ∧
      Utf8.decodeLossy bytes = text := by
  obtain ⟨inner, bytes, hfollow, hcontents, htext, -⟩ := trace_string_eq_ok_iff.mp htrace
  obtain ⟨offset, hoffset, hopen⟩ := Frame.follow_eq_ok_iff.mp hfollow
  obtain ⟨-, -, rfl⟩ := Frame.openAt_eq_ok_iff.mp hopen
  obtain ⟨offsetWord, hoffsetWord, rfl, hoffsetLt⟩ := Frame.number_eq_ok_iff.mp hoffset
  obtain ⟨length, hlength, hle, hbytes⟩ := Frame.contents_eq_ok_iff.mp hcontents
  obtain ⟨lengthWord, hlengthWord, rfl, hlengthLt⟩ := Frame.number_eq_ok_iff.mp hlength
  rw [Frame.word_eq_ok_iff] at hoffsetWord hlengthWord
  have hcount : bytes.length = lengthWord.toNat := by
    rw [hbytes, List.length_take]
    omega
  refine ⟨offsetWord.toNat, bytes, hoffsetLt, by omega, ?_, ?_, ?_, ?_⟩
  · rw [Part.word_toNat, hoffsetWord]
  · rw [hcount, Part.word_toNat, hlengthWord, List.drop_zero]
  · rw [hcount, hbytes, List.drop_drop]
  · simpa using htext.symm

end Ty
end Abi

/-! ## Calls that prove a mint -/

theorem DecodedCall.mintArguments?_eq_some_iff
    {call : DecodedCall} {owner : Address} {reference : String} :
    call.mintArguments? = some (owner, reference) ↔
      ∃ others, call.arguments.map Argument.value =
        .address owner :: .string reference :: others := by
  unfold DecodedCall.mintArguments?
  rcases call.arguments with _ | ⟨first, _ | ⟨second, rest⟩⟩
  · simp
  · simp
  · simp only [List.map_cons, List.cons.injEq]
    cases first.value <;> cases second.value <;> simp

theorem checkMint_eq_ok_iff
    {call : DecodedCall} {record : ContentRecord} {mintFunction : String} :
    checkMint call record mintFunction = .ok () ↔
      call.name = mintFunction ∧
        ∃ owner reference, call.mintArguments? = some (owner, reference) ∧
          record.owner? = some owner ∧ record.metadataRef = some reference := by
  unfold checkMint
  by_cases hname : call.name = mintFunction
  · rw [if_neg (by simpa using hname)]
    cases call.mintArguments? with
    | none => simp
    | some found =>
        obtain ⟨recipient, metadata⟩ := found
        cases record.owner? with
        | none => simp
        | some owner =>
            cases record.metadataRef with
            | none => by_cases hsame : recipient = owner <;> simp [hsame]
            | some expected =>
                by_cases hsame : recipient = owner
                · by_cases htext : metadata = expected <;> simp [hsame, htext, hname]
                · simp [hsame]
  · rw [if_pos hname]
    simp [hname]

theorem ContentRecord.owner?_eq_some_iff
    {record : ContentRecord} {owner : Address} :
    record.owner? = some owner ↔
      Hex.Denotes (Text.trim record.ownerAddress) owner.toList := by
  unfold ContentRecord.owner?
  rw [toOption_eq_some_iff, Octets.parse_eq_ok_iff]

/-- Arguments that begin with an address and a text were read from a word and from
behind an offset, and the parameters are of these types. -/
theorem layout_of_decodeArguments
    {inputs : List ResolvedParam} {data : Bytes} {arguments : List Argument}
    {owner : Address} {reference : String} {others : List Abi.Value}
    (hdecode : decodeArguments inputs data = .ok arguments)
    (hvalues :
      arguments.map Argument.value = .address owner :: .string reference :: others) :
    (∃ first second rest, inputs = first :: second :: rest ∧ first.ty = .address ∧
        second.ty = .string) ∧
      data.take 32 = List.replicate 12 0 ++ owner.toList ∧
      ∃ offset bytes, offset < UInt64.size ∧ bytes.length < UInt64.size ∧
        (data.drop 32).take 32 = Abi.Part.word offset ∧
        (data.drop offset).take 32 = Abi.Part.word bytes.length ∧
        (data.drop (offset + 32)).take bytes.length = bytes ∧
        Utf8.decodeLossy bytes = reference := by
  obtain ⟨values, hdecoded, hlength, rfl⟩ := decodeArguments_eq_ok_iff.mp hdecode
  rw [map_value_argumentsFrom 0 hlength] at hvalues
  rw [hvalues] at hdecoded
  obtain ⟨htyped, leaves, htrace, hcanonical⟩ :=
    exists_trace_of_decodeValues (List.cons_ne_nil _ _) hdecoded
  -- The types of the first two parameters are those of the values that were found.
  obtain ⟨firstType, types, htypes, hfirst, htyped⟩ := Abi.Ty.haveValues_cons_iff.mp htyped
  obtain ⟨secondType, types, rfl, hsecond, -⟩ := Abi.Ty.haveValues_cons_iff.mp htyped
  have hfirstType := Abi.Ty.eq_address_of_hasValue hfirst
  have hsecondType := Abi.Ty.eq_string_of_hasValue hsecond
  rw [htypes, hfirstType, hsecondType] at htrace
  obtain ⟨_, firstLeaves, _, laterLeaves, htraceFirst, htraceLater, hcons, rfl⟩ :=
    Abi.Ty.traceItems_cons_eq_ok_iff.mp htrace
  obtain ⟨rfl, rfl⟩ := List.cons.inj hcons
  obtain ⟨_, secondLeaves, _, _, htraceSecond, -, hcons, rfl⟩ :=
    Abi.Ty.traceItems_cons_eq_ok_iff.mp htraceLater
  obtain ⟨rfl, rfl⟩ := List.cons.inj hcons
  refine ⟨?_, ?_, Abi.Ty.layout_of_trace_string htraceSecond⟩
  · obtain ⟨first, rest, rfl, hfirstTy, hrest⟩ := List.map_eq_cons_iff.mp htypes
    obtain ⟨second, rest, rfl, hsecondTy, -⟩ := List.map_eq_cons_iff.mp hrest
    exact ⟨first, second, rest, rfl, hfirstTy.trans hfirstType, hsecondTy.trans hsecondType⟩
  · exact Abi.Ty.take_of_trace_address htraceFirst
      fun leaf hmember => hcanonical leaf (List.mem_append_left _ hmember)

theorem isMintOf_of_checkMint
    {index : InterfaceIndex} {mintFunction : String} {record : ContentRecord}
    {calldata : Bytes} {call : DecodedCall}
    (hkeyed : index.IsKeyedBy Selector.ofSignature)
    (hdecode : index.decodeFunction calldata = .ok call)
    (hmint : checkMint call record mintFunction = .ok ()) :
    IsMintOf record index mintFunction calldata := by
  obtain ⟨selector, function, arguments, hselector, hlookup, harguments, rfl⟩ :=
    InterfaceIndex.decodeFunction_eq_ok_iff.mp hdecode
  obtain ⟨hname, owner, reference, hmintArguments, howner, hreference⟩ :=
    checkMint_eq_ok_iff.mp hmint
  obtain ⟨others, hvalues⟩ := DecodedCall.mintArguments?_eq_some_iff.mp hmintArguments
  obtain ⟨hmember, hfound⟩ := InterfaceIndex.mem_of_lookup hlookup
  obtain ⟨⟨first, second, rest, hinputs, hfirst, hsecond⟩, hrecipient, offset, bytes, hoffset,
    hbytes, hoffsetWord, hlengthWord, hcontents, htext⟩ :=
    layout_of_decodeArguments harguments hvalues
  constructor
  · refine ⟨function, hmember, first, second, rest, hname, hinputs, hfirst, hsecond,
      hkeyed.selectors function hmember, ?_⟩
    rw [hfound, hselector]
  · exact ⟨owner, ContentRecord.owner?_eq_some_iff.mp howner, hrecipient⟩
  · refine ⟨reference, offset, bytes, hreference, hoffset, hbytes, hoffsetWord, hlengthWord,
      hcontents, htext, ?_⟩
    intro hwhole
    exact (Utf8.encode_of_decodeLossy htext hwhole).symm

/-! ## Transactions and verdicts -/

theorem Transaction.requiredText_eq_ok_iff
    {field text : String} {json : Json} :
    Transaction.requiredText field json = .ok text ↔
      ∃ members, json = .object members ∧ Json.find? field members = some (.string text) := by
  have hrequired :
      Transaction.requiredText field json = .ok text ↔
        Transaction.optionalText field json = some text := by
    unfold Transaction.requiredText
    cases Transaction.optionalText field json <;> simp
  rw [hrequired]
  unfold Transaction.optionalText
  rw [Option.bind_eq_some_iff]
  constructor
  · intro hfound
    obtain ⟨member, hmember, htext⟩ := hfound
    cases json <;> simp only [Json.member?, reduceCtorEq] at hmember
    rename_i members
    cases member <;> simp only [Json.text?, reduceCtorEq, Option.some.injEq] at htext
    exact ⟨members, rfl, htext ▸ hmember⟩
  · intro hfound
    obtain ⟨members, rfl, hmember⟩ := hfound
    exact ⟨.string text, hmember, rfl⟩

theorem Transaction.input_of_ofJson
    {json : Json} {transaction : Transaction}
    (hread : Transaction.ofJson json = .ok transaction) :
    ∃ members text, json = .object members ∧
      Json.find? "input" members = some (.string text) ∧
      Hex.Denotes text transaction.rawInput := by
  unfold Transaction.ofJson at hread
  obtain ⟨hash, -, hread⟩ := bind_eq_ok_iff.mp hread
  obtain ⟨blockHash, -, hread⟩ := bind_eq_ok_iff.mp hread
  obtain ⟨blockNumber, -, hread⟩ := bind_eq_ok_iff.mp hread
  obtain ⟨sender, -, hread⟩ := bind_eq_ok_iff.mp hread
  obtain ⟨recipient, -, hread⟩ := bind_eq_ok_iff.mp hread
  obtain ⟨gas, -, hread⟩ := bind_eq_ok_iff.mp hread
  obtain ⟨gasPrice, -, hread⟩ := bind_eq_ok_iff.mp hread
  obtain ⟨nonce, -, hread⟩ := bind_eq_ok_iff.mp hread
  obtain ⟨rawInput, hinput, hread⟩ := bind_eq_ok_iff.mp hread
  obtain ⟨text, htext, hbytes⟩ := bind_eq_ok_iff.mp hinput
  obtain ⟨members, hobject, hmember⟩ := Transaction.requiredText_eq_ok_iff.mp htext
  cases hread
  exact ⟨members, text, hobject, hmember, Transaction.readInput_eq_ok_iff.mp hbytes⟩

theorem transactionOf_eq_ok_iff
    {hash : String} {result : Json} {transaction : Transaction} :
    transactionOf hash none result = .ok transaction ↔
      Transaction.ofJson result = .ok transaction := by
  unfold transactionOf
  split
  · -- A result that is null is not read, and could not be read either.
    constructor
    · intro hfault
      cases hfault
    · intro hread
      obtain ⟨members, text, hobject, -, -⟩ := Transaction.input_of_ofJson hread
      cases hobject
  · cases Transaction.ofJson result <;> simp [Except.map]

namespace Verifier

theorem judge_eq_confirmed_iff
    {verifier : Verifier} {record : ContentRecord} {found : Except RpcError Transaction} :
    verifier.judge record found = .ok .confirmed ↔
      ∃ transaction call, found = .ok transaction ∧
        verifier.decode transaction.rawInput = .ok call ∧
        checkMint call record verifier.mintFunction = .ok () := by
  unfold judge
  cases found with
  | error error => by_cases htransport : error.isTransport = true <;> simp [htransport]
  | ok transaction =>
      simp only [Except.ok.injEq, exists_eq_left', exists_and_left]
      unfold judgeTransaction Transaction.decodeInput
      cases verifier.decode transaction.rawInput with
      | error error => simp [Except.map]
      | ok call =>
          simp only [Except.map, Except.ok.injEq, exists_eq_left']
          cases checkMint call record verifier.mintFunction <;> simp

theorem verify_eq_confirmed_iff
    {verifier : Verifier} {client : Client} {node : Node} {record : ContentRecord} :
    (verifier.verify client node record).2 = .ok .confirmed ↔
      ∃ hash body result transaction call, record.txHash = some hash ∧
        node (client.transaction hash none).2.envelope = .ok body ∧
        body.member? "result" = some result ∧
        Transaction.ofJson result = .ok transaction ∧
        verifier.decode transaction.rawInput = .ok call ∧
        checkMint call record verifier.mintFunction = .ok () := by
  unfold verify
  cases record.txHash with
  | none => simp
  | some hash =>
      simp only [judge_eq_confirmed_iff, Exchange.answer, Client.transaction, Client.call,
        bind_eq_ok_iff, resultOf_eq_ok_iff, transactionOf_eq_ok_iff, Option.some.injEq,
        exists_and_left, exists_eq_left']
      constructor
      · intro hfound
        obtain ⟨transaction, ⟨result, ⟨body, hbody, hresult⟩, hread⟩, call, hcall⟩ := hfound
        exact ⟨body, hbody, result, hresult, transaction, hread, call, hcall⟩
      · intro hfound
        obtain ⟨body, hbody, result, hresult, transaction, hread, call, hcall⟩ := hfound
        exact ⟨transaction, ⟨result, ⟨body, hbody, hresult⟩, hread⟩, call, hcall⟩

end Verifier

/-! ## The evidence of a confirmation -/

theorem evidence_of_confirmed
    {interface : Interface} {index : InterfaceIndex} {replaced : List IndexedFunction}
    {mintFunction : String} {client : Client} {node : Node} {record : ContentRecord}
    (hbuild : InterfaceIndex.build interface = .ok (index, replaced))
    (hconfirmed :
      ((Verifier.ofIndex index mintFunction).verify client node record).2 = .ok .confirmed) :
    ∃ hash body members text calldata, record.txHash = some hash ∧
      node (client.transaction hash none).2.envelope = .ok body ∧
      body.member? "result" = some (.object members) ∧
      Json.find? "input" members = some (.string text) ∧ Hex.Denotes text calldata ∧
      (∃ transaction, Transaction.ofJson (.object members) = .ok transaction ∧
        transaction.rawInput = calldata) ∧
      IsMintOf record index mintFunction calldata := by
  obtain ⟨hash, body, result, transaction, call, hhash, hbody, hresult, hread, hcall, hmint⟩ :=
    Verifier.verify_eq_confirmed_iff.mp hconfirmed
  obtain ⟨members, text, rfl, htext, hbytes⟩ := Transaction.input_of_ofJson hread
  have hkeyed := InterfaceIndex.isKeyedBy_of_buildWith hbuild
  exact ⟨hash, body, members, text, transaction.rawInput, hhash, hbody, hresult, htext, hbytes,
    ⟨transaction, hread, rfl⟩, isMintOf_of_checkMint hkeyed hcall hmint⟩

/-! A mint with one more parameter, whose argument stands behind the reference. -/

def certifyInputs : List ResolvedParam :=
  [⟨"to", .address⟩, ⟨"reference", .string⟩, ⟨"flags", .array .bool⟩]

def certifyFunction : IndexedFunction :=
  ⟨⟨[0x47, 0x50, 0xAA, 0x2A], rfl⟩, "certify", certifyInputs⟩

def certifyParams : List Param :=
  [.plain "to" "address", .plain "reference" "string", .plain "flags" "bool[]"]

theorem build_certify :
    InterfaceIndex.build [.function "certify" certifyParams] =
      .ok (⟨[certifyFunction], none⟩, []) := by
  have hselector :
      Selector.ofSignature (signatureText "certify" certifyInputs) = certifyFunction.selector := by
    decide +kernel
  have hname :
      InterfaceIndex.functionName? (.function "certify" certifyParams) = some "certify" := rfl
  have hinputs : ResolvedParam.ofParams certifyParams = .ok certifyInputs := rfl
  rw [InterfaceIndex.build_function hname hinputs, hselector]
  rfl

def certifyOwner : Address :=
  Octets.ofNat 20 0xA7D9DDBE1F17865597FBD27EC712455208B6B76D

def certifyRecord : ContentRecord where
  id := 7
  ownerAddress := " 0xA7D9ddbe1f17865597fbd27ec712455208b6b76d "
  metadataRef := some "ipfs://meta"
  txHash := some "0x12"
  confirmed := false

def certifyValues : List Abi.Value :=
  [.address certifyOwner, .string "ipfs://meta", .array [.bool true, .bool false]]

def certifyInput : Bytes :=
  certifyFunction.selector.toList ++ Abi.Value.encodeParams certifyValues

/-- A transaction that is nothing but its sender and its input. -/
def bareMembers (sender : Address) (input : Bytes) : List (String × Json) :=
  [("hash", .string (Octets.zero 32).hex), ("from", .string sender.hex),
    ("gas", .string "0x1"), ("nonce", .string "0x0"),
    ("input", .string (Hex.encodeMarked input))]

theorem ofJson_bareMembers
    (sender : Address) (input : Bytes) :
    Transaction.ofJson (.object (bareMembers sender input)) =
      .ok ⟨Octets.zero 32, none, none, sender, none, 1, none, 0, input, none⟩ := by
  have hhash : Transaction.readDigest (Octets.zero 32).hex = .ok (Octets.zero 32) := by
    rw [Transaction.readDigest, Octets.parse_hex]
    rfl
  have hsender : Transaction.readAddress sender.hex = .ok sender := by
    rw [Transaction.readAddress, Octets.parse_hex]
    rfl
  have hgas : Transaction.readQuantity 64 "0x1" = .ok 1 := by
    rfl
  have hnonce : Transaction.readQuantity 64 "0x0" = .ok 0 := by
    rfl
  have hinput := Transaction.readInput_eq_ok_iff.mpr (Hex.denotes_encodeMarked input)
  simp [Transaction.ofJson, Transaction.requiredText, Transaction.optionalText, Json.member?,
    Json.find?, Json.text?, bareMembers, Except.bind, Transaction.readOptional, bind, pure,
    Except.pure, hhash, hsender, hgas, hnonce, hinput]

theorem decodeArguments_certify :
    decodeArguments certifyInputs (certifyInput.drop 4) =
      .ok (argumentsFrom 0 certifyInputs certifyValues) := by
  have hread :
      Abi.Ty.readParams (certifyInputs.map ResolvedParam.ty) (certifyInput.drop 4) =
        .ok [.address certifyOwner, .string "ipfs://meta", .array [.bool true, .bool false]] := by
    cbv
  have hcheck :
      Abi.Ty.checkParams (certifyInputs.map ResolvedParam.ty) (certifyInput.drop 4) = .ok () := by
    decide +kernel
  have hvalues := decodeValues_eq_ok_iff.mpr (Or.inr ⟨List.cons_ne_nil _ _, hread, hcheck⟩)
  exact decodeArguments_eq_ok_iff.mpr ⟨certifyValues, hvalues, rfl, rfl⟩

theorem evidence_of_confirmed_certify :
    InterfaceIndex.build [.function "certify" certifyParams] =
        .ok (⟨[certifyFunction], none⟩, []) ∧
      ((Verifier.ofIndex ⟨[certifyFunction], none⟩ "certify").verify Client.fresh
          (fun _ => .ok (.object [("result", .object (bareMembers certifyOwner certifyInput))]))
          certifyRecord).2 =
        .ok .confirmed ∧
      ∃ calldata, IsMintOf certifyRecord ⟨[certifyFunction], none⟩ "certify" calldata := by
  have howner : certifyRecord.owner? = some certifyOwner := by
    cbv
  have hmint :
      checkMint ⟨"certify", certifyFunction.signature, argumentsFrom 0 certifyInputs certifyValues⟩
        certifyRecord "certify" = .ok () :=
    checkMint_eq_ok_iff.mpr ⟨rfl, certifyOwner, "ipfs://meta", rfl, howner, rfl⟩
  have hdecode :
      (⟨[certifyFunction], none⟩ : InterfaceIndex).decodeFunction certifyInput =
        .ok ⟨"certify", certifyFunction.signature,
          argumentsFrom 0 certifyInputs certifyValues⟩ :=
    InterfaceIndex.decodeFunction_eq_ok_iff.mpr
      ⟨certifyFunction.selector, certifyFunction, _, (List.take_left' rfl).symm, rfl,
        decodeArguments_certify, rfl⟩
  have hconfirmed :
      ((Verifier.ofIndex ⟨[certifyFunction], none⟩ "certify").verify Client.fresh
          (fun _ => .ok (.object [("result", .object (bareMembers certifyOwner certifyInput))]))
          certifyRecord).2 =
        .ok .confirmed := by
    rw [Verifier.verify_eq_confirmed_iff]
    refine ⟨"0x12", _, _, _, _, rfl, rfl, rfl, ofJson_bareMembers certifyOwner certifyInput,
      ?_, hmint⟩
    simp only [Verifier.ofIndex, hdecode]
  obtain ⟨_, _, _, _, calldata, -, -, -, -, -, -, hevidence⟩ :=
    evidence_of_confirmed build_certify hconfirmed
  exact ⟨build_certify, hconfirmed, calldata, hevidence⟩

end MintWatch
