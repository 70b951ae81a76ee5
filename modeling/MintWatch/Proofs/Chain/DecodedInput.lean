import Mathlib
import MintWatch.Call.Decoder
import MintWatch.Chain.Client
import MintWatch.Proofs.Chain.TransactionMembers
/-!
# The call that a transaction remembers

A transaction that has been read remembers no call.  Decoding its input data makes it
remember the call, and a decode that fails leaves it as it was.  So after any replacements
of the input data and any attempts to decode it, the transaction remembers the call that was
decoded last, and has changed in nothing but that and the data.  Asking a node for a
transaction with a decoder is asking without one and then attempting to decode.
-/

namespace MintWatch

/-- What the holder of a transaction may do with its input data. -/
inductive InputStep where
  | replace (rawInput : Bytes)
  | decode (decoder : CallDecoder)

/-- The data that a step puts in. -/
def InputStep.rawInput? : InputStep → Option Bytes
  | .replace rawInput => some rawInput
  | .decode _ => none

namespace Transaction

/-- What a step gives back, if it is an attempt to decode, and the transaction it leaves. -/
def perform (transaction : Transaction) :
    InputStep → Option (Except AbiError DecodedCall) × Transaction
  | .replace rawInput => (none, transaction.withRawInput rawInput)
  | .decode decoder =>
    (some ((transaction.decodeInput decoder).map Prod.fst),
      transaction.decodeInputIfPossible decoder)

/-- The transaction that some steps leave. -/
def after (transaction : Transaction) : List InputStep → Transaction
  | [] => transaction
  | step :: rest => (transaction.perform step).2.after rest

/-- What the attempts to decode give back among some steps, in order. -/
def attempts (transaction : Transaction) : List InputStep → List (Except AbiError DecodedCall)
  | [] => []
  | step :: rest =>
    (transaction.perform step).1.toList ++ (transaction.perform step).2.attempts rest

/-- The call that was decoded last among some steps. -/
def lastDecoded? (transaction : Transaction) (steps : List InputStep) : Option DecodedCall :=
  ((transaction.attempts steps).filterMap Except.toOption).getLast?

/-! ## One step -/

theorem decodeInputIfPossible_eq
    (transaction : Transaction) (decoder : CallDecoder) :
    transaction.decodeInputIfPossible decoder =
      { transaction with
        input := (decoder transaction.rawInput).toOption.or transaction.input } := by
  unfold decodeInputIfPossible decodeInput
  cases decoder transaction.rawInput <;> rfl

theorem perform_decode_of_error
    {transaction : Transaction} {decoder : CallDecoder} {error : AbiError}
    (hfails : decoder transaction.rawInput = .error error) :
    transaction.perform (.decode decoder) = (some (.error error), transaction) := by
  simp only [perform, decodeInput, decodeInputIfPossible_eq, hfails]
  rfl

theorem perform_decode_of_ok
    {transaction : Transaction} {decoder : CallDecoder} {call : DecodedCall}
    (hdecodes : decoder transaction.rawInput = .ok call) :
    transaction.perform (.decode decoder) =
      (some (.ok call), { transaction with input := some call }) := by
  simp only [perform, decodeInput, decodeInputIfPossible_eq, hdecodes]
  rfl

/-- A step writes the data that it puts in and the call that it decodes, and nothing else. -/
theorem perform_writes
    (transaction : Transaction) (step : InputStep) :
    (transaction.perform step).2 =
      { transaction with
        rawInput := step.rawInput?.getD transaction.rawInput
        input := ((transaction.perform step).1.bind Except.toOption).or transaction.input } := by
  cases step with
  | replace rawInput => rfl
  | decode decoder =>
      cases hdecoded : decoder transaction.rawInput with
      | ok call =>
          rw [perform_decode_of_ok hdecoded]
          rfl
      | error error =>
          rw [perform_decode_of_error hdecoded]
          rfl

/-! ## Many steps -/

theorem lastDecoded?_cons
    (transaction : Transaction) (step : InputStep) (rest : List InputStep) :
    transaction.lastDecoded? (step :: rest) =
      ((transaction.perform step).2.lastDecoded? rest).or
        ((transaction.perform step).1.bind Except.toOption) := by
  unfold lastDecoded?
  rw [attempts, List.filterMap_append, List.getLast?_append]
  cases (transaction.perform step).1 with
  | none => rfl
  | some attempt => cases attempt <;> rfl

theorem after_eq
    (transaction : Transaction) (steps : List InputStep) :
    transaction.after steps =
      { transaction with
        rawInput := (steps.filterMap InputStep.rawInput?).getLast?.getD transaction.rawInput
        input := (transaction.lastDecoded? steps).or transaction.input } := by
  induction steps generalizing transaction with
  | nil => rfl
  | cons step rest ih =>
      have hraw : ((step :: rest).filterMap InputStep.rawInput?).getLast? =
          (rest.filterMap InputStep.rawInput?).getLast?.or step.rawInput? := by
        rw [List.filterMap_cons]
        cases step.rawInput? with
        | none => simp
        | some rawInput => simp [List.getLast?_cons]
      rw [after, ih, lastDecoded?_cons, hraw, Option.getD_or, Option.or_assoc,
        perform_writes transaction step]

end Transaction

/-! ## Asking a node -/

theorem transactionOf_decoder
    (hash : String) (decoder : CallDecoder) (result : Json) :
    transactionOf hash (some decoder) result =
      (transactionOf hash none result).map fun transaction =>
        transaction.decodeInputIfPossible decoder := by
  unfold transactionOf
  split
  · rfl
  · cases Transaction.ofJson result <;> rfl

theorem input_of_transactionOf
    {hash : String} {result : Json} {transaction : Transaction}
    (hfound : transactionOf hash none result = .ok transaction) :
    transaction.input = none := by
  unfold transactionOf at hfound
  split at hfound
  · cases hfound
  · obtain ⟨read, hread, rfl⟩ := map_eq_ok_iff.mp hfound
    exact (Transaction.ofJson_eq_ok_iff.mp hread).input

namespace Client

variable {client : Client} {hash : String} {reply : Reply}

theorem interpret_decoder
    (client : Client) (hash : String) (decoder : CallDecoder) (reply : Reply) :
    (client.transaction hash (some decoder)).2.interpret reply =
      ((client.transaction hash none).2.interpret reply).map fun transaction =>
        transaction.decodeInputIfPossible decoder := by
  change (resultOf _ reply).bind (transactionOf hash (some decoder)) =
    ((resultOf _ reply).bind (transactionOf hash none)).map _
  cases resultOf "eth_getTransactionByHash" reply with
  | error error => rfl
  | ok result => exact transactionOf_decoder hash decoder result

theorem input_of_interpret
    {transaction : Transaction}
    (hfound : (client.transaction hash none).2.interpret reply = .ok transaction) :
    transaction.input = none := by
  obtain ⟨result, -, hresult⟩ := bind_eq_ok_iff.mp hfound
  exact input_of_transactionOf hresult

theorem interpret_decoder_eq_ok_iff
    {decoder : CallDecoder} {transaction : Transaction} :
    (client.transaction hash (some decoder)).2.interpret reply = .ok transaction ↔
      ∃ bare, (client.transaction hash none).2.interpret reply = .ok bare ∧ bare.input = none ∧
        transaction = { bare with input := (decoder bare.rawInput).toOption } := by
  rw [interpret_decoder, map_eq_ok_iff]
  constructor
  · rintro ⟨bare, hbare, rfl⟩
    have hnone := input_of_interpret hbare
    refine ⟨bare, hbare, hnone, ?_⟩
    rw [Transaction.decodeInputIfPossible_eq, hnone, Option.or_none]
  · rintro ⟨bare, hbare, hnone, rfl⟩
    refine ⟨bare, hbare, ?_⟩
    rw [Transaction.decodeInputIfPossible_eq, hnone, Option.or_none]

end Client

namespace Transaction

/-- A transaction remembers the call that was decoded last, and steps change nothing else of
it but the data; a decode that fails changes nothing.  Asking for a transaction with a
decoder fails as without one, and otherwise decodes the input data if that is possible. -/
theorem input_is_last_decoded :
    (∀ (client : Client) (hash : String) (reply : Reply) (decoder : CallDecoder),
      (∀ error, (client.transaction hash (some decoder)).2.interpret reply = .error error ↔
        (client.transaction hash none).2.interpret reply = .error error) ∧
      ∀ transaction, (client.transaction hash (some decoder)).2.interpret reply = .ok transaction ↔
        ∃ bare, (client.transaction hash none).2.interpret reply = .ok bare ∧
          bare.input = none ∧
          transaction = { bare with input := (decoder bare.rawInput).toOption }) ∧
    (∀ json transaction steps, ofJson json = .ok transaction →
      (transaction.after steps).input = transaction.lastDecoded? steps) ∧
    (∀ (transaction : Transaction) (steps : List InputStep), transaction.after steps =
      { transaction with
        rawInput := (steps.filterMap InputStep.rawInput?).getLast?.getD transaction.rawInput
        input := (transaction.lastDecoded? steps).or transaction.input }) ∧
    ∀ (transaction : Transaction) (decoder : CallDecoder),
      (∀ error, decoder transaction.rawInput = .error error →
        transaction.perform (.decode decoder) = (some (.error error), transaction)) ∧
      ∀ call, decoder transaction.rawInput = .ok call →
        transaction.perform (.decode decoder) =
          (some (.ok call), { transaction with input := some call }) := by
  refine ⟨?_, ?_, after_eq, ?_⟩
  · intro client hash reply decoder
    refine ⟨fun error => ?_, fun transaction => Client.interpret_decoder_eq_ok_iff⟩
    rw [Client.interpret_decoder, map_eq_error_iff]
  · intro json transaction steps hread
    rw [after_eq, (ofJson_eq_ok_iff.mp hread).input, Option.or_none]
  · intro transaction decoder
    exact ⟨fun error => perform_decode_of_error, fun call => perform_decode_of_ok⟩

/-! A call is decoded, the data is replaced by data of no known function, and an attempt to
decode that fails. -/

def pingIndex : InterfaceIndex :=
  ⟨[⟨⟨[0x5C, 0x36, 0xB1, 0x86], rfl⟩, "ping", []⟩], none⟩

def pingCall : DecodedCall :=
  ⟨"ping", "ping()", []⟩

def pingSteps : List InputStep :=
  [.decode pingIndex.decodeFunction, .replace [0xDE, 0xAD, 0xBE, 0xEF],
    .decode pingIndex.decodeFunction]

def pingMembers : List (String × Json) :=
  [("hash", .string "0x0000000000000000000000000000000000000000000000000000000000000012"),
    ("from", .string "0x00000000000000000000000000000000000000aa"),
    ("gas", .string "0x5208"), ("nonce", .string "0x0"), ("input", .string "0x5c36b186")]

def pingTransaction : Transaction :=
  ⟨Octets.ofNat 32 0x12, none, none, Octets.ofNat 20 0xAA, none, 21000, none, 0,
    [0x5C, 0x36, 0xB1, 0x86], none⟩

theorem ofJson_ping :
    ofJson (.object pingMembers) = .ok pingTransaction := by
  rfl

theorem input_is_last_decoded_ping :
    ofJson (.object pingMembers) = .ok pingTransaction ∧
      (pingTransaction.after pingSteps).input = some pingCall ∧
      ∃ error, (pingTransaction.withRawInput [0xDE, 0xAD, 0xBE, 0xEF]).perform
          (.decode pingIndex.decodeFunction) =
        (some (.error error), pingTransaction.withRawInput [0xDE, 0xAD, 0xBE, 0xEF]) := by
  have hread : ofJson (.object pingMembers) = .ok pingTransaction := ofJson_ping
  obtain ⟨-, hruns, -, hattempts⟩ := input_is_last_decoded
  have hfails := (hattempts (pingTransaction.withRawInput [0xDE, 0xAD, 0xBE, 0xEF])
    pingIndex.decodeFunction).1 _ rfl
  have hlast : pingTransaction.lastDecoded? pingSteps = some pingCall := by
    rfl
  exact ⟨hread, (hruns _ _ pingSteps hread).trans hlast, _, hfails⟩

end Transaction
end MintWatch
