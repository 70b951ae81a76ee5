import Mathlib
import MintWatch.Proofs.Mint.PassEffect
/-!
# What a verification comes to

A verification fails only if the node was not reached, and then with the error that the
request failed with.  Whatever the node answers leads to a verdict.  A record without a
transaction is settled without a request, any other by the reply to a single one; and only
a confirmation changes the record.
-/

namespace MintWatch

/-- Whether an error says that the node was not reached. -/
def RpcError.IsUnreached (error : RpcError) : Prop :=
  (∃ text, error = .transport text) ∨ ∃ code, error = .status code

theorem RpcError.isTransport_iff
    {error : RpcError} :
    error.isTransport = true ↔ error.IsUnreached := by
  unfold IsUnreached
  cases error <;> simp [isTransport]

/-- The request that a client posts for a transaction. -/
def Client.lookupRequest (client : Client) (hash : String) : Json :=
  .object [("jsonrpc", .string "2.0"), ("method", .string "eth_getTransactionByHash"),
    ("params", .array [.string hash]), ("id", .int (client.lastId + 1).toNat)]

/-- The record after a verification with this outcome. -/
def ContentRecord.afterOutcome (record : ContentRecord) :
    Except RpcError Verdict → ContentRecord
  | .ok verdict => record.afterVerdict verdict
  | .error _ => record

section Outcome

variable {verifier : Verifier} {client : Client} {node : Node} {record : ContentRecord}
  {outcome : Except RpcError Verdict} {hash : String} {error : RpcError}

/-! ## The record afterwards -/

theorem ContentRecord.afterOutcome_of_ne_confirmed
    (record : ContentRecord)
    (hverdict : outcome ≠ .ok .confirmed) :
    record.afterOutcome outcome = record := by
  cases outcome with
  | error error => rfl
  | ok verdict =>
      cases verdict with
      | confirmed => exact absurd rfl hverdict
      | rejected reason => rfl

/-- A pass saves a record only if it is confirmed, and as the verification has left it. -/
theorem VerifyPass.saved_of_hear
    {pass : VerifyPass} {left rest : List ContentRecord} {saved : ContentRecord}
    (hsaving : (pass.hear record left outcome).stage = .saving saved rest) :
    outcome = .ok .confirmed ∧ saved = record.afterOutcome outcome := by
  cases outcome with
  | error error => cases hsaving
  | ok verdict =>
      cases verdict with
      | rejected reason => cases hsaving
      | confirmed =>
          cases hsaving
          exact ⟨rfl, rfl⟩

/-! ## The outcome -/

theorem lookupOf_eq_error_iff
    {reply : Reply}
    (htransport : error.isTransport = true) :
    lookupOf hash reply = .error error ↔ reply = .error error := by
  constructor
  · intro hlost
    exact eq_error_of_lookupOf hlost htransport
  · intro hreply
    rw [hreply, lookupOf_error]

namespace Verifier

theorem judge_eq_error_iff
    {found : Except RpcError Transaction} :
    verifier.judge record found = .error error ↔
      found = .error error ∧ error.isTransport = true := by
  unfold judge
  cases found with
  | ok transaction => simp
  | error cause =>
      by_cases htransport : cause.isTransport = true
      · simp only [htransport, if_true, Except.error.injEq]
        constructor
        · intro hsame
          exact ⟨hsame, hsame ▸ htransport⟩
        · exact And.left
      · simp only [htransport, Except.error.injEq]
        constructor
        · intro hverdict
          cases hverdict
        · intro hfailed
          exact absurd (hfailed.1 ▸ hfailed.2) htransport

theorem verify_of_none
    (verifier : Verifier) (client : Client) (node : Node)
    (hnone : record.txHash = none) :
    verifier.verify client node record = (client, .ok (.rejected .noTransaction)) := by
  unfold verify
  rw [hnone]

theorem verify_of_some
    (verifier : Verifier) (client : Client) (node : Node)
    (hhash : record.txHash = some hash) :
    verifier.verify client node record =
      (⟨client.lastId + 1⟩,
        verifier.judge record (lookupOf hash (node (client.lookupRequest hash)))) :=
  verify_of_txHash hhash

theorem verify_eq_error_iff :
    (verifier.verify client node record).2 = .error error ↔
      error.IsUnreached ∧ ∃ hash, record.txHash = some hash ∧
        node (client.lookupRequest hash) = .error error := by
  rw [← RpcError.isTransport_iff]
  cases hhash : record.txHash with
  | none =>
      rw [verify_of_none verifier client node hhash]
      simp
  | some hash =>
      rw [verify_of_some verifier client node hhash, judge_eq_error_iff]
      simp only [Option.some.injEq, exists_eq_left']
      constructor
      · rintro ⟨hlost, htransport⟩
        exact ⟨htransport, (lookupOf_eq_error_iff htransport).mp hlost⟩
      · rintro ⟨htransport, hreply⟩
        exact ⟨(lookupOf_eq_error_iff htransport).mpr hreply, htransport⟩

/-- Without such an error there is a verdict, whatever the reply is. -/
theorem exists_verdict
    (hreached : ∀ hash error, record.txHash = some hash →
      node (client.lookupRequest hash) = .error error → ¬error.IsUnreached) :
    ∃ verdict, (verifier.verify client node record).2 = .ok verdict := by
  cases houtcome : (verifier.verify client node record).2 with
  | ok verdict => exact ⟨verdict, rfl⟩
  | error error =>
      obtain ⟨hunreached, hash, hhash, hreply⟩ := verify_eq_error_iff.mp houtcome
      exact absurd hunreached (hreached hash error hhash hreply)

/-- A verification fails exactly if the node was not reached for the record's transaction,
and gives a verdict otherwise.  It asks at most once, and the record stays as it was unless
it is confirmed. -/
theorem verify_fails_only_unreached
    (verifier : Verifier) (client : Client) (node : Node) (record : ContentRecord) :
    let verified := verifier.verify client node record
    let after := record.afterOutcome verified.2
    (∀ error, verified.2 = .error error ↔
      error.IsUnreached ∧ ∃ hash, record.txHash = some hash ∧
        node (client.lookupRequest hash) = .error error) ∧
    ((∀ hash error, record.txHash = some hash →
        node (client.lookupRequest hash) = .error error → ¬error.IsUnreached) →
      ∃ verdict, verified.2 = .ok verdict) ∧
    (record.txHash = none →
      verified.1 = client ∧ ∀ other : Node, verifier.verify client other record = verified) ∧
    (∀ hash, record.txHash = some hash →
      verified.1.lastId = client.lastId + 1 ∧
      ∀ other : Node, other (client.lookupRequest hash) = node (client.lookupRequest hash) →
        verifier.verify client other record = verified) ∧
    (verified.2 ≠ .ok .confirmed → after = record) ∧
    (verified.2 = .ok .confirmed → after = { record with confirmed := true }) ∧
    ∀ (pass : VerifyPass) left saved rest,
      (pass.hear record left verified.2).stage = .saving saved rest →
        verified.2 = .ok .confirmed ∧ saved = after := by
  intro verified after
  refine ⟨fun error => verify_eq_error_iff, exists_verdict, ?_, ?_,
    record.afterOutcome_of_ne_confirmed, ?_, ?_⟩
  · intro hnone
    have hverified := fun node => verify_of_none verifier client node hnone
    refine ⟨congrArg Prod.fst (hverified node), fun other => ?_⟩
    exact (hverified other).trans (hverified node).symm
  · intro hash hhash
    have hverified := fun node => verify_of_some verifier client node hhash
    refine ⟨congrArg (·.1.lastId) (hverified node), fun other hsame => ?_⟩
    rw [hverified other, hsame]
    exact (hverified node).symm
  · intro hconfirmed
    change record.afterOutcome verified.2 = _
    rw [hconfirmed]
    rfl
  · intro pass left saved rest hsaving
    exact VerifyPass.saved_of_hear hsaving

end Verifier

end Outcome
end MintWatch
