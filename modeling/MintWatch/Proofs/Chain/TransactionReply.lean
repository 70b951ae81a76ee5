import Mathlib
import MintWatch.Chain.Client
import MintWatch.Proofs.Fallible
/-!
# Replies to the request for a transaction

What a reply says about a transaction depends on the reply and the hash only, not on the
number of the request.  A failure to reach the node is never the fault of a reply's
contents: it is found exactly where posting the request has failed so.
-/

namespace MintWatch

/-- Whether a result is no failure to reach the node. -/
def IsReached {α : Type} (result : Except RpcError α) : Prop :=
  ∀ error, result = .error error → error.isTransport = false

theorem isReached_ok
    {α : Type}
    (value : α) :
    IsReached (.ok value : Except RpcError α) :=
  failsOnly_ok value

/-- Whether an error is a fault of what the node returned. -/
def RpcError.IsDecode (error : RpcError) : Prop :=
  ∃ fault, error = .decode fault

section Contents

variable {α ε : Type}

theorem failsOnly_decode
    (fault : ResponseFault) :
    FailsOnly RpcError.IsDecode (.error (.decode fault) : Except RpcError α) :=
  failsOnly_error ⟨fault, rfl⟩

theorem failsOnly_mapError_decode
    (result : Except ε α) (fault : ε → ResponseFault) :
    FailsOnly RpcError.IsDecode (result.mapError fun error => .decode (fault error)) := by
  cases result with
  | error error => exact failsOnly_decode (fault error)
  | ok value => exact failsOnly_ok value

theorem failsOnly_resultOf
    (method : String) (body : Json) :
    FailsOnly RpcError.IsDecode (resultOf method (.ok body)) := by
  unfold resultOf
  simp only
  split
  · exact failsOnly_ok _
  · exact failsOnly_decode _

theorem resultOf_eq_ok_iff
    {method : String} {reply : Reply} {result : Json} :
    resultOf method reply = .ok result ↔
      ∃ body, reply = .ok body ∧ body.member? "result" = some result := by
  unfold resultOf
  cases reply with
  | error error => simp
  | ok body => cases hresult : body.member? "result" <;> simp [hresult]

namespace Transaction

theorem failsOnly_requiredText
    (field : String) (json : Json) :
    FailsOnly RpcError.IsDecode (requiredText field json) := by
  unfold requiredText
  split
  · exact failsOnly_ok _
  · exact failsOnly_decode _

theorem failsOnly_readOptional
    {read : String → Except RpcError α}
    (hread : ∀ text, FailsOnly RpcError.IsDecode (read text))
    (text : Option String) :
    FailsOnly RpcError.IsDecode (readOptional read text) := by
  cases text with
  | none => exact failsOnly_ok none
  | some text => exact (hread text).map some

theorem failsOnly_readQuantity
    (bits : Nat) (text : String) :
    FailsOnly RpcError.IsDecode (readQuantity bits text) :=
  failsOnly_mapError_decode (Quantity.read bits text) (ResponseFault.badQuantity text)

/-- A member that is missing or wrong is a fault of the reply. -/
theorem failsOnly_ofJson
    (json : Json) :
    FailsOnly RpcError.IsDecode (ofJson json) := by
  have hdigest : ∀ text, FailsOnly RpcError.IsDecode (readDigest text) :=
    fun text => failsOnly_mapError_decode (Octets.parse 32 text) (ResponseFault.badDigest text)
  have haddress : ∀ text, FailsOnly RpcError.IsDecode (readAddress text) :=
    fun text => failsOnly_mapError_decode (Octets.parse 20 text) (ResponseFault.badAddress text)
  have hinput : ∀ text, FailsOnly RpcError.IsDecode (readInput text) :=
    fun text => failsOnly_mapError_decode _ ResponseFault.badInput
  have hrequired : ∀ {β : Type} (field : String) {read : String → Except RpcError β},
      (∀ text, FailsOnly RpcError.IsDecode (read text)) →
        FailsOnly RpcError.IsDecode ((requiredText field json).bind read) :=
    fun field _ hread => (failsOnly_requiredText field json).bind fun text _ => hread text
  unfold ofJson
  refine (hrequired _ hdigest).bind fun hash _ => ?_
  refine (failsOnly_readOptional hdigest _).bind fun blockHash _ => ?_
  refine (failsOnly_readOptional (failsOnly_readQuantity 64) _).bind fun blockNumber _ => ?_
  refine (hrequired _ haddress).bind fun sender _ => ?_
  refine (failsOnly_readOptional haddress _).bind fun recipient _ => ?_
  refine (hrequired _ (failsOnly_readQuantity 64)).bind fun gas _ => ?_
  refine (failsOnly_readOptional (failsOnly_readQuantity 128) _).bind fun gasPrice _ => ?_
  refine (hrequired _ (failsOnly_readQuantity 64)).bind fun nonce _ => ?_
  refine (hrequired _ hinput).bind fun rawInput _ => ?_
  exact failsOnly_ok _

end Transaction

/-- A result that is no transaction is a fault of the reply, except that null says that the
node does not know the transaction. -/
theorem failsOnly_transactionOf
    (hash : String) (decoder : Option CallDecoder) (result : Json) :
    FailsOnly (fun error => error.IsDecode ∨ result = .null ∧ error = .notFound hash)
      (transactionOf hash decoder result) := by
  unfold transactionOf
  split
  · exact failsOnly_error (Or.inr ⟨rfl, rfl⟩)
  · exact ((Transaction.failsOnly_ofJson _).map _).mono fun error hdecode => Or.inl hdecode

end Contents

/-- What a reply to the request for a transaction says about it. -/
def lookupOf (hash : String) (reply : Reply) : Except RpcError Transaction :=
  (Client.fresh.transaction hash none).2.interpret reply

section Lookup

variable {reply : Reply} {hash : String} {error : RpcError}

theorem lookupOf_error
    (hash : String) (error : RpcError) :
    lookupOf hash (.error error) = .error error :=
  rfl

theorem isReached_lookupOf_ok
    (hash : String) (body : Json) :
    IsReached (lookupOf hash (.ok body)) := by
  have hnamed :
      FailsOnly (fun error => error.IsDecode ∨ error = .notFound hash)
        (lookupOf hash (.ok body)) :=
    ((failsOnly_resultOf _ body).mono fun error hdecode => Or.inl hdecode).bind
      fun result _ =>
        (failsOnly_transactionOf hash none result).mono fun error hfault => hfault.imp_right And.right
  intro error hfailed
  rcases hnamed error hfailed with ⟨fault, rfl⟩ | rfl
  · rfl
  · rfl

theorem eq_error_of_lookupOf
    (hlost : lookupOf hash reply = .error error)
    (htransport : error.isTransport = true) :
    reply = .error error := by
  cases reply with
  | error other =>
      rw [lookupOf_error] at hlost
      rw [Except.error.inj hlost]
  | ok body =>
      have hreached := isReached_lookupOf_ok hash body error hlost
      rw [hreached] at htransport
      cases htransport

end Lookup

namespace Node

/-- Whether the node's replies depend only on the transaction that is asked for. -/
def RepliesByHash (node : Node) (replies : String → Reply) : Prop :=
  ∀ (client : Client) (hash : String),
    node (client.transaction hash none).2.envelope = replies hash

/-- Whether the node gives these replies, except that requests may fail to reach it. -/
def RepliesOrFails (node : Node) (replies : String → Reply) : Prop :=
  ∀ (client : Client) (hash : String),
    node (client.transaction hash none).2.envelope = replies hash ∨
      ∃ error : RpcError, error.isTransport = true ∧
        node (client.transaction hash none).2.envelope = .error error

/-- The node that gives these replies. -/
def byHash (replies : String → Reply) : Node := fun request =>
  match request.member? "params" with
  | some (.array [.string hash]) => replies hash
  | _ => .ok .null

theorem repliesByHash_byHash
    (replies : String → Reply) :
    (byHash replies).RepliesByHash replies := by
  intro client hash
  rfl

theorem RepliesByHash.repliesOrFails
    {node : Node} {replies : String → Reply}
    (hnode : node.RepliesByHash replies) :
    node.RepliesOrFails replies :=
  fun client hash => Or.inl (hnode client hash)

end Node
end MintWatch
