import Mathlib
import MintWatch.Proofs.Chain.TransactionReply
import MintWatch.Proofs.Lists
/-!
# Sessions with a node

A client asks its queries one after the other.  What it posts depends on the query and on
how many were asked before, never on what came back; what a query comes to depends on the
query and its own reply.  Errors keep their kind on the way up: only the carrier of a
request can report that the node was not reached, and only a null result, or the carrier,
that a transaction is unknown.
-/

namespace MintWatch

namespace Query

/-- The method that a query calls. -/
def method : Query → String
  | .call method _ => method
  | .blockNumber => "eth_blockNumber"
  | .transaction _ _ => "eth_getTransactionByHash"

/-- The parameters of a query, by position. -/
def params : Query → List Json
  | .call _ params => params
  | .blockNumber => []
  | .transaction hash _ => [.string hash]

/-- What a query comes to with a reply. -/
def outcome (query : Query) (reply : Reply) : Except RpcError Answer :=
  (Client.fresh.ask query).2.interpret reply

end Query

/-- Whether a reply is an object with this result. -/
def Reply.HasResult (reply : Reply) (result : Json) : Prop :=
  ∃ members, reply = .ok (.object members) ∧ members.lookup "result" = some result

/-! ## Results of replies -/

theorem Json.find?_eq_lookup
    (key : String) (members : List (String × Json)) :
    find? key members = members.lookup key := by
  induction members with
  | nil => rfl
  | cons member rest ih =>
      obtain ⟨name, value⟩ := member
      unfold find? at ih ⊢
      rw [List.lookup_cons]
      by_cases hkey : name = key
      · simp [hkey]
      · have hother : (key == name) = false := beq_false_of_ne (Ne.symm hkey)
        rw [hother]
        simpa [hkey] using ih

theorem resultOf_eq_ok_iff_hasResult
    {method : String} {reply : Reply} {result : Json} :
    resultOf method reply = .ok result ↔ reply.HasResult result := by
  rw [resultOf_eq_ok_iff]
  unfold Reply.HasResult
  constructor
  · rintro ⟨body, rfl, hmember⟩
    cases body with
    | object members =>
        refine ⟨members, rfl, ?_⟩
        rw [← Json.find?_eq_lookup]
        exact hmember
    | _ => cases hmember
  · rintro ⟨members, rfl, hmember⟩
    refine ⟨.object members, rfl, ?_⟩
    rw [← Json.find?_eq_lookup] at hmember
    exact hmember

/-! ## What a query comes to -/

/-- What a query may come to with a reply. -/
structure IsOutcomeOf (query : Query) (reply : Reply) (outcome : Except RpcError Answer) :
    Prop where
  /-- Errors of the carrier are handed on. -/
  carried : ∀ error, reply = .error error → outcome = .error error
  /-- A bare call gives the result of the reply, whatever the result is. -/
  result : ∀ method params, query = .call method params →
    ∀ value, outcome = .ok (.json value) ↔ reply.HasResult value
  /-- A bare call has no other outcome than a result, but for faults of the reply. -/
  malformed : ∀ method params, query = .call method params →
    ∀ body, reply = .ok body → (∀ value, ¬ reply.HasResult value) →
      ∃ fault, outcome = .error (.decode fault)
  /-- Only the carrier can fail to reach the node. -/
  unreached : ∀ error, outcome = .error error → error.isTransport = true →
    reply = .error error
  /-- Only the carrier, or a null result, says that a transaction is unknown. -/
  unknown : ∀ hash, outcome = .error (.notFound hash) →
    reply = .error (.notFound hash) ∨
      reply.HasResult .null ∧ ∃ decoder, query = .transaction hash decoder

namespace Query

theorem outcome_of_error
    (query : Query) (error : RpcError) :
    query.outcome (.error error) = .error error := by
  cases query <;> rfl

theorem outcome_call
    (method : String) (params : List Json) (reply : Reply) :
    (Query.call method params).outcome reply = (resultOf method reply).map .json :=
  rfl

/-- A query fails because of what a reply says, or does not know the transaction it asks
for, or hands on an error of the carrier. -/
theorem failsOnly_outcome
    (query : Query) (reply : Reply) :
    FailsOnly
      (fun error => reply = .error error ∨ error.IsDecode ∨
        reply.HasResult .null ∧ ∃ hash decoder,
          query = .transaction hash decoder ∧ error = .notFound hash)
      (query.outcome reply) := by
  cases reply with
  | error error =>
      rw [outcome_of_error]
      exact failsOnly_error (Or.inl rfl)
  | ok body =>
      have hdecode : ∀ {α : Type} {result : Except RpcError α},
          FailsOnly RpcError.IsDecode result →
            FailsOnly
              (fun error => (.ok body : Reply) = .error error ∨ error.IsDecode ∨
                Reply.HasResult (.ok body) .null ∧ ∃ hash decoder,
                  query = .transaction hash decoder ∧ error = .notFound hash) result :=
        fun hresult => hresult.mono fun error hfault => Or.inr (Or.inl hfault)
      cases query with
      | call method params => exact (hdecode (failsOnly_resultOf method body)).map _
      | blockNumber =>
          refine ((hdecode (failsOnly_resultOf _ body)).bind fun result _ => ?_).map _
          unfold blockNumberOf
          split
          · exact hdecode (Transaction.failsOnly_readQuantity 64 _)
          · exact hdecode (failsOnly_decode _)
      | transaction hash decoder =>
          refine ((hdecode (failsOnly_resultOf _ body)).bind fun result hresult => ?_).map _
          refine (failsOnly_transactionOf hash decoder result).mono fun error hfault => ?_
          rcases hfault with hcontents | ⟨rfl, rfl⟩
          · exact Or.inr (Or.inl hcontents)
          · have hnull := resultOf_eq_ok_iff_hasResult.mp hresult
            exact Or.inr (Or.inr ⟨hnull, hash, decoder, rfl, rfl⟩)

theorem isOutcomeOf
    (query : Query) (reply : Reply) :
    IsOutcomeOf query reply (query.outcome reply) := by
  have hfails := query.failsOnly_outcome reply
  constructor
  · rintro error rfl
    exact query.outcome_of_error error
  · rintro method params rfl value
    rw [outcome_call, map_eq_ok_iff]
    simp only [Answer.json.injEq, exists_eq_right]
    exact resultOf_eq_ok_iff_hasResult
  · rintro method params rfl body rfl hnone
    cases hresult : resultOf method (.ok body) with
    | ok value => exact absurd (resultOf_eq_ok_iff_hasResult.mp hresult) (hnone value)
    | error error =>
        obtain ⟨fault, rfl⟩ := failsOnly_resultOf method body error hresult
        refine ⟨fault, ?_⟩
        rw [outcome_call, hresult]
        rfl
  · intro error hfailed htransport
    rcases hfails error hfailed with hcarried | ⟨fault, rfl⟩ | ⟨-, hash, decoder, -, rfl⟩
    · exact hcarried
    · cases htransport
    · cases htransport
  · intro hash hfailed
    rcases hfails _ hfailed with hcarried | ⟨fault, hfault⟩ | ⟨hnull, asked, decoder, hquery, hsame⟩
    · exact Or.inl hcarried
    · cases hfault
    · cases hsame
      exact Or.inr ⟨hnull, decoder, hquery⟩

end Query

/-! ## Sessions -/

namespace Client

/-- One query numbers one request, and what it comes to does not depend on the client. -/
theorem ask_spec
    (client : Client) (query : Query) :
    (client.ask query).1 = ⟨client.lastId + 1⟩ ∧
      (client.ask query).2.envelope = envelope (client.lastId + 1) query.method query.params ∧
      (client.ask query).2.interpret = query.outcome := by
  cases query <;> exact ⟨rfl, rfl, rfl⟩

theorem length_session
    (client : Client) (asked : List (Query × Reply)) :
    (client.session asked).length = asked.length := by
  induction asked generalizing client with
  | nil => rfl
  | cons entry rest ih => rw [session, List.length_cons, List.length_cons, ih]

theorem getElem?_session
    {asked : List (Query × Reply)} {position : Nat} {query : Query} {reply : Reply}
    (client : Client)
    (hasked : asked[position]? = some (query, reply)) :
    (client.session asked)[position]? =
      some (envelope (client.lastId + .ofNat (position + 1)) query.method query.params,
        query.outcome reply) := by
  induction asked generalizing client position with
  | nil => simp at hasked
  | cons entry rest ih =>
      obtain ⟨hclient, henvelope, houtcome⟩ := client.ask_spec entry.1
      rw [session]
      cases position with
      | zero =>
          rw [List.getElem?_cons_zero, Option.some.injEq] at hasked
          subst hasked
          rw [List.getElem?_cons_zero, henvelope, houtcome]
          rfl
      | succ position =>
          rw [List.getElem?_cons_succ] at hasked
          rw [List.getElem?_cons_succ, hclient, ih _ hasked, add_ofNat_succ]

theorem session_is_numbered_and_classified
    {asked : List (Query × Reply)}
    (hfew : asked.length < 2 ^ 64) :
    (Client.fresh.session asked).length = asked.length ∧
      ∀ position query reply, asked[position]? = some (query, reply) →
        ∃ outcome,
          (Client.fresh.session asked)[position]? =
              some (Json.object [("jsonrpc", .string "2.0"), ("method", .string query.method),
                ("params", .array query.params), ("id", .int (position + 1 : Nat))], outcome) ∧
            IsOutcomeOf query reply outcome := by
  refine ⟨length_session Client.fresh asked, ?_⟩
  intro position query reply hasked
  obtain ⟨hlt, -⟩ := List.getElem?_eq_some_iff.mp hasked
  have hid : ((0 : UInt64) + .ofNat (position + 1)).toNat = position + 1 := by
    rw [zero_add]
    exact UInt64.toNat_ofNat_of_lt' (show position + 1 < 2 ^ 64 by omega)
  refine ⟨query.outcome reply, ?_, query.isOutcomeOf reply⟩
  rw [getElem?_session Client.fresh hasked]
  unfold envelope Client.fresh
  rw [hid]

/-!
A session in which the node is out of reach first, gives a null result to a bare call, knows
no transaction, and gives a block number that is not a text.
-/

def hardSession : List (Query × Reply) :=
  [(.call "eth_chainId" [], .error (.status 503)),
    (.call "eth_call" [.null], .ok (.object [("id", .int 1), ("result", .null)])),
    (.transaction "0x01" none, .ok (.object [("result", .null)])),
    (.blockNumber, .ok (.object [("result", .int 7)]))]

theorem session_is_numbered_and_classified_hard :
    hardSession.length < 2 ^ 64 ∧
      (fresh.session hardSession).length = 4 ∧
      ∃ outcome,
        (fresh.session hardSession)[2]? =
            some (Json.object [("jsonrpc", .string "2.0"),
              ("method", .string "eth_getTransactionByHash"),
              ("params", .array [.string "0x01"]), ("id", .int 3)], outcome) ∧
          IsOutcomeOf (.transaction "0x01" none) (.ok (.object [("result", .null)])) outcome := by
  have hfew : hardSession.length < 2 ^ 64 := by decide
  obtain ⟨hlength, hpositions⟩ := session_is_numbered_and_classified hfew
  exact ⟨hfew, hlength, hpositions 2 _ _ rfl⟩

end Client
end MintWatch
