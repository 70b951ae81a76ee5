import MintWatch.Chain.Transaction
/-!
# Requests to a node

A client numbers its requests from one on.  Asking gives the envelope to post and the
meaning of the reply; carrying the envelope to the node is left to the caller.
-/

namespace MintWatch

/-- What posting an envelope gives: the body of the answer, or an error. -/
abbrev Reply := Except RpcError Json

/-- A node: what it replies to an envelope. -/
abbrev Node := Json → Reply

/-- A request with the meaning of its reply. -/
structure Exchange (α : Type) where
  envelope : Json
  interpret : Reply → Except RpcError α

def Exchange.answer {α : Type} (exchange : Exchange α) (node : Node) : Except RpcError α :=
  exchange.interpret (node exchange.envelope)

structure Client where
  lastId : UInt64
deriving DecidableEq

def Client.fresh : Client :=
  ⟨0⟩

def envelope (id : UInt64) (method : String) (params : List Json) : Json :=
  .object [("jsonrpc", .string "2.0"), ("method", .string method), ("params", .array params),
    ("id", .int id.toNat)]

/-- The result in a reply: its member of that name, whatever it is. -/
def resultOf (method : String) : Reply → Except RpcError Json
  | .error error => .error error
  | .ok body =>
    match body.member? "result" with
    | some result => .ok result
    | none => .error (.decode (.noResult method (body.member? "error")))

def blockNumberOf (method : String) (result : Json) : Except RpcError Nat :=
  match result.text? with
  | some text => Transaction.readQuantity 64 text
  | none => .error (.decode (.notText method result))

/-- The transaction in a result, with its input decoded if a decoder is given and accepts it. -/
def transactionOf (hash : String) (decoder : Option CallDecoder) (result : Json) :
    Except RpcError Transaction :=
  match result with
  | .null => .error (.notFound hash)
  | result =>
    (Transaction.ofJson result).map fun transaction =>
      match decoder with
      | none => transaction
      | some decode => transaction.decodeInputIfPossible decode

namespace Client

def call (client : Client) (method : String) (params : List Json) : Client × Exchange Json :=
  let id := client.lastId + 1
  (⟨id⟩, ⟨envelope id method params, resultOf method⟩)

def blockNumber (client : Client) : Client × Exchange Nat :=
  let method := "eth_blockNumber"
  let asked := client.call method []
  (asked.1, ⟨asked.2.envelope, fun reply => (asked.2.interpret reply).bind (blockNumberOf method)⟩)

def transaction (client : Client) (hash : String) (decoder : Option CallDecoder) :
    Client × Exchange Transaction :=
  let asked := client.call "eth_getTransactionByHash" [.string hash]
  (asked.1, ⟨asked.2.envelope, fun reply => (asked.2.interpret reply).bind (transactionOf hash decoder)⟩)

end Client

inductive Query where
  | call (method : String) (params : List Json)
  | blockNumber
  | transaction (hash : String) (decoder : Option CallDecoder)

inductive Answer where
  | json (result : Json)
  | blockNumber (number : Nat)
  | transaction (transaction : Transaction)

namespace Client

def ask (client : Client) : Query → Client × Exchange Answer
  | .call method params =>
    let asked := client.call method params
    (asked.1, ⟨asked.2.envelope, fun reply => (asked.2.interpret reply).map .json⟩)
  | .blockNumber =>
    let asked := client.blockNumber
    (asked.1, ⟨asked.2.envelope, fun reply => (asked.2.interpret reply).map .blockNumber⟩)
  | .transaction hash decoder =>
    let asked := client.transaction hash decoder
    (asked.1, ⟨asked.2.envelope, fun reply => (asked.2.interpret reply).map .transaction⟩)

/-- The envelopes and outcomes of queries that one client asks in turn, each with its reply. -/
def session (client : Client) : List (Query × Reply) → List (Json × Except RpcError Answer)
  | [] => []
  | (query, reply) :: rest =>
    let asked := client.ask query
    (asked.2.envelope, asked.2.interpret reply) :: session asked.1 rest

end Client
end MintWatch
