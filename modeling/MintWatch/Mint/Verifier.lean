import MintWatch.Call.Decoder
import MintWatch.Chain.Client
import MintWatch.Mint.Match
/-!
# Verifying a record

A record is verified by looking up its transaction, decoding the transaction's input
and matching the call.  A record is confirmed or rejected; only a failure to reach the
node is an error, because then nothing is known about the record.
-/

namespace MintWatch

inductive Rejection where
  | noTransaction
  | lookup (error : RpcError)
  | decode (error : AbiError)
  | mismatch (cause : MintMismatch)

namespace Rejection

def message : Rejection → String
  | .noTransaction => "no transaction hash stored"
  | .lookup error => "transaction lookup failed: " ++ error.message
  | .decode error => "input not decodable: " ++ error.message
  | .mismatch cause => cause.message

def name : Rejection → String
  | .noTransaction => "NoTransaction"
  | .lookup _ => "Lookup"
  | .decode _ => "Decode"
  | .mismatch _ => "Mismatch"

end Rejection

inductive Verdict where
  | confirmed
  | rejected (reason : Rejection)

def ContentRecord.afterVerdict (record : ContentRecord) : Verdict → ContentRecord
  | .confirmed => record.confirm
  | .rejected _ => record

structure Verifier where
  decode : CallDecoder
  mintFunction : String

namespace Verifier

def ofIndex (index : InterfaceIndex) (mintFunction : String) : Verifier :=
  ⟨index.decodeFunction, mintFunction⟩

def judgeTransaction (verifier : Verifier) (record : ContentRecord) (transaction : Transaction) :
    Verdict :=
  match transaction.decodeInput verifier.decode with
  | .error error => .rejected (.decode error)
  | .ok (call, _) =>
    match checkMint call record verifier.mintFunction with
    | .error cause => .rejected (.mismatch cause)
    | .ok () => .confirmed

def judge (verifier : Verifier) (record : ContentRecord) (found : Except RpcError Transaction) :
    Except RpcError Verdict :=
  match found with
  | .ok transaction => .ok (verifier.judgeTransaction record transaction)
  | .error error => if error.isTransport then .error error else .ok (.rejected (.lookup error))

/--
Verifies a record with the help of a node: the client after the request, if one was
needed, and the verdict.
-/
def verify (verifier : Verifier) (client : Client) (node : Node) (record : ContentRecord) :
    Client × Except RpcError Verdict :=
  match record.txHash with
  | none => (client, .ok (.rejected .noTransaction))
  | some hash =>
    let asked := client.transaction hash none
    (asked.1, verifier.judge record (asked.2.answer node))

end Verifier
end MintWatch
