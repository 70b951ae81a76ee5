import MintWatch.CommandLine
import MintWatch.Mint.Pass
import MintWatch.Schedule.Scheduler
import MintWatch.Settings.Environment
import MintWatch.Storage.Reclaim
import Std.Time.DateTime.Timestamp
/-!
# The program

The program writes each request to the node as a line of its output, reads the body of
the reply as a line of its input, and reports to the error stream.  Records and blobs
are held in memory for as long as it runs.
-/

namespace MintWatch

structure Service where
  verifier : Verifier
  client : Client
  contents : ContentTable
  objects : ObjectTable
  blobs : BlobStore
  scheduler : Scheduler

namespace Service

def report (events : List LogEvent) : IO Unit :=
  events.forM fun event => IO.eprintln event.line

def post (envelope : Json) : IO Reply := do
  let output ← IO.getStdout
  output.putStrLn envelope.compact
  output.flush
  let line ← (← IO.getStdin).getLine
  if line.isEmpty then return .error (.transport "the input has ended")
  match Json.read? line with
  | some body => return .ok body
  | none => return .error (.decode (.reported "the reply is no JSON document"))

def look (path : String) : IO (Except FileFault FileEntry) := do
  try
    return .ok (.file (.ok (← IO.FS.readFile path)))
  catch error =>
    match error with
    | .noFileOrDirectory .. => return .error .notFound
    | error => return .ok (.file (.error (.other (toString error))))

def filesAt (path : Option String) : IO Files := do
  match path with
  | none => return fun _ => .error .notFound
  | some path =>
    let entry ← look path
    return fun other => if other = path then entry else .error .notFound

def now : IO Timestamp := do
  let time := (← Std.Time.Timestamp.now).val
  return ⟨time.second.val, time.nano.val.toNat⟩

/-- The request that the next step of a verification pass makes, if it makes one. -/
def request? (run : VerifyRun) : Option Json :=
  match run.pass.stage with
  | .asking (record :: _) =>
    record.txHash.map fun hash => (run.client.transaction hash none).2.envelope
  | _ => none

def verify (service : Service) : IO (Service × RunOutcome) := do
  let pass := VerifyPass.start .none service.contents
  let mut run : VerifyRun := ⟨pass, service.contents, service.client⟩
  for _ in [0 : 2 * pass.total + 1] do
    let reply ←
      match request? run with
      | some envelope => post envelope
      | none => pure (.error (.transport "nothing was asked"))
    run := run.step service.verifier (fun _ => reply) .none
  report run.pass.log
  let outcome : RunOutcome :=
    match run.pass.outcome with
    | .ok () => .success
    | .error error => .failure error.chain
  return ({ service with contents := run.table, client := run.client }, outcome)

def reclaim (service : Service) : IO (Service × RunOutcome) := do
  let run := ReclaimRun.complete .none (← now) service.objects service.blobs
  report run.pass.log
  let outcome : RunOutcome :=
    match run.pass.outcome with
    | .ok () => .success
    | .error text => .failure [text]
  return ({ service with objects := run.table, blobs := run.blobs }, outcome)

def perform : Service → List Dispatch → IO Service
  | service, [] => return service
  | service, dispatch :: rest => do
    let (service, outcome) ←
      if dispatch.name = verifyTaskName then service.verify else service.reclaim
    report (dispatch.report outcome)
    perform service rest

def schedule (service : Service) (name : String) (every : Duration) : IO Service := do
  report (Scheduler.registrationEvents service.scheduler.period name every)
  return { service with scheduler := service.scheduler.add name every }

def runOnce (service : Service) : IO Unit := do
  report [service.scheduler.onceEvent]
  let _ ← service.perform service.scheduler.onceEach.2

partial def runForever (service : Service) : IO Unit := do
  IO.sleep (UInt32.ofNat (service.scheduler.period.nanoseconds / 1000000))
  let (scheduler, dispatched) := service.scheduler.tick
  runForever (← ({ service with scheduler } : Service).perform dispatched)

def greet (service : Service) : IO Service := do
  let (client, exchange) := service.client.blockNumber
  match exchange.interpret (← post exchange.envelope) with
  | .ok head => report [.info "connected to node" [("head", toString head)]]
  | .error error => report [.warn ("node unreachable: " ++ error.message) []]
  return { service with client }

def start (settings : Settings) (index : InterfaceIndex) : IO Service := do
  let service : Service :=
    { verifier := Verifier.ofIndex index settings.mintFunction
      client := .fresh
      contents := .empty
      objects := .empty
      blobs := .empty
      scheduler := .new (Duration.ofSeconds settings.intervals.tick) }
  let service ← service.greet
  let service ← service.schedule verifyTaskName (Duration.ofSeconds settings.intervals.verify)
  service.schedule reclaimTaskName (Duration.ofSeconds settings.intervals.reclaim)

def fail {α : Type} (chain : List String) : IO α :=
  throw (IO.userError (String.intercalate ": " chain))

def run (options : Options) : IO Unit := do
  let environment ← Environment.read fun name => IO.getEnv name
  let path := options.settingsPath.or environment.settingsPath?
  let settings ←
    match Settings.load environment (← filesAt path) options.settingsPath with
    | .ok settings => pure settings
    | .error fault => fail fault.chain
  let settings := { settings with rpcUrl := options.rpcUrl.getD settings.rpcUrl }
  report [.info "configuration loaded"
    [("source", path.getD "defaults"), ("rpc", settings.rpcUrl)]]
  let interface ←
    match settings.interface (← filesAt settings.interfacePath) with
    | .ok interface => pure interface
    | .error fault => fail fault.chain
  match InterfaceIndex.build interface with
  | .error fault => fail [(AbiError.invalidDescriptor fault).message]
  | .ok (index, replaced) =>
    report (replaced.map IndexedFunction.replacedEvent)
    report [.info "contract interface indexed" [("functions", toString index.size)]]
    let service ← start settings index
    if options.once then service.runOnce
    else
      report [service.scheduler.startedEvent]
      service.runForever

end Service
end MintWatch

def main (arguments : List String) : IO UInt32 := do
  match MintWatch.Command.parse arguments with
  | .error fault =>
    IO.eprintln ("error: " ++ fault.message)
    IO.eprintln MintWatch.Command.usage
    return 2
  | .ok .help =>
    IO.println MintWatch.Command.usage
    return 0
  | .ok .version =>
    IO.println "mintcheck 0.1.0"
    return 0
  | .ok (.run options) =>
    MintWatch.Service.run options
    return 0
