import QubitRouting.Command.Arguments
import QubitRouting.Json.Parser
import QubitRouting.Json.Printer
import QubitRouting.Session.Basic
import QubitRouting.Settings.Load
import QubitRouting.Table.Basic

/-!
Running a command over files and variables. Results go to the standard output, progress and errors
to the standard error; an error ends the command but keeps what was said before it.
-/

namespace QubitRouting.Command

structure Report where
  stdout : String
  stderr : List String
  files : Files
  deriving DecidableEq, Repr, Inhabited

/-- Why a command ended: a reason with its causes, outermost first, or a defect. -/
inductive Failure where
  | reasons (texts : List String)
  | defect
  deriving DecidableEq, Repr, Inhabited

abbrev Action := ExceptT Failure (StateM Report)

def print (text : String) : Action Unit := modify fun r => { r with stdout := r.stdout ++ text }

def printLine (text : String) : Action Unit := print (text ++ "\n")

def note (line : String) : Action Unit := modify fun r => { r with stderr := r.stderr ++ [line] }

def reasons (e : RoutingError) : List String :=
  match e with
  | .circuit cause => [e.message, cause.message]
  | .file _ fault => [e.message, fault.message]
  | _ => [e.message]

def check (context : List String) : Except RoutingError α → Action α
  | .ok a => pure a
  | .error (.defect _) => throw .defect
  | .error e => throw (.reasons (context ++ reasons e))

def checkCircuit : Except CircuitError α → Action α
  | .ok a => pure a
  | .error e => throw (.reasons [e.message])

def loadSettings (lookup : String → Option String) (config : Option String) :
    Action Settings := do
  let context := ["Failed to load configuration"]
  let text ← match config with
    | none => pure none
    | some path => some <$> check context ((← get).files.read path)
  check context (Settings.load text lookup)

def operate (context : List String) (s : Session) (a : Session.Action α) : Action Session := do
  let (result, s) := s.run a
  let _ ← check context result
  return s

def openSession (settings : Settings) (device : DeviceSource) : Action Session := do
  let s := Session.new settings
  let files := (← get).files
  match device with
  | .cache path => operate [s!"Failed to read table cache: {path}"] s (Session.readCache files path)
  | .architecture name =>
    let s ← operate [] s (Session.loadArchitecture name)
    operate [] s Session.build
  | .description path =>
    let s ← operate [s!"Failed to load architecture: {path}"] s (Session.load files path)
    operate [] s Session.build

def loadCircuit (path : String) : Action Circuit := do
  match (← get).files.contentsOf path with
  | .error .isFolder =>
    throw (.reasons [s!"Failed to read file: {path}", FileFault.message .isFolder])
  | .error _ => throw (.reasons [s!"File not found: {path}"])
  | .ok text =>
    match Json.parse? text >>= Circuit.ofJson? with
    | none => throw (.reasons [s!"Invalid circuit JSON: {path}"])
    | some c => checkCircuit c.validated

def writeCircuit (c : Circuit) (output : Option String) : Action Unit := do
  let text := c.toJson.pretty ++ "\n"
  match output with
  | none => print text
  | some path =>
    match (← get).files.replace path text with
    | .error fault => throw (.reasons [s!"Failed to write file: {path}", fault.message])
    | .ok files => modify fun r => { r with files }

def finish (c : Circuit) (output : Option String) : Action Unit := do
  note s!"✓ Routed: {c.gateCount} gates, depth {c.depth}"
  writeCircuit c output
  if let some path := output then note s!"  Output: {path}"

def listArchitectures : Action Unit := do
  printLine "qxmap Built-in architectures:\n"
  for a in Architecture.all do
    let mark := if a.bidirectional then " (bidirectional)" else ""
    printLine s!"  ● {a.name}"
    printLine s!"    Device: {a.description}"
    printLine s!"    Qubits: {a.size}"
    printLine s!"    Couplings: {a.graph.edgeCount}{mark}"
    printLine ""

def pathLine (e : (Qubit × Qubit) × RoutingEntry) : String :=
  let control := Qubit.text e.1.1
  let target := Qubit.text e.1.2
  s!"  {control} -> {target} [{e.2.cost}] {e.2.path.text}"

def showTable (s : Session) (writeCache : Option String) (paths : Bool) : Action Unit := do
  let t ← check [] s.currentTable
  printLine s!"✓ Routing table for {t.size} qubits\n"
  print t.text
  if paths then
    printLine ""
    t.entries.forM fun e => printLine (pathLine e)
  if let some path := writeCache then
    let files ← check [] (s.writeCache (← get).files path)
    modify fun r => { r with files }
    printLine ""
    printLine s!"  Cache: {path}"

def Strategy.title : Strategy → String
  | .exhaustive => "Exhaustive"
  | .greedy => "Greedy"

def Variant.title : Variant → String
  | .swap => "Swap"
  | .template => "Template"

def noteSkipped (reason : SkipReason) : Action Unit := note s!"  ! {reason.message}"

def placedCircuit (outcome : PlacementOutcome) (detail : Strategy → String) : Action Circuit := do
  match outcome with
  | .placed p =>
    let how := s!"{detail p.strategy}{p.candidates} candidates, estimate {p.estimate}"
    note s!"  Layout: {p.layout.text} ({how})"
    return p.routed.circuit
  | .skipped c reason =>
    noteSkipped reason
    return c

def routedCircuit (r : RoutedCircuit) (cleanup : Bool) : Action Circuit := do
  match r.skipped with
  | some reason =>
    noteSkipped reason
    return r.circuit
  | none => if cleanup then checkCircuit r.circuit.removeDuplicates else return r.circuit

def routeByTable (lookup : String → Option String) (config : Option String)
    (o : RouteOptions) (device : DeviceSource) (cleanup : Bool) : Action Unit := do
  let c ← loadCircuit o.input
  note s!"→ Routing {o.input} ({c.lines} lines, {c.gateCount} gates)"
  let s ← openSession (← loadSettings lookup config) device
  let result ←
    if o.place then
      placedCircuit (← check [] (s.place c)) fun strategy => Strategy.title strategy ++ ", "
    else routedCircuit (← check [] (s.route c)) cleanup
  finish result o.output

def routeByTemplate (lookup : String → Option String) (config : Option String)
    (o : RouteOptions) (device : String) (variant : Option Variant) : Action Unit := do
  let settings ← loadSettings lookup config
  let variant := variant.getD settings.variant
  let s := Session.new { settings with variant }
  let c ← loadCircuit o.input
  note s!"→ Fixed {Variant.title variant} transform of {o.input} for {device}"
  let result ←
    if o.place then placedCircuit (← check [] (s.placeByTemplate c device)) fun _ => ""
    else routedCircuit (← check [] (s.routeByTemplate c device)) false
  finish result o.output

def versionNumber : String := "0.3.0"

def versionText : String :=
  s!"qxmap v{versionNumber} - architecture-aware CNOT routing\n\n" ++
  "Components:\n" ++
  "  qxmap-ir       Circuit model and state-vector simulator\n" ++
  "  qxmap-compile  Routing tables, circuit expansion and placement\n" ++
  "  qxmap-cli      Command-line interface\n"

def helpText : String :=
  "Usage: qxmap [-v] [-c CONFIG] COMMAND\n\n" ++
  "Commands:\n" ++
  "  archs    List the built-in architectures\n" ++
  "  table    Build or load a routing table and print its cost matrix\n" ++
  "  route    Route a circuit with the routing table of a device\n" ++
  "  fixed5   Route a circuit with the fixed 5-qubit templates\n" ++
  "  version  Show version information\n"

def perform (lookup : String → Option String) (i : Invocation) : Action Unit :=
  match i.task with
  | .architectures => listArchitectures
  | .table device writeCache paths => do
    let s ← openSession (← loadSettings lookup i.config) device
    showTable s writeCache paths
  | .route o device cleanup => routeByTable lookup i.config o device cleanup
  | .template o device variant => routeByTemplate lookup i.config o device variant
  | .version => print versionText
  | .versionNumber => printLine s!"qxmap {versionNumber}"
  | .help => print helpText

structure Outcome where
  code : Nat
  report : Report
  deriving DecidableEq, Repr, Inhabited

def usageCode : Nat := 2
def failureCode : Nat := 1
def defectCode : Nat := 101

def configKey : String := "QXMAP_CONFIG"

def runInvocation (lookup : String → Option String) (files : Files) (i : Invocation) :
    Outcome :=
  match (perform lookup i).run.run ⟨"", [], files⟩ with
  | (.ok (), report) => ⟨0, report⟩
  | (.error .defect, report) => ⟨defectCode, report⟩
  | (.error (.reasons texts), report) =>
    let line := "Error: " ++ ": ".intercalate texts
    ⟨failureCode, { report with stderr := report.stderr ++ [line] }⟩

def run (lookup : String → Option String) (files : Files) (arguments : List String) : Outcome :=
  match invocation? (lookup configKey) arguments with
  | none => ⟨usageCode, ⟨"", [], files⟩⟩
  | some i => runInvocation lookup files i

def Invocation.inputs (i : Invocation) : List String :=
  let device : DeviceSource → List String
    | .architecture _ => []
    | .description path => [path]
    | .cache path => [path]
  i.config.toList ++ match i.task with
    | .table source _ _ => device source
    | .route o source _ => o.input :: device source
    | .template o _ _ => [o.input]
    | _ => []

def Invocation.output? (i : Invocation) : Option String :=
  match i.task with
  | .table _ writeCache _ => writeCache
  | .route o _ _ => o.output
  | .template o _ _ => o.output
  | _ => none

end QubitRouting.Command
