import QubitRouting.Device.Architecture
import QubitRouting.Placement.Search
import QubitRouting.Session.Files
import QubitRouting.Table.Cache
import QubitRouting.Table.Routing
import QubitRouting.Template.Routing

/-!
Routing sessions: the graph that is loaded, the table that was built for it, and the settings. A
table is valid for its own graph only, so loading another graph drops it. Some operations change the
session, the others only use it.
-/

namespace QubitRouting

structure Session where
  settings : Settings
  graph : Option Graph
  table : Option RoutingTable
  deriving DecidableEq

namespace Session

def new (settings : Settings) : Session := ⟨settings, none, none⟩

/-- An operation that may change a session. What it has changed before it fails stays changed. -/
abbrev Action := ExceptT RoutingError (StateM Session)

def run (s : Session) (a : Action α) : Except RoutingError α × Session := (ExceptT.run a).run s

def check : Except RoutingError α → Action α
  | .ok a => pure a
  | .error e => throw e

def setGraph (g : Graph) : Action Graph := do
  modify fun s => { s with table := none }
  modify fun s => { s with graph := some g }
  return g

def loadArchitecture (name : String) : Action Graph := do
  let a ← check (Architecture.ofName name)
  setGraph a.graph

def load (files : Files) (name : String) : Action Graph := do
  let text ← check (files.read name)
  let g ← check (Graph.parse text)
  setGraph g

def currentGraph (s : Session) : Except RoutingError Graph :=
  match s.graph with
  | none => .error .graphNotLoaded
  | some g => .ok g

def currentTable (s : Session) : Except RoutingError RoutingTable :=
  match s.table with
  | none => .error .tableNotBuilt
  | some t => .ok t

def build : Action RoutingTable := do
  let s ← get
  let g ← check s.currentGraph
  let t ← check (RoutingTable.build g s.settings.maxRelayMoves)
  modify fun s => { s with table := some t }
  return t

def ensureTable : Action RoutingTable := do
  if (← get).table.isNone then
    let _ ← build
  check (← get).currentTable

def accepts (g : Graph) (t : RoutingTable) : Except RoutingError Unit :=
  if g.size ≠ t.size then .error (.tableMismatch t.size g.size)
  else if g ≠ t.graph then .error (.graph .otherAdjacency)
  else .ok ()

def readCache (files : Files) (name : String) : Action RoutingTable := do
  let text ← check (files.read name)
  let t ← check (RoutingTable.ofCacheText text)
  match (← get).graph with
  | some g => check (accepts g t)
  | none => modify fun s => { s with graph := some t.graph }
  modify fun s => { s with table := some t }
  return t

def clear : Action Unit := do
  modify fun s => { s with graph := none }
  modify fun s => { s with table := none }

def writeCache (s : Session) (files : Files) (name : String) : Except RoutingError Files := do
  files.write name (← s.currentTable).cacheText

def route (s : Session) (c : Circuit) : Except RoutingError RoutedCircuit := do
  (← s.currentTable).route c

def place (s : Session) (c : Circuit) : Except RoutingError PlacementOutcome := do
  searchPlacement c (← s.currentTable).router s.settings

def routeByTemplate (s : Session) (c : Circuit) (device : String) :
    Except RoutingError RoutedCircuit := do
  (← MethodMatrix.ofName device).route s.settings.variant c

def placeByTemplate (s : Session) (c : Circuit) (device : String) :
    Except RoutingError PlacementOutcome := do
  searchPlacement c ((← MethodMatrix.ofName device).router s.settings.variant) s.settings

end Session

end QubitRouting
