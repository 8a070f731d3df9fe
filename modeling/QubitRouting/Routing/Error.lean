import QubitRouting.Circuit.Basic

/-!
Why a device cannot be loaded or a circuit cannot be routed, and the text of each reason.
-/

namespace QubitRouting

inductive RowKind where
  | count
  | adjacency
  | cost
  | path
  deriving DecidableEq, Repr, Inhabited

def RowKind.name : RowKind → String
  | .count => "qubit count"
  | .adjacency => "adjacency row"
  | .cost => "cost row"
  | .path => "routing path"

inductive RowFault where
  | missing (kind : RowKind)
  | countNotAlone
  | badCount (word : String)
  | badEntry (word : String)
  | badNumber (word : String)
  | noMarker (word : String)
  | unknownMove (name : String)
  | fewOperands (name : String) (arity : Nat)
  | emptyPath
  | trailing
  deriving DecidableEq, Repr, Inhabited

def pathMarker : String := "cost"

def RowFault.message : RowFault → String
  | .missing kind => s!"unexpected end of input, expected {kind.name}"
  | .countNotAlone => "expected a single qubit count"
  | .badCount word => s!"invalid qubit count '{word}'"
  | .badEntry word => s!"expected 0 or 1, found '{word}'"
  | .badNumber word => s!"invalid number '{word}'"
  | .noMarker word => s!"expected '{pathMarker}', found '{word}'"
  | .unknownMove name => s!"unknown primitive '{name}'"
  | .fewOperands name arity => s!"primitive '{name}' needs {arity} operands"
  | .emptyPath => "empty routing path"
  | .trailing => "unexpected trailing data"

inductive GraphFault where
  | selfLoop (qubit : Qubit)
  | notTemplateSize (wanted size : Nat)
  | otherAdjacency
  deriving DecidableEq, Repr, Inhabited

def GraphFault.message : GraphFault → String
  | .selfLoop qubit => s!"self-loop on qubit {qubit}"
  | .notTemplateSize wanted size =>
    s!"fixed-template routing needs {wanted} qubits, graph has {size}"
  | .otherAdjacency => "cached table was built for a different adjacency"

inductive LayoutFault where
  | offDevice (line : Qubit) (image : Qubit) (size : Nat)
  | shared (image : Qubit)
  | tooShort (covered lines : Nat)
  | hugeDevice (size : Nat)
  deriving DecidableEq, Repr, Inhabited

def LayoutFault.message : LayoutFault → String
  | .offDevice line image size => s!"line {line} mapped to {image.text}, device has {size} qubits"
  | .shared image => s!"{image.text} assigned to more than one line"
  | .tooShort covered lines => s!"layout covers {covered} lines, circuit has {lines}"
  | .hugeDevice size => s!"device size {size}"

inductive SettingsFault where
  | exhaustiveLimit (limit maximum : Nat)
  | noRelayMoves
  | badVariable (key value : String)
  | unknownVariant (name : String)
  | unreadable
  deriving DecidableEq, Repr, Inhabited

def SettingsFault.message : SettingsFault → String
  | .exhaustiveLimit limit maximum => s!"exhaustive_limit {limit} exceeds the maximum of {maximum}"
  | .noRelayMoves => "max_relay_moves must be at least 1"
  | .badVariable key value => s!"{key}: invalid value '{value}'"
  | .unknownVariant name => s!"unknown fixed-5 variant '{name}' (expected swap or template)"
  | .unreadable => "not a mapping of settings"

inductive Defect where
  | noTarget
  | lineOutside
  | overflow
  deriving DecidableEq, Repr, Inhabited

inductive FileFault where
  /-- There is no file, or a folder on the way to it is missing. -/
  | missing
  /-- A file stands where a folder has to be. -/
  | notFolder
  | isFolder
  | nameTooLong
  | nulInName
  deriving DecidableEq, Repr, Inhabited

def FileFault.message : FileFault → String
  | .missing => "No such file or directory (os error 2)"
  | .notFolder => "Not a directory (os error 20)"
  | .isFolder => "Is a directory (os error 21)"
  | .nameTooLong => "File name too long (os error 36)"
  | .nulInName => "file name contained an unexpected NUL byte"

inductive RoutingError where
  | circuit (error : CircuitError)
  | file (path : String) (fault : FileFault)
  | row (line : Nat) (fault : RowFault)
  | sizeMismatch (declared row found : Nat)
  | graph (fault : GraphFault)
  | unreachable (control target : Qubit)
  | unsupportedGate (gate : String) (controls : Nat)
  | offDevice (qubit : Qubit) (size : Nat)
  | graphNotLoaded
  | tableNotBuilt
  | tableMismatch (table graph : Nat)
  | layout (fault : LayoutFault)
  | unknownArchitecture (name : String)
  | settings (fault : SettingsFault)
  | defect (defect : Defect)
  deriving DecidableEq, Repr, Inhabited

def RoutingError.message : RoutingError → String
  | .circuit error => s!"IR error: {error.message}"
  | .file path fault => s!"I/O error on '{path}': {fault.message}"
  | .row line fault => s!"Parse error at line {line}: {fault.message}"
  | .sizeMismatch declared index found =>
    s!"Architecture declares {declared} qubits but row {index} has {found} entries"
  | .graph fault => s!"Invalid connectivity graph: {fault.message}"
  | .unreachable control target => s!"Routing failed: no path from {control.text} to {target.text}"
  | .unsupportedGate gate controls =>
    s!"Unsupported gate '{gate}': {controls} controls, at most one is supported"
  | .offDevice qubit size => s!"Qubit {qubit.text} outside device with {size} qubits"
  | .graphNotLoaded => "No connectivity graph loaded"
  | .tableNotBuilt => "Routing table not built"
  | .tableMismatch covered size =>
    s!"Routing table covers {covered} qubits but the graph has {size}"
  | .layout fault => s!"Invalid layout: {fault.message}"
  | .unknownArchitecture name => s!"Unknown architecture '{name}'"
  | .settings fault => s!"Invalid configuration: {fault.message}"
  | .defect _ => "internal error"

end QubitRouting
