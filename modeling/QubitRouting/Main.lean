import QubitRouting.Command.Run

/-!
The program: reads the files that the command line names, runs the command, and writes what it
produced.
-/

open QubitRouting QubitRouting.Command

def variableNames : List String :=
  [configKey, Settings.slackKey, Settings.limitKey, Settings.relaysKey, Settings.variantKey]

def readVariables : IO (List (String × String)) :=
  variableNames.filterMapM fun name => do
    return (← IO.getEnv name).map (name, ·)

def isFolder (name : String) : IO Bool := do
  match ← (IO.FS.realPath name).toBaseIO with
  | .ok path => path.isDir
  | .error _ => return false

def waysTo (name : String) : List Way :=
  let way := Way.ofName name
  (List.range (way.length + 1)).map way.take

def nameOf (way : Way) : String :=
  match way with
  | [] => "."
  | [""] => "/"
  | way => "/".intercalate way

def readFiles (names : List String) : IO Files := do
  let contents ← names.filterMapM fun (name : String) => do
    match ← (IO.FS.readFile name).toBaseIO with
    | .ok text => return some (Way.ofName name, text)
    | .error _ => return none
  let folders ← (names.flatMap waysTo).filterM fun way => isFolder (nameOf way)
  return ⟨contents, folders⟩

def main (arguments : List String) : IO UInt32 := do
  let found ← readVariables
  let lookup (name : String) : Option String := found.lookup name
  match invocation? (lookup configKey) arguments with
  | none =>
    IO.eprint helpText
    return usageCode.toUInt32
  | some i =>
    let files ← readFiles (i.inputs ++ i.output?.toList)
    let outcome := runInvocation lookup files i
    IO.print outcome.report.stdout
    outcome.report.stderr.forM IO.eprintln
    if let some path := i.output? then
      if let .ok text := outcome.report.files.contentsOf path then
        if (files.contentsOf path).toOption ≠ some text then IO.FS.writeFile path text
    return outcome.code.toUInt32
