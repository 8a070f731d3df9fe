import QubitRouting.Template.Method

/-!
The command line: options in their long and short forms, the commands and what each of them takes.
Arguments that do not fit are refused as a whole.
-/

namespace QubitRouting.Command

inductive OptionKind where
  | flag
  | text
  /-- The name of a file, which is not empty. -/
  | path
  deriving DecidableEq, Repr

structure OptionSpec where
  long : String
  short : Option Char
  kind : OptionKind
  deriving DecidableEq, Repr

/-- An option that was given, with its value; a flag has the empty value. -/
abbrev Given := String × String

inductive Argument where
  | word (text : String)
  | given (options : List Given)
  | awaiting (options : List Given) (last : OptionSpec)
  | help
  | version
  deriving DecidableEq, Repr

def OptionSpec.accepts (spec : OptionSpec) (value : String) : Bool :=
  spec.kind ≠ .path || value ≠ ""

def long? (specs : List OptionSpec) (body : List Char) : Option Argument :=
  let name := String.ofList (body.takeWhile (· ≠ '='))
  let value := match body.dropWhile (· ≠ '=') with
    | [] => none
    | _ :: rest => some (String.ofList rest)
  if name = "help" && value.isNone then some .help
  else if name = "version" && value.isNone then some .version
  else match specs.find? (·.long = name), value with
    | none, _ => none
    | some spec, none =>
      if spec.kind = .flag then some (.given [(name, "")]) else some (.awaiting [] spec)
    | some spec, some value =>
      if spec.kind ≠ .flag && spec.accepts value then some (.given [(name, value)]) else none

def letters? (specs : List OptionSpec) (done : List Given) : List Char → Option Argument
  | [] => some (.given done)
  | c :: rest =>
    if c = 'h' then some .help
    else if c = 'V' then some .version
    else match specs.find? (·.short = some c) with
      | none => none
      | some spec =>
        if spec.kind = .flag then letters? specs ((spec.long, "") :: done) rest
        else match rest with
          | [] => some (.awaiting done spec)
          | '=' :: value =>
            let value := String.ofList value
            if spec.accepts value then some (.given ((spec.long, value) :: done)) else none
          | value => some (.given ((spec.long, String.ofList value) :: done))

def argument? (specs : List OptionSpec) (text : String) : Option Argument :=
  match text.toList with
  | '-' :: '-' :: body => if body = [] then none else long? specs body
  | ['-'] => some (.word text)
  | '-' :: body => letters? specs [] body
  | _ => some (.word text)

def looksLikeOption (text : String) : Bool :=
  match text.toList with
  | '-' :: _ :: _ => true
  | _ => false

inductive Stop where
  | finished
  | word (text : String) (rest : List String)
  | help
  | version
  deriving DecidableEq, Repr

def scan (specs : List OptionSpec) (done : List Given) :
    List String → Option (List Given × Stop)
  | [] => some (done, .finished)
  | text :: rest =>
    if text = "--" then if rest = [] then some (done, .finished) else none
    else match argument? specs text with
      | none => none
      | some (.word text) => some (done, .word text rest)
      | some .help => some (done, .help)
      | some .version => some (done, .version)
      | some (.given options) => scan specs (options ++ done) rest
      | some (.awaiting options spec) =>
        match rest with
        | [] => none
        | value :: rest =>
          if looksLikeOption value || !spec.accepts value then none
          else scan specs ((spec.long, value) :: options ++ done) rest

inductive DeviceSource where
  | architecture (name : String)
  | description (path : String)
  | cache (path : String)
  deriving DecidableEq, Repr

structure RouteOptions where
  input : String
  output : Option String
  place : Bool
  deriving DecidableEq, Repr

inductive Task where
  | architectures
  | table (device : DeviceSource) (writeCache : Option String) (paths : Bool)
  | route (options : RouteOptions) (device : DeviceSource) (cleanup : Bool)
  | template (options : RouteOptions) (device : String) (variant : Option Variant)
  | version
  | versionNumber
  | help
  deriving DecidableEq, Repr

structure Invocation where
  config : Option String
  task : Task
  deriving DecidableEq, Repr

def commonOptions : List OptionSpec :=
  [⟨"verbose", some 'v', .flag⟩, ⟨"config", some 'c', .path⟩]

def deviceOptions : List OptionSpec :=
  [⟨"arch", some 'a', .text⟩, ⟨"graph", some 'g', .path⟩, ⟨"cache", none, .path⟩]

def fileOptions : List OptionSpec :=
  [⟨"input", some 'i', .path⟩, ⟨"output", some 'o', .path⟩]

def taskOptions? : String → Option (List OptionSpec)
  | "archs" => some []
  | "version" => some []
  | "table" => some (deviceOptions ++ [⟨"write-cache", none, .path⟩, ⟨"paths", none, .flag⟩])
  | "route" =>
    some (fileOptions ++ deviceOptions ++ [⟨"place", none, .flag⟩, ⟨"cleanup", none, .flag⟩])
  | "fixed5" =>
    some (fileOptions ++ [⟨"device", some 'd', .text⟩, ⟨"variant", none, .text⟩,
      ⟨"place", none, .flag⟩])
  | _ => none

/-- No option but the verbosity is given twice. -/
def noneRepeated : List Given → Bool
  | [] => true
  | (name, _) :: rest => (name = "verbose" || rest.all (·.1 ≠ name)) && noneRepeated rest

def has (options : List Given) (name : String) : Bool := options.any (·.1 = name)

def device? (options : List Given) : Option DeviceSource :=
  match options.lookup "arch", options.lookup "graph", options.lookup "cache" with
  | some name, none, none => some (.architecture name)
  | none, some path, none => some (.description path)
  | none, none, some path => some (.cache path)
  | _, _, _ => none

def routeOptions? (options : List Given) : Option RouteOptions := do
  return ⟨← options.lookup "input", options.lookup "output", has options "place"⟩

/-- The variant that is given; the outer option fails on an unknown one. -/
def variant? (options : List Given) : Option (Option Variant) :=
  match options.lookup "variant" with
  | none => some none
  | some name => (Variant.ofName name).toOption.map some

def task? (name : String) (options : List Given) : Option Task :=
  match name with
  | "archs" => some .architectures
  | "version" => some .version
  | "table" => do
    return .table (← device? options) (options.lookup "write-cache") (has options "paths")
  | "route" => do
    return .route (← routeOptions? options) (← device? options) (has options "cleanup")
  | "fixed5" => do
    return .template (← routeOptions? options) ((options.lookup "device").getD "qx4")
      (← variant? options)
  | _ => none

def areAcceptable (options : List Given) : Bool :=
  noneRepeated options && (variant? options).isSome

/-- The command with this name and its arguments, after options in front of the name. An empty name
of a file in the variable is refused unless options stand on both sides of the command's name. -/
def command? (config : Option String) (before : List Given) (name : String)
    (rest : List String) : Option Invocation :=
  if name = "help" then
    match rest with
    | [] => some ⟨config, .help⟩
    | [name] =>
      if name = "help" || (taskOptions? name).isSome then some ⟨config, .help⟩ else none
    | _ => none
  else do
    let specs := commonOptions ++ (← taskOptions? name)
    let (options, stop) ← scan specs [] rest
    if !areAcceptable options then none
    match stop with
    | .word .. => none
    | .version => none
    | .help => return ⟨config, .help⟩
    | .finished =>
      let given := (options.lookup "config").or (before.lookup "config")
      if config = some "" && !(has options "config" && has before "config") then none
      else return ⟨given.or config, ← task? name options⟩

/-- What the arguments ask for; `config` names the file of settings when they name none. -/
def invocation? (config : Option String) (arguments : List String) : Option Invocation := do
  let (before, stop) ← scan commonOptions [] arguments
  if !noneRepeated before then none
  match stop with
  | .finished => none
  | .help => return ⟨config, .help⟩
  | .version => return ⟨config, .versionNumber⟩
  | .word name rest => command? config before name rest

end QubitRouting.Command
