import DepAtlas.Config
import DepAtlas.Text.Order

/-! # Arguments of the command line

Arguments are read from left to right. An option that takes a value holds it back until the next
option or operand comes, and only then is the value checked; so of two faults the one told first is not
always the one that stands first.
-/

namespace DepAtlas.CommandLine

/-- Why arguments are not run. The first two are wishes rather than faults. -/
inductive UsageError where
  | displayHelp
  | displayVersion
  | missingArguments
  | unknownArgument
  | invalidSubcommand
  | missingRequired
  | conflict
  | invalidValue
  | valueValidation
  | tooManyValues
  deriving DecidableEq, Repr

namespace UsageError

def name : UsageError → String
  | displayHelp => "DisplayHelp"
  | displayVersion => "DisplayVersion"
  | missingArguments => "DisplayHelpOnMissingArgumentOrSubcommand"
  | unknownArgument => "UnknownArgument"
  | invalidSubcommand => "InvalidSubcommand"
  | missingRequired => "MissingRequiredArgument"
  | conflict => "ArgumentConflict"
  | invalidValue => "InvalidValue"
  | valueValidation => "ValueValidation"
  | tooManyValues => "TooManyValues"

def message : UsageError → String
  | displayHelp | displayVersion => ""
  | missingArguments => "a command is required"
  | unknownArgument => "unexpected argument"
  | invalidSubcommand => "unrecognized subcommand"
  | missingRequired => "a required argument was not provided"
  | conflict => "an argument cannot be used multiple times"
  | invalidValue => "a value is required but none was supplied"
  | valueValidation => "invalid value"
  | tooManyValues => "unexpected value"

end UsageError

/-! ## Options -/

inductive ValueType where
  | path
  | text
  | count
  deriving DecidableEq, Repr

/-- What may be done with an option. -/
inductive OptionKind where
  | flag
  /-- It takes a value, once. -/
  | single (type : ValueType)
  /-- It takes a value each time it is given. -/
  | repeated (type : ValueType)
  deriving DecidableEq, Repr

structure OptionSpec where
  name : String
  kind : OptionKind
  deriving DecidableEq, Repr

inductive Subcommand where
  | serve
  | mcpServe
  | request
  | crawl
  | index
  | worker
  deriving DecidableEq, Repr

namespace Subcommand

def name : Subcommand → String
  | serve => "serve"
  | mcpServe => "mcp-serve"
  | request => "request"
  | crawl => "crawl"
  | index => "index"
  | worker => "worker"

def all : List Subcommand := [serve, mcpServe, request, crawl, index, worker]

def ofName? (s : String) : Option Subcommand := all.find? (·.name = s)

def workspaceOptions : List OptionSpec :=
  [⟨"root", .single .path⟩, ⟨"max-depth", .single .count⟩, ⟨"alias", .repeated .text⟩,
    ⟨"exclude", .repeated .text⟩, ⟨"no-ignore", .flag⟩, ⟨"no-warmup", .flag⟩, ⟨"no-watch", .flag⟩,
    ⟨"debounce-ms", .single .count⟩, ⟨"max-files", .single .count⟩, ⟨"no-tsconfig", .flag⟩]

def hostOptions : List OptionSpec :=
  [⟨"process-worker", .flag⟩, ⟨"request-timeout-ms", .single .count⟩]

def options : Subcommand → List OptionSpec
  | serve | mcpServe => workspaceOptions ++ hostOptions
  | request => workspaceOptions ++
    [⟨"method", .single .text⟩, ⟨"params", .single .text⟩, ⟨"params-file", .single .path⟩,
      ⟨"id", .single .text⟩]
  | crawl => workspaceOptions ++ [⟨"depth", .single .count⟩]
  | index => workspaceOptions
  | worker => []

/-- Whether the command takes an operand. -/
def takesOperand (c : Subcommand) : Bool := c = crawl

/-- The options that must be given. -/
def required : Subcommand → List String
  | request => ["method"]
  | _ => []

end Subcommand

/-! ## Reading -/

/-- What has been read of the arguments of a command. -/
structure Reading where
  /-- The options given, in order, each with its value; a flag has none. -/
  given : List (String × Option String) := []
  operand : Option String := none
  /-- An option that takes a value, with the value if it has come. -/
  pending : Option (OptionSpec × Option String) := none
  /-- Whether only operands follow. -/
  trailing : Bool := false

namespace Reading

def has (r : Reading) (name : String) : Bool := r.given.any (·.1 = name)

/-- Whether a value can stand for an option. -/
def checkValue (type : ValueType) (value : String) : Except UsageError Unit :=
  match type with
  | .path => if value = "" then .error .invalidValue else .ok ()
  | .text => .ok ()
  | .count => if (Settings.number? value).isSome then .ok () else .error .valueValidation

/-- Takes an option with its value. -/
def accept (r : Reading) (o : OptionSpec) (value : Option String) : Except UsageError Reading := do
  let taken := { r with given := r.given ++ [(o.name, value)] }
  match o.kind, value with
  | .flag, _ => if r.has o.name then throw .conflict else return taken
  | .single _, none | .repeated _, none => throw .invalidValue
  | .single type, some v =>
    if r.has o.name then throw .conflict
    checkValue type v
    return taken
  | .repeated type, some v =>
    checkValue type v
    return taken

/-- Takes the option that was held back. -/
def resolve (r : Reading) : Except UsageError Reading :=
  match r.pending with
  | none => .ok r
  | some (o, value) => { r with pending := none }.accept o value

/-- Takes an operand. -/
def takeOperand (c : Subcommand) (r : Reading) (arg : String) : Except UsageError Reading :=
  if c.takesOperand && r.operand.isNone then do
    return { ← r.resolve with operand := some arg }
  else .error .unknownArgument

/-- The name and the attached value of an option with two dashes. -/
def splitLong (s : String) : String × Option String :=
  let name := s.toList.takeWhile (· ≠ '=')
  match s.toList.drop name.length with
  | [] => (String.ofList name, none)
  | _ :: value => (String.ofList name, some (String.ofList value))

/-- Takes an option with two dashes. -/
def takeLong (c : Subcommand) (r : Reading) (s : String) : Except UsageError Reading := do
  let (name, attached) := splitLong s
  if name = "help" then
    if attached.isSome then throw .tooManyValues
    let _ ← r.resolve
    throw .displayHelp
  match c.options.find? (·.name = name), attached with
  | none, _ => throw .unknownArgument
  | some o, some v =>
    if o.kind = .flag then throw .tooManyValues
    (← r.resolve).accept o (some v)
  | some o, none =>
    let r ← r.resolve
    if o.kind = .flag then r.accept o none else return { r with pending := some (o, none) }

/-- Takes the next argument of a command. -/
def take (c : Subcommand) (r : Reading) (arg : String) : Except UsageError Reading :=
  if r.trailing then r.takeOperand c arg
  else
    match arg.toList with
    | ['-', '-'] => .ok { r with trailing := true }
    | '-' :: '-' :: rest => r.takeLong c (String.ofList rest)
    | '-' :: 'h' :: _ => do
      let _ ← r.resolve
      throw .displayHelp
    | '-' :: _ :: _ => .error .unknownArgument
    | _ =>
      match r.pending with
      | some (o, none) => .ok { r with pending := some (o, some arg) }
      | _ => r.takeOperand c arg

/-- Reads all arguments of a command. -/
def ofArguments (c : Subcommand) (args : List String) : Except UsageError Reading := do
  let r ← args.foldlM (take c) {}
  let r ← r.resolve
  if (c.takesOperand && r.operand.isNone) || !c.required.all r.has then throw .missingRequired
  return r

def value? (r : Reading) (name : String) : Option String := (r.given.lookup name).join

def values (r : Reading) (name : String) : List String :=
  (r.given.filter (·.1 = name)).filterMap (·.2)

def count? (r : Reading) (name : String) : Option Nat := (r.value? name).bind Settings.number?

end Reading

/-! ## Commands -/

/-- Settings of a workspace, as given on the command line. -/
structure WorkspaceArguments where
  root : String
  maxDepth : Option Nat
  aliases : List String
  exclude : List String
  noIgnore : Bool
  noWarmup : Bool
  noWatch : Bool
  debounce : Option Nat
  maxFiles : Option Nat
  noCompilerPaths : Bool
  deriving DecidableEq, Repr

namespace WorkspaceArguments

def ofReading (r : Reading) : WorkspaceArguments where
  root := (r.value? "root").getD "."
  maxDepth := r.count? "max-depth"
  aliases := r.values "alias"
  exclude := r.values "exclude"
  noIgnore := r.has "no-ignore"
  noWarmup := r.has "no-warmup"
  noWatch := r.has "no-watch"
  debounce := r.count? "debounce-ms"
  maxFiles := r.count? "max-files"
  noCompilerPaths := r.has "no-tsconfig"

/-- An alias and what it stands for. -/
def aliasOf (raw : String) : Except Failure (String × String) :=
  match Reading.splitLong raw with
  | (_, none) => .error (.plain ("alias " ++ Text.shown raw ++ " must look like PREFIX=DIR"))
  | (opening, some directory) =>
    if opening = "" || directory = "" then
      .error (.plain ("alias " ++ Text.shown raw ++ " has an empty prefix or directory"))
    else .ok (opening, directory)

/-- The table of aliases: a later one takes the place of an earlier one with the same opening. -/
def aliasTable (pairs : List (String × String)) : List (String × String) :=
  (Text.sortedOnce (pairs.map (·.1))).filterMap fun key => (pairs.reverse.lookup key).map (key, ·)

/-- The configuration of the workspace. -/
def config (a : WorkspaceArguments) (s : Settings) : Except Failure WorkspaceConfig := do
  let d := WorkspaceConfig.default s
  let pairs ← a.aliases.mapM aliasOf
  return {
    root := a.root
    maxDepth := a.maxDepth.getD d.maxDepth
    aliases := aliasTable pairs
    exclude := a.exclude
    respectIgnoreFiles := !a.noIgnore
    warmup := !a.noWarmup
    watch := !a.noWatch
    debounce := a.debounce.getD d.debounce
    maxFiles := a.maxFiles.getD d.maxFiles
    compilerPaths := !a.noCompilerPaths }

end WorkspaceArguments

/-- How a server keeps its worker. -/
structure HostArguments where
  /-- Whether the worker is to be a process of its own. -/
  process : Bool
  requestTimeout : Option Nat
  deriving DecidableEq, Repr

def HostArguments.ofReading (r : Reading) : HostArguments :=
  ⟨r.has "process-worker", r.count? "request-timeout-ms"⟩

inductive Command where
  | serve (workspace : WorkspaceArguments) (host : HostArguments)
  | mcpServe (workspace : WorkspaceArguments) (host : HostArguments)
  | request (workspace : WorkspaceArguments) (method params : String)
      (paramsFile : Option String) (id : String)
  | crawl (workspace : WorkspaceArguments) (entry : String) (depth : Option Nat)
  | index (workspace : WorkspaceArguments)
  | worker
  deriving DecidableEq, Repr

namespace Command

def ofReading (c : Subcommand) (r : Reading) : Command :=
  let workspace := WorkspaceArguments.ofReading r
  match c with
  | .serve => serve workspace (.ofReading r)
  | .mcpServe => mcpServe workspace (.ofReading r)
  | .request => request workspace ((r.value? "method").getD "") ((r.value? "params").getD "\x7b\x7d")
      (r.value? "params-file") ((r.value? "id").getD "1")
  | .crawl => crawl workspace (r.operand.getD "") (r.count? "depth")
  | .index => index workspace
  | .worker => worker

/-- What comes of a wish for help about commands; each is below the one before. -/
def helpAbout : List String → UsageError
  | [] => .displayHelp
  | [name] => if name = "help" || (Subcommand.ofName? name).isSome then .displayHelp else .invalidSubcommand
  | _ :: _ :: _ => .invalidSubcommand

/-- Whether a name is one of a command. -/
def isName (s : String) : Bool := s = "help" || (Subcommand.ofName? s).isSome

/-- Looks for the command after two dashes, where it must not stand. -/
def afterDashes : List String → UsageError
  | [] => .missingArguments
  | arg :: _ => if isName arg then .unknownArgument else .invalidSubcommand

/-- The command that arguments give. -/
def ofArguments : List String → Except UsageError Command
  | [] => .error .missingArguments
  | arg :: args =>
    if arg = "help" then .error (helpAbout args)
    else
      match Subcommand.ofName? arg with
      | some c => (Reading.ofArguments c args).map (ofReading c)
      | none =>
        match arg.toList with
        | ['-', '-'] => .error (afterDashes args)
        | '-' :: '-' :: rest =>
          match Reading.splitLong (String.ofList rest) with
          | ("help", none) => .error .displayHelp
          | ("version", none) => .error .displayVersion
          | ("help", some _) | ("version", some _) => .error .tooManyValues
          | _ => .error .unknownArgument
        | '-' :: 'h' :: _ => .error .displayHelp
        | '-' :: 'V' :: _ => .error .displayVersion
        | '-' :: _ :: _ => .error .unknownArgument
        | _ => .error .invalidSubcommand

end Command

end DepAtlas.CommandLine
