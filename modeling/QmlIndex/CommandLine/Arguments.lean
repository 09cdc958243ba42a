/-! # Arguments

What the command line asks for. Options stand before or after the name of the command; some are common to
all commands. Whatever is not understood is a usage error.
-/

namespace QmlIndex.CommandLine

inductive Command where
  /-- Load what is stored and scan the workspace. -/
  | index
  /-- Scan, then follow changes until interrupted. -/
  | watch
  /-- Show the entry of one document. -/
  | file (path : String)
  /-- Show a module, or a component of it. -/
  | resolve (module : String) (component version : Option String)
  /-- List the modules. -/
  | modules (builtins : Bool)
  /-- Count what is stored. -/
  | stats
  /-- Forget everything. -/
  | clear
  /-- Write a settings file. -/
  | initConfig (force : Bool)
  deriving DecidableEq, Repr, Inhabited

/-- A command with the options that are common to all. -/
structure Invocation where
  path : String
  config : Option String
  command : Command
  deriving DecidableEq, Repr, Inhabited

/-- Why the arguments are no command to run. -/
inductive Stop where
  | usage
  | help
  | version
  deriving DecidableEq, Repr, Inhabited

/-- What an option wants. -/
inductive Wants where
  | nothing
  | text
  /-- A path is a text that is not empty. -/
  | path
  /-- Nothing more: the arguments end here. -/
  | stop (s : Stop)
  deriving DecidableEq, Repr, Inhabited

/-- An option, by its long and its short name. -/
structure Switch where
  long : String
  short : Option Char
  wants : Wants
  deriving DecidableEq, Repr, Inhabited

def helpSwitch : Switch := ⟨"help", some 'h', .stop .help⟩

/-- The options of all commands. -/
def commonSwitches : List Switch :=
  [⟨"verbose", some 'v', .nothing⟩, ⟨"path", some 'p', .path⟩, ⟨"config", some 'c', .path⟩, helpSwitch]

/-- The options before the command. -/
def topSwitches : List Switch := commonSwitches ++ [⟨"version", some 'V', .stop .version⟩]

/-! ## Reading -/

/-- The options that were given, with their values, and the arguments that are no options. -/
structure Given where
  values : List (String × String) := []
  positionals : List String := []
  deriving DecidableEq, Repr, Inhabited

namespace Given

def get? (g : Given) (long : String) : Option String := (g.values.find? fun v => v.1 == long).map Prod.snd

def has (g : Given) (long : String) : Bool := (g.get? long).isSome

/-- Note an option; none may be given twice. -/
def note (g : Given) (s : Switch) (value : String) : Except Stop Given :=
  if g.has s.long then .error .usage
  else if s.wants = .path && value.isEmpty then .error .usage
  else .ok { g with values := g.values ++ [(s.long, value)] }

end Given

/-- An option that was read: it is complete, or its value is the next argument. -/
inductive Read where
  | complete (g : Given)
  | pending (s : Switch) (g : Given)
  deriving Inhabited

/-- Read an option whose value, if any, is attached to it. -/
def readSwitch (g : Given) (s : Switch) (attached : Option String) : Except Stop Read :=
  match s.wants, attached with
  | .stop why, none => .error why
  | .stop _, some _ => .error .usage
  | .nothing, none => do return .complete (← g.note s "")
  | .nothing, some _ => .error .usage
  | _, some value => do return .complete (← g.note s value)
  | _, none => if g.has s.long then .error .usage else .ok (.pending s g)

/-- Read a cluster of short options. The first that wants a value takes the rest of the cluster for it. -/
def readCluster (switches : List Switch) (g : Given) : List Char → Except Stop Read
  | [] => .ok (.complete g)
  | c :: rest =>
    match switches.find? fun s => s.short == some c with
    | none => .error .usage
    | some s =>
      match s.wants with
      | .text | .path =>
        match rest with
        | [] => readSwitch g s none
        | '=' :: value => readSwitch g s (some (String.ofList value))
        | value => readSwitch g s (some (String.ofList value))
      | _ => do
        match ← readSwitch g s none with
        | .complete g => readCluster switches g rest
        | .pending s g => return .pending s g

/-- Whether an argument is written as an option. -/
def isOption (arg : List Char) : Bool := arg.head? == some '-' && arg.length > 1

/-- Read an argument that is written as an option. -/
def readOption (switches : List Switch) (g : Given) (arg : List Char) : Except Stop Read :=
  match arg with
  | '-' :: '-' :: long =>
    let name := String.ofList (long.takeWhile (· != '='))
    let attached := match long.dropWhile (· != '=') with
      | _ :: value => some (String.ofList value)
      | [] => none
    match switches.find? fun s => s.long == name with
    | some s => readSwitch g s attached
    | none => .error .usage
  | '-' :: cluster => readCluster switches g cluster
  | _ => .error .usage

/-- Read arguments up to the first that is no option, if `stopAtName`, or to their end. The answer has
the arguments that were not read. -/
def readAll (switches : List Switch) (stopAtName : Bool) (pending : Option Switch) (g : Given) :
    List String → Except Stop (Given × List String)
  | [] => if pending.isSome then .error .usage else .ok (g, [])
  | arg :: rest =>
    match pending with
    | some s =>
      if isOption arg.toList then .error .usage
      else do readAll switches stopAtName none (← g.note s arg) rest
    | none =>
      if arg = "--" then
        .ok ({ g with positionals := g.positionals ++ rest }, [])
      else if isOption arg.toList then do
        match ← readOption switches g arg.toList with
        | .complete g => readAll switches stopAtName none g rest
        | .pending s g => readAll switches stopAtName (some s) g rest
      else if stopAtName then .ok (g, arg :: rest)
      else readAll switches stopAtName none { g with positionals := g.positionals ++ [arg] } rest

/-! ## Commands -/

/-- The options of each command. -/
def commandSwitches : List (String × List Switch) :=
  [("index", []), ("watch", []), ("file", []),
    ("resolve", [⟨"component", none, .text⟩, ⟨"version", none, .text⟩]),
    ("modules", [⟨"builtins", none, .nothing⟩]), ("stats", []), ("clear", []),
    ("init-config", [⟨"force", some 'f', .nothing⟩])]

/-- The command that a name and its arguments make. -/
def command? (name : String) (g : Given) : Option Command :=
  match name, g.positionals with
  | "index", [] => some .index
  | "watch", [] => some .watch
  | "file", [path] => if path.isEmpty then none else some (.file path)
  | "resolve", [module] => some (.resolve module (g.get? "component") (g.get? "version"))
  | "modules", [] => some (.modules (g.has "builtins"))
  | "stats", [] => some .stats
  | "clear", [] => some .clear
  | "init-config", [] => some (.initConfig (g.has "force"))
  | _, _ => none

/-- Whether a request for help names something there is help for. -/
def isHelpTopic : List String → Bool
  | [] => true
  | [name] => name == "help" || commandSwitches.any fun c => c.1 == name
  | _ => false

/-- Read a command line. Of an option that stands before and after the command, the latter counts. -/
def parse (args : List String) : Except Stop Invocation := do
  let (top, rest) ← readAll topSwitches true none {} args
  match rest with
  | "help" :: topics => if isHelpTopic topics then .error .help else .error .usage
  | name :: rest =>
    match commandSwitches.find? fun c => c.1 == name with
    | none => .error .usage
    | some (_, own) =>
      let (g, _) ← readAll (commonSwitches ++ own) false none {} rest
      match command? name g with
      | some command =>
        return { command
                 path := ((g.get? "path").orElse fun _ => top.get? "path").getD "."
                 config := (g.get? "config").orElse fun _ => top.get? "config" }
      | none => .error .usage
  | [] => .error .usage

end QmlIndex.CommandLine
