import WheelFarm.CommandLine.Grammar

/-! Reading the command line. Arguments are taken one by one. A value is read only when the next
thing begins or the arguments end, so that an unknown argument behind a malformed value is what is
found first. -/
namespace WheelFarm.CommandLine

/-- What has been read of the arguments of one command. -/
structure Progress where
  values : Values := []
  /-- The last parameter, as long as its value has not been read; no text if it has none yet. -/
  pending : Option (Parameter × Option String) := none
  /-- The arguments that may still come. -/
  left : List Parameter
  /-- Two hyphens have been given, behind which there are no options. -/
  literal : Bool := false
  deriving DecidableEq

namespace Progress

def awaits (s : Progress) : Bool :=
  match s.pending with
  | some (_, none) => true
  | _ => false

/-- Stores a value under a parameter, which has only one. -/
def store (s : Progress) (p : Parameter) (read : Except UsageError Value) :
    Except UsageError Progress := do
  if s.values.has p then throw .repeatedArgument
  return { s with values := (p, ← read) :: s.values }

def settle (s : Progress) : Except UsageError Progress :=
  match s.pending with
  | none => .ok s
  | some (_, none) => .error .missingValue
  | some (p, some raw) => { s with pending := none }.store p (p.read raw)

/-- An option whose value is the next argument. -/
def await (s : Progress) (p : Parameter) : Except UsageError Progress := do
  return { (← s.settle) with pending := some (p, none) }

/-- An option that has its value with it. -/
def attach (s : Progress) (p : Parameter) (value : List Char) : Except UsageError Progress := do
  (← s.settle).store p (p.read (String.ofList value))

/-- An option that takes no value. -/
def raise (s : Progress) (p : Parameter) : Except UsageError Progress := do
  let s ← s.settle
  match p with
  | .help => throw .helpRequested
  | .programVersion => throw .versionRequested
  | p => s.store p (.ok .raised)

/-- The value of the option that awaits one. -/
def supply (s : Progress) (value : String) : Progress :=
  { s with pending := s.pending.map fun p => (p.1, some value) }

/-- An argument that is no option. -/
def place (level : Level) (s : Progress) (argument : String) : Except UsageError Progress :=
  match s.left with
  | p :: left => do return { (← s.settle) with pending := some (p, some argument), left }
  | [] =>
    if level.commands.isEmpty || level.hasCommand argument then .error .unknownArgument
    else .error .unknownCommand

/-- An option by its long name, which an equals sign ends if a value follows. -/
def long (level : Level) (s : Progress) (argument : List Char) : Except UsageError Progress :=
  match level.long? (String.ofList (argument.takeWhile (· != '='))) with
  | none => .error .unknownArgument
  | some p =>
    match p.takesValue, argument.dropWhile (· != '=') with
    | true, [] => s.await p
    | true, _ :: value => s.attach p value
    | false, [] => s.raise p
    | false, _ :: _ => .error .surplusValue

/-- Options by their short names. The first one that takes a value has the rest for it, less an
equals sign. -/
def short (level : Level) (s : Progress) : List Char → Except UsageError Progress
  | [] => .ok s
  | c :: cs =>
    match level.short? c with
    | none => .error .unknownArgument
    | some p =>
      if p.takesValue then
        match cs with
        | [] => s.await p
        | '=' :: value => s.attach p value
        | value => s.attach p value
      else do short level (← s.raise p) cs

/-- Takes an argument that is not the name of a command. -/
def take (level : Level) (s : Progress) (argument : String) : Except UsageError Progress :=
  if s.literal then s.place level argument
  else match argument.toList with
    | ['-', '-'] => .ok { s with literal := true }
    | '-' :: '-' :: name => s.long level name
    | '-' :: c :: cs => s.short level (c :: cs)
    | _ => if s.awaits then .ok (s.supply argument) else s.place level argument

/-- Reads the last value. A configuration file that the environment names is read at every level
that names none itself. -/
def finish (s : Progress) (fallback : Option String) : Except UsageError Progress := do
  let s ← s.settle
  if let (false, some path) := (s.values.has .config, fallback) then
    let _ ← Parameter.config.read path
  return s

end Progress

/-- What is shown to someone who asks for help on a command. -/
def helpOn (level : Level) : List String → UsageError
  | [] => .helpRequested
  | name :: rest =>
    match level.commands.lookup name with
    | some below => helpOn below rest
    | none =>
      if level.hasCommand name && rest.isEmpty then .helpRequested else .unknownCommand

def conclude (fallback : Option String) (level : Level) (s : Progress) :
    Except UsageError Invocation := do
  let s ← s.finish fallback
  match level with
  | .verb v =>
    match v.command? s.values with
    | some command =>
      return { command, config := s.values.text? .config, verbose := s.values.has .verbose }
    | none => throw .missingArgument
  | _ =>
    if s.values.isEmpty && fallback.isNone then throw .nothingRequested
    else throw .missingCommand

/-- Reads the arguments that are left at a place in the tree of commands. Settings given below go
before those given above. -/
def parseAt (fallback : Option String) : List String → Level → Progress →
    Except UsageError Invocation
  | [], level, s => conclude fallback level s
  | argument :: rest, level, s =>
    if !s.literal && !s.awaits && level.hasCommand argument then
      match level.commands.lookup argument with
      | none => throw (helpOn level rest)
      | some below => do
        let i ← parseAt fallback rest below { left := below.arguments }
        let s ← s.finish fallback
        return { i with
          config := i.config <|> s.values.text? .config
          verbose := i.verbose || s.values.has .verbose }
    else do parseAt fallback rest level (← s.take level argument)

/-- Reads the command line. The environment may name a configuration file, which counts if the
arguments name none. -/
def parse (arguments : List String) (fallback : Option String) : Except UsageError Invocation := do
  let i ← parseAt fallback arguments .top { left := [] }
  return { i with config := i.config <|> fallback }

end WheelFarm.CommandLine
