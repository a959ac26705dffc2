/-!
# Arguments

What the program can be asked: to simulate a scenario, or to list the constraints of a store.  Two
options may stand before the command or after it, and the scenario of a simulation is an option of
its own.

## The rules of reading

* An option with a value takes it after an equals sign or from the next argument, whatever that
  says, as long as it does not look like an option itself.  A single letter takes it without a
  space as well.
* No option may be given twice on the same side of the command.  On both sides, the one behind the
  command wins.
* An argument of two dashes ends the options, and behind it nothing is understood.
* A value must not be empty.  Whether it is, is only looked at when the next option begins or the
  arguments end, so an argument that is not understood at all is reported first.
-/

namespace Automation
namespace CommandLine

/-- Why arguments are not carried out. -/
inductive UsageError where
  | invalidSubcommand
  | missingRequiredArgument
  | invalidValue
  | unknownArgument
  | argumentConflict
  | tooManyValues
  | displayHelp
  | displayVersion
  deriving DecidableEq, Repr

/-- What the program is asked to do. -/
inductive Command where
  | simulate (input : String)
  | constraints
  deriving DecidableEq, Repr

/-- Arguments as understood.  Without a command there is nothing to do but to explain the usage. -/
structure Invocation where
  database : Option String
  command : Option Command
  deriving DecidableEq, Repr

/-- Which side of the command an argument stands on, and of which command. -/
inductive Level where
  | top
  | simulate
  | constraints
  deriving DecidableEq, Repr

/-- The options. -/
inductive Switch where
  | json
  | database
  | input
  | help
  | version
  deriving DecidableEq, Repr

namespace Switch

/-- Whether an option takes a value. -/
def takesValue : Switch → Bool
  | .database | .input => true
  | _ => false

/-- Whether an option may stand on a side. -/
def availableAt : Switch → Level → Bool
  | .input, level => level = .simulate
  | .version, level => level = .top
  | _, _ => true

/-- The option of a long name. -/
def ofLong? (level : Level) (name : String) : Option Switch :=
  let found : Option Switch := match name with
    | "json" => some .json
    | "database" => some .database
    | "input" => some .input
    | "help" => some .help
    | "version" => some .version
    | _ => none
  found.filter fun s => s.availableAt level

/-- The option of a letter. -/
def ofShort? (level : Level) (c : Char) : Option Switch :=
  let found : Option Switch := match c with
    | 'i' => some .input
    | 'h' => some .help
    | 'V' => some .version
    | _ => none
  found.filter fun s => s.availableAt level

end Switch

/-- The options of one side that have been read. -/
structure Collected where
  json : Bool
  database : Option String
  input : Option String
  deriving DecidableEq, Repr

/-- The side being read.  An option whose value is still to come, or has come and not been looked
at, is pending. -/
structure Side where
  level : Level
  collected : Collected
  pending : Option (Switch × Option String)
  literal : Bool
  deriving DecidableEq, Repr

namespace Side

/-- A side of which nothing has been read. -/
def start (level : Level) : Side := ⟨level, ⟨false, none, none⟩, none, false⟩

/-- Takes an option with a value. -/
def take (s : Side) (o : Switch) (value : String) : Except UsageError Side :=
  let c := s.collected
  let before := if o = .database then c.database else c.input
  if before.isSome then .error .argumentConflict
  else if value.isEmpty then .error .invalidValue
  else
    .ok { s with collected :=
      if o = .database then { c with database := some value } else { c with input := some value } }

/-- Settles what is pending. -/
def resolve (s : Side) : Except UsageError Side :=
  match s.pending with
  | none => .ok s
  | some (_, none) => .error .invalidValue
  | some (o, some value) => { s with pending := none }.take o value

/-- Takes an option without a value. -/
def takeFlag (s : Side) (o : Switch) : Except UsageError Side := do
  let s ← s.resolve
  match o with
  | .json =>
    if s.collected.json then .error .argumentConflict
    else .ok { s with collected := { s.collected with json := true } }
  | .version => .error .displayVersion
  | _ => .error .displayHelp

/-- Takes an option with the value that is attached to it, if there is one. -/
def takeSwitch (s : Side) (o : Switch) (attached : Option String) : Except UsageError Side :=
  if o.takesValue then do
    let s ← s.resolve
    match attached with
    | some value => s.take o value
    | none => .ok { s with pending := some (o, none) }
  else
    match attached with
    | some _ => .error .tooManyValues
    | none => s.takeFlag o

/-- Takes an argument that begins with two dashes. -/
def takeLong (s : Side) (body : List Char) : Except UsageError Side :=
  let name := String.ofList (body.takeWhile (· ≠ '='))
  let attached := match body.dropWhile (· ≠ '=') with
    | [] => none
    | _ :: value => some (String.ofList value)
  match Switch.ofLong? s.level name with
  | none => .error .unknownArgument
  | some o => s.takeSwitch o attached

/-- Takes an argument that begins with one dash.  A letter with a value takes the rest as its
value; no other letter lets anything follow. -/
def takeShort (s : Side) (letter : Char) (rest : List Char) : Except UsageError Side :=
  match Switch.ofShort? s.level letter with
  | none => .error .unknownArgument
  | some o =>
    if o.takesValue then
      s.takeSwitch o <| match rest with
        | [] => none
        | '=' :: value => some (String.ofList value)
        | value => some (String.ofList value)
    else s.takeFlag o

/-- What is wrong with an argument in a place where none can stand. -/
def misplaced (s : Side) (arg : String) : UsageError :=
  if s.level = .top ∧ ¬ (s.literal ∧ ["simulate", "constraints", "help"].contains arg) then
    .invalidSubcommand
  else .unknownArgument

/-- Takes an argument that is not the name of a command. -/
def takeArgument (s : Side) (arg : String) : Except UsageError Side :=
  if s.literal then .error (s.misplaced arg)
  else
    match arg.toList with
    | ['-', '-'] => .ok { s with literal := true }
    | '-' :: '-' :: body => s.takeLong body
    | '-' :: letter :: rest => s.takeShort letter rest
    | _ =>
      match s.pending with
      | some (o, none) => .ok { s with pending := some (o, some arg) }
      | _ => .error (s.misplaced arg)

/-- Whether the name of a command may stand next. -/
def expectsCommand (s : Side) : Bool :=
  let awaitsValue := match s.pending with
    | some (_, none) => true
    | _ => false
  s.level = .top && !s.literal && !awaitsValue

end Side

/-- The answer to a request for help, alone or on one command, which may be the request itself. -/
def helpOn : List String → UsageError
  | [] => .displayHelp
  | [name] =>
    if ["help", "simulate", "constraints"].contains name then .displayHelp else .invalidSubcommand
  | _ => .invalidSubcommand

/-- Puts the two sides of a command together. -/
def combine (outer inner : Collected) (command : Option Command) : Invocation :=
  ⟨inner.database.or outer.database, command⟩

/-- The end of the arguments. -/
def finish (outer : Option Side) (inner : Side) : Except UsageError Invocation := do
  let done ← inner.resolve
  match outer with
  | none => .ok ⟨done.collected.database, none⟩
  | some outer =>
    let command ← match done.level, done.collected.input with
      | .simulate, some input => .ok (.simulate input)
      | .simulate, none => .error .missingRequiredArgument
      | _, _ => .ok .constraints
    let outer ← outer.resolve
    .ok (combine outer.collected done.collected (some command))

/-- Reads arguments: `outer` is the side before the command once there is one, `inner` the side
being read. -/
def readFrom (outer : Option Side) (inner : Side) : List String → Except UsageError Invocation
  | [] => finish outer inner
  | arg :: rest =>
    if inner.expectsCommand ∧ arg = "simulate" then readFrom (some inner) (.start .simulate) rest
    else if inner.expectsCommand ∧ arg = "constraints" then
      readFrom (some inner) (.start .constraints) rest
    else if inner.expectsCommand ∧ arg = "help" then .error (helpOn rest)
    else
      match inner.takeArgument arg with
      | .error e => .error e
      | .ok inner => readFrom outer inner rest

/-- Reads arguments. -/
def read (args : List String) : Except UsageError Invocation := readFrom none (.start .top) args

end CommandLine
end Automation
