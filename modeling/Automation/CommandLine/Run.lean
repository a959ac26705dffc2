import Automation.CommandLine.Arguments
import Automation.Simulation.Run

/-!
# Carrying out arguments

A command reads what it needs, does its work on a store, and prints.  Where texts and stores are
kept is left to a host.

## Why a host

The command line is the one place that touches the outside.  Everything it asks of the outside is a
field of `Host`, over any monad, so the same commands run on the real file system and on a disk that
is a value, and what is known of the one is known of the other.

## Order of failures

A scenario is read and understood before the store is opened, so a bad scenario leaves no store
behind.  What a simulation wrote is kept even if it fails later; what was still waiting to be
written is lost then.
-/

namespace Automation
namespace CommandLine

/-- What a command asks of the outside. -/
structure Host (m : Type → Type) where
  /-- The text of a file, if there is one that holds text. -/
  readText : String → m (Option String)
  /-- The store at a path, made if there is none, unless there can be none. -/
  openStore : String → m (Option Store)
  /-- Keeps the tables of the store at a path. -/
  saveStore : String → Tables → m Unit
  /-- Where the store is if nobody says so. -/
  standardStore : m String
  /-- The present. -/
  present : m Instant
  /-- Prints a line. -/
  print : String → m Unit

/-- Why a command was not carried out. -/
inductive Failure where
  | usage (e : UsageError)
  /-- The file of a scenario cannot be read. -/
  | unreadableScenario (path : String)
  /-- The file of a scenario holds something else. -/
  | invalidScenario (path : String)
  /-- The store cannot be opened. -/
  | unopenedStore (path : String)
  | simulation (e : SimulationError)
  | storage (e : StorageError)
  deriving DecidableEq, Repr

/-- What a usage error says. -/
def UsageError.message : UsageError → String
  | .invalidSubcommand => "unrecognized subcommand"
  | .missingRequiredArgument => "a required argument was not provided"
  | .invalidValue => "a value is required for an option but none was supplied"
  | .unknownArgument => "unexpected argument"
  | .argumentConflict => "an option cannot be used multiple times"
  | .tooManyValues => "unexpected value for an option"
  | .displayHelp => "help requested"
  | .displayVersion => "version requested"

/-- What a failure says. -/
def Failure.message : Failure → String
  | .usage e => e.message
  | .unreadableScenario path => s!"Failed to read {path}"
  | .invalidScenario path => s!"Invalid scenario {path}"
  | .unopenedStore path => s!"Failed to open {path}"
  | .simulation e => e.message
  | .storage e => e.message

/-! ## Lines of the constraint list -/

/-- Blanks up to a width. -/
def blanks (width : Nat) (s : String) : String :=
  String.ofList (List.replicate (width - s.length) ' ')

/-- A text at the left of a column. -/
def alignLeft (width : Nat) (s : String) : String := s ++ blanks width s

/-- A text at the right of a column. -/
def alignRight (width : Nat) (s : String) : String := blanks width s ++ s

/-- One line of four columns.  A text that is too wide for its column is kept whole. -/
def tableLine (id range count occurrences : String) : String :=
  " ".intercalate
    [alignLeft 24 id, alignRight 12 range, alignRight 8 count, alignRight 12 occurrences]

/-- The line of a constraint. -/
def constraintLine (c : Constraint) (occurrences : Nat) : String :=
  tableLine c.id (toString c.range.toMillis) (toString c.count) (toString occurrences)

/-- What is printed where no command is given. -/
def usageLine : String :=
  "Usage: [--json] [--database <DATABASE>] [simulate --input <INPUT> | constraints]"

/-! ## The commands -/

section Commands

variable {m : Type → Type} [Monad m] (host : Host m)

/-- Opens the store at a path. -/
def openStore (path : String) : ExceptT Failure m Store := do
  match ← host.openStore path with
  | some store => return store
  | none => throw (.unopenedStore path)

/-- Reads the scenario of a file. -/
def readScenario (path : String) : ExceptT Failure m Scenario := do
  match ← host.readText path with
  | none => throw (.unreadableScenario path)
  | some text =>
    match (Json.readDraft? text).bind (Scenario.decode? .objectOrArray) with
    | none => throw (.invalidScenario path)
    | some scenario => return scenario

/-- Prints the constraints of a store with the number of their occurrences. -/
def printConstraints : List Constraint → Store → ExceptT Failure m Unit
  | [], _ => pure ()
  | c :: rest, store => do
    match store.readOccurrences c.id with
    | (.error e, _) => throw (.storage e)
    | (.ok occurrences, store) =>
      host.print (constraintLine c occurrences.length)
      printConstraints rest store

/-- Lists the constraints of the store at a path. -/
def listConstraints (storePath : String) : ExceptT Failure m Unit := do
  let store ← openStore host storePath
  match store.readConstraints with
  | (.error e, _) => throw (.storage e)
  | (.ok [], _) => host.print "No frequency constraints stored"
  | (.ok constraints, store) =>
    host.print (tableLine "ID" "RANGE_MS" "COUNT" "OCCURRENCES")
    printConstraints host constraints store

/-- Replays the scenario of a file on the store at a path and prints the decisions. -/
def simulate (settings : Settings) (storePath input : String) : ExceptT Failure m Unit := do
  let scenario ← readScenario host input
  let store ← openStore host storePath
  let (result, _, store) := Simulation.run settings scenario store (← host.present)
  host.saveStore storePath store.tables
  match result with
  | .error e => throw (.simulation e)
  | .ok decisions => decisions.forM fun d => host.print d.json.text

/-- Carries out arguments.  The store named by them is preferred to the one of the settings. -/
def run (settings : Settings) (args : List String) : ExceptT Failure m Unit := do
  match read args with
  | .error e => throw (.usage e)
  | .ok invocation =>
    let standard ← host.standardStore
    let storePath := (invocation.database.or settings.storePath).getD standard
    match invocation.command with
    | none => host.print usageLine
    | some .constraints => listConstraints host storePath
    | some (.simulate input) => simulate host settings storePath input

end Commands

end CommandLine
end Automation
