import Automation.CommandLine.Address
import Automation.CommandLine.Run
import Automation.Settings.Environment
import Automation.Store.Snapshot

/-!
# The program

The commands on the real file system.  A store is one file that holds the text of its tables; it is
read when it is opened and written when a simulation is over.  Settings come from environment
variables that begin with `CADENCE_`.
-/

namespace Automation
namespace Program

/-- How the names of the program's variables begin. -/
def mark : String := "CADENCE_"

/-- The directory part of a path. -/
def directoryOf (path : String) : String := "/".intercalate (path.splitOn "/").dropLast

/-- The text of a file. -/
def readText (path : String) : IO (Option String) := do
  try
    return some (← IO.FS.readFile path)
  catch _ => return none

/-- The text of the store in a file, which is made if there is none, unless it is only to be
read. -/
def storeText (a : CommandLine.Address) : IO (Option String) := do
  match ← readText a.file with
  | some text => return some text
  | none =>
    if a.readOnly || a.frozen then return none
    let _ ← IO.FS.Handle.mk a.file .writeNew
    return some ""

/-- Opens the store of an address. -/
def openAddress (a : CommandLine.Address) : IO (Option Store) := do
  if a.inMemory then return some (.ofTables .empty)
  let tables := (← storeText a).bind Tables.ofText?
  return tables.map fun t => if a.readOnly || a.frozen then .readOnlyOf t else .ofTables t

/-- Opens the store of a path. -/
def openStore (path : String) : IO (Option Store) := do
  try
    let directory := directoryOf path
    unless directory.isEmpty do
      IO.FS.createDirAll directory
    match CommandLine.Address.ofText? path with
    | some a => openAddress a
    | none => return none
  catch _ => return none

/-- Keeps the tables of the store of a path, if it is in a file that may be changed. -/
def saveStore (path : String) (tables : Tables) : IO Unit := do
  match CommandLine.Address.ofText? path with
  | some ⟨file, false, false, false⟩ => IO.FS.writeFile file tables.text
  | _ => return ()

/-- The present, as the file system sees it. -/
def present : IO Instant := do
  let (_, path) ← IO.FS.createTempFile
  let modified := (← path.metadata).modified
  IO.FS.removeFile path
  let second := Instant.ofMillis (modified.sec * 1000)
  return (second.add? modified.nsec.toNat).getD second

/-- The real file system. -/
def host : CommandLine.Host IO where
  readText := readText
  openStore := openStore
  saveStore := saveStore
  standardStore := do
    let home := (← IO.getEnv "HOME").getD "."
    return home ++ "/.cadence/automation.db"
  present := present
  print line := IO.println line

/-- The variables that set something. -/
def environment : IO (List (String × String)) :=
  (Environment.variableNames mark).filterMapM fun name => do
    return (← IO.getEnv name).map fun value => (name, value)

/-- Carries out arguments and gives the exit code. -/
def run (args : List String) : IO UInt32 := do
  match Environment.settings? mark (← environment) with
  | none =>
    IO.eprintln s!"Error: {Environment.refusal}"
    return 1
  | some settings =>
    match ← (CommandLine.run host settings args).run with
    | .ok () => return 0
    | .error (.usage .displayHelp) =>
      IO.println CommandLine.usageLine
      return 0
    | .error (.usage e) =>
      IO.eprintln s!"error: {e.message}"
      return 2
    | .error e =>
      IO.eprintln s!"Error: {e.message}"
      return 1

end Program
end Automation

/-- The program. -/
def main (args : List String) : IO UInt32 := Automation.Program.run args
