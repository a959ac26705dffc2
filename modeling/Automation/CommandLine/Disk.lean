import Automation.CommandLine.Address
import Automation.CommandLine.Run

/-!
# A disk as a value

A disk holds directories, texts and stores at places, and the lines that were printed.  Commands
run on it as they run on a real one: it is a host over the monad of disks.

## Two ways to follow a path

A text is found by following its path step by step, through directories that are there.  One dot
stays, two dots go back, and a path that ends in a slash is one of a directory.

A store is found by working out its place first.  There two dots only cancel the name before them,
whether or not anything has it, and what stands behind the last name does not matter.  Nothing leads
through a file in either way.

## Opening a store

Opening makes the directories on the way, by the name as it is written and before the address is
understood, so they stay even if the store cannot be opened.  It fails where a file stands in the
way, where the place is a directory, and where it is a text, unless the text has at most one byte: a
store that has just been begun looks like that.

Names have a limit, and so have paths.  Beside a store stand files that are named after it, so its
own name has to be shorter by what is added.
-/

namespace Automation
namespace CommandLine

/-- What stands at a place. -/
inductive Node where
  | directory
  | text (content : String)
  | store (tables : Tables)

/-- A place: the names that lead to it from the root. -/
abbrev Place := List String

/-- Directories, texts and stores by place, the place where paths start that do not start at the
root, and the printed lines, last first. -/
structure Disk where
  nodes : Table String Node
  here : Place
  printed : List String

namespace Disk

/-! ## Places -/

/-- The key of a place. -/
def key (place : Place) : String := "/".intercalate place

/-- What stands at a place.  The root is a directory. -/
def nodeAt? (d : Disk) (place : Place) : Option Node :=
  if place = [] then some .directory else d.nodes.get? (key place)

/-- The disk with something at a place. -/
def put (d : Disk) (place : Place) (n : Node) : Disk :=
  { d with nodes := d.nodes.insert (key place) n }

/-- Whether a place is a directory. -/
def isDirectory (d : Disk) (place : Place) : Bool :=
  match d.nodeAt? place with
  | some .directory => true
  | _ => false

/-- Whether a place is taken by something that is no directory. -/
def isFile (d : Disk) (place : Place) : Bool := (d.nodeAt? place).isSome && !d.isDirectory place

/-- One step from a place. -/
def enter (place : Place) (name : String) : Place :=
  if name = "." then place
  else if name = ".." then place.dropLast
  else place ++ [name]

/-! ## Names and their limits -/

/-- How many bytes a name may have. -/
def nameLimit : Nat := 255

/-- How many bytes are added to the name of a store for the files beside it. -/
def suffixLength : Nat := 8

/-- How many bytes the path of a store may have, a slash before each name counted. -/
def pathLimit : Nat := 504

/-- Whether something can have a name. -/
def isName (name : String) : Bool := name.utf8ByteSize ≤ nameLimit && !name.toList.contains '\x00'

/-- How long the path of a place is. -/
def pathLength (place : Place) : Nat :=
  place.foldl (fun n name => n + 1 + name.utf8ByteSize) 0

/-- Whether a store can stand at a place as far as names go. -/
def admitsStore (place : Place) : Bool :=
  place.getLast?.any (fun name => name.utf8ByteSize + suffixLength ≤ nameLimit) &&
    pathLength place ≤ pathLimit

/-! ## Paths -/

/-- The place where a path starts. -/
def origin (d : Disk) (path : String) : Place := if path.startsWith "/" then [] else d.here

/-- The names on a path.  A slash at the end is a step as well, one that stays where it is. -/
def steps (path : String) : List String :=
  (path.splitOn "/").filter (· ≠ "") ++ if path.endsWith "/" then ["."] else []

/-- The names on a path that lead somewhere. -/
def names (path : String) : List String := (steps path).filter (· ≠ ".")

/-- The place to which names lead through directories that are there. -/
def follow? (d : Disk) (place : Place) : List String → Option Place
  | [] => some place
  | name :: rest => if d.isDirectory place then d.follow? (enter place name) rest else none

/-- The place to which names lead when two dots only cancel the name before them. -/
def resolve? (d : Disk) (place : Place) : List String → Option Place
  | [] => some place
  | name :: rest =>
    if name ≠ ".." ∧ (d.isFile place ∨ ¬ isName name) then none
    else d.resolve? (enter place name) rest

/-- Makes the directories on the way along names up to the first that cannot be made, and says
whether all are there. -/
def makeDirectories (d : Disk) (place : Place) : List String → Bool × Disk
  | [] => (true, d)
  | name :: rest =>
    let next := enter place name
    match d.nodeAt? next with
    | some .directory => d.makeDirectories next rest
    | some _ => (false, d)
    | none => if isName name then (d.put next .directory).makeDirectories next rest else (false, d)

/-! ## Texts -/

/-- The text of a file. -/
def readText? (d : Disk) (path : String) : Option String :=
  match (d.follow? (d.origin path) (steps path)).bind d.nodeAt? with
  | some (.text content) => some content
  | _ => none

/-- The disk with a text at a path, and the directories on the way to it. -/
def putText (d : Disk) (path content : String) : Disk :=
  let (_, made) := d.makeDirectories (d.origin path) (names path).dropLast
  made.put (d.origin path ++ names path) (.text content)

/-! ## Stores -/

/-- Makes the directories on the way to a store, and says whether all are there. -/
def prepareStore (d : Disk) (path : String) : Bool × Disk :=
  d.makeDirectories (d.origin path) (names path).dropLast

/-- The place of a store in a file. -/
def storePlace? (d : Disk) (file : String) : Option Place :=
  (d.resolve? (d.origin file) (names file)).filter fun place =>
    admitsStore place && d.isDirectory place.dropLast

/-- Opens the store at a place, or begins one.  One that is only to be read has to be there. -/
def openAt (d : Disk) (place : Place) (a : Address) : Option Store × Disk :=
  match d.nodeAt? place with
  | some (.store tables) =>
    (some (if a.readOnly || a.frozen then .readOnlyOf tables else .ofTables tables), d)
  | some .directory => (none, d)
  | some (.text content) =>
    if 1 < content.utf8ByteSize || a.readOnly || a.frozen then (none, d)
    else (some (.ofTables .empty), d.put place (.store .empty))
  | none =>
    if a.readOnly then (none, d)
    else if a.frozen then (none, d.put place (.text ""))
    else (some (.ofTables .empty), d.put place (.store .empty))

/-- Opens a store in a file or in memory. -/
def openAddress (d : Disk) (a : Address) : Option Store × Disk :=
  if a.inMemory then (if a.readOnly then none else some (.ofTables .empty), d)
  else
    match d.storePlace? a.file with
    | some place => d.openAt place a
    | none => (none, d)

/-- Opens the store of a path. -/
def openStore (d : Disk) (path : String) : Option Store × Disk :=
  match d.prepareStore path, Address.ofText? path with
  | (true, d), some a => d.openAddress a
  | (_, d), _ => (none, d)

/-- Keeps the tables of the store of a path, if it is in a file. -/
def saveStore (d : Disk) (path : String) (tables : Tables) : Disk :=
  match (Address.ofText? path).filter fun a => !a.inMemory with
  | some a =>
    match d.storePlace? a.file with
    | some place => d.put place (.store tables)
    | none => d
  | none => d

/-! ## The host -/

/-- A disk with a directory and texts in it, each by its path from there.  `here` is where paths
start that do not start at the root. -/
def ofTexts (here : Place) (directory : String) (texts : List (String × String)) : Disk :=
  let (_, d) := makeDirectories ⟨.empty, here, []⟩ [] here
  let (_, d) := d.makeDirectories (d.origin directory) (names directory)
  texts.foldl (fun d e => d.putText (directory ++ "/" ++ e.1) e.2) d

/-- A disk as a host, at a present that does not move. -/
def host (present : Instant) : Host (StateM Disk) where
  readText path := do return (← get).readText? path
  openStore path := modifyGet fun d => d.openStore path
  saveStore path tables := modify fun d => d.saveStore path tables
  standardStore := pure "automation.db"
  present := pure present
  print line := modify fun d => { d with printed := line :: d.printed }

/-- Carries out arguments on a disk: whether that succeeded, the lines that were printed, and the
disk afterwards. -/
def run (d : Disk) (present : Instant) (settings : Settings) (args : List String) :
    Except Failure Unit × List String × Disk :=
  let (result, d) := (CommandLine.run (host present) settings args).run.run d
  (result, d.printed.reverse, { d with printed := [] })

end Disk
end CommandLine
end Automation
