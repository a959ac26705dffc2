import Automation.Settings.Reading
import Automation.Trigger.Matcher

/-!
# Readings by place

Settings that come one by one, each with the place where it belongs, are gathered in a tree.  A
place is a list of keys, and a key is the name of a field or a position in a list.

## The last one shapes the tree

What a place goes through is made to fit.  A field of something without fields turns it into a table
with this field only, and a position in something that is no list turns it into a list, in which the
positions before are left open.  So no order of places is wrong, and what is put last is always
there.

## Sections

A section is read from a table by the names of its fields, or from a list by their order.  In a list
the positions behind the last are absent, like fields that a table does not have, while one that is
left open before it is there and holds nothing.
-/

namespace Automation

/-- One step of a place. -/
inductive PlaceKey where
  | field (name : String)
  | position (n : Nat)
  deriving DecidableEq, Repr

/-- Readings by place. -/
inductive SettingsTree where
  | nothing
  | leaf (r : Reading)
  | list (entries : List (Nat × SettingsTree))
  | table (entries : List (String × SettingsTree))
  deriving Inhabited

/-! ## Places -/

namespace PlaceKey

/-- Whether a character may stand in a name. -/
def isNameChar (c : Char) : Bool := c.isAlphanum || c = ' ' || c = '_' || c = '-'

/-- The position in brackets of which the closing one has been cut off.  Blanks around the number
are no part of it, and no list is longer than 63 bits can count. -/
def position? : List Char → Option PlaceKey
  | '[' :: rest =>
    let unpadded := (rest.dropWhile Char.isWhitespace).reverse.dropWhile Char.isWhitespace
    let number := (Reading.natural? unpadded.reverse).filter fun n => n < 1 <<< 63
    number.map .position
  | _ => none

/-- The keys of a piece of a place: a name, and positions in brackets behind it. -/
def ofPiece? (piece : List Char) : Option (List PlaceKey) := do
  let name := piece.takeWhile isNameChar
  let brackets := Path.cut ']' (piece.dropWhile isNameChar)
  if name.isEmpty ∨ brackets.getLast? ≠ some [] then none
  else
    let positions ← brackets.dropLast.mapM position?
    some (.field (String.ofList name) :: positions)

/-- The keys of a place, whose pieces have points between them. -/
def ofPlace? (place : List Char) : Option (List PlaceKey) :=
  ((Path.pieces place).mapM ofPiece?).map List.flatten

end PlaceKey

namespace SettingsTree

/-! ## Putting a reading in its place -/

/-- Changes what stands under a key, which is nothing if the key is new. -/
def alter {κ : Type} [DecidableEq κ] (key : κ) (f : SettingsTree → SettingsTree) :
    List (κ × SettingsTree) → List (κ × SettingsTree)
  | [] => [(key, f .nothing)]
  | e :: rest => if e.1 = key then (key, f e.2) :: rest else e :: alter key f rest

/-- The entries of a table. -/
def fields : SettingsTree → List (String × SettingsTree)
  | .table entries => entries
  | _ => []

/-- The entries of a list. -/
def items : SettingsTree → List (Nat × SettingsTree)
  | .list entries => entries
  | _ => []

/-- Puts a reading in its place. -/
def put (r : Reading) : List PlaceKey → SettingsTree → SettingsTree
  | [], _ => .leaf r
  | .field name :: rest, t => .table (alter name (put r rest) t.fields)
  | .position n :: rest, t => .list (alter n (put r rest) t.items)

/-- The tree of readings with their places, in the order in which they come. -/
def ofReadings (readings : List (List PlaceKey × Reading)) : SettingsTree :=
  readings.foldl (fun t e => put e.2 e.1 t) .nothing

/-! ## Sections -/

/-- What stands at a position, if the list reaches so far. -/
def itemAt? (entries : List (Nat × SettingsTree)) (n : Nat) : Option SettingsTree :=
  if entries.any fun e => n ≤ e.1 then some ((entries.lookup n).getD .nothing) else none

/-- The fields of a section by name, if it is one.  `names` are its fields in order. -/
def section? (names : List String) : SettingsTree → Option (String → Option SettingsTree)
  | .table entries => some fun name => entries.lookup name
  | .list entries => some fun name => (names.idxOf? name).bind (itemAt? entries)
  | _ => none

/-- Something made of what is there, or a default. -/
def orElse {α : Type} (make : SettingsTree → Option α) (default : α) :
    Option SettingsTree → Option α
  | some t => make t
  | none => some default

/-! ## Values -/

/-- A natural of 64 bits. -/
def word? : SettingsTree → Option Nat
  | .leaf r => r.word?
  | _ => none

/-- A truth value. -/
def truth? : SettingsTree → Option Bool
  | .leaf r => r.truth?
  | _ => none

/-- A text that may be left open. -/
def text? : SettingsTree → Option (Option String)
  | .leaf r => some (some r.spelling)
  | .nothing => some none
  | _ => none

end SettingsTree
end Automation
