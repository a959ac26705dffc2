import Automation.Json.Value

/-!
# Drafts: what a text says before it is a value

A JSON text may be well formed and still have no value.  `1e400` is a number beyond every double, a
string may hold half of a surrogate pair, containers may nest deeper than the limit, and an object
may give one key twice, which a record of fixed fields has to refuse while a free payload takes the
last.

Whoever reads a record skips the fields it does not know, and skipping asks only for a well formed
text.  So what the reader delivers is a draft: the tree of the text with order and repetitions kept,
and `unreadable` in place of whatever has no value.  Decoding a known field then refuses an
unreadable draft, and an unknown field may hold one without harm.
-/

namespace Automation
namespace Json

/-- A well formed text as a tree. -/
inductive Draft where
  | null
  | bool (b : Bool)
  | int (n : Int)
  | float (x : Binary64)
  | str (s : String)
  | arr (items : List Draft)
  | obj (members : List (String × Draft))
  | unreadable
  deriving Repr, Inhabited

namespace Draft

/-! ## Drafts and values -/

mutual

/-- The value of a draft, if every part of it has one. -/
def value? : Draft → Option Json
  | .null => some .null
  | .bool b => some (.bool b)
  | .int n => some (.int n)
  | .float x => some (.float x)
  | .str s => some (.str s)
  | .arr items => (items? items).map .arr
  | .obj members => (members? members).map Json.object
  | .unreadable => none

/-- The values of the items of an array. -/
def items? : List Draft → Option (List Json)
  | [] => some []
  | d :: rest =>
    match value? d, items? rest with
    | some v, some vs => some (v :: vs)
    | _, _ => none

/-- The values of the members of an object, in the order given. -/
def members? : List (String × Draft) → Option (List (String × Json))
  | [] => some []
  | (k, d) :: rest =>
    match value? d, members? rest with
    | some v, some vs => some ((k, v) :: vs)
    | _, _ => none

end

/-- Whether every part of a draft has a value. -/
def isReadable (d : Draft) : Bool := d.value?.isSome

end Draft

mutual

/-- A value as a draft, which nothing in it makes unreadable. -/
def draft : Json → Draft
  | .null => .null
  | .bool b => .bool b
  | .int n => .int n
  | .float x => .float x
  | .str s => .str s
  | .arr items => .arr (draftItems items)
  | .obj members => .obj (draftMembers members)

/-- Drafts of the items of an array. -/
def draftItems : List Json → List Draft
  | [] => []
  | v :: rest => draft v :: draftItems rest

/-- Drafts of the members of an object. -/
def draftMembers : List (String × Json) → List (String × Draft)
  | [] => []
  | (k, v) :: rest => (k, draft v) :: draftMembers rest

end

end Json
end Automation
