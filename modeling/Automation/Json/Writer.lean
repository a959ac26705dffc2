import Automation.Json.Value

/-!
# Writing JSON text

Compact text: no blanks, members in the order they are kept.  A string is written with as few
escapes as the grammar allows, so everything but the quote, the backslash and the control
characters stands for itself.  A double without decimal text, which no reader ever delivers, is
written as `null`.
-/

namespace Automation
namespace Json

/-! ## Strings -/

/-- The digit of a value below 16. -/
def hexDigit (n : Nat) : Char :=
  if n < 10 then Char.ofNat ('0'.toNat + n) else Char.ofNat ('a'.toNat + (n - 10))

/-- How a character is written inside a string. -/
def escapeChar (c : Char) : List Char :=
  if c = '"' then ['\\', '"']
  else if c = '\\' then ['\\', '\\']
  else if 0x20 ≤ c.toNat then [c]
  else if c = '\x08' then ['\\', 'b']
  else if c = '\x0c' then ['\\', 'f']
  else if c = '\n' then ['\\', 'n']
  else if c = '\r' then ['\\', 'r']
  else if c = '\t' then ['\\', 't']
  else ['\\', 'u', '0', '0', hexDigit (c.toNat / 16), hexDigit (c.toNat % 16)]

/-- A string between quotes. -/
def quote (s : String) : List Char := '"' :: (s.toList.flatMap escapeChar ++ ['"'])

/-! ## Values -/

mutual

/-- The characters of a value. -/
def render : Json → List Char
  | .null => "null".toList
  | .bool b => (if b then "true" else "false").toList
  | .int n => (toString n).toList
  | .float x => (x.text?.getD "null").toList
  | .str s => quote s
  | .arr items => '[' :: (renderItems items ++ [']'])
  | .obj members => '{' :: (renderMembers members ++ ['}'])

/-- Items with commas between them. -/
def renderItems : List Json → List Char
  | [] => []
  | v :: rest =>
    match rest with
    | [] => render v
    | _ => render v ++ ',' :: renderItems rest

/-- Members with commas between them. -/
def renderMembers : List (String × Json) → List Char
  | [] => []
  | (k, v) :: rest =>
    match rest with
    | [] => quote k ++ ':' :: render v
    | _ => quote k ++ ':' :: (render v ++ ',' :: renderMembers rest)

end

/-- The compact text of a value. -/
def text (v : Json) : String := String.ofList v.render

end Json
end Automation
