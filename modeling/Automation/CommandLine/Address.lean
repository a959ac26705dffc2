/-!
# Addresses of stores

What names a store is an address: the name of a file, perhaps with parameters behind a question
mark, and perhaps with a scheme in front.  Most addresses are just names.

## Reading an address

* A scheme is dropped, as often as it is there.  It may be followed by two slashes, which belong to
  it even if it is left out: a name that begins with two slashes loses them.
* In the name, a percent sign with two hexadecimal digits stands for a byte, so that a name may hold
  a question mark.  The bytes together have to be a text.
* Parameters are separated by ampersands.  One that is not known, or whose value is not known,
  spoils the address.
* A name may say by itself that it is one of a file.  What stands behind that is decoded once more.

A store without a name, or one that is asked for in memory, is nobody else's and is gone when it is
closed.
-/

namespace Automation
namespace CommandLine

/-- How an address wants its store. -/
structure Address where
  file : String
  inMemory : Bool
  /-- Only to be read, so it has to be there. -/
  readOnly : Bool
  /-- Held never to change, so it is not changed either. -/
  frozen : Bool
  deriving DecidableEq, Repr

namespace Address

/-! ## Percent signs -/

/-- The value of a hexadecimal digit. -/
def hexValue? (b : UInt8) : Option UInt8 :=
  if 48 ≤ b ∧ b ≤ 57 then some (b - 48)
  else if 97 ≤ b ∧ b ≤ 102 then some (b - 87)
  else if 65 ≤ b ∧ b ≤ 70 then some (b - 55)
  else none

/-- The bytes of a text in which a percent sign with two hexadecimal digits stands for a byte. -/
def unescapeBytes : List UInt8 → List UInt8
  | 37 :: a :: b :: rest =>
    match hexValue? a, hexValue? b with
    | some high, some low => (high * 16 + low) :: unescapeBytes rest
    | _, _ => 37 :: unescapeBytes (a :: b :: rest)
  | b :: rest => b :: unescapeBytes rest
  | [] => []

/-- A text without percent escapes, if its bytes are a text. -/
def unescape? (cs : List Char) : Option String :=
  String.fromUTF8? ⟨(unescapeBytes (String.ofList cs).toUTF8.toList).toArray⟩

/-! ## The parts of an address -/

/-- A text without something in front of it, however often it stands there.  The bound is the number
of times that are looked for. -/
def dropAll (front : List Char) : Nat → List Char → List Char
  | 0, cs => cs
  | n + 1, cs => if front.isPrefixOf cs then dropAll front n (cs.drop front.length) else cs

/-- How an address may begin. -/
def scheme : List Char := "sqlite:".toList

/-- An address without its scheme. -/
def withoutScheme (cs : List Char) : List Char :=
  dropAll scheme cs.length (dropAll (scheme ++ ['/', '/']) cs.length.succ (scheme ++ cs))

/-- The text before a mark, and the text behind it if it is there. -/
def cutOnce (mark : Char) (cs : List Char) : List Char × Option (List Char) :=
  match cs.dropWhile (· ≠ mark) with
  | [] => (cs, none)
  | _ :: rest => (cs.takeWhile (· ≠ mark), some rest)

/-- The layers through which files can be reached. -/
def layers : List String := ["unix", "unix-dotfile", "unix-excl", "unix-none"]

/-- An address with one more parameter. -/
def withParameter? (a : Address) (name value : String) : Option Address :=
  match name, value with
  | "mode", "ro" => some { a with readOnly := true }
  | "mode", "rw" | "mode", "rwc" => some a
  | "mode", "memory" => some { a with inMemory := true }
  | "cache", "private" | "cache", "shared" => some a
  | "immutable", "true" | "immutable", "1" => some { a with frozen := true }
  | "immutable", "false" | "immutable", "0" => some { a with frozen := false }
  | "vfs", "memdb" => some { a with inMemory := true }
  | "vfs", layer => if layers.contains layer then some a else none
  | _, _ => none

/-- An address with the parameters of a text, up to the next ampersand and on from there.  Between
two ampersands there may be nothing. -/
def withParameters? (a : Address) (parameters : String) : Option Address :=
  ((parameters.splitOn "&").filter fun p => p ≠ "").foldlM (fun a p => do
    let (name, value) := cutOnce '=' p.toList
    a.withParameter? (← unescape? name) (← unescape? (value.getD []))) a

/-- The name of a file, where it says that it is one.  Between the two slashes and the next one
stands the machine, which has to be this one. -/
def fileName? (name : List Char) : Option String :=
  let decoded := fun (cs : List Char) => unescape? (cs.takeWhile fun c => c ≠ '?' ∧ c ≠ '#')
  match name with
  | 'f' :: 'i' :: 'l' :: 'e' :: ':' :: '/' :: '/' :: rest =>
    let machine := String.ofList (rest.takeWhile (· ≠ '/'))
    if machine = "" ∨ machine = "localhost" then decoded (rest.dropWhile (· ≠ '/')) else none
  | 'f' :: 'i' :: 'l' :: 'e' :: ':' :: rest => decoded rest
  | _ => some (String.ofList name)

/-- The address of a name as it is written. -/
def ofName? (name : List Char) : Option Address :=
  if String.ofList name = ":memory:" then some ⟨"", true, false, false⟩
  else do
    let decoded ← unescape? name
    let file ← fileName? decoded.toList
    some ⟨file, file.isEmpty, false, false⟩

/-- Reads an address. -/
def ofText? (text : String) : Option Address := do
  let (name, parameters) := cutOnce '?' (withoutScheme text.toList)
  (← ofName? name).withParameters? (String.ofList (parameters.getD []))

end Address
end CommandLine
end Automation
