import Automation.Json.Draft
import Automation.Number.Significand

/-!
# Reading JSON text

The reader is a machine that is fed one character at a time, and reading a text is a fold of its
step over the characters.

## Why a machine

A fold is structural recursion: it needs no measure and no fuel, a statement about a piece of text
is a statement about the step, and the texts that follow one another are read by folds that follow
one another (`List.foldl_append`).  What a recursive reader keeps on its call stack is here an
explicit list of open containers, so the nesting depth is the length of that list.

## What the grammar refuses

The grammar is strict: no comments, no byte order mark, no trailing comma, no raw control character
in a string, nothing but blanks after the value.  Text outside it has no draft at all.  Inside it,
three things have no value and become `Draft.unreadable`: a number beyond every double, a string or
key with half of a surrogate pair, and a container nested deeper than `depthLimit`.
-/

namespace Automation
namespace Json

/-- How many containers may enclose one another, the outermost counted. -/
def depthLimit : Nat := 127

namespace Reader

/-! ## Strings -/

/-- Where in a string the reader is. -/
inductive TextPhase where
  /-- Between characters. -/
  | plain
  /-- Behind a backslash. -/
  | escape
  /-- In a code of four hexadecimal digits, some still to come. -/
  | code (left : Nat) (value : Nat)
  deriving DecidableEq, Repr

/-- A string being read: the characters so far, last one first, the first half of a surrogate pair
that waits for its second, and whether the string still has a value. -/
structure Text where
  chars : List Char
  phase : TextPhase
  half : Option Nat
  readable : Bool
  deriving DecidableEq, Repr

/-- A string just opened. -/
def Text.start : Text := ⟨[], .plain, none, true⟩

/-- The value of a hexadecimal digit. -/
def hexValue? (c : Char) : Option Nat :=
  if '0' ≤ c ∧ c ≤ '9' then some (c.toNat - '0'.toNat)
  else if 'a' ≤ c ∧ c ≤ 'f' then some (c.toNat - 'a'.toNat + 10)
  else if 'A' ≤ c ∧ c ≤ 'F' then some (c.toNat - 'A'.toNat + 10)
  else none

/-- The character that a one letter escape stands for. -/
def escaped? : Char → Option Char
  | '"' => some '"'
  | '\\' => some '\\'
  | '/' => some '/'
  | 'b' => some '\x08'
  | 'f' => some '\x0c'
  | 'n' => some '\n'
  | 'r' => some '\r'
  | 't' => some '\t'
  | _ => none

/-- A waiting half that is not completed takes the value of the string with it. -/
def Text.abandonHalf (t : Text) : Text :=
  match t.half with
  | none => t
  | some _ => { t with half := none, readable := false }

/-- Adds a character. -/
def Text.push (t : Text) (c : Char) : Text := { t with chars := c :: t.chars, phase := .plain }

/-- Adds the character of a complete code, which may be one half of a pair. -/
def Text.pushCode (t : Text) (code : Nat) : Text :=
  let isFirst := 0xd800 ≤ code ∧ code < 0xdc00
  let isSecond := 0xdc00 ≤ code ∧ code < 0xe000
  match t.half with
  | some first =>
    if isSecond then
      let joined := 0x10000 + (first - 0xd800) * 0x400 + (code - 0xdc00)
      { t with chars := Char.ofNat joined :: t.chars, phase := .plain, half := none }
    else { t with phase := .plain, half := none, readable := false }
  | none =>
    if isFirst then { t with phase := .plain, half := some code }
    else if isSecond then { t with phase := .plain, readable := false }
    else t.push (Char.ofNat code)

/-- What one character does to a string. -/
inductive TextStep where
  | more (t : Text)
  | closed (t : Text)
  | refused

/-- One character of a string. -/
def Text.step (t : Text) (c : Char) : TextStep :=
  match t.phase with
  | .plain =>
    if c = '\\' then .more { t with phase := .escape }
    else
      let t := t.abandonHalf
      if c = '"' then .closed t
      else if c.toNat < 0x20 then .refused
      else .more (t.push c)
  | .escape =>
    if c = 'u' then .more { t with phase := .code 4 0 }
    else
      match escaped? c with
      | some e => .more (t.abandonHalf.push e)
      | none => .refused
  | .code left value =>
    match hexValue? c with
    | none => .refused
    | some digit =>
      let value := value * 16 + digit
      if left ≤ 1 then .more (t.pushCode value)
      else .more { t with phase := .code (left - 1) value }

/-- The string read, if it has a value. -/
def Text.value? (t : Text) : Option String :=
  if t.readable then some (String.ofList t.chars.reverse) else none

/-! ## Numbers -/

/-- Where in a number the reader is. -/
inductive NumberPhase where
  /-- Behind the sign, a digit has to come. -/
  | sign
  /-- Behind a leading zero, no digit may come. -/
  | leadingZero
  | whole
  /-- Behind the point, a digit has to come. -/
  | point
  | fraction
  /-- Behind the letter, a sign or a digit has to come. -/
  | exponentMark
  /-- Behind the sign of the exponent, a digit has to come. -/
  | exponentSign
  | exponent
  deriving DecidableEq, Repr

/-- A number being read: its digits on both sides of the point, and the exponent. -/
structure Number where
  phase : NumberPhase
  negative : Bool
  significand : Significand
  exponentNegative : Bool
  exponent : Nat
  deriving DecidableEq, Repr

/-- A number just begun. -/
def Number.start (negative : Bool) : Number := ⟨.sign, negative, .empty, false, 0⟩

/-- The value of a decimal digit. -/
def digitValue? (c : Char) : Option Nat :=
  if '0' ≤ c ∧ c ≤ '9' then some (c.toNat - '0'.toNat) else none

/-- One more character of a number, if the number can go on with it. -/
def Number.step? (n : Number) (c : Char) : Option Number :=
  match n.phase, digitValue? c with
  | .sign, some d =>
    some { n with
      phase := if d = 0 then .leadingZero else .whole
      significand := n.significand.pushWhole d }
  | .whole, some d => some { n with significand := n.significand.pushWhole d }
  | .point, some d | .fraction, some d =>
    some { n with phase := .fraction, significand := n.significand.pushPlace d }
  | .exponentMark, some d | .exponentSign, some d | .exponent, some d =>
    some { n with phase := .exponent, exponent := n.exponent * 10 + d }
  | .leadingZero, none | .whole, none =>
    if c = '.' then some { n with phase := .point, significand := n.significand.point }
    else if c = 'e' ∨ c = 'E' then some { n with phase := .exponentMark }
    else none
  | .fraction, none =>
    if c = 'e' ∨ c = 'E' then some { n with phase := .exponentMark } else none
  | .exponentMark, none =>
    if c = '+' then some { n with phase := .exponentSign }
    else if c = '-' then some { n with phase := .exponentSign, exponentNegative := true }
    else none
  | _, _ => none

/-- The draft of a number with a point or an exponent, or of one that is too long for an integer.
Beyond every double it is unreadable. -/
def Number.double (n : Number) : Draft :=
  let exponent : Int := if n.exponentNegative then -(n.exponent : Int) else n.exponent
  match n.significand.double? n.negative exponent with
  | some x => .float x
  | none => .unreadable

/-- The draft of a number, if it may end where it stands.  Digits alone are an integer when they fit
and are not a negative zero. -/
def Number.draft? (n : Number) : Option Draft :=
  match n.phase with
  | .leadingZero | .whole =>
    match n.significand.natural? with
    | some digits =>
      let value : Int := if n.negative then -(digits : Int) else digits
      some (if fits value ∧ ¬ (n.negative ∧ digits = 0) then .int value else n.double)
    | none => some n.double
  | .fraction | .exponent => some n.double
  | _ => none

/-! ## Containers -/

/-- An open container.  What is complete in it stands last first; a member whose key is read waits
for its value. -/
inductive Frame where
  | items (done : List Draft)
  | members (done : List (String × Draft)) (readable : Bool)
  | member (done : List (String × Draft)) (readable : Bool) (key : String)
  deriving Repr

/-- What may come next between the pieces of a text. -/
inductive Expect where
  | value
  | valueOrClose
  | key
  | keyOrClose
  | colon
  | commaOrClose
  deriving DecidableEq, Repr

/-- The state of the reader. -/
inductive State where
  | between (expect : Expect) (stack : List Frame)
  | text (isKey : Bool) (t : Text) (stack : List Frame)
  | number (n : Number) (stack : List Frame)
  | word (rest : List Char) (draft : Draft) (stack : List Frame)
  | complete (draft : Draft)
  | refused
  deriving Repr

/-- The state before the first character. -/
def start : State := .between .value []

/-- Hands a finished value to the container it stands in. -/
def deliver (d : Draft) : List Frame → State
  | [] => .complete d
  | .items done :: rest => .between .commaOrClose (.items (d :: done) :: rest)
  | .member done readable key :: rest =>
    .between .commaOrClose (.members ((key, d) :: done) readable :: rest)
  | .members _ _ :: _ => .refused

/-- Closes the innermost container with a bracket of its kind. -/
def close (bracket : Char) (stack : List Frame) : State :=
  match stack with
  | .items done :: rest =>
    if bracket = ']' then
      deliver (if depthLimit < stack.length then .unreadable else .arr done.reverse) rest
    else .refused
  | .members done readable :: rest =>
    if bracket = '}' then
      deliver (if readable ∧ stack.length ≤ depthLimit then .obj done.reverse else .unreadable) rest
    else .refused
  | _ => .refused

/-- The first character of a value. -/
def openValue (c : Char) (stack : List Frame) : State :=
  match c with
  | '"' => .text false Text.start stack
  | '[' => .between .valueOrClose (.items [] :: stack)
  | '{' => .between .keyOrClose (.members [] true :: stack)
  | 't' => .word ['r', 'u', 'e'] (.bool true) stack
  | 'f' => .word ['a', 'l', 's', 'e'] (.bool false) stack
  | 'n' => .word ['u', 'l', 'l'] .null stack
  | '-' => .number (Number.start true) stack
  | c =>
    match (Number.start false).step? c with
    | some n => .number n stack
    | none => .refused

/-- The blanks between pieces. -/
def isBlank (c : Char) : Bool := c = ' ' || c = '\n' || c = '\t' || c = '\r'

/-- A character between pieces. -/
def stepBetween (expect : Expect) (stack : List Frame) (c : Char) : State :=
  if isBlank c then .between expect stack
  else
    match expect with
    | .value => openValue c stack
    | .valueOrClose => if c = ']' then close c stack else openValue c stack
    | .key => if c = '"' then .text true Text.start stack else .refused
    | .keyOrClose =>
      if c = '"' then .text true Text.start stack
      else if c = '}' then close c stack
      else .refused
    | .colon => if c = ':' then .between .value stack else .refused
    | .commaOrClose =>
      if c = ',' then
        match stack with
        | .items _ :: _ => .between .value stack
        | .members _ _ :: _ => .between .key stack
        | _ => .refused
      else close c stack

/-- A character behind the whole value. -/
def stepComplete (d : Draft) (c : Char) : State := if isBlank c then .complete d else .refused

/-- The end of a key. -/
def closeKey (t : Text) : List Frame → State
  | .members done readable :: rest =>
    match t.value? with
    | some key => .between .colon (.member done readable key :: rest)
    | none => .between .colon (.member done false "" :: rest)
  | _ => .refused

/-- A character after a piece that has been delivered. -/
def stepDelivered (s : State) (c : Char) : State :=
  match s with
  | .between expect stack => stepBetween expect stack c
  | .complete d => stepComplete d c
  | _ => .refused

/-- One character. -/
def step (s : State) (c : Char) : State :=
  match s with
  | .between expect stack => stepBetween expect stack c
  | .text isKey t stack =>
    match t.step c with
    | .more t => .text isKey t stack
    | .closed t =>
      if isKey then closeKey t stack
      else deliver (match t.value? with | some s => .str s | none => .unreadable) stack
    | .refused => .refused
  | .number n stack =>
    match n.step? c with
    | some n => .number n stack
    | none =>
      match n.draft? with
      | some d => stepDelivered (deliver d stack) c
      | none => .refused
  | .word (expected :: rest) d stack =>
    if c = expected then
      match rest with
      | [] => deliver d stack
      | _ => .word rest d stack
    else .refused
  | .word [] _ _ => .refused
  | .complete d => stepComplete d c
  | .refused => .refused

/-- What has been read when the text ends. -/
def finish? : State → Option Draft
  | .complete d => some d
  | .number n [] => n.draft?
  | _ => none

end Reader

/-- The draft of a text, if the text is well formed. -/
def readDraft? (text : String) : Option Draft :=
  Reader.finish? (text.toList.foldl Reader.step Reader.start)

/-- The value of a text, if it has one. -/
def read? (text : String) : Option Json := (readDraft? text).bind Draft.value?

end Json
end Automation
