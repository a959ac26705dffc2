import Automation.Json.Writer
import Automation.Trigger.Event

/-!
# A stored state is read back

A remembered state is stored as text.  Its strings come from outside and may hold anything, quotes
and control characters too, so that reading the text gives the state back is a statement about
escapes and not about two fixed field names.

The reader is a fold, so what it does with a text that is put together is put together from what it
does with the pieces: a character of a string (`foldl_escapeChar`), a string (`foldl_quote`), a
member, an object.
-/

namespace Automation
namespace Json
namespace Reader

/-! ## Strings -/

/-- A string being read that has lost nothing so far. -/
def reading (chars : List Char) : Text := ⟨chars, .plain, none, true⟩

theorem hexValue?_hexDigit : ∀ n < 16, hexValue? (hexDigit n) = some n := by decide

/-- The code of a control character is that character. -/
theorem pushCode_of_lt {chars : List Char} {left value code : Nat} (h : code < 32) :
    Text.pushCode ⟨chars, .code left value, none, true⟩ code =
      reading (Char.ofNat code :: chars) := by
  show (if 0xd800 ≤ code ∧ code < 0xdc00 then _ else if 0xdc00 ≤ code ∧ code < 0xe000 then _ else _) = _
  rw [if_neg (by omega), if_neg (by omega)]
  rfl

/-- A digit of a code, not the last one. -/
theorem step_code {c : Char} {digit left value : Nat} {chars : List Char} {isKey : Bool}
    {stack : List Frame} (hc : hexValue? c = some digit) (hleft : 1 < left) :
    step (.text isKey ⟨chars, .code left value, none, true⟩ stack) c =
      .text isKey ⟨chars, .code (left - 1) (value * 16 + digit), none, true⟩ stack := by
  simp only [step, Text.step, hc, if_neg (Nat.not_le.mpr hleft)]

/-- The last digit of a code. -/
theorem step_code_last {c : Char} {digit value : Nat} {chars : List Char} {isKey : Bool}
    {stack : List Frame} (hc : hexValue? c = some digit) (hcode : value * 16 + digit < 32) :
    step (.text isKey ⟨chars, .code 1 value, none, true⟩ stack) c =
      .text isKey (reading (Char.ofNat (value * 16 + digit) :: chars)) stack := by
  simp only [step, Text.step, hc, if_pos (Nat.le_refl 1)]
  rw [pushCode_of_lt hcode]

/-- A character comes back from the way it is written. -/
theorem foldl_escapeChar (c : Char) (isKey : Bool) (chars : List Char) (stack : List Frame) :
    (escapeChar c).foldl step (.text isKey (reading chars) stack) =
      .text isKey (reading (c :: chars)) stack := by
  rw [escapeChar]
  split
  · next h => subst h; rfl
  split
  · next h => subst h; rfl
  split
  · next hquote hbackslash hplain =>
    simp only [List.foldl_cons, List.foldl_nil, step, Text.step, reading, if_neg hbackslash,
      Text.abandonHalf, if_neg hquote, if_neg (Nat.not_lt.mpr hplain), Text.push]
  split
  · next h => subst h; rfl
  split
  · next h => subst h; rfl
  split
  · next h => subst h; rfl
  split
  · next h => subst h; rfl
  split
  · next h => subst h; rfl
  · next hcontrol _ _ _ _ _ =>
    have hsmall : c.toNat < 32 := Nat.not_le.mp hcontrol
    have hhigh := hexValue?_hexDigit (c.toNat / 16) (by omega)
    have hlow := hexValue?_hexDigit (c.toNat % 16) (by omega)
    have hcode : (c.toNat / 16) * 16 + c.toNat % 16 = c.toNat := by omega
    have hzero : hexValue? '0' = some 0 := rfl
    show List.foldl step (.text isKey ⟨chars, .code 4 0, none, true⟩ stack) ['0', '0', _, _] = _
    rw [List.foldl_cons, step_code hzero (by decide), List.foldl_cons, step_code hzero (by decide),
      List.foldl_cons, step_code hhigh (by decide), List.foldl_cons,
      step_code_last hlow (by omega), List.foldl_nil]
    rw [show (0 * 16 + 0) * 16 + 0 = 0 from rfl, Nat.zero_mul, Nat.zero_add, hcode, Char.ofNat_toNat]

/-- A string comes back from the way its characters are written. -/
theorem foldl_flatMap_escapeChar (cs : List Char) (isKey : Bool) (chars : List Char)
    (stack : List Frame) :
    (cs.flatMap escapeChar).foldl step (.text isKey (reading chars) stack) =
      .text isKey (reading (cs.reverse ++ chars)) stack := by
  induction cs generalizing chars with
  | nil => rfl
  | cons c rest ih =>
    rw [List.flatMap_cons, List.foldl_append, foldl_escapeChar, ih, List.reverse_cons,
      List.append_assoc, List.singleton_append]

theorem value?_reading (chars : List Char) :
    (reading chars).value? = some (String.ofList chars.reverse) := rfl

theorem step_closingQuote (chars : List Char) (stack : List Frame) :
    step (.text false (reading chars) stack) '"' =
      deliver (.str (String.ofList chars.reverse)) stack := rfl

/-- A string in the place of a value is read as that string. -/
theorem foldl_quote_value (s : String) (stack : List Frame) :
    (quote s).foldl step (.between .value stack) = deliver (.str s) stack := by
  rw [quote, List.foldl_cons, List.foldl_append]
  show List.foldl step (List.foldl step (.text false (reading []) stack) _) ['"'] = _
  rw [foldl_flatMap_escapeChar, List.foldl_cons, List.foldl_nil, step_closingQuote,
    List.append_nil, List.reverse_reverse, String.ofList_toList]

/-- A string in the place of a key is read as that key. -/
theorem foldl_quote_key (s : String) {expect : Expect} (h : expect = .key ∨ expect = .keyOrClose)
    (done : List (String × Draft)) (rest : List Frame) :
    (quote s).foldl step (.between expect (.members done true :: rest)) =
      .between .colon (.member done true s :: rest) := by
  rw [quote, List.foldl_cons, List.foldl_append]
  have hopen : step (.between expect (.members done true :: rest)) '"' =
      .text true (reading []) (.members done true :: rest) := by
    rcases h with rfl | rfl <;> rfl
  rw [hopen, foldl_flatMap_escapeChar]
  show closeKey (reading (s.toList.reverse ++ [])) (.members done true :: rest) = _
  rw [closeKey, value?_reading, List.append_nil, List.reverse_reverse, String.ofList_toList]

/-- A member with a string is read as that member. -/
theorem foldl_member (key value : String) {expect : Expect}
    (h : expect = .key ∨ expect = .keyOrClose) (done : List (String × Draft)) (rest : List Frame) :
    (quote key ++ ':' :: quote value).foldl step (.between expect (.members done true :: rest)) =
      .between .commaOrClose (.members ((key, .str value) :: done) true :: rest) := by
  rw [List.foldl_append, foldl_quote_key key h, List.foldl_cons]
  show (quote value).foldl step (.between .value (.member done true key :: rest)) = _
  rw [foldl_quote_value]
  rfl

end Reader

/-! ## Texts -/

theorem toList_text (v : Json) : v.text.toList = v.render := String.toList_ofList

/-- The text of an object of one string. -/
theorem readDraft?_text_one (key value : String) :
    readDraft? (Json.obj [(key, .str value)]).text = some (.obj [(key, .str value)]) := by
  rw [readDraft?, toList_text]
  show Reader.finish? (('{' :: (quote key ++ ':' :: quote value ++ ['}'])).foldl _ _) = _
  rw [List.foldl_cons, List.foldl_append]
  show Reader.finish? (List.foldl _ (List.foldl _ (.between .keyOrClose [.members [] true]) _) _) = _
  rw [Reader.foldl_member key value (Or.inr rfl)]
  rfl

/-- The text of an object of two strings. -/
theorem readDraft?_text_two (key value key' value' : String) :
    readDraft? (Json.obj [(key, .str value), (key', .str value')]).text =
      some (.obj [(key, .str value), (key', .str value')]) := by
  rw [readDraft?, toList_text]
  show Reader.finish? (('{' :: (quote key ++ ':' :: (quote value ++ ',' :: (quote key' ++ ':' ::
    quote value')) ++ ['}'])).foldl _ _) = _
  have hsplit : quote key ++ ':' :: (quote value ++ ',' :: (quote key' ++ ':' :: quote value')) =
      (quote key ++ ':' :: quote value) ++ ',' :: (quote key' ++ ':' :: quote value') := by
    simp
  rw [hsplit, List.foldl_cons, List.foldl_append, List.foldl_append]
  show Reader.finish? (List.foldl _ (List.foldl _ (List.foldl _
    (.between .keyOrClose [.members [] true]) _) _) _) = _
  rw [Reader.foldl_member key value (Or.inr rfl)]
  show Reader.finish? (List.foldl Reader.step (List.foldl Reader.step
    (.between .key [.members [(key, .str value)] true]) (quote key' ++ ':' :: quote value')) ['}']) = _
  rw [Reader.foldl_member key' value' (Or.inl rfl)]
  rfl

end Json

/-- A state is read back from its text. -/
theorem AppState.decode?_text (s : AppState) :
    (Json.readDraft? s.json.text).bind AppState.decode? = some s := by
  obtain ⟨session, version⟩ := s
  cases session with
  | none =>
    cases version with
    | none => rfl
    | some v =>
      show (Json.readDraft? (Json.obj [("version_updated", .str v)]).text).bind _ = _
      rw [Json.readDraft?_text_one]
      rfl
  | some x =>
    cases version with
    | none =>
      show (Json.readDraft? (Json.obj [("app_session_id", .str x)]).text).bind _ = _
      rw [Json.readDraft?_text_one]
      rfl
    | some v =>
      show (Json.readDraft? (Json.obj [("app_session_id", .str x), ("version_updated", .str v)]).text).bind
        _ = _
      rw [Json.readDraft?_text_two]
      rfl

end Automation
