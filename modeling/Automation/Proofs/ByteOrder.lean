import Automation.Table
import Mathlib.Data.List.Lex
import Mathlib.Data.String.Basic

/-!
# Text in the order of its bytes

A table lists its keys in the order of their characters.  For text in UTF-8 that is the order of the
encoded bytes, `lt_iff_bytes_lt`.  Two characters are encoded differently at a byte that both
encodings have, and the first such byte is less for the character that is less
(`encoded_comesBefore`).  So neither what follows nor the length of the encodings matters.
-/

namespace Automation

/-- The bytes of a text. -/
def bytes (text : String) : List UInt8 := text.toUTF8.data.toList

theorem bytes_eq (text : String) : bytes text = text.toList.flatMap String.utf8EncodeChar := by
  rw [bytes, String.toUTF8, ← String.utf8Encode_toList, List.utf8Encode, List.data_toByteArray]

/-- A list of bytes comes before another one, whatever follows either of them. -/
def ComesBefore (as bs : List UInt8) : Prop := ∀ rest rest', as ++ rest < bs ++ rest'

/-- The first byte decides, unless it is the same. -/
theorem comesBefore_cons {a b : Nat} (ha : a < 256) (hb : b < 256) (hle : a ≤ b)
    {as bs : List UInt8} (h : a = b → ComesBefore as bs) :
    ComesBefore (UInt8.ofNat a :: as) (UInt8.ofNat b :: bs) := by
  intro rest rest'
  by_cases hab : a = b
  · exact hab ▸ List.Lex.cons (h hab rest rest')
  · refine List.Lex.rel (UInt8.lt_iff_toNat_lt.mpr ?_)
    rw [UInt8.toNat_ofNat_of_lt' ha, UInt8.toNat_ofNat_of_lt' hb]
    exact Nat.lt_of_le_of_ne hle hab

/-- Of two characters the one that is less has the encoding that comes before. -/
theorem encoded_comesBefore {c d : Char} (h : c < d) :
    ComesBefore (String.utf8EncodeChar c) (String.utf8EncodeChar d) := by
  have hlt : c.val.toNat < d.val.toNat := h
  have hbound : d.val.toNat < 1114112 := by
    rcases d.valid with hd | ⟨-, hd⟩
    · exact lt_trans hd (by decide)
    · exact hd
  rw [String.utf8EncodeChar, String.utf8EncodeChar]
  generalize c.val.toNat = m at hlt
  generalize d.val.toNat = n at hlt hbound
  -- a longer encoding begins with a greater byte, and in two of one length the bytes are digits
  split_ifs <;> repeat' refine comesBefore_cons (by omega) (by omega) (by omega) fun _ => ?_
  all_goals omega

theorem flatMap_encoded_lt {cs ds : List Char} (h : cs < ds) :
    cs.flatMap String.utf8EncodeChar < ds.flatMap String.utf8EncodeChar := by
  induction h with
  | nil =>
    rw [List.flatMap_nil, List.flatMap_cons]
    obtain ⟨b, bs, hbytes⟩ := List.exists_cons_of_ne_nil String.utf8EncodeChar_ne_nil
    rw [hbytes]
    exact List.Lex.nil
  | cons _ ih =>
    rw [List.flatMap_cons, List.flatMap_cons]
    exact List.Lex.append_left _ ih _
  | rel hchar =>
    rw [List.flatMap_cons, List.flatMap_cons]
    exact encoded_comesBefore hchar _ _

/-- Text that comes first in a table has the lesser bytes. -/
theorem lt_iff_bytes_lt {a b : String} : a < b ↔ bytes a < bytes b := by
  have hbytes : ∀ {a b : String}, a < b → bytes a < bytes b := fun h => by
    rw [bytes_eq, bytes_eq]
    exact flatMap_encoded_lt (String.lt_iff_toList_lt.mp h)
  refine ⟨hbytes, fun h => ?_⟩
  rcases Std.lt_trichotomy a b with hlt | rfl | hgt
  · exact hlt
  · exact absurd h (List.lt_irrefl _)
  · exact absurd h (List.lt_asymm (hbytes hgt))

end Automation
