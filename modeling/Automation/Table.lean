/-!
# Tables in key order

Schedules, groups, constraints and rows of progress are all kept under a key, and wherever they are
listed they are listed in the order of the key.  A table is that list: entries with strictly
increasing keys.

## Why the order is part of the type

Two things depend on it.  Events reach the schedules in key order, so the order of what fires is
settled by the table and not by the history of insertions.  And a list with strictly increasing keys
is determined by what it holds, so "both runs end in the same state" can be an equation between
tables and not only a statement about every key.

Strings are compared character by character, which for Unicode text is the order of their encoded
bytes.
-/

namespace Automation

/-- The laws of a key's order: a strict total order. -/
class KeyOrder (κ : Type) [LT κ] : Prop where
  trans {a b c : κ} : a < b → b < c → a < c
  irrefl (a : κ) : ¬ a < a
  connected {a b : κ} : ¬ a < b → a ≠ b → b < a

instance : KeyOrder String where
  trans := String.lt_trans
  irrefl := String.lt_irrefl
  connected {a b} h hne := by
    rcases Std.lt_trichotomy a b with hlt | heq | hgt
    · exact absurd hlt h
    · exact absurd heq hne
    · exact hgt

/-- Entries under strictly increasing keys. -/
structure Table (κ α : Type) [LT κ] where
  entries : List (κ × α)
  sorted : entries.Pairwise fun a b => a.1 < b.1

namespace Table

variable {κ α β : Type} [LT κ]

/-- The table with no entry. -/
def empty : Table κ α := ⟨[], List.Pairwise.nil⟩

instance : EmptyCollection (Table κ α) := ⟨empty⟩
instance : Inhabited (Table κ α) := ⟨empty⟩

/-- The keys, in order. -/
def keys (t : Table κ α) : List κ := t.entries.map (·.1)

/-- The values, in the order of their keys. -/
def values (t : Table κ α) : List α := t.entries.map (·.2)

/-- The entries that pass a test. -/
def filter (t : Table κ α) (keep : κ → α → Bool) : Table κ α :=
  ⟨t.entries.filter fun e => keep e.1 e.2, t.sorted.filter _⟩

/-- Every value replaced, the keys kept. -/
def map (t : Table κ α) (f : κ → α → β) : Table κ β :=
  ⟨t.entries.map fun e => (e.1, f e.1 e.2), List.pairwise_map.mpr t.sorted⟩

variable [DecidableEq κ]

instance [DecidableEq α] : DecidableEq (Table κ α) := fun s t =>
  if h : s.entries = t.entries then
    .isTrue (by cases s; cases t; cases h; rfl)
  else .isFalse fun e => h (e ▸ rfl)

/-! ## Looking up -/

/-- The value of the first entry with a key. -/
def find (k : κ) : List (κ × α) → Option α
  | [] => none
  | (j, v) :: rest => if k = j then some v else find k rest

/-- The value under a key. -/
def get? (t : Table κ α) (k : κ) : Option α := find k t.entries

/-- Whether a key has a value. -/
def contains (t : Table κ α) (k : κ) : Bool := (t.get? k).isSome

/-- The table without a key. -/
def erase (t : Table κ α) (k : κ) : Table κ α := t.filter fun j _ => j ≠ k

/-! ## Putting in -/

variable [DecidableLT κ]

/-- Puts an entry in its place, replacing one with the same key. -/
def insertEntry (k : κ) (v : α) : List (κ × α) → List (κ × α)
  | [] => [(k, v)]
  | (j, w) :: rest =>
    if k = j then (k, v) :: rest
    else if k < j then (k, v) :: (j, w) :: rest
    else (j, w) :: insertEntry k v rest

theorem mem_insertEntry {k : κ} {v : α} {e : κ × α} {l : List (κ × α)}
    (h : e ∈ insertEntry k v l) : e = (k, v) ∨ e ∈ l := by
  induction l with
  | nil => simpa [insertEntry] using h
  | cons head rest ih =>
    unfold insertEntry at h
    split at h
    · rcases List.mem_cons.mp h with h | h
      · exact Or.inl h
      · exact Or.inr (List.mem_cons_of_mem _ h)
    · split at h
      · rcases List.mem_cons.mp h with h | h
        · exact Or.inl h
        · exact Or.inr h
      · rcases List.mem_cons.mp h with h | h
        · exact Or.inr (h ▸ List.mem_cons_self)
        · exact (ih h).imp_right (List.mem_cons_of_mem _)

theorem sorted_insertEntry [KeyOrder κ] {k : κ} {v : α} {l : List (κ × α)}
    (h : l.Pairwise fun a b => a.1 < b.1) :
    (insertEntry k v l).Pairwise fun a b => a.1 < b.1 := by
  induction l with
  | nil => simp [insertEntry]
  | cons head rest ih =>
    obtain ⟨hhead, hrest⟩ := List.pairwise_cons.mp h
    unfold insertEntry
    split
    · next heq => exact List.pairwise_cons.mpr ⟨fun e he => heq ▸ hhead e he, hrest⟩
    · next hne =>
      split
      · next hlt =>
        refine List.pairwise_cons.mpr ⟨fun e he => ?_, h⟩
        rcases List.mem_cons.mp he with he | he
        · exact he ▸ hlt
        · exact KeyOrder.trans hlt (hhead e he)
      · next hge =>
        refine List.pairwise_cons.mpr ⟨fun e he => ?_, ih hrest⟩
        rcases mem_insertEntry he with he | he
        · exact he ▸ KeyOrder.connected hge hne
        · exact hhead e he

section Ordered

variable [KeyOrder κ]

/-- The table with `v` under `k`, whatever was there before. -/
def insert (t : Table κ α) (k : κ) (v : α) : Table κ α :=
  ⟨insertEntry k v t.entries, sorted_insertEntry t.sorted⟩

/-- The value under a key changed, if there is one. -/
def modify (t : Table κ α) (k : κ) (f : α → α) : Table κ α :=
  match t.get? k with
  | some v => t.insert k (f v)
  | none => t

/-- The table of a list of pairs; of two pairs with one key the later wins. -/
def ofList (pairs : List (κ × α)) : Table κ α :=
  pairs.foldl (fun t p => t.insert p.1 p.2) empty

end Ordered

/-! ## What the operations do to look-ups -/

omit [DecidableLT κ] in
@[simp] theorem get?_empty (k : κ) : (empty : Table κ α).get? k = none := rfl

theorem find_insertEntry (k j : κ) (v : α) (l : List (κ × α)) :
    find j (insertEntry k v l) = if j = k then some v else find j l := by
  induction l with
  | nil => simp [insertEntry, find]
  | cons head rest ih =>
    obtain ⟨i, w⟩ := head
    unfold insertEntry
    split
    · next heq =>
      subst heq
      by_cases h : j = k <;> simp [find, h]
    · next hne =>
      split
      · simp [find]
      · by_cases hji : j = i
        · subst hji
          have : ¬ j = k := fun e => hne e.symm
          simp [find, this]
        · simp [find, hji, ih]

@[simp] theorem get?_insert [KeyOrder κ] (t : Table κ α) (k j : κ) (v : α) :
    (t.insert k v).get? j = if j = k then some v else t.get? j :=
  find_insertEntry k j v t.entries

omit [LT κ] [DecidableLT κ] in
theorem find_filter_key (keep : κ → Bool) (j : κ) (l : List (κ × α)) :
    find j (l.filter fun e => keep e.1) = if keep j then find j l else none := by
  induction l with
  | nil => simp [find]
  | cons head rest ih =>
    obtain ⟨i, w⟩ := head
    by_cases hji : j = i
    · subst hji
      by_cases hk : keep j <;> simp [find, hk, ih]
    · by_cases hk : keep i <;> simp [find, hk, hji, ih]

omit [DecidableLT κ] in
@[simp] theorem get?_filter_key (t : Table κ α) (keep : κ → Bool) (j : κ) :
    (t.filter fun k _ => keep k).get? j = if keep j then t.get? j else none :=
  find_filter_key keep j t.entries

omit [DecidableLT κ] in
@[simp] theorem get?_erase (t : Table κ α) (k j : κ) :
    (t.erase k).get? j = if j = k then none else t.get? j := by
  rw [erase, get?_filter_key (α := α) t (fun i => decide (i ≠ k)) j]
  by_cases h : j = k <;> simp [h]

omit [LT κ] [DecidableLT κ] in
theorem find_map (f : κ → α → β) (j : κ) (l : List (κ × α)) :
    find j (l.map fun e => (e.1, f e.1 e.2)) = (find j l).map (f j) := by
  induction l with
  | nil => rfl
  | cons head rest ih =>
    obtain ⟨i, w⟩ := head
    by_cases hji : j = i
    · subst hji; simp [find]
    · simp [find, hji, ih]

omit [DecidableLT κ] in
@[simp] theorem get?_map (t : Table κ α) (f : κ → α → β) (j : κ) :
    (t.map f).get? j = (t.get? j).map (f j) :=
  find_map f j t.entries

/-! ## Membership -/

omit [DecidableLT κ] in
theorem find_eq_some_iff [KeyOrder κ] {k : κ} {v : α} {l : List (κ × α)}
    (h : l.Pairwise fun a b => a.1 < b.1) : find k l = some v ↔ (k, v) ∈ l := by
  induction l with
  | nil => simp [find]
  | cons head rest ih =>
    obtain ⟨i, w⟩ := head
    obtain ⟨hhead, hrest⟩ := List.pairwise_cons.mp h
    by_cases hki : k = i
    · subst hki
      simp only [find, ↓reduceIte, Option.some.injEq, List.mem_cons, Prod.mk.injEq, true_and]
      constructor
      · exact fun e => Or.inl e.symm
      · rintro (e | hmem)
        · exact e.symm
        · exact absurd (hhead _ hmem) (KeyOrder.irrefl k)
    · simp [find, hki, ih hrest]

omit [DecidableLT κ] in
/-- An entry is what its key looks up. -/
theorem get?_eq_some_iff [KeyOrder κ] (t : Table κ α) (k : κ) (v : α) :
    t.get? k = some v ↔ (k, v) ∈ t.entries :=
  find_eq_some_iff t.sorted

end Table
end Automation
