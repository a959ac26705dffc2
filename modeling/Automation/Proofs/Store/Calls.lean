import Automation.Store.Basic

/-!
# What a call does to a store

A call answers and counts itself, and if it writes and succeeds it replaces the tables.  It never
changes what the store allows: the plan of failures and whether the store may be written stay.  So
"this operation is never refused" is a property of the store a run begins with.

An operation that is not refused may still fail of itself, when a row cannot be read or written.
`Allows` says nothing about that; what it leaves is the operation on the tables.  Of these only two
fail: progress is written if its counts are numbers, and occurrences are added if what they refer to
is defined (`Tables.addOccurrences_eq_ok_iff`).
-/

namespace Automation
namespace Store

variable {α : Type} {s : Store} {op : StoreOperation}

/-- No call of an operation fails for reasons outside the tables. -/
def Allows (s : Store) (op : StoreOperation) : Prop :=
  s.readOnly = false ∧ ∀ call, s.plan call op = none

/-- A store in which nothing fails for reasons outside the tables. -/
def IsReliable (s : Store) : Prop := ∀ op, s.Allows op

/-- A store in which the writing of occurrences may fail at any time, and nothing else. -/
def LosesOnlyOccurrences (s : Store) : Prop := ∀ op, op ≠ .addOccurrences → s.Allows op

theorem IsReliable.losesOnlyOccurrences (h : s.IsReliable) : s.LosesOnlyOccurrences :=
  fun op _ => h op

@[simp] theorem tables_ofTables (t : Tables) : (ofTables t).tables = t := rfl

theorem isReliable_ofTables (t : Tables) : (ofTables t).IsReliable := fun _ => ⟨rfl, fun _ => rfl⟩

/-- A store after some reading: the tables and what it allows are as before. -/
structure IsReadOf (s' s : Store) : Prop where
  tables : s'.tables = s.tables
  allows : ∀ op, s'.Allows op ↔ s.Allows op

theorem IsReadOf.refl (s : Store) : s.IsReadOf s := ⟨rfl, fun _ => Iff.rfl⟩

theorem IsReadOf.trans {a b c : Store} (hab : b.IsReadOf a) (hbc : c.IsReadOf b) : c.IsReadOf a :=
  ⟨hbc.tables.trans hab.tables, fun op => (hbc.allows op).trans (hab.allows op)⟩

/-! ## Reading -/

variable {read : Tables → Except StorageError α}

@[simp] theorem query_tables : (s.query op read).2.tables = s.tables := by
  rw [query]
  split <;> rfl

@[simp] theorem allows_query {other : StoreOperation} :
    (s.query op read).2.Allows other ↔ s.Allows other := by
  rw [query]
  split <;> rfl

theorem isReadOf_query {answer : Except StorageError α} {s' : Store}
    (h : s.query op read = (answer, s')) : s'.IsReadOf s := by
  have hq : (s.query op read).2.IsReadOf s := ⟨query_tables, fun _ => allows_query⟩
  rw [h] at hq
  exact hq

/-- What is read is what the tables say. -/
theorem read_of_query {a : α} {s' : Store} (h : s.query op read = (.ok a, s')) :
    read s.tables = .ok a := by
  rw [query] at h
  split at h
  · cases h
  · exact congrArg Prod.fst h

theorem query_answer_of_plan (h : ∀ call, s.plan call op = none) :
    (s.query op read).1 = read s.tables := by
  rw [query, h]

theorem query_answer (h : s.Allows op) : (s.query op read).1 = read s.tables :=
  query_answer_of_plan h.2

/-! ## Writing -/

variable {changes : Bool} {write : Tables → Except StorageError Tables}

@[simp] theorem allows_command {other : StoreOperation} :
    (s.command op changes write).2.Allows other ↔ s.Allows other := by
  rw [command]
  split
  · rfl
  · split
    · rfl
    · split <;> rfl

@[simp] theorem plan_command : (s.command op changes write).2.plan = s.plan := by
  rw [command]
  split
  · rfl
  · split
    · rfl
    · split <;> rfl

/-- A call that writes either leaves the tables or makes the intended change. -/
theorem command_tables (s : Store) (op : StoreOperation) (changes : Bool)
    (write : Tables → Except StorageError Tables) :
    (s.command op changes write).2.tables = s.tables ∨
      write s.tables = .ok (s.command op changes write).2.tables := by
  rw [command]
  split
  · exact Or.inl rfl
  · split
    · exact Or.inl rfl
    · split
      · exact Or.inl rfl
      · next h => exact Or.inr h

/-- A call that succeeds makes the intended change. -/
theorem write_of_command_answer (h : (s.command op changes write).1 = .ok ()) :
    write s.tables = .ok (s.command op changes write).2.tables := by
  revert h
  rw [command]
  split
  · exact fun h => by cases h
  · split
    · exact fun h => by cases h
    · split
      · exact fun h => by cases h
      · next hwrite => exact fun _ => hwrite

/-- A call that fails leaves the tables. -/
theorem tables_of_command_error {e : StorageError} (h : (s.command op changes write).1 = .error e) :
    (s.command op changes write).2.tables = s.tables := by
  revert h
  rw [command]
  split
  · exact fun _ => rfl
  · split
    · exact fun _ => rfl
    · split
      · exact fun _ => rfl
      · exact fun h => by cases h

theorem command_answer_of_ok {t : Tables} (h : s.Allows op) (hw : write s.tables = .ok t) :
    (s.command op changes write).1 = .ok () := by
  simp only [command, h.2, h.1, hw, Bool.false_and, Bool.false_eq_true, if_false]

theorem command_tables_of_ok {t : Tables} (h : s.Allows op) (hw : write s.tables = .ok t) :
    (s.command op changes write).2.tables = t := by
  simp only [command, h.2, h.1, hw, Bool.false_and, Bool.false_eq_true, if_false]

end Store

/-- A batch is taken just if every constraint that it names is defined, and then all of it is added
behind what is there. -/
theorem Tables.addOccurrences_eq_ok_iff {t t' : Tables} {os : List Occurrence} :
    t.addOccurrences os = .ok t' ↔
      (∀ o ∈ os, t.constraints.contains o.constraintId = true) ∧
        t' = { t with occurrences := t.occurrences ++ os.map rowOfOccurrence } := by
  rw [addOccurrences]
  split
  · next hall =>
    constructor
    · intro h
      exact ⟨List.all_eq_true.mp hall, (Except.ok.inj h).symm⟩
    · rintro ⟨-, rfl⟩
      rfl
  · next hsome => exact iff_of_false (fun h => by cases h) fun h => hsome (List.all_eq_true.mpr h.1)

end Automation
