import Automation.Proofs.Number.Sums
import Automation.Proofs.Store.ProgressRows

/-!
# A batch of progress is stored whole and read back

Writing a batch either puts every record of it into its row or changes nothing, and then each key
reads as it did (`Store.writeProgress_read_back`).  Of several records for one key the last one is
read.  It comes back with its strings as they were, whatever is in them, and a state that is not
known is not the same as one in which nothing is known.

Of the count the sign of a zero is not kept (`Store.sign_of_zero_is_not_kept`).  No count that is
collected has one, but a record may.
-/

namespace Automation

/-- A record as its row gives it back. -/
def Progress.stored (p : Progress) : Progress := { p with count := p.count.dropZeroSign }

namespace Tables

variable {k : ProgressKey}

theorem progressOfRow_stored {p : Progress} (h : p.key = k) :
    progressOfRow k (rowOfProgress p) = .ok p.stored := by
  have hzero : p.stored.count.dropZeroSign = p.stored.count := Binary64.dropZeroSign_dropZeroSign _
  have hback := progressOfRow_rowOfProgress hzero
  rw [rowOfProgress, hzero] at hback
  rw [← h]
  exact hback

/-- What a key reads after a batch: the last record for it, or what it read before. -/
theorem progress?_foldl_putProgress (ps : List Progress) (t : Tables) (k : ProgressKey) :
    (ps.foldl putProgress t).progress? k.scheduleId k.triggerId =
      match (ps.filter fun p => p.key = k).getLast? with
      | some p => .ok (some p.stored)
      | none => t.progress? k.scheduleId k.triggerId := by
  rw [progress?, get?_foldl_putProgress]
  cases hlast : (ps.filter fun p => p.key = k).getLast? with
  | none => rw [Option.map_none, Option.none_or]; rfl
  | some p =>
    have hkey : p.key = k := of_decide_eq_true (List.mem_filter.mp (List.mem_of_getLast? hlast)).2
    rw [Option.map_some, Option.some_or]
    show (progressOfRow k (rowOfProgress p)).map some = _
    rw [progressOfRow_stored hkey]
    rfl

/-- A batch that is written has numbers for counts, and all of it is written. -/
theorem eq_foldl_of_writeProgress {ps : List Progress} {t t' : Tables}
    (h : t.writeProgress ps = .ok t') : t' = ps.foldl putProgress t := by
  rw [writeProgress] at h
  split at h
  · cases h
  · exact (Except.ok.inj h).symm

end Tables

namespace Store

variable {s : Store}

/-- What is read where reading is not refused. -/
theorem readProgress_answer (h : ∀ call, s.plan call .readProgress = none)
    (scheduleId triggerId : String) :
    (s.readProgress scheduleId triggerId).1 = s.tables.progress? scheduleId triggerId :=
  query_answer_of_plan h

theorem readProgress_writeProgress (h : ∀ call, s.plan call .readProgress = none)
    (ps : List Progress) (scheduleId triggerId : String) :
    ((s.writeProgress ps).2.readProgress scheduleId triggerId).1 =
      (s.writeProgress ps).2.tables.progress? scheduleId triggerId := by
  refine readProgress_answer (fun call => ?_) scheduleId triggerId
  rw [writeProgress, plan_command]
  exact h call

/-- **A batch of progress is stored whole and read back.**  After a batch has been written, a key
reads the last record of the batch for it, in which only a negative zero has lost its sign, and a key
without one reads as before.  After a batch has not been written every key reads as before.  A batch
of numbers is written wherever writing is not refused. -/
theorem writeProgress_read_back (s : Store) (ps : List Progress)
    (hreads : ∀ call, s.plan call .readProgress = none) (k : ProgressKey) :
    ((s.writeProgress ps).1 = .ok () →
      ((s.writeProgress ps).2.readProgress k.scheduleId k.triggerId).1 =
        match (ps.filter fun p => p.key = k).getLast? with
        | some p => .ok (some { p with count := p.count.dropZeroSign })
        | none => (s.readProgress k.scheduleId k.triggerId).1) ∧
    (∀ e, (s.writeProgress ps).1 = .error e →
      ((s.writeProgress ps).2.readProgress k.scheduleId k.triggerId).1 =
        (s.readProgress k.scheduleId k.triggerId).1) ∧
    (s.Allows .writeProgress → (∀ p ∈ ps, p.count ≠ .nan) → (s.writeProgress ps).1 = .ok ()) := by
  rw [readProgress_writeProgress hreads, readProgress_answer hreads]
  refine ⟨fun hwritten => ?_, fun e hfailed => ?_, fun hwrites hnumbers => ?_⟩
  · have htables : s.tables.writeProgress ps = .ok (s.writeProgress ps).2.tables :=
      write_of_command_answer hwritten
    rw [Tables.eq_foldl_of_writeProgress htables, Tables.progress?_foldl_putProgress]
    rfl
  · have htables : (s.writeProgress ps).2.tables = s.tables := tables_of_command_error hfailed
    rw [htables]
  · exact command_answer_of_ok hwrites (Tables.writeProgress_of_numbers hnumbers s.tables)

/-- A store with a row that cannot be read. -/
def damaged : Store :=
  ofTables { Tables.empty with progress := .ofList [(⟨"s", "b"⟩, ⟨0, some "no state"⟩)] }

/-- A record with strings that have to be escaped. -/
def escaped : Progress := ⟨"s", "\x00\"", 1, some ⟨some "\\u0000", some "\x07\n"⟩⟩

/-- Two records for one key, the second with a state in which nothing is known, and one for another
key without a state. -/
def repeating : List Progress :=
  [escaped, ⟨"\x1f", "b", 1, none⟩, { escaped with lastState := some ⟨none, none⟩ }]

/-- The second of the two is read, and the row that cannot be read still cannot. -/
theorem writeProgress_read_back_repeating :
    (damaged.writeProgress repeating).1 = .ok () ∧
      ((damaged.writeProgress repeating).2.readProgress "s" "\x00\"").1 =
        .ok (some ⟨"s", "\x00\"", 1, some ⟨none, none⟩⟩) ∧
      ((damaged.writeProgress repeating).2.readProgress "\x1f" "b").1 =
        .ok (some ⟨"\x1f", "b", 1, none⟩) ∧
      ((damaged.writeProgress repeating).2.readProgress "s" "b").1 =
        .error .unreadableState := by
  have hreads : ∀ call, damaged.plan call .readProgress = none := fun _ => rfl
  have hwrites : damaged.Allows .writeProgress := isReliable_ofTables _ _
  have hnumbers : ∀ p ∈ repeating, p.count ≠ .nan := by decide +kernel
  have hone : (1 : Binary64).dropZeroSign = 1 := by decide +kernel
  have hback := writeProgress_read_back damaged repeating hreads
  have hwritten := (hback ⟨"s", "b"⟩).2.2 hwrites hnumbers
  have hlast : ∀ k p, (repeating.filter fun p => p.key = k).getLast? = some p → p.count = 1 →
      ((damaged.writeProgress repeating).2.readProgress k.scheduleId k.triggerId).1 =
        .ok (some p) := fun k p hp hcount => by
    have hread := (hback k).1 hwritten
    rw [hp] at hread
    dsimp only at hread
    rw [hcount, hone, ← hcount] at hread
    exact hread
  refine ⟨hwritten, ?_, ?_, ?_⟩
  · exact hlast ⟨"s", "\x00\""⟩ ⟨"s", "\x00\"", 1, some ⟨none, none⟩⟩ (by decide +kernel) rfl
  · exact hlast ⟨"\x1f", "b"⟩ ⟨"\x1f", "b", 1, none⟩ (by decide +kernel) rfl
  · have hnone : (repeating.filter fun p => p.key = ⟨"s", "b"⟩).getLast? = none := by
      decide +kernel
    have hread := (hback ⟨"s", "b"⟩).1 hwritten
    rw [hnone] at hread
    exact hread

/-- A count of negative zero is read as zero, which is not what was given. -/
theorem sign_of_zero_is_not_kept :
    ((ofTables .empty).writeProgress [⟨"s", "a", .finite true 0, none⟩]).1 = .ok () ∧
      (((ofTables .empty).writeProgress [⟨"s", "a", .finite true 0, none⟩]).2.readProgress
        "s" "a").1 = .ok (some ⟨"s", "a", .finite false 0, none⟩) ∧
      (((ofTables .empty).writeProgress [⟨"s", "a", .finite true 0, none⟩]).2.readProgress
        "s" "a").1 ≠ .ok (some ⟨"s", "a", .finite true 0, none⟩) := by
  have hread : (((ofTables .empty).writeProgress [⟨"s", "a", .finite true 0, none⟩]).2.readProgress
      "s" "a").1 = .ok (some ⟨"s", "a", .finite false 0, none⟩) := rfl
  refine ⟨rfl, hread, fun h => ?_⟩
  rw [hread] at h
  cases h

end Store
end Automation
