import Automation.Processor
import Automation.Proofs.Json.States
import Automation.Proofs.Lookup
import Automation.Proofs.Store.Calls

/-!
# Rows of progress

What the processor does to the stored progress of one trigger, one operation at a time.  All of them
either put the last record given for the trigger in its row, or delete the row, or leave it; which
of these it is depends on the key alone.

A record comes back from its row as it was, whatever its strings hold.  The one exception is the
sign of a zero, which a row does not keep.
-/

namespace Automation

/-- The key of a record. -/
def Progress.key (p : Progress) : ProgressKey := ⟨p.scheduleId, p.triggerId⟩

namespace Tables

/-- A record comes back from its row. -/
theorem progressOfRow_rowOfProgress {p : Progress} (h : p.count.dropZeroSign = p.count) :
    progressOfRow p.key (rowOfProgress p) = .ok p := by
  obtain ⟨scheduleId, triggerId, count, lastState⟩ := p
  cases lastState with
  | none => simp [progressOfRow, rowOfProgress, Progress.key, h]
  | some state =>
    have htext := AppState.decode?_text state
    simp only [progressOfRow, rowOfProgress, Option.map_some, htext, h, Progress.key]

/-- Of the records for one key the last one is what its row holds. -/
theorem get?_foldl_putProgress (ps : List Progress) (t : Tables) (k : ProgressKey) :
    (ps.foldl putProgress t).progress.get? k =
      (((ps.filter fun p => p.key = k).getLast?).map rowOfProgress).or (t.progress.get? k) := by
  have hfold : (ps.foldl putProgress t).progress =
      (ps.map fun p => (p.key, rowOfProgress p)).foldl (fun t p => t.insert p.1 p.2) t.progress := by
    induction ps generalizing t with
    | nil => rfl
    | cons p rest ih =>
      rw [List.foldl_cons, List.map_cons, List.foldl_cons, ih]
      rfl
  rw [hfold, Table.get?_foldl_insert, List.filter_map, List.getLast?_map, Option.map_map]
  rfl

/-- Records whose counts are numbers can be written. -/
theorem writeProgress_of_numbers {ps : List Progress} (hps : ∀ p ∈ ps, p.count ≠ .nan)
    (t : Tables) : t.writeProgress ps = .ok (ps.foldl putProgress t) := by
  have hnumbers : ¬ (ps.any fun p => p.count = .nan) = true := by
    rw [List.any_eq_true]
    rintro ⟨p, hp, hnan⟩
    exact hps p hp (of_decide_eq_true hnan)
  rw [writeProgress, if_neg hnumbers]

/-- Writing progress changes progress and nothing else. -/
theorem foldl_putProgress_eq (ps : List Progress) (t : Tables) :
    ps.foldl putProgress t = { t with progress := (ps.foldl putProgress t).progress } := by
  induction ps generalizing t with
  | nil => rfl
  | cons p rest ih =>
    rw [List.foldl_cons, ih]
    rfl

end Tables

namespace Store

variable {s : Store}

/-- The row of a trigger. -/
def progressRow (s : Store) (k : ProgressKey) : Option ProgressRow := s.tables.progress.get? k

/-- What the processor reads for a key that a store allows to read. -/
def recalled (s : Store) (k : ProgressKey) : Option Progress :=
  match s.tables.progress? k.scheduleId k.triggerId with
  | .ok progress => progress
  | .error _ => none

theorem recalled_eq_none {k : ProgressKey} (h : s.progressRow k = none) : s.recalled k = none := by
  rw [progressRow] at h
  simp only [recalled, Tables.progress?, h]

/-- What was stored is recalled. -/
theorem recalled_eq_some {p : Progress} (h : s.progressRow p.key = some (Tables.rowOfProgress p))
    (hcount : p.count.dropZeroSign = p.count) : s.recalled p.key = some p := by
  have hback := Tables.progressOfRow_rowOfProgress hcount
  rw [progressRow] at h
  show (match s.tables.progress? p.key.scheduleId p.key.triggerId with
    | .ok progress => progress
    | .error _ => none) = some p
  rw [Tables.progress?, show (⟨p.key.scheduleId, p.key.triggerId⟩ : ProgressKey) = p.key from rfl, h]
  simp only [hback, Except.map]

/-! ## Deleting -/

/-- Deleting rows leaves the rows that are meant to stay, whether it fails or not. -/
theorem progressRow_command_of_keep {op : StoreOperation} {changes : Bool}
    {keep : ProgressKey → Bool} {k : ProgressKey} (hk : keep k = true) :
    (s.command op changes fun t =>
      .ok { t with progress := t.progress.filter fun k _ => keep k }).2.progressRow k =
        s.progressRow k := by
  rw [progressRow, progressRow]
  rcases command_tables s op changes
    (fun t => .ok { t with progress := t.progress.filter fun k _ => keep k }) with hsame | hdeleted
  · rw [hsame]
  · rw [← Except.ok.inj hdeleted, Table.get?_filter_key, if_pos hk]

/-- Deleting rows makes no new ones, whether it fails or not. -/
theorem progressRow_of_command {op : StoreOperation} {changes : Bool}
    {keep : ProgressKey → Bool} {k : ProgressKey} {row : ProgressRow}
    (h : (s.command op changes fun t =>
      .ok { t with progress := t.progress.filter fun k _ => keep k }).2.progressRow k = some row) :
    s.progressRow k = some row := by
  rw [progressRow] at h ⊢
  rcases command_tables s op changes
    (fun t => .ok { t with progress := t.progress.filter fun k _ => keep k }) with hsame | hdeleted
  · rwa [hsame] at h
  · rw [← Except.ok.inj hdeleted] at h
    exact ((Table.get?_filter_eq_some_iff _ _ _ _).mp h).1

theorem progressRow_deleteTriggers {scheduleId : String} {ids : List String} {k : ProgressKey}
    (h : k.scheduleId = scheduleId → k.triggerId ∉ ids) :
    (s.deleteTriggers scheduleId ids).2.progressRow k = s.progressRow k := by
  have hkeep : (!(k.scheduleId = scheduleId && ids.contains k.triggerId)) = true := by
    rw [Bool.not_eq_true', ← Bool.not_eq_true, Bool.and_eq_true, decide_eq_true_eq,
      List.contains_iff_mem]
    exact fun ⟨hschedule, hmem⟩ => h hschedule hmem
  exact progressRow_command_of_keep hkeep

theorem progressRow_deleteSchedules {ids : List String} {k : ProgressKey}
    (h : k.scheduleId ∉ ids) : (s.deleteSchedules ids).2.progressRow k = s.progressRow k := by
  have hkeep : (!ids.contains k.scheduleId) = true := by
    rw [Bool.not_eq_true', ← Bool.not_eq_true, List.contains_iff_mem]
    exact h
  exact progressRow_command_of_keep hkeep

theorem progressRow_keepSchedules {ids : List String} {k : ProgressKey} (h : k.scheduleId ∈ ids) :
    (s.keepSchedules ids).2.progressRow k = s.progressRow k := by
  have hkeep : ids.contains k.scheduleId = true := List.contains_iff_mem.mpr h
  exact progressRow_command_of_keep hkeep

/-- What is deleted is progress and nothing else, whether it fails or not. -/
theorem exists_tables_deleteTriggers (s : Store) (scheduleId : String) (ids : List String) :
    ∃ progress, (s.deleteTriggers scheduleId ids).2.tables =
      { s.tables with progress := progress } := by
  rcases command_tables s .deleteTriggers (!ids.isEmpty)
    (fun t => .ok (t.deleteTriggers scheduleId ids)) with hsame | hdeleted
  · exact ⟨s.tables.progress, hsame⟩
  · exact ⟨_, (Except.ok.inj hdeleted).symm⟩

/-- A row that is not meant to stay is gone, where deleting is not refused. -/
theorem progressRow_command_of_drop {op : StoreOperation} (hs : s.Allows op) {changes : Bool}
    {keep : ProgressKey → Bool} {k : ProgressKey} (hk : keep k = false) :
    (s.command op changes fun t =>
      .ok { t with progress := t.progress.filter fun k _ => keep k }).2.progressRow k = none := by
  have hdeleted : (s.command op changes fun t =>
      .ok { t with progress := t.progress.filter fun k _ => keep k }).2.tables =
        { s.tables with progress := s.tables.progress.filter fun k _ => keep k } :=
    command_tables_of_ok hs rfl
  rw [progressRow, hdeleted, Table.get?_filter_key, if_neg (Bool.eq_false_iff.mp hk)]

theorem progressRow_deleteTriggers_of_mem (hs : s.Allows .deleteTriggers) {ids : List String}
    {k : ProgressKey} (h : k.triggerId ∈ ids) :
    (s.deleteTriggers k.scheduleId ids).2.progressRow k = none := by
  have hdrop : (!(k.scheduleId = k.scheduleId && ids.contains k.triggerId)) = false := by
    rw [List.contains_iff_mem.mpr h]
    simp
  exact progressRow_command_of_drop hs hdrop

theorem progressRow_deleteSchedules_of_mem (hs : s.Allows .deleteSchedules) {ids : List String}
    {k : ProgressKey} (h : k.scheduleId ∈ ids) :
    (s.deleteSchedules ids).2.progressRow k = none := by
  have hdrop : (!ids.contains k.scheduleId) = false := by
    rw [List.contains_iff_mem.mpr h]
    rfl
  exact progressRow_command_of_drop hs hdrop

theorem tables_keepSchedules (hs : s.Allows .keepSchedules) (ids : List String) :
    (s.keepSchedules ids).2.tables = s.tables.keepSchedules ids := command_tables_of_ok hs rfl

theorem progressRow_keepSchedules_of_not_mem (hs : s.Allows .keepSchedules) {ids : List String}
    {k : ProgressKey} (h : k.scheduleId ∉ ids) : (s.keepSchedules ids).2.progressRow k = none := by
  have hdrop : ids.contains k.scheduleId = false :=
    Bool.eq_false_iff.mpr fun hmem => h (List.contains_iff_mem.mp hmem)
  exact progressRow_command_of_drop hs hdrop

/-- Where nothing has to go, nothing changes. -/
theorem tables_keepSchedules_of_kept (hs : s.Allows .keepSchedules) {ids : List String}
    (h : ∀ k, k.scheduleId ∉ ids → s.progressRow k = none) :
    (s.keepSchedules ids).2.tables = s.tables := by
  have hprogress : (s.tables.keepSchedules ids).progress = s.tables.progress := by
    refine Table.eq_of_get?_eq fun k => ?_
    rw [← tables_keepSchedules hs]
    by_cases hk : k.scheduleId ∈ ids
    · exact progressRow_keepSchedules hk
    · exact (progressRow_keepSchedules_of_not_mem hs hk).trans (h k hk).symm
  rw [tables_keepSchedules hs]
  exact congrArg (fun progress => { s.tables with progress := progress }) hprogress

end Store

namespace Processor

variable {s : Store}

/-- Reading progress leaves the store, whatever fails. -/
theorem isReadOf_loadProgress (s : Store) (scheduleId triggerId : String) :
    (loadProgress s scheduleId triggerId).2.IsReadOf s := by
  unfold loadProgress
  split
  · next hread => exact Store.isReadOf_query hread
  · next hread => exact Store.isReadOf_query hread

/-- Reading progress gives what is recalled and leaves the store. -/
theorem loadProgress_spec (hs : s.Allows .readProgress) (scheduleId triggerId : String) :
    (loadProgress s scheduleId triggerId).1 = s.recalled ⟨scheduleId, triggerId⟩ ∧
      (loadProgress s scheduleId triggerId).2.IsReadOf s := by
  have hanswer : (s.readProgress scheduleId triggerId).1 =
      s.tables.progress? scheduleId triggerId :=
    Store.query_answer hs
  refine ⟨?_, isReadOf_loadProgress s scheduleId triggerId⟩
  unfold loadProgress Store.recalled
  rw [← hanswer]
  rcases s.readProgress scheduleId triggerId with ⟨_ | _, s'⟩
  · rfl
  · rfl

@[simp] theorem allows_persist {ps : List Progress} {op : StoreOperation} :
    (persist s ps).Allows op ↔ s.Allows op := by
  rw [persist]
  split
  · rfl
  · exact Store.allows_command

/-- Where nothing fails and every count is a number, all records are written. -/
theorem tables_persist (hs : s.Allows .writeProgress) {ps : List Progress}
    (hps : ∀ p ∈ ps, p.count ≠ .nan) :
      (persist s ps).tables = ps.foldl Tables.putProgress s.tables := by
  rw [persist]
  split
  · next hnil => rw [List.isEmpty_iff.mp hnil, List.foldl_nil]
  · exact Store.command_tables_of_ok hs (Tables.writeProgress_of_numbers hps s.tables)

/-- What is persisted is progress and nothing else, whatever fails. -/
theorem exists_tables_persist (s : Store) (ps : List Progress) :
    ∃ progress, (persist s ps).tables = { s.tables with progress := progress } := by
  rw [persist]
  split
  · exact ⟨s.tables.progress, rfl⟩
  · rcases Store.command_tables s .writeProgress (!ps.isEmpty) fun t => t.writeProgress ps with h | h
    · exact ⟨s.tables.progress, h⟩
    · have hwritten : s.tables.writeProgress ps = .ok (s.writeProgress ps).2.tables := h
      rw [Tables.writeProgress] at hwritten
      split at hwritten
      · cases hwritten
      · refine ⟨(ps.foldl Tables.putProgress s.tables).progress, ?_⟩
        rw [← Except.ok.inj hwritten, ← Tables.foldl_putProgress_eq]

/-- A row that no record is for stays, whatever fails. -/
theorem progressRow_persist_of_ne {ps : List Progress} {k : ProgressKey}
    (hk : ∀ p ∈ ps, p.key ≠ k) : (persist s ps).progressRow k = s.progressRow k := by
  have hnone : (ps.filter fun p => p.key = k) = [] := by
    rw [List.filter_eq_nil_iff]
    intro p hp hkey
    exact hk p hp (of_decide_eq_true hkey)
  rw [persist]
  split
  · rfl
  · rw [Store.progressRow, Store.progressRow]
    rcases Store.command_tables s .writeProgress (!ps.isEmpty) fun t => t.writeProgress ps with h | h
    · exact congrArg (fun t => t.progress.get? k) h
    · have hwritten : s.tables.writeProgress ps = .ok (s.writeProgress ps).2.tables := h
      rw [Tables.writeProgress] at hwritten
      split at hwritten
      · cases hwritten
      · have hrow := Tables.get?_foldl_putProgress ps s.tables k
        rw [Except.ok.inj hwritten, hnone] at hrow
        exact hrow

/-- The last record that is for a row is what it holds, where nothing fails and every count is a
number. -/
theorem progressRow_persist_of_numbers (hs : s.Allows .writeProgress) {ps : List Progress}
    (hps : ∀ p ∈ ps, p.count ≠ .nan) (k : ProgressKey) :
    (persist s ps).progressRow k =
      (((ps.filter fun p => p.key = k).getLast?).map Tables.rowOfProgress).or (s.progressRow k) := by
  rw [Store.progressRow, tables_persist hs hps, Tables.get?_foldl_putProgress]
  rfl

/-- The row that exactly one record is for holds it. -/
theorem progressRow_persist (hs : s.Allows .writeProgress) {ps : List Progress}
    (hps : ∀ p ∈ ps, p.count ≠ .nan) {p : Progress}
    (honly : (ps.filter fun q => q.key = p.key) = [p]) :
    (persist s ps).progressRow p.key = some (Tables.rowOfProgress p) := by
  rw [progressRow_persist_of_numbers hs hps, honly]
  rfl

end Processor
end Automation
