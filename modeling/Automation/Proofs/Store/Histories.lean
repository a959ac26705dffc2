import Automation.Proofs.Limit.Exactness
import Mathlib.Data.List.DropRight

/-!
# A history is what was added to it

Four calls change constraints and occurrences, and each of them may be turned down.  Whoever makes
them sees the answers and nothing else.  From the answers alone it can be said what every history
is: the times of the batches that were taken since the constraint, or its history, was last deleted
(`Entry.timesIn`).  Reading gives these times in ascending order, as often as they were added, and
redefining the constraint in between changes none of this (`Journal.histories_are_faithful`).

## One change and one constraint

A change deletes all rows of a constraint or none, and puts what it brings behind the others
(`Change.rowsOf_write`).  One that is turned down does neither.  So the rows follow the answers step
by step (`Journal.IsFaithful.ask`), in the order in which they were added and not only as a
multiset.  The other half of the invariant is that rows refer to definitions.  It is why one
undefined constraint has to turn down a whole batch.

## What milliseconds do not keep

A row holds milliseconds, so a time is read rounded down.  A time inside a leap second is read as a
time in the next second, and where there is no next second it cannot be read at all, nor can
anything else of its history (`Journal.leap_second_is_not_kept`).
-/

namespace Automation

/-! ## Reading -/

namespace Tables

variable {t : Tables} {id : String} {os : List Occurrence} {rows : List OccurrenceRow}

/-- A row comes back from the occurrence that was read from it. -/
theorem rowOfOccurrence_of_occurrenceOfRow {row : OccurrenceRow} {o : Occurrence}
    (h : occurrenceOfRow row = .ok o) : rowOfOccurrence o = row := by
  obtain ⟨hid, htime⟩ := occurrenceOfRow_eq_ok_iff.mp h
  rw [rowOfOccurrence, hid, Instant.toMillis_of_ofMillis? htime]

theorem map_rowOfOccurrence (h : rows.map occurrenceOfRow = os.map .ok) :
    os.map rowOfOccurrence = rows := by
  induction rows generalizing os with
  | nil =>
    cases os with
    | nil => rfl
    | cons o more => cases h
  | cons row rest ih =>
    cases os with
    | nil => cases h
    | cons o more =>
      obtain ⟨ho, htail⟩ := List.cons.inj h
      rw [List.map_cons, rowOfOccurrence_of_occurrenceOfRow ho, ih htail]

/-- What fails all rows is one whose milliseconds no instant has. -/
theorem exists_of_mapM_eq_error {e : StorageError} (h : rows.mapM occurrenceOfRow = .error e) :
    ∃ row ∈ rows, Instant.ofMillis? row.millis = none ∧ e = .invalidTime row.millis := by
  induction rows with
  | nil => cases h
  | cons row rest ih =>
    rw [List.mapM_cons] at h
    cases hread : Instant.ofMillis? row.millis with
    | none =>
      rw [occurrenceOfRow, hread] at h
      cases h
      exact ⟨row, List.mem_cons_self, hread, rfl⟩
    | some time =>
      rw [occurrenceOfRow, hread] at h
      cases hrest : rest.mapM occurrenceOfRow with
      | error e' =>
        rw [hrest] at h
        cases h
        obtain ⟨bad, hbad, hfound⟩ := ih hrest
        exact ⟨bad, List.mem_cons_of_mem _ hbad, hfound⟩
      | ok os =>
        rw [hrest] at h
        cases h

/-- A history that is read is in ascending order, and it is that of the constraint alone. -/
theorem ascending_of_occurrencesOf (h : t.occurrencesOf id = .ok os) :
    (os.map (·.time)).Pairwise (· ≤ ·) ∧ ∀ o ∈ os, o.constraintId = id := by
  have hrows : os.map rowOfOccurrence = t.history id :=
    map_rowOfOccurrence (mapM_occurrenceOfRow.mp h)
  have hwhole : ∀ o ∈ os, o.time.IsWhole := fun o ho => by
    have htime := (perm_timesOf h).2.mem_iff.mp (List.mem_map_of_mem ho)
    exact isWhole_of_mem_timesOf htime
  constructor
  · have hsorted : (t.history id).Pairwise fun a b => a.millis ≤ b.millis := sorted_sortBy _ _
    rw [← hrows, List.pairwise_map] at hsorted
    rw [List.pairwise_map]
    exact hsorted.imp_of_mem fun ho ho' hle =>
      ((hwhole _ ho).le_iff_toMillis (hwhole _ ho')).mpr hle
  · intro o ho
    have hrow : rowOfOccurrence o ∈ t.history id := hrows ▸ List.mem_map_of_mem ho
    exact of_decide_eq_true (List.mem_filter.mp ((perm_sortBy _ _).mem_iff.mp hrow)).2

/-- Occurrences are the history of a constraint to which these times were added. -/
structure IsHistory (id : String) (times : List Instant) (os : List Occurrence) : Prop where
  ascending : (os.map (·.time)).Pairwise (· ≤ ·)
  constraint : ∀ o ∈ os, o.constraintId = id
  /-- Each time is there as it is kept, and as often as it was added. -/
  perm : (os.map fun o => some o.time).Perm (times.map Instant.kept?)

variable {times : List Instant}

/-- Outside leap seconds each time is there rounded down. -/
theorem IsHistory.perm_roundedDown (h : IsHistory id times os)
    (hplain : ∀ time ∈ times, time.IsPlain) :
    (os.map (·.time)).Perm (times.map Instant.roundedDown) := by
  have hkept : times.map Instant.kept? = (times.map Instant.roundedDown).map some := by
    rw [List.map_map]
    exact List.map_congr_left fun time htime => Instant.kept?_of_isPlain (hplain time htime)
  have hread : (os.map fun o => some o.time) = (os.map (·.time)).map some := by
    rw [List.map_map]
    rfl
  have hperm := h.perm
  rw [hkept, hread] at hperm
  exact (List.map_perm_map_iff (Option.some_injective _)).mp hperm

/-- The rows of a constraint to which these times were added. -/
def rowsFor (id : String) (times : List Instant) : List OccurrenceRow :=
  times.map fun time => rowOfOccurrence ⟨id, time⟩

theorem rowsFor_append (id : String) (times times' : List Instant) :
    rowsFor id (times ++ times') = rowsFor id times ++ rowsFor id times' := List.map_append

/-- Rows of times that are kept can be read. -/
theorem isReadableFor_of_rowsOf (hrows : t.rowsOf id = rowsFor id times)
    (hkept : ∀ time ∈ times, ¬ time.EndsRange) : t.IsReadableFor id := by
  intro row hrow hid
  have hmem : row ∈ t.rowsOf id := List.mem_filter.mpr ⟨hrow, decide_eq_true hid⟩
  rw [hrows] at hmem
  obtain ⟨time, htime, rfl⟩ := List.mem_map.mp hmem
  rw [rowOfOccurrence, Instant.ofMillis?_toMillis, Option.isSome_iff_ne_none, Ne,
    Instant.kept?_eq_none_iff]
  exact hkept time htime

/-- Where the rows of a constraint are those of some times, these are what is read. -/
theorem isHistory_of_rowsOf (hrows : t.rowsOf id = rowsFor id times)
    (h : t.occurrencesOf id = .ok os) : IsHistory id times os := by
  obtain ⟨hascending, hconstraint⟩ := ascending_of_occurrencesOf h
  obtain ⟨hreadable, hperm⟩ := perm_timesOf h
  have hread : t.timesOf id = times.filterMap Instant.kept? := by
    rw [timesOf, ← rowsOf, hrows, rowsFor, List.filterMap_map]
    exact List.filterMap_congr fun time _ => Instant.ofMillis?_toMillis time
  have hkept : ∀ time ∈ times.map Instant.kept?, time.isSome = true := by
    intro kept hmem
    obtain ⟨time, htime, rfl⟩ := List.mem_map.mp hmem
    have hrow : rowOfOccurrence ⟨id, time⟩ ∈ t.rowsOf id :=
      hrows ▸ List.mem_map_of_mem (f := fun time => rowOfOccurrence ⟨id, time⟩) htime
    rw [← Instant.ofMillis?_toMillis]
    exact hreadable _ (List.mem_filter.mp hrow).1 rfl
  refine ⟨hascending, hconstraint, ?_⟩
  have hsome := hperm.map some
  rw [hread, List.map_map, List.map_filterMap_some_eq_filter_map_isSome,
    List.filter_eq_self.mpr hkept] at hsome
  exact hsome

/-- One time that is not kept fails the whole history, with its milliseconds. -/
theorem occurrencesOf_eq_error_of_rowsOf (hrows : t.rowsOf id = rowsFor id times)
    (hlast : ∃ time ∈ times, time.EndsRange) :
    ∃ time ∈ times, time.EndsRange ∧ t.occurrencesOf id = .error (.invalidTime time.toMillis) := by
  cases hread : t.occurrencesOf id with
  | ok os =>
    obtain ⟨time, htime, hends⟩ := hlast
    have hnone : none ∈ times.map Instant.kept? :=
      List.mem_map.mpr ⟨time, htime, Instant.kept?_eq_none_iff.mpr hends⟩
    have hsome := (isHistory_of_rowsOf hrows hread).perm.mem_iff.mpr hnone
    obtain ⟨o, -, ho⟩ := List.mem_map.mp hsome
    cases ho
  | error e =>
    obtain ⟨row, hrow, hnone, rfl⟩ := exists_of_mapM_eq_error hread
    have hmem : row ∈ t.rowsOf id := (perm_sortBy _ _).mem_iff.mp hrow
    rw [hrows] at hmem
    obtain ⟨time, htime, rfl⟩ := List.mem_map.mp hmem
    rw [rowOfOccurrence, Instant.ofMillis?_toMillis] at hnone
    exact ⟨time, htime, Instant.kept?_eq_none_iff.mp hnone, rfl⟩

end Tables

namespace Store

variable {s : Store}

/-- A batch with an occurrence of an undefined constraint fails, and of the store it changes nothing
but the number of calls. -/
theorem addOccurrences_of_undefined {os : List Occurrence}
    (h : ∃ o ∈ os, ¬ s.tables.Defines o.constraintId) :
    ∃ e, s.addOccurrences os = (.error e, { s with calls := s.calls + 1 }) := by
  obtain ⟨o, ho, hundefined⟩ := h
  have hwrite : s.tables.addOccurrences os = .error .undefinedConstraint := by
    rw [Tables.addOccurrences, if_neg]
    intro hall
    exact hundefined (Tables.contains_iff_defines.mp (List.all_eq_true.mp hall o ho))
  rw [addOccurrences, command, hwrite]
  split
  · exact ⟨_, rfl⟩
  · split
    · exact ⟨_, rfl⟩
    · exact ⟨_, rfl⟩

/-! ## Changes -/

/-- The calls that change constraints and occurrences. -/
inductive Change where
  | define (c : Constraint)
  /-- Deletes constraints with their histories. -/
  | delete (ids : List String)
  | add (os : List Occurrence)
  /-- Deletes the histories of constraints. -/
  | clear (ids : List String)

namespace Change

/-- Asks a store for a change. -/
def ask : Change → Store → Result Unit
  | .define c, s => s.writeConstraint c
  | .delete ids, s => s.deleteConstraints ids
  | .add os, s => s.addOccurrences os
  | .clear ids, s => s.deleteOccurrences ids

/-- What a change makes of tables. -/
def write : Change → Tables → Except StorageError Tables
  | .define c, t => .ok (t.putConstraint c)
  | .delete ids, t => .ok (t.deleteConstraints ids)
  | .add os, t => t.addOccurrences os
  | .clear ids, t => .ok (t.deleteOccurrences ids)

/-- Whether a change deletes what a constraint has had so far. -/
def strikes (id : String) : Change → Bool
  | .delete ids | .clear ids => decide (id ∈ ids)
  | .define _ | .add _ => false

/-- The times that a change brings to a constraint. -/
def times (id : String) : Change → List Instant
  | .add os => (os.filter fun o => o.constraintId = id).map (·.time)
  | .define _ | .delete _ | .clear _ => []

variable {c : Change} {t t' : Tables}

theorem ask_eq_command (c : Change) (s : Store) :
    ∃ op changes, c.ask s = s.command op changes c.write := by
  cases c with
  | define c => exact ⟨.writeConstraint, true, rfl⟩
  | delete ids => exact ⟨.deleteConstraints, !ids.isEmpty, rfl⟩
  | add os => exact ⟨.addOccurrences, !os.isEmpty, rfl⟩
  | clear ids => exact ⟨.deleteOccurrences, !ids.isEmpty, rfl⟩

/-- A change that is answered well has been made. -/
theorem write_of_ask (h : (c.ask s).1 = .ok ()) : c.write s.tables = .ok (c.ask s).2.tables := by
  obtain ⟨op, changes, hcommand⟩ := c.ask_eq_command s
  rw [hcommand] at h ⊢
  exact write_of_command_answer h

/-- A change that is turned down leaves the tables. -/
theorem tables_of_ask_error {e : StorageError} (h : (c.ask s).1 = .error e) :
    (c.ask s).2.tables = s.tables := by
  obtain ⟨op, changes, hcommand⟩ := c.ask_eq_command s
  rw [hcommand] at h ⊢
  exact tables_of_command_error h

/-- No change leaves an occurrence without its constraint. -/
theorem isIntegral_write (ht : t.IsIntegral) (h : c.write t = .ok t') : t'.IsIntegral := by
  cases c with
  | define c =>
    cases h
    exact ht.putConstraint c
  | delete ids =>
    cases h
    exact ht.deleteConstraints ids
  | add os => exact ht.addOccurrences h
  | clear ids =>
    cases h
    exact ht.deleteOccurrences ids

/-- A change deletes all rows of a constraint or none, and puts what it brings behind the others. -/
theorem rowsOf_write (h : c.write t = .ok t') (id : String) :
    t'.rowsOf id =
      (if c.strikes id then [] else t.rowsOf id) ++ Tables.rowsFor id (c.times id) := by
  cases c with
  | define c =>
    cases h
    exact (List.append_nil _).symm
  | delete ids =>
    cases h
    rw [Tables.rowsOf_deleteConstraints, strikes, times, Tables.rowsFor, List.map_nil,
      List.append_nil]
    simp only [decide_eq_true_eq]
  | add os =>
    rw [Tables.rowsOf_addOccurrences h, times, Tables.rowsFor, List.map_map]
    refine congrArg (t.rowsOf id ++ ·) (List.map_congr_left fun o ho => ?_)
    rw [← of_decide_eq_true (List.mem_filter.mp ho).2]
    rfl
  | clear ids =>
    cases h
    rw [Tables.rowsOf_deleteOccurrences, strikes, times, Tables.rowsFor, List.map_nil,
      List.append_nil]
    simp only [decide_eq_true_eq]

end Change

/-! ## What was asked and how it was answered -/

/-- A change that was asked for, and the answer of the store. -/
structure Entry where
  change : Change
  answer : Except StorageError Unit

namespace Entry

/-- Whether a change was made that deleted what a constraint had had. -/
def strikes (id : String) (e : Entry) : Bool := e.answer.isOk && e.change.strikes id

/-- The times that were added to a constraint, none if the change was turned down. -/
def times (id : String) (e : Entry) : List Instant :=
  if e.answer.isOk then e.change.times id else []

variable {e : Entry} {c : Change} {id : String}

@[simp] theorem strikes_ok {made : Unit} : strikes id ⟨c, .ok made⟩ = c.strikes id := rfl

@[simp] theorem times_ok {made : Unit} : times id ⟨c, .ok made⟩ = c.times id := rfl

@[simp] theorem strikes_error {error : StorageError} : strikes id ⟨c, .error error⟩ = false := rfl

@[simp] theorem times_error {error : StorageError} : times id ⟨c, .error error⟩ = [] := rfl

/-- What deletes brings nothing. -/
theorem times_of_strikes (h : e.strikes id = true) : e.times id = [] := by
  obtain ⟨c, answer⟩ := e
  cases answer with
  | error error => rfl
  | ok made =>
    cases c with
    | add os => cases h
    | define c => rfl
    | delete ids => rfl
    | clear ids => rfl

/-- The times that were added to a constraint since it, or its history, was last deleted. -/
def timesIn (es : List Entry) (id : String) : List Instant :=
  (es.rtakeWhile fun e => !e.strikes id).flatMap fun e => e.times id

/-- What counts after one more answer: what it brought, and what counted before unless it deleted
that. -/
theorem timesIn_concat (es : List Entry) (e : Entry) (id : String) :
    timesIn (es ++ [e]) id = (if e.strikes id then [] else timesIn es id) ++ e.times id := by
  rw [timesIn, List.rtakeWhile_concat]
  cases hstrikes : e.strikes id with
  | true =>
    rw [times_of_strikes hstrikes]
    rfl
  | false =>
    show List.flatMap _ (_ ++ [e]) = _
    rw [List.flatMap_append, List.flatMap_singleton]
    rfl

end Entry

/-- A store, and what was asked of it so far, the oldest first. -/
structure Journal where
  store : Store
  entries : List Entry

namespace Journal

/-- A store of which nothing has been asked. -/
def start (s : Store) : Journal := ⟨s, []⟩

/-- Asks for one change. -/
def ask (j : Journal) (c : Change) : Journal :=
  let (answer, store) := c.ask j.store
  ⟨store, j.entries ++ [⟨c, answer⟩]⟩

/-- Asks for changes one after another, however they are answered. -/
def run (j : Journal) (cs : List Change) : Journal := cs.foldl ask j

/-- The rows are what the answers say, and they refer to definitions. -/
structure IsFaithful (j : Journal) : Prop where
  integral : j.store.tables.IsIntegral
  rows : ∀ id, j.store.tables.rowsOf id = Tables.rowsFor id (Entry.timesIn j.entries id)

variable {j : Journal}

theorem isFaithful_start (h : s.tables = .empty) : (start s).IsFaithful := by
  have htables : (start s).store.tables = .empty := h
  refine ⟨fun row hrow => ?_, fun id => ?_⟩
  · rw [htables] at hrow
    cases hrow
  · rw [htables]
    rfl

/-- The rows follow the answer, whatever it is. -/
theorem IsFaithful.ask (h : j.IsFaithful) (c : Change) : (j.ask c).IsFaithful := by
  have hentries : (j.ask c).entries = j.entries ++ [⟨c, (c.ask j.store).1⟩] := rfl
  cases hanswer : (c.ask j.store).1 with
  | error e =>
    have hsame : (j.ask c).store.tables = j.store.tables := Change.tables_of_ask_error hanswer
    refine ⟨hsame ▸ h.integral, fun id => ?_⟩
    rw [hsame, hentries, hanswer, Entry.timesIn_concat, h.rows id]
    simp
  | ok made =>
    have hwrite : c.write j.store.tables = .ok (j.ask c).store.tables := Change.write_of_ask hanswer
    refine ⟨Change.isIntegral_write h.integral hwrite, fun id => ?_⟩
    rw [Change.rowsOf_write hwrite id, hentries, hanswer, Entry.timesIn_concat, h.rows id,
      Tables.rowsFor_append, apply_ite (Tables.rowsFor id)]
    rfl

theorem IsFaithful.run (h : j.IsFaithful) (cs : List Change) : (j.run cs).IsFaithful := by
  induction cs generalizing j with
  | nil => exact h
  | cons c rest ih => exact ih (h.ask c)

/-- **Histories are faithful, and they refer to definitions.**  After any changes of an empty store,
of which any may have been turned down, every stored occurrence refers to a constraint that is
defined.  A batch with an occurrence of a constraint that is not fails and adds nothing, whatever
else is in it, and any other batch is taken where the store may be written.  A history that is read
has the times that were added to it since the constraint, or its history, was last deleted: in
ascending order, as often as they were added, each rounded down to a millisecond and counted on into
the next second if it lay in a leap second.  Only a time in the leap second at the end of the range
makes a history that cannot be read. -/
theorem histories_are_faithful (hempty : s.tables = .empty) (cs : List Change)
    (hj : (start s).run cs = j) :
    j.store.tables.IsIntegral ∧
    (∀ os, (∃ o ∈ os, ¬ j.store.tables.Defines o.constraintId) →
      ∃ e, j.store.addOccurrences os = (.error e, { j.store with calls := j.store.calls + 1 })) ∧
    (∀ os, j.store.Allows .addOccurrences → (∀ o ∈ os, j.store.tables.Defines o.constraintId) →
      (j.store.addOccurrences os).1 = .ok ()) ∧
    ∀ id, j.store.plan j.store.calls .readOccurrences = none →
      ((∀ time ∈ Entry.timesIn j.entries id, ¬ time.EndsRange) →
        ∃ os, (j.store.readOccurrences id).1 = .ok os ∧
          Tables.IsHistory id (Entry.timesIn j.entries id) os) ∧
      ((∃ time ∈ Entry.timesIn j.entries id, time.EndsRange) →
        ∃ time ∈ Entry.timesIn j.entries id, time.EndsRange ∧
          (j.store.readOccurrences id).1 = .error (.invalidTime time.toMillis)) := by
  have hfaithful : j.IsFaithful := hj ▸ (isFaithful_start hempty).run cs
  refine ⟨hfaithful.integral, fun os hos => addOccurrences_of_undefined hos,
    fun os hallows hos => ?_, fun id hread => ?_⟩
  · exact command_answer_of_ok hallows <| Tables.addOccurrences_eq_ok_iff.mpr
      ⟨fun o ho => Tables.contains_iff_defines.mpr (hos o ho), rfl⟩
  · have hanswer : (j.store.readOccurrences id).1 = j.store.tables.occurrencesOf id := by
      rw [readOccurrences, query, hread]
    have hrows := hfaithful.rows id
    rw [hanswer]
    refine ⟨fun hkept => ?_, fun hlast => Tables.occurrencesOf_eq_error_of_rowsOf hrows hlast⟩
    obtain ⟨os, hos⟩ := Tables.exists_occurrencesOf (Tables.isReadableFor_of_rowsOf hrows hkept)
    exact ⟨os, hos, Tables.isHistory_of_rowsOf hrows hos⟩

/-- A store that turns down the eighth call. -/
def refusing : Store :=
  { ofTables .empty with
    plan := fun call _ => if call = 7 then some (.refused "locked") else none }

/-- A time with a part of a millisecond. -/
def lateTenth : Instant :=
  { Instant.epoch with
    nano := 10999999, nano_lt := by omega, leap := fun h => absurd h (by omega) }

/-- A constraint is used, deleted and defined again.  Then it is used three times at once, a batch
for it comes together with an occurrence of no constraint, it is redefined, a second deletion is
turned down, and it is used once more. -/
def eventful : List Change :=
  [.define ⟨"c", .ofMillis 500, 1⟩, .add [⟨"c", .ofMillis 5⟩], .delete ["c"],
    .define ⟨"c", .ofMillis 500, 1⟩,
    .add [⟨"c", .ofMillis 30⟩, ⟨"c", lateTenth⟩, ⟨"c", .ofMillis 30⟩],
    .add [⟨"c", .ofMillis 20⟩, ⟨"d", .ofMillis 20⟩],
    .define ⟨"c", .ofMillis 500, 5⟩, .delete ["c"], .add [⟨"c", .ofMillis 20⟩]]

theorem histories_are_faithful_eventful :
    ((start refusing).run eventful).entries.map (·.answer) =
      [.ok (), .ok (), .ok (), .ok (), .ok (), .error .undefinedConstraint, .ok (),
        .error (.refused "locked"), .ok ()] ∧
    (∃ e, ((start refusing).run eventful).store.addOccurrences
        [⟨"c", .ofMillis 40⟩, ⟨"d", .ofMillis 40⟩] =
      (.error e, { ((start refusing).run eventful).store with calls := 10 })) ∧
    ∃ os, (((start refusing).run eventful).store.readOccurrences "c").1 = .ok os ∧
      (os.map (·.time)).Pairwise (· ≤ ·) ∧
      (os.map (·.time)).Perm [.ofMillis 30, .ofMillis 10, .ofMillis 30, .ofMillis 20] := by
  have htimes : Entry.timesIn ((start refusing).run eventful).entries "c" =
      [.ofMillis 30, lateTenth, .ofMillis 30, .ofMillis 20] := rfl
  have hundefined : ¬ ((start refusing).run eventful).store.tables.Defines "d" :=
    fun ⟨_, hrow⟩ => nomatch hrow
  obtain ⟨-, hfails, -, hread⟩ := histories_are_faithful (s := refusing) rfl eventful rfl
  obtain ⟨os, hos, hhistory⟩ := (hread "c" rfl).1 (by rw [htimes]; decide)
  rw [htimes] at hhistory
  refine ⟨rfl, hfails _ ⟨⟨"d", .ofMillis 40⟩, ?_, hundefined⟩, os, hos, hhistory.ascending,
    hhistory.perm_roundedDown (by decide)⟩
  exact List.mem_cons_of_mem _ List.mem_cons_self

/-- Half a second into the leap second at the end of 2016. -/
def leapSecond : Instant :=
  { day := 17166, second := 86399, nano := 1500000000, day_ge := by omega, day_le := by omega,
    second_lt := by omega, nano_lt := by omega, leap := fun _ => rfl }

/-- Half a second into the leap second that no second follows. -/
def lastLeapSecond : Instant :=
  { leapSecond with day := 95026236, day_ge := by omega, day_le := Int.le_refl _ }

/-- A constraint that is used once. -/
def usedAt (time : Instant) : Journal :=
  (start (ofTables .empty)).run [.define ⟨"c", .ofMillis 500, 1⟩, .add [⟨"c", time⟩]]

/-- A time inside a leap second is added and another time is read, the first half second of the year
2017.  A time inside the last leap second of all is added, and nothing is read. -/
theorem leap_second_is_not_kept :
    Entry.timesIn (usedAt leapSecond).entries "c" = [leapSecond] ∧
      ((usedAt leapSecond).store.readOccurrences "c").1 =
        .ok [⟨"c", .ofMillis 1483228800500⟩] ∧
      Instant.ofMillis 1483228800500 ≠ leapSecond.roundedDown ∧
    Entry.timesIn (usedAt lastLeapSecond).entries "c" = [lastLeapSecond] ∧
      ((usedAt lastLeapSecond).store.readOccurrences "c").1 =
        .error (.invalidTime 8210266876800500) :=
  ⟨rfl, rfl, by decide, rfl, rfl⟩

end Journal
end Store
end Automation
