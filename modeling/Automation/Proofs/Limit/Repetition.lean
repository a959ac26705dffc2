import Automation.Proofs.Limit.Exactness

/-!
# The same list again

A list that was taken is taken again later, as at every start of a simulation, and uses have been
recorded in between.  Nothing in the list is new, so one would expect nothing to change.  Whether
that is so is decided for each constraint by itself, and it depends on what the first time left in
its row (`Service.reconcile_again`).

Where the row has what the list says, the second time does not touch the constraint: row, cache and
history stay.  Where the row has anything else, the second time strikes it, and either the history
is lost or the row changes.

## Two ways to differ from oneself

What the list says is compared with the row and not with what the row was made from.

* A row holds a largest range.  A longer one is stored as the largest, so the next time the range
  seems to have changed, although nobody changed it, and the history is lost
  (`Service.clamped_range_is_struck`).
* A list may name a constraint twice with two definitions.  Of those that differ from the row the
  last is stored, so at least one of the two differs from the row the next time
  (`Service.repeated_id_is_struck`).

`DefinesOnce` excludes both, and then the row has what the list says.
-/

namespace Automation
namespace Limiter

/-! ## What a list says and what the tables say -/

/-- All that a list says of a constraint is one definition, and a row can hold it. -/
def DefinesOnce (cs : List Constraint) (id : String) : Prop :=
  ∀ c ∈ cs, c.id = id → c.IsStorable ∧ ∀ c' ∈ cs, c'.id = id → c' = c

/-- Tables have a constraint as a list has it, wherever the list names it. -/
def Agrees (t : Tables) (cs : List Constraint) (id : String) : Prop :=
  ∀ c ∈ cs, c.id = id → t.constraint? id = .ok (some c)

section Agreement

variable {t : Tables} {stored cs : List Constraint} {id : String}

theorem count_of_constraintOfRow {row : ConstraintRow} {c : Constraint}
    (h : Tables.constraintOfRow id row = .ok c) : c.count = row.count.toNat := by
  unfold Tables.constraintOfRow at h
  split at h
  · cases h
  · split at h
    · cases h
    · cases h
      rfl

/-- What is stored once is stored as the list has it. -/
theorem agrees_applyToTables (hstored : t.allConstraints = .ok stored)
    (hcounts : ∀ c ∈ cs, c.count ≤ 0xffffffff) (hone : DefinesOnce cs id) :
    Agrees ((Difference.between stored cs).applyToTables t) cs id := by
  intro c hc hid
  subst hid
  obtain ⟨hstorable, hsame⟩ := hone c hc rfl
  rw [Tables.constraint?, Difference.get?_applyToTables]
  cases hredefines : Difference.redefines stored c with
  | true =>
    have hlast : ((cs.filter (Difference.redefines stored)).filter fun c' => c'.id = c.id).getLast? =
        some c := by
      rw [List.getLast?_eq_some_getLast (List.ne_nil_of_mem (List.mem_filter.mpr
        ⟨List.mem_filter.mpr ⟨hc, hredefines⟩, decide_eq_true rfl⟩))]
      obtain ⟨hmem, hid⟩ := List.mem_filter.mp (List.getLast_mem _)
      exact congrArg some (hsame _ (List.mem_filter.mp hmem).1 (of_decide_eq_true hid))
    obtain ⟨c', hread⟩ := Tables.exists_constraintOfRow (hcounts c hc) c.id
    rw [hlast, Option.map_some, Option.some_or]
    dsimp only
    rw [hread, constraintOfRow_rowOfConstraint hstorable hread]
    rfl
  | false =>
    have hnone : ((cs.filter (Difference.redefines stored)).filter fun c' => c'.id = c.id) = [] := by
      rw [List.filter_eq_nil_iff]
      intro c' hc' hid
      obtain ⟨hmem, hredefines'⟩ := List.mem_filter.mp hc'
      rw [hsame c' hmem (of_decide_eq_true hid), hredefines] at hredefines'
      cases hredefines'
    obtain ⟨row, hrow, hread⟩ := Tables.exists_row_of_mem hstored
      (List.mem_of_find?_eq_some (Difference.find?_of_redefines_eq_false hredefines))
    rw [hnone, if_neg (Difference.not_mem_delete stored hc), hrow]
    simp only [List.getLast?_nil, Option.map_none, Option.none_or, hread]
    rfl

/-- A constraint that the list has as the tables have it is not touched. -/
theorem Agrees.unnamed (hstored : t.allConstraints = .ok stored) (h : Agrees t cs id)
    (hrow : t.Defines id → id ∈ cs.map (·.id)) :
    id ∉ (Difference.between stored cs).delete ∧ id ∉ (Difference.between stored cs).reset ∧
      ∀ c ∈ (Difference.between stored cs).upsert, c.id ≠ id := by
  have hsame : ∀ c ∈ cs, c.id = id → stored.find? (fun current => current.id = c.id) = some c := by
    rintro c hc rfl
    exact find?_of_constraint? hstored (h c hc rfl)
  rw [Difference.between_eq]
  refine ⟨fun hdelete => ?_, fun hreset => ?_, fun c hc hid => ?_⟩
  · obtain ⟨hmem, hgone⟩ := List.mem_filter.mp hdelete
    obtain ⟨c, hc, rfl⟩ := List.mem_map.mp hmem
    obtain ⟨row, hget, -⟩ := Tables.exists_row_of_mem hstored hc
    rw [List.contains_iff_mem.mpr (hrow ⟨row, hget⟩)] at hgone
    cases hgone
  · obtain ⟨c, hc, hid⟩ := List.mem_map.mp hreset
    obtain ⟨hmem, hresets⟩ := List.mem_filter.mp hc
    rw [Difference.resets, hsame c hmem hid, Option.any_some, decide_eq_true_eq] at hresets
    exact hresets rfl
  · obtain ⟨hmem, hredefines⟩ := List.mem_filter.mp hc
    rw [(Service.redefines_eq_false_iff (hsame c hmem hid)).mpr rfl] at hredefines
    cases hredefines

/-- After a difference the list names what is defined and nothing else. -/
theorem defines_applyToTables_iff (hstored : t.allConstraints = .ok stored) :
    ((Difference.between stored cs).applyToTables t).Defines id ↔ id ∈ cs.map (·.id) := by
  constructor
  · rintro ⟨row, hrow⟩
    by_contra hid
    rw [Difference.get?_applyToTables_eq_none hstored hid] at hrow
    cases hrow
  · intro hid
    obtain ⟨c, hc, rfl⟩ := List.mem_map.mp hid
    rw [Tables.Defines, Difference.get?_applyToTables, if_neg (Difference.not_mem_delete stored hc)]
    cases hredefines : Difference.redefines stored c with
    | true =>
      have hmem : c ∈ (cs.filter (Difference.redefines stored)).filter fun c' => c'.id = c.id :=
        List.mem_filter.mpr ⟨List.mem_filter.mpr ⟨hc, hredefines⟩, decide_eq_true rfl⟩
      rw [List.getLast?_eq_some_getLast (List.ne_nil_of_mem hmem)]
      exact ⟨_, rfl⟩
    | false =>
      obtain ⟨row, hrow, -⟩ := Tables.exists_row_of_mem hstored
        (List.mem_of_find?_eq_some (Difference.find?_of_redefines_eq_false hredefines))
      rw [hrow]
      cases (((cs.filter (Difference.redefines stored)).filter fun c' => c'.id = c.id).getLast?) with
      | none => exact ⟨row, rfl⟩
      | some last => exact ⟨_, rfl⟩

/-- Where the list has a constraint in another way than the tables, its history is cleared, or its
row becomes another one. -/
theorem reset_or_row_ne (hstored : t.allConstraints = .ok stored) {c : Constraint} (hc : c ∈ cs)
    (hother : t.constraint? c.id ≠ .ok (some c)) (hdefined : t.Defines c.id) :
    c.id ∈ (Difference.between stored cs).reset ∨
      ((Difference.between stored cs).applyToTables t).constraints.get? c.id ≠
        t.constraints.get? c.id := by
  obtain ⟨row, hrow⟩ := hdefined
  obtain ⟨c₀, hread, hfind⟩ := find?_of_allConstraints hstored hrow
  have hne : c₀ ≠ c := by
    rintro rfl
    refine hother ?_
    rw [Tables.constraint?, hrow]
    exact congrArg (Except.map some) hread
  have hredefines : Difference.redefines stored c = true :=
    Bool.eq_true_of_not_eq_false fun h => hne ((Service.redefines_eq_false_iff hfind).mp h)
  -- the last of those that differ from the row is stored
  have hmem : c ∈ (cs.filter (Difference.redefines stored)).filter fun c' => c'.id = c.id :=
    List.mem_filter.mpr ⟨List.mem_filter.mpr ⟨hc, hredefines⟩, decide_eq_true rfl⟩
  obtain ⟨last, hlast⟩ : ∃ last, ((cs.filter (Difference.redefines stored)).filter
      fun c' => c'.id = c.id).getLast? = some last :=
    ⟨_, List.getLast?_eq_some_getLast (List.ne_nil_of_mem hmem)⟩
  obtain ⟨hlastMem, hlastId⟩ := List.mem_filter.mp (List.mem_of_getLast? hlast)
  obtain ⟨hlastMem, hlastRedefines⟩ := List.mem_filter.mp hlastMem
  have hlastId : last.id = c.id := of_decide_eq_true hlastId
  have hfindLast : stored.find? (fun current => current.id = last.id) = some c₀ := by
    rw [hlastId, hfind]
  by_cases hrange : c₀.range = last.range
  · right
    rw [Difference.get?_applyToTables, hlast, Option.map_some, Option.some_or, hrow]
    intro hsame
    rw [Difference.redefines, hfindLast, Option.all_some] at hlastRedefines
    have hcount : c₀.count ≠ last.count := by simpa [hrange] using hlastRedefines
    rw [← Option.some.inj hsame] at hread
    exact hcount (count_of_constraintOfRow hread)
  · left
    rw [Difference.between_eq, List.mem_map]
    refine ⟨last, List.mem_filter.mpr ⟨hlastMem, ?_⟩, hlastId⟩
    rw [Difference.resets, hfindLast, Option.any_some, decide_eq_true hrange]

end Agreement

/-! ## A store that refuses nothing -/

namespace Service

variable {v : Service}

/-- A service whose store refuses nothing, in which what is cached is defined and what waits is for
cached constraints. -/
structure Unrefused (v : Service) : Prop where
  reliable : v.store.IsReliable
  grounded : v.Grounded
  waits : v.limiter.WaitsForCached

theorem unrefused_start {s : Store} (hs : s.IsReliable) : (start s).Unrefused :=
  ⟨hs, grounded_start s, List.forall_mem_nil _⟩

/-- A store that refuses nothing goes on refusing nothing. -/
theorem Unrefused.reliable_serve (h : v.Unrefused) (r : Request) :
    (v.serve r).2.store.IsReliable := by
  cases r with
  | check ids now => exact h.reliable
  | increment ids now => exact h.reliable
  | prepare ids =>
    rcases hprepare : v.limiter.prepare v.store ids with ⟨answer, l', s'⟩
    simp only [serve, hprepare]
    exact fun op => ((prepare_spec hprepare).1.allows op).mpr (h.reliable op)
  | reconcile incoming =>
    rcases hset : v.limiter.setConstraints v.store incoming with ⟨answer, l', s'⟩
    simp only [serve, hset]
    rcases setConstraints_cases h.reliable.losesOnlyOccurrences h.grounded.pending hset with
      ⟨-, hread, -⟩ | ⟨-, -, -, -, -, -, -, hallows⟩
    · exact fun op => (hread.allows op).mpr (h.reliable op)
    · exact fun op => (hallows op).mpr (h.reliable op)
  | drain =>
    simp only [serve, Limiter.drain]
    cases hpending : v.limiter.pending with
    | nil => exact h.reliable
    | cons w rest =>
      obtain ⟨batch, rfl⟩ := h.grounded.pending w (hpending ▸ List.mem_cons_self)
      exact fun op => ((perform_occurrences batch v.store).2 op).mpr (h.reliable op)
  | flush =>
    simp only [serve, Limiter.flush, performAll_store]
    exact fun op => ((foldl_perform_occurrences h.grounded.pending v.store).2 op).mpr (h.reliable op)

theorem unrefused_serve (v : Service) (r : Request) (h : v.Unrefused) : (v.serve r).2.Unrefused :=
  ⟨h.reliable_serve r, grounded_serve v r h.grounded,
    (Sheltered.serve ⟨h.reliable.losesOnlyOccurrences, h.waits⟩ r).waits⟩

theorem unrefused_run (h : v.Unrefused) (rs : List Request) : (v.run rs).Unrefused :=
  run_induction unrefused_serve h rs

/-- Where nothing is refused, what waits can be written as a whole. -/
theorem Unrefused.written (h : v.Unrefused) {s : Store} (hs : s.IsReadOf v.store) :
    (v.limiter.pending.foldl (fun s w => (w.perform s).2) s).tables =
      v.limiter.settled v.store := by
  have hdefined : ∀ o ∈ v.limiter.waiting, s.tables.constraints.contains o.constraintId = true := by
    intro o ho
    obtain ⟨w, hw, hbatch⟩ := List.mem_flatMap.mp ho
    obtain ⟨batch, rfl, hcached⟩ := h.waits w hw
    obtain ⟨e, he⟩ := Option.isSome_iff_exists.mp (hcached o hbatch)
    obtain ⟨row, hrow⟩ := h.grounded.defined _ e he
    rw [hs.tables]
    exact Option.isSome_iff_exists.mpr ⟨row, hrow⟩
  rw [foldl_perform_batches h.grounded.pending ((hs.allows _).mpr (h.reliable _)) hdefined,
    hs.tables]
  rfl

/-- Where nothing is refused and the stored definitions can be read, a list is taken, and both cache
and tables are changed by the difference. -/
theorem Unrefused.reconcile (h : v.Unrefused) {stored : List Constraint}
    (hstored : v.store.tables.allConstraints = .ok stored) (incoming : List Constraint) :
    (v.serve (.reconcile incoming)).1 = .outcome (.ok ()) ∧
      (v.serve (.reconcile incoming)).2.limiter =
        ⟨(Difference.between stored incoming).applyToCache v.limiter.cache, []⟩ ∧
      (v.serve (.reconcile incoming)).2.store.tables =
        (Difference.between stored incoming).applyToTables (v.limiter.settled v.store) := by
  rcases hset : v.limiter.setConstraints v.store incoming with ⟨answer, l', s'⟩
  simp only [serve, hset]
  rcases setConstraints_cases h.reliable.losesOnlyOccurrences h.grounded.pending hset with
    ⟨-, -, -, -, hunread⟩ | ⟨stored', s₁, hstored', hs₁, rfl, rfl, htables, -⟩
  · rw [Store.readConstraints, Store.query_answer (h.reliable _), hstored] at hunread
    cases hunread
  · rw [hstored] at hstored'
    cases hstored'
    exact ⟨rfl, rfl, htables.trans (congrArg _ (h.written hs₁))⟩

/-- A list that is taken was compared with the stored definitions. -/
theorem exists_allConstraints_of_ok {incoming : List Constraint}
    (hok : (v.serve (.reconcile incoming)).1 = .outcome (.ok ())) :
    ∃ stored, v.store.tables.allConstraints = .ok stored := by
  rcases hread : v.store.readConstraints with ⟨_ | stored, s₁⟩
  · simp only [serve, setConstraints, hread] at hok
    cases hok
  · exact ⟨stored, Store.read_of_query hread⟩

end Service

/-- Whether a request brings a list. -/
def Request.bringsList : Request → Bool
  | .reconcile _ => true
  | _ => false

namespace Service

variable {v : Service}

/-- Only lists change definitions. -/
theorem constraints_serve (h : v.Grounded) {r : Request} (hr : r.bringsList = false) :
    (v.serve r).2.store.tables.constraints = v.store.tables.constraints := by
  cases r with
  | check ids now => rfl
  | increment ids now => rfl
  | prepare ids =>
    rcases hprepare : v.limiter.prepare v.store ids with ⟨answer, l', s'⟩
    simp only [serve, hprepare, (prepare_spec hprepare).1.tables]
  | reconcile incoming => cases hr
  | drain =>
    simp only [serve, Limiter.drain]
    cases hpending : v.limiter.pending with
    | nil => rfl
    | cons w rest =>
      obtain ⟨batch, rfl⟩ := h.pending w (hpending ▸ List.mem_cons_self)
      exact (perform_occurrences batch v.store).1
  | flush =>
    simp only [serve, Limiter.flush, performAll_store]
    exact (foldl_perform_occurrences h.pending v.store).1

theorem constraints_run (h : v.Grounded) {rs : List Request}
    (hrs : ∀ r ∈ rs, r.bringsList = false) :
    (v.run rs).store.tables.constraints = v.store.tables.constraints := by
  induction rs generalizing v with
  | nil => rfl
  | cons r rest ih =>
    obtain ⟨hr, hrest⟩ := List.forall_mem_cons.mp hrs
    exact (ih (grounded_serve v r h) hrest).trans (constraints_serve h hr)

/-! ## The second time -/

/-- A constraint that was left alone: its row, its cached entry with its history, and all of its
occurrences, those that waited included. -/
structure Spared (v v' : Service) (id : String) : Prop where
  row : v'.store.tables.constraints.get? id = v.store.tables.constraints.get? id
  entry : v'.limiter.cache.get? id = v.limiter.cache.get? id
  occurrences : v'.store.tables.rowsOf id = (v.limiter.settled v.store).rowsOf id

/-- A constraint that lost its history, in the tables and in the cache, or has another row. -/
def Struck (v v' : Service) (id : String) : Prop :=
  (v'.store.tables.rowsOf id = [] ∧ ∀ e, v'.limiter.cache.get? id = some e → e.times = []) ∨
    v'.store.tables.constraints.get? id ≠ v.store.tables.constraints.get? id

/-- Over a store that refuses nothing, a list that can be compared spares what it has as the tables
have it and strikes what it has otherwise. -/
theorem Unrefused.spared_or_struck (h : v.Unrefused) {stored cs : List Constraint}
    (hstored : v.store.tables.allConstraints = .ok stored)
    (hdefined : ∀ id, v.store.tables.Defines id ↔ id ∈ cs.map (·.id)) (id : String) :
    (Agrees v.store.tables cs id → v.Spared (v.serve (.reconcile cs)).2 id) ∧
      (¬ Agrees v.store.tables cs id → v.Struck (v.serve (.reconcile cs)).2 id) := by
  obtain ⟨-, hlimiter, htables⟩ := h.reconcile hstored cs
  constructor
  · intro hagrees
    obtain ⟨hdelete, hreset, hupsert⟩ := hagrees.unnamed hstored (hdefined id).mp
    refine ⟨?_, ?_, ?_⟩
    · have hnone : ((cs.filter (Difference.redefines stored)).filter fun c => c.id = id) = [] := by
        rw [Difference.between_eq] at hupsert
        exact List.filter_eq_nil_iff.mpr fun c hc => by simpa using hupsert c hc
      rw [htables, Difference.get?_applyToTables, hnone, if_neg hdelete]
      rfl
    · rw [hlimiter]
      exact get?_applyToCache_of_unnamed hdelete hreset hupsert
    · rw [htables, Tables.rowsOf_applyToTables, if_neg (not_or.mpr ⟨hdelete, hreset⟩)]
  · intro hother
    rw [Agrees] at hother
    push Not at hother
    obtain ⟨c, hc, rfl, hne⟩ := hother
    have hsettled : (v.limiter.settled v.store).allConstraints = .ok stored := hstored
    refine (reset_or_row_ne hsettled hc hne ((hdefined c.id).mpr (List.mem_map_of_mem hc))).imp
      (fun hreset => ⟨?_, fun e he => ?_⟩) fun hrow => ?_
    · rw [htables, Tables.rowsOf_applyToTables, if_pos (Or.inr hreset)]
    · rw [hlimiter] at he
      obtain ⟨-, e₀, -, rfl⟩ := exists_get?_of_applyToCache he
      exact if_pos hreset
    · rw [htables]
      exact hrow

/-- **The same list again.**  Over a store that refuses nothing, from whatever earlier requests left,
a list is taken, then anything is asked that brings no other list, and then the list is brought
again.  It is taken again.  What the list defines once is stored as the list has it; what is stored
as the list has it is left alone, row, cache and history; and what is stored otherwise is struck. -/
theorem reconcile_again {s : Store} (hs : s.IsReliable) (before : List Request)
    {cs : List Constraint} (hcounts : ∀ c ∈ cs, c.count ≤ 0xffffffff)
    (hok : (((start s).run before).serve (.reconcile cs)).1 = .outcome (.ok ()))
    {between : List Request} (hbetween : ∀ r ∈ between, r.bringsList = false) :
    let first := (((start s).run before).serve (.reconcile cs)).2
    let second := (first.run between).serve (.reconcile cs)
    second.1 = .outcome (.ok ()) ∧ ∀ id,
      (DefinesOnce cs id → Agrees first.store.tables cs id) ∧
      (Agrees first.store.tables cs id → (first.run between).Spared second.2 id) ∧
      (¬ Agrees first.store.tables cs id → (first.run between).Struck second.2 id) := by
  intro first second
  have hv : ((start s).run before).Unrefused := unrefused_run (unrefused_start hs) before
  obtain ⟨stored, hstored⟩ := exists_allConstraints_of_ok hok
  have hsettled : (((start s).run before).limiter.settled
      ((start s).run before).store).allConstraints = .ok stored := hstored
  have htables := (hv.reconcile hstored cs).2.2
  have hfirst : first.Unrefused := unrefused_serve _ _ hv
  have hsecond : (first.run between).Unrefused := unrefused_run hfirst between
  have hrows : (first.run between).store.tables.constraints = first.store.tables.constraints :=
    constraints_run hfirst.grounded hbetween
  have hreadable : (first.run between).store.tables.HasReadableConstraints := by
    rw [Tables.HasReadableConstraints, hrows, htables]
    refine Difference.hasReadableConstraints (fun id row hrow => ?_) hcounts
    obtain ⟨c, hread, -⟩ := find?_of_allConstraints hsettled hrow
    exact ⟨c, hread⟩
  obtain ⟨listed, hlisted⟩ := Tables.exists_allConstraints hreadable
  have hdefined : ∀ id, (first.run between).store.tables.Defines id ↔ id ∈ cs.map (·.id) := by
    intro id
    rw [Tables.Defines, hrows, htables]
    exact defines_applyToTables_iff hsettled
  refine ⟨(hsecond.reconcile hlisted cs).1, fun id => ?_⟩
  have hagrees : Agrees (first.run between).store.tables cs id ↔ Agrees first.store.tables cs id := by
    simp only [Agrees, Tables.constraint?, hrows]
  rw [← hagrees]
  refine ⟨fun hone => hagrees.mpr ?_, hsecond.spared_or_struck hlisted hdefined id⟩
  rw [htables]
  exact agrees_applyToTables hsettled hcounts hone

/-! ## Three lists -/

/-- A list is taken, and its constraint is used at the epoch. -/
def usedUnder (cs : List Constraint) : Service :=
  ((start (.ofTables .empty)).serve (.reconcile cs)).2.run
    [.prepare ["c"], .increment ["c"] .epoch, .flush]

/-- One definition of half a second. -/
def half : List Constraint := [⟨"c", .ofMillis 500, 1⟩]

/-- The second time leaves the use where it is. -/
theorem reconcile_again_half :
    ((usedUnder half).serve (.reconcile half)).1 = .outcome (.ok ()) ∧
      (usedUnder half).Spared ((usedUnder half).serve (.reconcile half)).2 "c" ∧
      ((usedUnder half).serve (.reconcile half)).2.store.tables.rowsOf "c" = [⟨"c", 0⟩] := by
  have hone : DefinesOnce half "c" := by
    intro c hc _
    cases List.mem_singleton.mp hc
    exact ⟨⟨500, by decide, rfl⟩, fun c' hc' _ => List.mem_singleton.mp hc'⟩
  obtain ⟨hok, hids⟩ := @reconcile_again _ (Store.isReliable_ofTables .empty) [] half (by decide) rfl
    [.prepare ["c"], .increment ["c"] .epoch, .flush] (by decide)
  exact ⟨hok, (hids "c").2.1 ((hids "c").1 hone), by decide⟩

/-- A range of one millisecond more than a row holds. -/
def tooLong : List Constraint := [⟨"c", .ofMillis (Tables.longestRange + 1), 1⟩]

/-- The list is the same, and the use is lost: the constraint was used up and is not any more. -/
theorem clamped_range_is_struck :
    ((usedUnder tooLong).serve (.reconcile tooLong)).1 = .outcome (.ok ()) ∧
      (usedUnder tooLong).limiter.isOver ["c"] .epoch = true ∧
      ((usedUnder tooLong).serve (.reconcile tooLong)).2.limiter.isOver ["c"] .epoch = false ∧
      (usedUnder tooLong).store.tables.rowsOf "c" = [⟨"c", 0⟩] ∧
      ((usedUnder tooLong).serve (.reconcile tooLong)).2.store.tables.rowsOf "c" = [] :=
  ⟨rfl, by decide, by decide, by decide, by decide⟩

/-- Two definitions of one constraint. -/
def contradictory : List Constraint := [⟨"c", .ofMillis 500, 1⟩, ⟨"c", .ofMillis 700, 1⟩]

/-- Of the two the one that is not stored strikes the constraint. -/
theorem repeated_id_is_struck :
    ((usedUnder contradictory).serve (.reconcile contradictory)).1 = .outcome (.ok ()) ∧
      (usedUnder contradictory).store.tables.rowsOf "c" = [⟨"c", 0⟩] ∧
      ((usedUnder contradictory).serve (.reconcile contradictory)).2.store.tables.rowsOf "c" = [] ∧
      (usedUnder contradictory).store.tables.constraint? "c" = .ok (some ⟨"c", .ofMillis 700, 1⟩) ∧
      ((usedUnder contradictory).serve (.reconcile contradictory)).2.store.tables.constraint? "c" =
        .ok (some ⟨"c", .ofMillis 500, 1⟩) :=
  ⟨rfl, by decide, by decide, by decide, by decide⟩

end Service
end Limiter
end Automation
