import Automation.Proofs.Limit.Authority

/-!
# What waits can be written

An occurrence refers to its constraint, and tables without the constraint do not take it.  A limiter
writes late, so between an increment and its writing a list may delete the constraint, and of what
the list is to change any part may be refused.  All the same the tables never turn an occurrence
down (`Service.occurrences_can_be_written`).

## A list in two halves

A reconciliation is one operation for whoever asks for it and two for the writer.  The first half,
`announce`, reads what is stored, lets the cache follow the list and puts the difference into the
queue.  The second is the writing up to it (`setConstraints_of_read`).  In between increments go on
and leave their batches behind the difference, and only a new checker has to wait.  The states of
this system are `Service.Reachable`.  Those between requests are among them (`reachable_run`).

## Why the order of the queue is enough

Two facts survive every step.  What is cached is defined, and nothing that waits deletes it, because
a list takes from the cache what it is going to delete before the deletion is in the queue.  And
what a batch in the queue names is defined, and nothing before the batch deletes it: it was cached
when the batch came to the end of the queue.  Nothing else deletes definitions, so no refusal
matters.
-/

namespace Automation

/-! ## Writes and what they name -/

namespace PendingWrite

/-- A batch holds an occurrence of a constraint. -/
def Names (id : String) : PendingWrite → Prop
  | .occurrences batch => ∃ o ∈ batch, o.constraintId = id
  | .replacement .. => False

/-- A replacement is to delete a constraint. -/
def Deletes (id : String) : PendingWrite → Prop
  | .occurrences _ => False
  | .replacement delete _ _ => id ∈ delete

/-- The stores that defining constraints passes through, one for every call. -/
def upsertStages : List Constraint → Store → List Store
  | [], _ => []
  | c :: rest, s =>
    match s.writeConstraint c with
    | (.error _, s) => [s]
    | (.ok (), s) => s :: upsertStages rest s

/-- The stores that a write passes through, one for every call. -/
def stages : PendingWrite → Store → List Store
  | .occurrences batch, s => [(s.addOccurrences batch).2]
  | .replacement delete reset upsert, s =>
    match s.deleteConstraints delete with
    | (.error _, s) => [s]
    | (.ok (), s₁) =>
      match s₁.deleteOccurrences reset with
      | (.error _, s₂) => [s₁, s₂]
      | (.ok (), s₂) => s₁ :: s₂ :: upsertStages upsert s₂

/-- The last of them is what the write leaves. -/
theorem getLast_upsertStages (cs : List Constraint) (s : Store) :
    (s :: upsertStages cs s).getLast? = some (upsertAll cs s).2 := by
  induction cs generalizing s with
  | nil => rfl
  | cons c rest ih =>
    rcases hwrite : s.writeConstraint c with ⟨_ | _, s₁⟩
    · simp [upsertStages, upsertAll, hwrite]
    · simpa [upsertStages, upsertAll, hwrite] using ih s₁

theorem getLast_stages (w : PendingWrite) (s : Store) :
    (w.stages s).getLast? = some (w.perform s).2 := by
  cases w with
  | occurrences batch => rfl
  | replacement delete reset upsert =>
    rcases hdelete : s.deleteConstraints delete with ⟨_ | _, s₁⟩
    · simp [stages, perform, hdelete]
    · rcases hreset : s₁.deleteOccurrences reset with ⟨_ | _, s₂⟩
      · simp [stages, perform, hdelete, hreset]
      · simpa [stages, perform, hdelete, hreset] using getLast_upsertStages upsert s₂

end PendingWrite

namespace Limiter

/-! ## Calls keep definitions -/

section Calls

variable {s : Store} {id : String}

theorem defines_writeConstraint (c : Constraint) (h : s.tables.Defines id) :
    (s.writeConstraint c).2.tables.Defines id := by
  have hone := defines_upsertAll [c] h
  rw [PendingWrite.upsertAll] at hone
  split at hone
  · next hwrite => rwa [hwrite]
  · next hwrite => rwa [hwrite]

theorem defines_upsertStages (cs : List Constraint) (h : s.tables.Defines id) :
    ∀ s' ∈ PendingWrite.upsertStages cs s, s'.tables.Defines id := by
  induction cs generalizing s with
  | nil => exact List.forall_mem_nil _
  | cons c rest ih =>
    have hfirst := defines_writeConstraint c h
    rw [PendingWrite.upsertStages]
    split
    · next hwrite =>
      rw [hwrite] at hfirst
      simpa using hfirst
    · next hwrite =>
      rw [hwrite] at hfirst
      exact List.forall_mem_cons.mpr ⟨hfirst, ih hfirst⟩

/-- A constraint stays defined at every call of a write that is not to delete it. -/
theorem defines_stages {w : PendingWrite} (hw : ¬ w.Deletes id) (h : s.tables.Defines id) :
    ∀ s' ∈ w.stages s, s'.tables.Defines id := by
  cases w with
  | occurrences batch =>
    intro s' hs'
    rw [List.mem_singleton.mp hs', Tables.Defines]
    exact (perform_occurrences batch s).1 ▸ h
  | replacement delete reset upsert =>
    have hdeleted : (s.deleteConstraints delete).2.tables.Defines id :=
      defines_deleteConstraints hw h
    rw [PendingWrite.stages]
    split
    · next hdelete =>
      rw [hdelete] at hdeleted
      simpa using hdeleted
    · next s₁ hdelete =>
      rw [hdelete] at hdeleted
      have hcleared := defines_deleteOccurrences reset hdeleted
      split
      · next hreset =>
        rw [hreset] at hcleared
        simpa using ⟨hdeleted, hcleared⟩
      · next hreset =>
        rw [hreset] at hcleared
        simpa using ⟨hdeleted, hcleared, defines_upsertStages upsert hcleared⟩

theorem defines_perform {w : PendingWrite} (hw : ¬ w.Deletes id) (h : s.tables.Defines id) :
    (w.perform s).2.tables.Defines id :=
  defines_stages hw h _ (List.mem_of_getLast? (w.getLast_stages s))

theorem defines_performAll {ws : List PendingWrite} (hws : ∀ w ∈ ws, ¬ w.Deletes id)
    (h : s.tables.Defines id) : (PendingWrite.performAll ws s).2.tables.Defines id := by
  rw [performAll_store]
  induction ws generalizing s with
  | nil => exact h
  | cons w rest ih =>
    obtain ⟨hfirst, hrest⟩ := List.forall_mem_cons.mp hws
    exact ih hrest (defines_perform hfirst h)

/-- Occurrences of defined constraints are turned down by the plan or because nothing may be
written. -/
theorem error_of_addOccurrences {batch : List Occurrence} {e : StorageError}
    (hdefined : ∀ o ∈ batch, s.tables.Defines o.constraintId)
    (h : (s.addOccurrences batch).1 = .error e) :
    s.plan s.calls .addOccurrences = some e ∨ s.readOnly = true ∧ e = .readOnly := by
  have htaken : s.tables.addOccurrences batch = .ok { s.tables with
      occurrences := s.tables.occurrences ++ batch.map Tables.rowOfOccurrence } :=
    Tables.addOccurrences_eq_ok_iff.mpr
      ⟨fun o ho => Tables.contains_iff_defines.mpr (hdefined o ho), rfl⟩
  rw [Store.addOccurrences, Store.command] at h
  split at h
  · next hplan =>
    cases h
    exact Or.inl hplan
  · split at h
    · next hreadOnly =>
      cases h
      exact Or.inr ⟨(Bool.and_eq_true_iff.mp hreadOnly).1, rfl⟩
    · rw [htaken] at h
      cases h

end Calls

/-! ## A list in two halves -/

/-- The first half of a reconciliation: the cache follows the list, and what has to change comes to
the end of the queue. -/
def announce (l : Limiter) (s : Store) (incoming : List Constraint) : Limiter × Store :=
  match s.readConstraints with
  | (.error _, s) => (l, s)
  | (.ok stored, s) =>
    let d := Difference.between stored incoming
    (⟨d.applyToCache l.cache, l.pending ++ [.replacement d.delete d.reset d.upsert]⟩, s)

/-- A list that cannot be compared is over after the first half. -/
theorem setConstraints_of_unread {l : Limiter} {s : Store} {e : StorageError}
    (h : s.readConstraints.1 = .error e) (incoming : List Constraint) :
    (l.setConstraints s incoming).2 = l.announce s incoming := by
  rcases hread : s.readConstraints with ⟨answer, s₁⟩
  rw [hread] at h
  cases h
  simp only [setConstraints, announce, hread]

/-- Any other is written with all that has waited before it. -/
theorem setConstraints_of_read {l : Limiter} {s : Store} {stored : List Constraint}
    (h : s.readConstraints.1 = .ok stored) (incoming : List Constraint) :
    (l.setConstraints s incoming).2 =
      (l.announce s incoming).1.flush (l.announce s incoming).2 := by
  rcases hread : s.readConstraints with ⟨answer, s₁⟩
  rw [hread] at h
  cases h
  simp only [setConstraints, announce, flush, hread]

namespace Service

/-- The first half of a reconciliation. -/
def announce (v : Service) (incoming : List Constraint) : Service :=
  let (limiter, store) := v.limiter.announce v.store incoming
  ⟨limiter, store⟩

/-- No list waits to be written. -/
def IsIdle (v : Service) : Prop := ∀ w ∈ v.limiter.pending, ∃ batch, w = .occurrences batch

/-- The states of a limiter over a store: increments and the writer go on at any time, and a new
checker waits until no list does.  It reads definitions from the tables into the cache, and one that
a waiting list is about to delete must not come back that way.  A list brings nothing into the
cache, so another list may be announced while one waits, which is more than a limiter allows.

The call of a list is taken to run to its end.  One that is abandoned while it waits for the writer
is no transition here: it would let a new checker in before the list is written. -/
inductive Reachable (s : Store) : Service → Prop
  | start : Reachable s (start s)
  | increment {v : Service} (ids : List String) (now : Instant) (h : Reachable s v) :
    Reachable s (v.serve (.increment ids now)).2
  | prepare {v : Service} (ids : List String) (hidle : v.IsIdle) (h : Reachable s v) :
    Reachable s (v.serve (.prepare ids)).2
  | announce {v : Service} (incoming : List Constraint) (h : Reachable s v) :
    Reachable s (v.announce incoming)
  | drain {v : Service} (h : Reachable s v) : Reachable s (v.serve .drain).2

variable {s : Store} {v : Service}

/-! ## The states between requests -/

/-- Writing all is writing one after another. -/
theorem Reachable.flush (h : Reachable s v) : Reachable s (v.serve .flush).2 := by
  obtain ⟨⟨cache, pending⟩, store⟩ := v
  induction pending generalizing store with
  | nil => exact h
  | cons w rest ih =>
    have hrest := ih _ h.drain
    have hsame : (serve ⟨⟨cache, rest⟩, (w.perform store).2⟩ .flush).2 =
        (serve ⟨⟨cache, w :: rest⟩, store⟩ .flush).2 :=
      congrArg (fun p : Limiter × Store => Service.mk p.1 p.2) (flush_drain ⟨cache, w :: rest⟩ store)
    exact hsame ▸ hrest

/-- While no list waits any request may come. -/
theorem Reachable.serve (h : Reachable s v) (hidle : v.IsIdle) (r : Request) :
    Reachable s (v.serve r).2 := by
  cases r with
  | check ids now => exact h
  | increment ids now => exact h.increment ids now
  | prepare ids => exact h.prepare ids hidle
  | reconcile incoming =>
    have hserve : (v.serve (.reconcile incoming)).2 =
        ⟨(v.limiter.setConstraints v.store incoming).2.1,
          (v.limiter.setConstraints v.store incoming).2.2⟩ := rfl
    rw [hserve]
    cases hread : v.store.readConstraints.1 with
    | error e =>
      rw [setConstraints_of_unread hread]
      exact h.announce incoming
    | ok stored =>
      rw [setConstraints_of_read hread]
      exact (h.announce incoming).flush
  | drain => exact h.drain
  | flush => exact h.flush

/-- Every run goes through states of the system. -/
theorem reachable_run (s : Store) (rs : List Request) : Reachable s ((start s).run rs) := by
  have hboth : Reachable s ((start s).run rs) ∧ ((start s).run rs).Grounded :=
    run_induction (P := fun v => Reachable s v ∧ v.Grounded)
      (fun v r h => ⟨h.1.serve h.2.pending r, grounded_serve v r h.2⟩)
      ⟨.start, grounded_start s⟩ rs
  exact hboth.1

/-! ## The order of the queue -/

/-- What is cached is defined and nothing that waits deletes it, and what a batch names is defined
and nothing before the batch deletes it. -/
structure Ordered (v : Service) : Prop where
  cached : ∀ id, v.limiter.cache.contains id = true →
    v.store.tables.Defines id ∧ ∀ w ∈ v.limiter.pending, ¬ w.Deletes id
  named : ∀ w ∈ v.limiter.pending, ∀ id, w.Names id → v.store.tables.Defines id
  inOrder : v.limiter.pending.Pairwise fun w w' => ∀ id, w'.Names id → ¬ w.Deletes id

theorem ordered_start (s : Store) : (start s).Ordered where
  cached id hid := by cases hid
  named w hw := absurd hw List.not_mem_nil
  inOrder := List.Pairwise.nil

/-- What an increment adds to the queue names cached ids alone. -/
theorem cached_of_names_batch (l : Limiter) (ids : List String) (now : Instant) {w : PendingWrite}
    (hw : w ∈ if (l.batchOf ids now).isEmpty then [] else [PendingWrite.occurrences (l.batchOf ids now)]) :
    (∀ id, ¬ w.Deletes id) ∧ ∀ id, w.Names id → l.cache.contains id = true := by
  split at hw
  · cases hw
  · cases List.mem_singleton.mp hw
    refine ⟨fun _ => not_false, ?_⟩
    rintro id ⟨o, ho, rfl⟩
    obtain ⟨id, hid, rfl⟩ := List.mem_map.mp ho
    exact (List.mem_filter.mp hid).2

theorem Ordered.increment (h : v.Ordered) (ids : List String) (now : Instant) :
    (v.serve (.increment ids now)).2.Ordered := by
  change Ordered ⟨(v.limiter.checkAndIncrement ids now).2, v.store⟩
  cases hover : v.limiter.isOver ids now with
  | true =>
    rw [checkAndIncrement_of_isOver hover]
    exact h
  | false =>
    have hpending := checkAndIncrement_pending hover
    have hnew := fun w => cached_of_names_batch v.limiter ids now (w := w)
    refine ⟨fun id hid => ?_, fun w hw id hnames => ?_, ?_⟩
    · dsimp only at hid ⊢
      rw [contains_checkAndIncrement] at hid
      obtain ⟨hdefined, hspared⟩ := h.cached id hid
      refine ⟨hdefined, fun w hw => ?_⟩
      rw [hpending] at hw
      exact (List.mem_append.mp hw).elim (hspared w) fun hw => (hnew w hw).1 id
    · dsimp only at hw ⊢
      rw [hpending] at hw
      rcases List.mem_append.mp hw with hw | hw
      · exact h.named w hw id hnames
      · exact (h.cached id ((hnew w hw).2 id hnames)).1
    · dsimp only
      rw [hpending, List.pairwise_append]
      refine ⟨h.inOrder, ?_, fun w hw w' hw' id hnames => ?_⟩
      · split
        · exact List.Pairwise.nil
        · exact List.pairwise_singleton _ _
      · exact (h.cached id ((hnew w' hw').2 id hnames)).2 w hw

/-- What is loaded is defined, and while no list waits nothing that waits deletes. -/
theorem Ordered.prepare (h : v.Ordered) (hidle : v.IsIdle) (ids : List String) :
    (v.serve (.prepare ids)).2.Ordered := by
  rcases hprepare : v.limiter.prepare v.store ids with ⟨answer, l', s'⟩
  obtain ⟨hread, hpending, es, hes, hcache⟩ := prepare_spec hprepare
  simp only [Service.serve, hprepare]
  refine ⟨fun id hid => ⟨?_, fun w hw => ?_⟩, fun w hw id hnames => ?_, ?_⟩
  · dsimp only at hid ⊢
    rw [hread.tables]
    obtain ⟨e, he⟩ := Option.isSome_iff_exists.mp hid
    rw [hcache, get?_foldl_addEntry, Option.or_eq_some_iff] at he
    rcases he with he | ⟨-, hfind⟩
    · exact (h.cached id (Option.isSome_iff_exists.mpr ⟨e, he⟩)).1
    · have hid' : e.constraint.id = id := by simpa using List.find?_some hfind
      obtain ⟨row, hrow, -⟩ :=
        exists_row_of_constraint? (hes e (List.mem_of_find?_eq_some hfind)).definition
      exact ⟨row, hid' ▸ hrow⟩
  · obtain ⟨batch, rfl⟩ := hidle w (hpending ▸ hw)
    exact not_false
  · rw [hread.tables]
    exact h.named w (hpending ▸ hw) id hnames
  · exact hpending ▸ h.inOrder

/-- A list takes from the cache what it is going to delete. -/
theorem Ordered.announce (h : v.Ordered) (incoming : List Constraint) :
    (v.announce incoming).Ordered := by
  rcases hread : v.store.readConstraints with ⟨answer, s₁⟩
  have htables := (Store.isReadOf_query hread).tables
  cases answer with
  | error e =>
    have hsame : v.announce incoming = ⟨v.limiter, s₁⟩ := by
      rw [Service.announce, Limiter.announce, hread]
    rw [hsame]
    refine ⟨fun id hid => ?_, fun w hw id hnames => ?_, h.inOrder⟩
    · exact htables ▸ h.cached id hid
    · exact htables ▸ h.named w hw id hnames
  | ok stored =>
    have hafter : v.announce incoming = ⟨⟨(Difference.between stored incoming).applyToCache
        v.limiter.cache, v.limiter.pending ++ [.replacement (Difference.between stored incoming).delete
          (Difference.between stored incoming).reset
          (Difference.between stored incoming).upsert]⟩, s₁⟩ := by
      rw [Service.announce, Limiter.announce, hread]
    rw [hafter]
    generalize Difference.between stored incoming = d
    refine ⟨fun id hid => ?_, fun w hw id hnames => ?_, ?_⟩
    · obtain ⟨e, he⟩ := Option.isSome_iff_exists.mp hid
      obtain ⟨hkept, e₀, he₀, -⟩ := exists_get?_of_applyToCache he
      obtain ⟨hdefined, hspared⟩ := h.cached id (Option.isSome_iff_exists.mpr ⟨e₀, he₀⟩)
      refine ⟨htables ▸ hdefined, fun w hw => ?_⟩
      rcases List.mem_append.mp hw with hw | hw
      · exact hspared w hw
      · cases List.mem_singleton.mp hw
        exact hkept
    · rcases List.mem_append.mp hw with hw | hw
      · exact htables ▸ h.named w hw id hnames
      · cases List.mem_singleton.mp hw
        cases hnames
    · rw [List.pairwise_append]
      refine ⟨h.inOrder, List.pairwise_singleton _ _, fun w _ w' hw' id hnames => ?_⟩
      cases List.mem_singleton.mp hw'
      cases hnames

/-- What the writer carries out first deletes nothing that is cached or named behind it. -/
theorem Ordered.drain (h : v.Ordered) : (v.serve .drain).2.Ordered := by
  obtain ⟨⟨cache, pending⟩, store⟩ := v
  cases pending with
  | nil => exact h
  | cons w rest =>
    obtain ⟨hcached, hnamed, hinOrder⟩ := h
    obtain ⟨hfirst, hrest⟩ := List.pairwise_cons.mp hinOrder
    refine ⟨fun id hid => ?_, fun w' hw' id hnames => ?_, hrest⟩
    · obtain ⟨hdefined, hspared⟩ := hcached id hid
      exact ⟨defines_perform (hspared w List.mem_cons_self) hdefined,
        fun w' hw' => hspared w' (List.mem_cons_of_mem w hw')⟩
    · exact defines_perform (hfirst w' hw' id hnames)
        (hnamed w' (List.mem_cons_of_mem w hw') id hnames)

theorem Reachable.ordered (h : Reachable s v) : v.Ordered := by
  induction h with
  | start => exact ordered_start s
  | increment ids now _ ih => exact ih.increment ids now
  | prepare ids hidle _ ih => exact ih.prepare hidle ids
  | announce incoming _ ih => exact ih.announce incoming
  | drain _ ih => exact ih.drain

/-- **Whatever the store refuses, what is cached is defined, at every call of the writer, and what
waits can be written when its turn comes.**  All that can stand against writing it comes from
outside. -/
theorem occurrences_can_be_written (h : Reachable s v) :
    (∀ id, v.limiter.cache.contains id = true → v.store.tables.Defines id ∧
      ∀ w ∈ v.limiter.pending.head?, ∀ s' ∈ w.stages v.store, s'.tables.Defines id) ∧
    ∀ first batch rest, v.limiter.pending = first ++ .occurrences batch :: rest →
      (∀ o ∈ batch, (PendingWrite.performAll first v.store).2.tables.Defines o.constraintId) ∧
      ∀ e, ((PendingWrite.performAll first v.store).2.addOccurrences batch).1 = .error e →
        (PendingWrite.performAll first v.store).2.plan
            (PendingWrite.performAll first v.store).2.calls .addOccurrences = some e ∨
          (PendingWrite.performAll first v.store).2.readOnly = true ∧ e = .readOnly := by
  obtain ⟨hcached, hnamed, hinOrder⟩ := h.ordered
  refine ⟨fun id hid => ⟨(hcached id hid).1, fun w hw => ?_⟩, fun first batch rest hsplit => ?_⟩
  · exact defines_stages ((hcached id hid).2 w (List.mem_of_mem_head? hw)) (hcached id hid).1
  · rw [hsplit] at hnamed hinOrder
    have hbefore := (List.pairwise_append.mp hinOrder).2.2
    have hdefined : ∀ o ∈ batch,
        (PendingWrite.performAll first v.store).2.tables.Defines o.constraintId := by
      intro o ho
      have hnames : (PendingWrite.occurrences batch).Names o.constraintId := ⟨o, ho, rfl⟩
      exact defines_performAll
        (fun w hw => hbefore w hw _ List.mem_cons_self o.constraintId hnames)
        (hnamed _ (List.mem_append_right _ List.mem_cons_self) _ hnames)
    exact ⟨hdefined, fun e => error_of_addOccurrences hdefined⟩

/-! ## A list that is refused half way -/

/-- A store that clears no history after its tenth call. -/
def hoarding : Store :=
  { Store.ofTables .empty with
    plan := fun call op =>
      if 9 < call ∧ op = .deleteOccurrences then some (.refused "full") else none }

/-- Two constraints are used, and a list drops one of them and changes the range of the other. -/
def replacing : Service :=
  ((((start hoarding).run [.reconcile [once, ⟨"d", .ofMillis 500, 1⟩], .prepare ["c", "d"],
    .increment ["d", "c"] (.ofMillis 0)]).announce [⟨"c", .ofMillis 700, 1⟩]).serve
      (.increment ["d", "c"] (.ofMillis 100))).2

/-- At that moment a batch waits on either side of the replacement, and clearing will be refused. -/
theorem occurrences_can_be_written_replacing :
    replacing.limiter.pending = [.occurrences [⟨"d", .ofMillis 0⟩, ⟨"c", .ofMillis 0⟩],
        .replacement ["d"] ["c"] [⟨"c", .ofMillis 700, 1⟩]] ++
      .occurrences [⟨"c", .ofMillis 100⟩] :: [] ∧
    (∀ id, replacing.limiter.cache.contains id = true → replacing.store.tables.Defines id) ∧
    ∀ o ∈ [(⟨"c", .ofMillis 100⟩ : Occurrence)], (PendingWrite.performAll
      [.occurrences [⟨"d", .ofMillis 0⟩, ⟨"c", .ofMillis 0⟩],
        .replacement ["d"] ["c"] [⟨"c", .ofMillis 700, 1⟩]]
      replacing.store).2.tables.Defines o.constraintId := by
  have hreachable : Reachable hoarding replacing :=
    (Reachable.announce _ (reachable_run hoarding _)).increment _ _
  have hpending : replacing.limiter.pending =
      [.occurrences [⟨"d", .ofMillis 0⟩, ⟨"c", .ofMillis 0⟩],
        .replacement ["d"] ["c"] [⟨"c", .ofMillis 700, 1⟩]] ++
      .occurrences [⟨"c", .ofMillis 100⟩] :: [] := by decide
  obtain ⟨hcached, hqueue⟩ := occurrences_can_be_written hreachable
  exact ⟨hpending, fun id hid => (hcached id hid).1, (hqueue _ _ _ hpending).1⟩

end Service

end Limiter
end Automation
