import Automation.Proofs.Limit.Service
import Automation.Proofs.Lookup
import Mathlib.Data.List.Nodup

/-!
# Reconciling definitions

What has to change is computed from the stored definitions and carried out twice, on the cache at
once and on the tables behind the queue.

* `Difference.between_eq`: what changes is decided for each incoming definition by itself.
* `get?_applyToCache`: what a difference does to a cached constraint, which is nothing to one that
  it does not name (`get?_applyToCache_of_unnamed`).
* `setConstraints_cases`: where nothing but occurrences can be lost, a reconciliation either cannot
  read the stored definitions and changes nothing, or it changes cache and tables by one and the
  same difference.
-/

namespace Automation
namespace Limiter

/-! ## What changes -/

namespace Difference

/-- Whether an incoming definition changes the stored range. -/
def resets (stored : List Constraint) (c : Constraint) : Bool :=
  (stored.find? fun current => current.id = c.id).any fun current => current.range ≠ c.range

/-- Whether an incoming definition differs from the stored one, or is new. -/
def redefines (stored : List Constraint) (c : Constraint) : Bool :=
  (stored.find? fun current => current.id = c.id).all fun current =>
    current.range ≠ c.range || current.count ≠ c.count

theorem consider_eq (stored : List Constraint) (d : Difference) (c : Constraint) :
    consider stored d c =
      ⟨d.delete, d.reset ++ ([c].filter (resets stored)).map (·.id),
        d.upsert ++ [c].filter (redefines stored)⟩ := by
  rw [consider, List.filter_singleton, List.filter_singleton, resets, redefines]
  cases hfind : stored.find? fun current => current.id = c.id with
  | none => simp
  | some current =>
    by_cases hrange : current.range = c.range
    · by_cases hcount : current.count = c.count <;> simp [hrange, hcount]
    · simp [hrange]

theorem foldl_consider (stored incoming : List Constraint) (d : Difference) :
    incoming.foldl (consider stored) d =
      ⟨d.delete, d.reset ++ (incoming.filter (resets stored)).map (·.id),
        d.upsert ++ incoming.filter (redefines stored)⟩ := by
  induction incoming generalizing d with
  | nil => simp
  | cons c rest ih =>
    rw [List.foldl_cons, ih, consider_eq]
    simp only [List.append_assoc, ← List.map_append, ← List.filter_append, List.singleton_append]

/-- What changes is decided for each incoming definition by itself. -/
theorem between_eq (stored incoming : List Constraint) :
    between stored incoming =
      ⟨(stored.map (·.id)).filter fun id => !(incoming.map (·.id)).contains id,
        (incoming.filter (resets stored)).map (·.id), incoming.filter (redefines stored)⟩ := by
  rw [between, foldl_consider, List.nil_append, List.nil_append]

/-- What a list names is not deleted. -/
theorem not_mem_delete (stored : List Constraint) {incoming : List Constraint} {c : Constraint}
    (hc : c ∈ incoming) : c.id ∉ (between stored incoming).delete := by
  intro hdelete
  rw [between_eq] at hdelete
  have hgone := (List.mem_filter.mp hdelete).2
  rw [List.contains_iff_mem.mpr (List.mem_map_of_mem hc)] at hgone
  cases hgone

/-- What is stored and not deleted is named by the list. -/
theorem exists_of_not_mem_delete {stored incoming : List Constraint} {c : Constraint}
    (hc : c ∈ stored) (h : c.id ∉ (between stored incoming).delete) :
    ∃ c' ∈ incoming, c'.id = c.id := by
  rw [between_eq, List.mem_filter, not_and] at h
  have hnamed := h (List.mem_map_of_mem hc)
  rw [Bool.not_eq_true', Bool.not_eq_false, List.contains_iff_mem] at hnamed
  exact List.mem_map.mp hnamed

/-- A list without repetitions clears a history just if it changes the range. -/
theorem mem_reset_iff (stored : List Constraint) {incoming : List Constraint}
    (hnodup : (incoming.map (·.id)).Nodup) {c : Constraint} (hc : c ∈ incoming) :
    c.id ∈ (between stored incoming).reset ↔ resets stored c = true := by
  rw [between_eq, List.mem_map]
  constructor
  · rintro ⟨c', hc', hid⟩
    obtain ⟨hmem, hresets⟩ := List.mem_filter.mp hc'
    rwa [List.inj_on_of_nodup_map hnodup hmem hc hid] at hresets
  · exact fun h => ⟨c, List.mem_filter.mpr ⟨hc, h⟩, rfl⟩

/-- A list without repetitions redefines a constraint once or not at all. -/
theorem filter_upsert (stored : List Constraint) {incoming : List Constraint}
    (hnodup : (incoming.map (·.id)).Nodup) {c : Constraint} (hc : c ∈ incoming) :
    ((between stored incoming).upsert.filter fun c' => c'.id = c.id) =
      if redefines stored c then [c] else [] := by
  rw [between_eq, List.filter_comm, filter_eq_singleton hnodup hc, List.filter_singleton]
  cases redefines stored c <;> rfl

/-- What a difference does to the tables. -/
def applyToTables (d : Difference) (t : Tables) : Tables :=
  d.upsert.foldl Tables.putConstraint ((t.deleteConstraints d.delete).deleteOccurrences d.reset)

end Difference

/-! ## What a difference does to one cached constraint -/

theorem get?_foldl_erase (ids : List String) (cache : Table String CacheEntry) (id : String) :
    (ids.foldl Table.erase cache).get? id = if id ∈ ids then none else cache.get? id := by
  induction ids generalizing cache with
  | nil => simp
  | cons first rest ih =>
    rw [List.foldl_cons, ih, Table.get?_erase]
    by_cases hrest : id ∈ rest
    · rw [if_pos hrest, if_pos (List.mem_cons_of_mem _ hrest)]
    · by_cases hid : id = first
      · rw [if_neg hrest, if_pos hid, if_pos (hid ▸ List.mem_cons_self)]
      · rw [if_neg hrest, if_neg hid, if_neg (by simp [hid, hrest])]

/-- Of the definitions of one constraint the last one stays, and the history is kept. -/
theorem get?_foldl_redefine (cs : List Constraint) (cache : Table String CacheEntry) (id : String) :
    (cs.foldl redefine cache).get? id = (cache.get? id).map fun e =>
      { e with constraint := ((cs.filter fun c => c.id = id).getLast?).getD e.constraint } := by
  induction cs generalizing cache with
  | nil => cases h : cache.get? id <;> simp [h]
  | cons c rest ih =>
    rw [List.foldl_cons, ih, redefine, Table.get?_modify]
    by_cases hid : id = c.id
    · rw [if_pos hid, List.filter_cons_of_pos (by simpa using hid.symm), Option.map_map]
      simp only [List.getLast?_cons, Option.getD_some, Function.comp_def]
    · rw [if_neg hid, List.filter_cons_of_neg (by simpa using Ne.symm hid)]

theorem get?_foldl_clear (ids : List String) (cache : Table String CacheEntry) (id : String) :
    (ids.foldl (fun c id => c.modify id fun e => { e with times := [] }) cache).get? id =
      if id ∈ ids then (cache.get? id).map fun e => { e with times := [] } else cache.get? id := by
  induction ids generalizing cache with
  | nil => simp
  | cons first rest ih =>
    rw [List.foldl_cons, ih, Table.get?_modify]
    by_cases hid : id = first
    · subst hid
      by_cases hrest : id ∈ rest <;> simp [hrest, Option.map_map, Function.comp_def]
    · by_cases hrest : id ∈ rest <;> simp [hrest, hid]

/-- A cached constraint after a difference that does not delete it. -/
def Difference.applyToEntry (d : Difference) (id : String) (e : CacheEntry) : CacheEntry :=
  ⟨((d.upsert.filter fun c => c.id = id).getLast?).getD e.constraint,
    if id ∈ d.reset then [] else e.times⟩

/-- What a difference does to one cached constraint. -/
theorem get?_applyToCache (d : Difference) (cache : Table String CacheEntry) (id : String) :
    (d.applyToCache cache).get? id =
      if id ∈ d.delete then none else (cache.get? id).map (d.applyToEntry id) := by
  rw [Difference.applyToCache, get?_foldl_clear, get?_foldl_redefine, get?_foldl_erase]
  unfold Difference.applyToEntry
  by_cases hdelete : id ∈ d.delete <;> by_cases hreset : id ∈ d.reset <;>
    simp [hdelete, hreset, Option.map_map, Function.comp_def]

/-- A difference that does not name a constraint leaves it cached as it was. -/
theorem get?_applyToCache_of_unnamed {d : Difference} {cache : Table String CacheEntry}
    {id : String} (hdelete : id ∉ d.delete) (hreset : id ∉ d.reset)
    (hupsert : ∀ c ∈ d.upsert, c.id ≠ id) : (d.applyToCache cache).get? id = cache.get? id := by
  have hnone : (d.upsert.filter fun c => c.id = id) = [] :=
    List.filter_eq_nil_iff.mpr fun c hc => by simpa using hupsert c hc
  rw [get?_applyToCache, if_neg hdelete]
  unfold Difference.applyToEntry
  simp only [hnone, if_neg hreset]
  cases cache.get? id <;> rfl

/-! ## Carrying out the queue -/

theorem performAll_append (ws : List PendingWrite) (w : PendingWrite) (s : Store) :
    PendingWrite.performAll (ws ++ [w]) s =
      w.perform (ws.foldl (fun s w => (w.perform s).2) s) := by
  induction ws generalizing s with
  | nil => rfl
  | cons first rest ih =>
    rw [List.cons_append, List.foldl_cons, ← ih]
    cases hrest : rest ++ [w] with
    | nil => exact absurd hrest (by simp)
    | cons second more => rfl

theorem performAll_store (ws : List PendingWrite) (s : Store) :
    (PendingWrite.performAll ws s).2 = ws.foldl (fun s w => (w.perform s).2) s := by
  induction ws generalizing s with
  | nil => rfl
  | cons first rest ih =>
    cases rest with
    | nil => rfl
    | cons second more =>
      rw [List.foldl_cons, ← ih]
      rfl

/-- A write of occurrences leaves the definitions and what the store allows. -/
theorem perform_occurrences (batch : List Occurrence) (s : Store) :
    ((PendingWrite.occurrences batch).perform s).2.tables.constraints = s.tables.constraints ∧
      ∀ op, ((PendingWrite.occurrences batch).perform s).2.Allows op ↔ s.Allows op := by
  refine ⟨?_, fun op => Store.allows_command⟩
  rcases Store.command_tables s .addOccurrences (!batch.isEmpty)
    (fun t => t.addOccurrences batch) with h | h
  · exact congrArg Tables.constraints h
  · have hadded := congrArg Tables.constraints (Tables.addOccurrences_eq_ok_iff.mp h).2
    exact hadded

/-- A queue of occurrences leaves the definitions and what the store allows. -/
theorem foldl_perform_occurrences {ws : List PendingWrite}
    (h : ∀ w ∈ ws, ∃ batch, w = .occurrences batch) (s : Store) :
    (ws.foldl (fun s w => (w.perform s).2) s).tables.constraints = s.tables.constraints ∧
      ∀ op, (ws.foldl (fun s w => (w.perform s).2) s).Allows op ↔ s.Allows op := by
  induction ws generalizing s with
  | nil => exact ⟨rfl, fun _ => Iff.rfl⟩
  | cons w rest ih =>
    obtain ⟨batch, rfl⟩ := h w List.mem_cons_self
    obtain ⟨hrows, hallows⟩ := perform_occurrences batch s
    obtain ⟨hrows', hallows'⟩ := ih (fun w hw => h w (List.mem_cons_of_mem _ hw))
      ((PendingWrite.occurrences batch).perform s).2
    exact ⟨hrows'.trans hrows, fun op => (hallows' op).trans (hallows op)⟩

theorem upsertAll_spec (cs : List Constraint) {s : Store} (h : s.Allows .writeConstraint) :
    (PendingWrite.upsertAll cs s).1 = .ok () ∧
      (PendingWrite.upsertAll cs s).2.tables = cs.foldl Tables.putConstraint s.tables ∧
      ∀ op, (PendingWrite.upsertAll cs s).2.Allows op ↔ s.Allows op := by
  induction cs generalizing s with
  | nil => exact ⟨rfl, rfl, fun _ => Iff.rfl⟩
  | cons c rest ih =>
    have hanswer : (s.writeConstraint c).1 = .ok () := Store.command_answer_of_ok h rfl
    have htables : (s.writeConstraint c).2.tables = s.tables.putConstraint c :=
      Store.command_tables_of_ok h rfl
    have hallows : ∀ op, (s.writeConstraint c).2.Allows op ↔ s.Allows op :=
      fun op => Store.allows_command
    obtain ⟨hdone, hrows, hsame⟩ := ih ((hallows _).mpr h)
    have hunfold : PendingWrite.upsertAll (c :: rest) s =
        PendingWrite.upsertAll rest (s.writeConstraint c).2 := by
      rw [PendingWrite.upsertAll]
      split
      · next hc =>
        rw [hc] at hanswer
        cases hanswer
      · next hc => rw [hc]
    rw [hunfold]
    exact ⟨hdone, by rw [hrows, htables, List.foldl_cons], fun op => (hsame op).trans (hallows op)⟩

/-- Where nothing but occurrences can be lost, a replacement is carried out as a whole. -/
theorem perform_replacement (d : Difference) {s : Store} (h : s.LosesOnlyOccurrences) :
    ((PendingWrite.replacement d.delete d.reset d.upsert).perform s).1 = .ok () ∧
      ((PendingWrite.replacement d.delete d.reset d.upsert).perform s).2.tables =
        d.applyToTables s.tables ∧
      ∀ op, ((PendingWrite.replacement d.delete d.reset d.upsert).perform s).2.Allows op ↔
        s.Allows op := by
  have hdelete : (s.deleteConstraints d.delete).1 = .ok () :=
    Store.command_answer_of_ok (h _ (by decide)) rfl
  have hdeleted : (s.deleteConstraints d.delete).2.tables = s.tables.deleteConstraints d.delete :=
    Store.command_tables_of_ok (h _ (by decide)) rfl
  have hsame : ∀ op, (s.deleteConstraints d.delete).2.Allows op ↔ s.Allows op :=
    fun op => Store.allows_command
  rcases hfirst : s.deleteConstraints d.delete with ⟨answer, s₁⟩
  rw [hfirst] at hdelete hdeleted hsame
  have hreset : (s₁.deleteOccurrences d.reset).1 = .ok () :=
    Store.command_answer_of_ok ((hsame _).mpr (h _ (by decide))) rfl
  have hcleared : (s₁.deleteOccurrences d.reset).2.tables = s₁.tables.deleteOccurrences d.reset :=
    Store.command_tables_of_ok ((hsame _).mpr (h _ (by decide))) rfl
  have hsame' : ∀ op, (s₁.deleteOccurrences d.reset).2.Allows op ↔ s₁.Allows op :=
    fun op => Store.allows_command
  rcases hsecond : s₁.deleteOccurrences d.reset with ⟨answer', s₂⟩
  rw [hsecond] at hreset hcleared hsame'
  obtain ⟨hdone, hrows, hall⟩ :=
    upsertAll_spec d.upsert ((hsame' _).mpr ((hsame _).mpr (h _ (by decide))))
  have hunfold : (PendingWrite.replacement d.delete d.reset d.upsert).perform s =
      PendingWrite.upsertAll d.upsert s₂ := by
    cases hdelete
    cases hreset
    simp only [PendingWrite.perform, hfirst, hsecond]
  rw [hunfold]
  refine ⟨hdone, ?_, fun op => (hall op).trans ((hsame' op).trans (hsame op))⟩
  rw [hrows, hcleared, hdeleted, Difference.applyToTables]

/-- A reconciliation either cannot read the stored definitions and changes nothing, or it changes
cache and tables by one difference. -/
theorem setConstraints_cases {l l' : Limiter} {s s' : Store} {incoming : List Constraint}
    {r : Except LimitError Unit} (hs : s.LosesOnlyOccurrences)
    (hp : ∀ w ∈ l.pending, ∃ batch, w = .occurrences batch)
    (h : l.setConstraints s incoming = (r, l', s')) :
    (l' = l ∧ s'.IsReadOf s ∧ ∃ e, r = .error e ∧ s.readConstraints.1.isOk = false) ∨
      ∃ (stored : List Constraint) (s₁ : Store),
        s.tables.allConstraints = .ok stored ∧ s₁.IsReadOf s ∧ r = .ok () ∧
        l' = ⟨(Difference.between stored incoming).applyToCache l.cache, []⟩ ∧
        s'.tables = (Difference.between stored incoming).applyToTables
          (l.pending.foldl (fun s w => (w.perform s).2) s₁).tables ∧
        ∀ op, s'.Allows op ↔ s.Allows op := by
  rw [setConstraints] at h
  split at h
  · next e s₁ hread =>
    cases h
    exact Or.inl ⟨rfl, Store.isReadOf_query hread, _, rfl, by rw [hread]; rfl⟩
  · next stored s₁ hread =>
    right
    have hs₁ : s₁.IsReadOf s := Store.isReadOf_query hread
    obtain ⟨-, hqueue⟩ := foldl_perform_occurrences hp s₁
    have hallows : ∀ op, (l.pending.foldl (fun s w => (w.perform s).2) s₁).Allows op ↔
        s.Allows op := fun op => (hqueue op).trans (hs₁.allows op)
    obtain ⟨hdone, htables, hsame⟩ := perform_replacement (Difference.between stored incoming)
      (s := l.pending.foldl (fun s w => (w.perform s).2) s₁) fun op hop => (hallows op).mpr (hs op hop)
    simp only [performAll_append, hdone, Prod.mk.injEq] at h
    obtain ⟨rfl, rfl, rfl⟩ := h
    exact ⟨stored, s₁, Store.read_of_query hread, hs₁, rfl, rfl, htables,
      fun op => (hsame op).trans (hallows op)⟩

end Limiter
end Automation
