import Automation.Trigger.Matcher
import Mathlib.Logic.Relation

/-!
# Equality and the two kinds of number

A payload has integers and doubles, and which of the two a number is given as should not matter to a
matcher: `1` and `1.0` are equal.  They are where two numbers are compared, and they are not where
the numbers stand inside two arrays or two objects, since containers are compared as values.

`Restates` gives one number in the other way, at any depth, and `Restated` any number of them.
`alike` is equality with numbers compared as numbers at every depth, so it does not see restating.
What a matcher accepts is then told by `Matcher.accepts_equals_restated`: it is what is alike, and
of containers only what is the same besides.  So a match is never wrong, and what restating can take
away is a match between containers.
-/

namespace Automation

namespace Binary64

variable {x y : Binary64}

/-! ## Equal numbers -/

/-- Equality of numbers goes both ways. -/
theorem eq_swap (x y : Binary64) : x.eq y = y.eq x := by
  cases x with
  | nan => cases y <;> rfl
  | infinite s =>
    cases y with
    | infinite t => exact BEq.comm
    | _ => rfl
  | finite s m =>
    cases y with
    | finite t n => exact decide_eq_decide.mpr ⟨Eq.symm, Eq.symm⟩
    | _ => rfl

/-- Equal numbers equal the same numbers. -/
theorem eq_congr (h : x.eq y = true) (z : Binary64) : x.eq z = y.eq z := by
  cases x with
  | nan => cases h
  | infinite s =>
    cases y with
    | infinite t =>
      have hst : s = t := eq_of_beq h
      rw [hst]
    | _ => cases h
  | finite s m =>
    cases y with
    | finite t n =>
      have hvalue : signed s m = signed t n := of_decide_eq_true h
      cases z with
      | finite u k => rw [eq, eq, hvalue]
      | _ => rfl
    | _ => cases h

/-- An integer is a number, however large. -/
theorem eq_ofInt_self (n : Int) : (ofInt n).eq (ofInt n) = true := by
  rw [ofInt, ofSteps]
  split
  · exact decide_eq_true rfl
  · exact beq_self_eq_true _

end Binary64

namespace Json

variable {v v' w w' x x' : Json} {vs ws : List Json} {ms ns : List (String × Json)}

/-! ## Giving numbers in the other way -/

/-- One number of a value, at any depth, given in the other way: an integer as a double of the same
value, or such a double as the integer.  Up to `2 ^ 53` every integer is the value of a double. -/
inductive Restates : Json → Json → Prop where
  | double {n : Int} {x : Binary64} (h : x.eq (.ofInt n) = true) : Restates (.int n) (.float x)
  | integer {n : Int} {x : Binary64} (h : x.eq (.ofInt n) = true) : Restates (.float x) (.int n)
  | item (before after : List Json) {v w : Json} (h : Restates v w) :
    Restates (.arr (before ++ v :: after)) (.arr (before ++ w :: after))
  | member (before after : List (String × Json)) (key : String) {v w : Json} (h : Restates v w) :
    Restates (.obj (before ++ (key, v) :: after)) (.obj (before ++ (key, w) :: after))

/-- Some numbers of a value given in the other way. -/
abbrev Restated : Json → Json → Prop := Relation.ReflTransGen Restates

theorem Restates.symm (h : Restates v w) : Restates w v := by
  induction h with
  | double h => exact .integer h
  | integer h => exact .double h
  | item before after _ ih => exact .item before after ih
  | member before after key _ ih => exact .member before after key ih

theorem Restated.symm (h : Restated v w) : Restated w v := by
  induction h with
  | refl => exact .refl
  | tail _ hstep ih => exact .head hstep.symm ih

/-- Whether a value holds other values. -/
def isContainer : Json → Bool
  | .arr _ | .obj _ => true
  | _ => false

theorem Restates.isContainer (h : Restates v w) : v.isContainer = w.isContainer := by
  cases h <;> rfl

theorem Restated.isContainer (h : Restated v w) : v.isContainer = w.isContainer := by
  induction h with
  | refl => rfl
  | tail _ hstep ih => exact ih.trans hstep.isContainer

/-- Below a member only the member is restated. -/
theorem Restates.member? (h : Restates v v') {key : String} (hw : v.member? key = some w) :
    ∃ w', v'.member? key = some w' ∧ Restated w w' := by
  cases h with
  | double h => cases hw
  | integer h => cases hw
  | item before after h => cases hw
  | member before after k h =>
    rw [Json.member?, List.lookup_append] at hw ⊢
    cases hbefore : before.lookup key with
    | some u =>
      rw [hbefore] at hw
      exact ⟨w, hw, .refl⟩
    | none =>
      rw [hbefore, Option.none_or, List.lookup_cons] at hw
      rw [Option.none_or, List.lookup_cons]
      cases hk : key == k with
      | true =>
        rw [hk] at hw
        cases hw
        exact ⟨_, rfl, .single h⟩
      | false =>
        rw [hk] at hw
        exact ⟨w, hw, .refl⟩

theorem Restated.member? (h : Restated v v') {key : String} (hw : v.member? key = some w) :
    ∃ w', v'.member? key = some w' ∧ Restated w w' := by
  induction h with
  | refl => exact ⟨w, hw, .refl⟩
  | tail _ hstep ih =>
    obtain ⟨u, hu, hwu⟩ := ih
    obtain ⟨w', hw', huw'⟩ := hstep.member? hu
    exact ⟨w', hw', hwu.trans huw'⟩

/-- A path leads to the same place in a restated value. -/
theorem Restated.follow? (h : Restated v v') {keys : List String} (hw : v.follow? keys = some w) :
    ∃ w', v'.follow? keys = some w' ∧ Restated w w' := by
  induction keys generalizing v v' with
  | nil =>
    cases hw
    exact ⟨v', rfl, h⟩
  | cons key rest ih =>
    rw [Json.follow?] at hw ⊢
    split at hw
    · next u hu =>
      obtain ⟨u', hu', hrest⟩ := h.member? hu
      rw [hu']
      exact ih hrest hw
    · cases hw

theorem Restated.at?_eq_none (h : Restated v v') {path : String} (hv : v.at? path = none) :
    v'.at? path = none := by
  cases hv' : v'.at? path with
  | none => rfl
  | some w' =>
    obtain ⟨w, hw, -⟩ := h.symm.follow? hv'
    rw [at?, hw] at hv
    cases hv

/-! ## Equality as values -/

mutual

/-- Equality of values goes both ways. -/
theorem same_comm : ∀ v w : Json, same v w = same w v
  | .null, w => by cases w <;> rfl
  | .bool _, w => by
    cases w with
    | bool _ => exact BEq.comm
    | _ => rfl
  | .int _, w => by
    cases w with
    | int _ => exact BEq.comm
    | _ => rfl
  | .float x, w => by
    cases w with
    | float y => exact x.eq_swap y
    | _ => rfl
  | .str _, w => by
    cases w with
    | str _ => exact BEq.comm
    | _ => rfl
  | .arr vs, w => by
    cases w with
    | arr ws => exact sameItems_comm vs ws
    | _ => rfl
  | .obj ms, w => by
    cases w with
    | obj ns => exact sameMembers_comm ms ns
    | _ => rfl

theorem sameItems_comm : ∀ vs ws : List Json, sameItems vs ws = sameItems ws vs
  | [], [] => rfl
  | [], _ :: _ => rfl
  | _ :: _, [] => rfl
  | v :: vs, w :: ws => by rw [sameItems, sameItems, same_comm v w, sameItems_comm vs ws]

theorem sameMembers_comm : ∀ ms ns : List (String × Json), sameMembers ms ns = sameMembers ns ms
  | [], [] => rfl
  | [], _ :: _ => rfl
  | _ :: _, [] => rfl
  | (j, v) :: ms, (k, w) :: ns => by
    rw [sameMembers, sameMembers, same_comm v w, sameMembers_comm ms ns, BEq.comm]

end

/-! ## Equality with numbers compared as numbers -/

mutual

/-- A value with every integer in it as the double nearest to it. -/
def doubles : Json → Json
  | .int n => .float (.ofInt n)
  | .arr items => .arr (doublesOfItems items)
  | .obj members => .obj (doublesOfMembers members)
  | .null => .null
  | .bool b => .bool b
  | .float x => .float x
  | .str s => .str s

/-- Items with doubles for integers. -/
def doublesOfItems : List Json → List Json
  | [] => []
  | v :: rest => v.doubles :: doublesOfItems rest

/-- Members with doubles for integers. -/
def doublesOfMembers : List (String × Json) → List (String × Json)
  | [] => []
  | (k, v) :: rest => (k, v.doubles) :: doublesOfMembers rest

end

/-- Equality with numbers compared as numbers at every depth. -/
def alike (v w : Json) : Bool := v.doubles.same w.doubles

theorem doublesOfItems_eq (vs : List Json) : doublesOfItems vs = vs.map doubles := by
  induction vs with
  | nil => rfl
  | cons v rest ih => rw [doublesOfItems, ih, List.map_cons]

theorem doublesOfMembers_eq (ms : List (String × Json)) :
    doublesOfMembers ms = ms.map fun m => (m.1, m.2.doubles) := by
  induction ms with
  | nil => rfl
  | cons m rest ih => rw [doublesOfMembers, ih, List.map_cons]

/-- Items are compared one by one, so one of them may be replaced by what is equal to the same. -/
theorem sameItems_congr (h : ∀ z, same v z = same w z) (before after others : List Json) :
    sameItems (before ++ v :: after) others = sameItems (before ++ w :: after) others := by
  induction before generalizing others with
  | nil =>
    cases others with
    | nil => rfl
    | cons z zs => rw [List.nil_append, List.nil_append, sameItems, sameItems, h]
  | cons u rest ih =>
    cases others with
    | nil => rfl
    | cons z zs => rw [List.cons_append, List.cons_append, sameItems, sameItems, ih]

theorem sameMembers_congr (h : ∀ z, same v z = same w z) (before after others : List (String × Json))
    (key : String) :
    sameMembers (before ++ (key, v) :: after) others =
      sameMembers (before ++ (key, w) :: after) others := by
  induction before generalizing others with
  | nil =>
    cases others with
    | nil => rfl
    | cons z zs => rw [List.nil_append, List.nil_append, sameMembers, sameMembers, h]
  | cons u rest ih =>
    cases others with
    | nil => rfl
    | cons z zs => rw [List.cons_append, List.cons_append, sameMembers, sameMembers, ih]

/-- As doubles a restated value equals the same values. -/
theorem Restates.same_doubles (h : Restates v w) (z : Json) :
    v.doubles.same z = w.doubles.same z := by
  induction h generalizing z with
  | double h =>
    cases z with
    | float y => rw [doubles, doubles, same, same, Binary64.eq_congr h]
    | _ => simp only [doubles, same]
  | integer h =>
    cases z with
    | float y => rw [doubles, doubles, same, same, Binary64.eq_congr h]
    | _ => simp only [doubles, same]
  | item before after _ ih =>
    cases z with
    | arr zs =>
      rw [doubles, doubles, doublesOfItems_eq, doublesOfItems_eq, List.map_append, List.map_append,
        List.map_cons, List.map_cons, same, same]
      exact sameItems_congr ih _ _ zs
    | _ => rfl
  | member before after key _ ih =>
    cases z with
    | obj zs =>
      rw [doubles, doubles, doublesOfMembers_eq, doublesOfMembers_eq, List.map_append,
        List.map_append, List.map_cons, List.map_cons, same, same]
      exact sameMembers_congr ih _ _ zs key
    | _ => rfl

theorem Restated.same_doubles (h : Restated v w) (z : Json) :
    v.doubles.same z = w.doubles.same z := by
  induction h with
  | refl => rfl
  | tail _ hstep ih => exact ih.trans (hstep.same_doubles z)

/-- What is alike does not depend on how numbers are given. -/
theorem Restated.alike_eq (hv : Restated v v') (hx : Restated x x') : v.alike x = v'.alike x' := by
  rw [alike, hv.same_doubles, same_comm, hx.same_doubles, same_comm, alike]

mutual

/-- What is the same is alike. -/
theorem alike_of_same : ∀ v w : Json, same v w = true → alike v w = true
  | .null, w, h => by
    cases w with
    | null => rfl
    | _ => cases h
  | .bool _, w, h => by
    cases w with
    | bool _ => exact h
    | _ => cases h
  | .int n, w, h => by
    cases w with
    | int m =>
      cases (eq_of_beq h : n = m)
      exact Binary64.eq_ofInt_self n
    | _ => cases h
  | .float _, w, h => by
    cases w with
    | float _ => exact h
    | _ => cases h
  | .str _, w, h => by
    cases w with
    | str _ => exact h
    | _ => cases h
  | .arr vs, w, h => by
    cases w with
    | arr ws => exact alikeItems_of_same vs ws h
    | _ => cases h
  | .obj ms, w, h => by
    cases w with
    | obj ns => exact alikeMembers_of_same ms ns h
    | _ => cases h

theorem alikeItems_of_same : ∀ vs ws : List Json, sameItems vs ws = true →
    sameItems (doublesOfItems vs) (doublesOfItems ws) = true
  | [], [], _ => rfl
  | v :: vs, w :: ws, h => by
    rw [sameItems, Bool.and_eq_true] at h
    rw [doublesOfItems, doublesOfItems, sameItems, Bool.and_eq_true]
    exact ⟨alike_of_same v w h.1, alikeItems_of_same vs ws h.2⟩

theorem alikeMembers_of_same : ∀ ms ns : List (String × Json), sameMembers ms ns = true →
    sameMembers (doublesOfMembers ms) (doublesOfMembers ns) = true
  | [], [], _ => rfl
  | (j, v) :: ms, (k, w) :: ns, h => by
    rw [sameMembers, Bool.and_eq_true, Bool.and_eq_true] at h
    rw [doublesOfMembers, doublesOfMembers, sameMembers, Bool.and_eq_true, Bool.and_eq_true]
    exact ⟨⟨h.1.1, alike_of_same v w h.1.2⟩, alikeMembers_of_same ms ns h.2⟩

end

end Json

namespace Matcher

open Json

variable {v v' x x' : Json}

/-- Containers are compared as values, and everything else by what it is alike to. -/
theorem valuesEqual_eq (w x : Json) :
    valuesEqual w x = if w.isContainer && x.isContainer then same w x else alike w x := by
  cases w <;> cases x <;> simp only [valuesEqual, number?, isContainer, alike, doubles, same,
    Bool.and_self, Bool.and_false, Bool.false_and, Bool.false_eq_true, if_true, if_false]

theorem valuesEqual_eq_true_iff (w x : Json) : valuesEqual w x = true ↔
    w.alike x = true ∧ (w.isContainer = true → x.isContainer = true → w.same x = true) := by
  rw [valuesEqual_eq]
  split
  · next hboth =>
    rw [Bool.and_eq_true] at hboth
    exact ⟨fun h => ⟨alike_of_same w x h, fun _ _ => h⟩, fun h => h.2 hboth.1 hboth.2⟩
  · next hnot =>
    rw [Bool.and_eq_true] at hnot
    exact ⟨fun h => ⟨h, fun hw hx => absurd ⟨hw, hx⟩ hnot⟩, fun h => h.1⟩

/-- Restating changes an answer only where two containers that are alike are the same before and not
after, or the other way round. -/
theorem valuesEqual_restated {w w' : Json} (hw : Restated w w') (hx : Restated x x') :
    valuesEqual w x = valuesEqual w' x' ∨
      w.isContainer = true ∧ x.isContainer = true ∧ w.alike x = true ∧ w.same x ≠ w'.same x' := by
  rw [valuesEqual_eq, valuesEqual_eq, ← hw.isContainer, ← hx.isContainer]
  have halike := hw.alike_eq hx
  split
  · next hboth =>
    rw [Bool.and_eq_true] at hboth
    by_cases hsame : w.same x = w'.same x'
    · exact .inl hsame
    · refine .inr ⟨hboth.1, hboth.2, ?_, hsame⟩
      -- of two answers that differ one is yes
      cases hbefore : w.same x with
      | true => exact alike_of_same w x hbefore
      | false =>
        cases hafter : w'.same x' with
        | true => exact halike.trans (alike_of_same w' x' hafter)
        | false => exact absurd (hbefore.trans hafter.symm) hsame
  · exact .inl halike

theorem accepts_equals_of_at? {path : String} {w : Json} (h : v.at? path = some w) :
    (equals path x).accepts v = valuesEqual w x := by
  rw [accepts, h, Option.any_some]

/-- **Equality and the two kinds of number.**  A value is accepted if the path leads to what is alike
to the one that is asked for, and is the same if both are containers.  So restating numbers, in the
payload or in what is asked for, at any depth, leaves the answer as it is, except where the path
leads to a container, a container is asked for, the two are alike, and the numbers inside are given
alike on one side of the change only. -/
theorem accepts_equals_restated (path : String) (hv : Restated v v') (hx : Restated x x') :
    ((equals path x).accepts v = true ↔ ∃ w, v.at? path = some w ∧ w.alike x = true ∧
      (w.isContainer = true → x.isContainer = true → w.same x = true)) ∧
    ((equals path x).accepts v = (equals path x').accepts v' ∨
      ∃ w w', v.at? path = some w ∧ v'.at? path = some w' ∧ w.isContainer = true ∧
        x.isContainer = true ∧ w.alike x = true ∧ w.same x ≠ w'.same x') := by
  cases hpart : v.at? path with
  | none =>
    have hpart' := hv.at?_eq_none hpart
    constructor
    · rw [accepts, hpart]
      simp
    · left
      rw [accepts, accepts, hpart, hpart']
      rfl
  | some w =>
    obtain ⟨w', hpart', hw⟩ := hv.follow? hpart
    constructor
    · rw [accepts_equals_of_at? hpart, valuesEqual_eq_true_iff]
      simp
    · rw [accepts_equals_of_at? hpart, accepts_equals_of_at? hpart']
      rcases valuesEqual_restated hw hx with hsame | ⟨hcontainer, hasked, halike, hdiffer⟩
      · exact .inl hsame
      · exact .inr ⟨w, w', rfl, hpart', hcontainer, hasked, halike, hdiffer⟩

/-- What a player has reached, with one number beside others in an array. -/
def reached (level stage : Json) : Json := .obj [("level", level), ("stages", .arr [.str "a", stage])]

/-- All numbers are restated, and the one that is asked for is still found. -/
theorem accepts_equals_restated_level :
    Restated (reached (.int 3) (.int 1)) (reached (.float (.ofInt 3)) (.float (.ofInt 1))) ∧
      Restated (.float (.ofInt 3)) (.int 3) ∧
      (equals "level" (.int 3)).accepts (reached (.float (.ofInt 3)) (.float (.ofInt 1))) = true ∧
      (equals "level" (.float (.ofInt 3))).accepts (reached (.int 3) (.int 1)) = true := by
  have hlevel : Restates (.int 3) (.float (.ofInt 3)) := .double (Binary64.eq_ofInt_self 3)
  have hstage : Restates (.int 1) (.float (.ofInt 1)) := .double (Binary64.eq_ofInt_self 1)
  have hreached : Restated (reached (.int 3) (.int 1))
      (reached (.float (.ofInt 3)) (.float (.ofInt 1))) :=
    .head (.member [] _ "level" hlevel)
      (.single (.member [_] [] "stages" (.item [.str "a"] [] hstage)))
  have hanswer := (accepts_equals_restated "level" hreached (.single hlevel.symm)).2
  have hafter : (equals "level" (.int 3)).accepts
      (reached (.float (.ofInt 3)) (.float (.ofInt 1))) = true := by decide +kernel
  refine ⟨hreached, .single hlevel.symm, hafter, ?_⟩
  rcases hanswer with hsame | ⟨w, _, hw, -, hcontainer, -⟩
  · exact hsame.trans hafter
  · cases hw
    cases hcontainer

/-- Inside containers `1` and `1.0` are told apart. -/
theorem numbers_inside_are_told_apart :
    Restates (reached (.int 3) (.int 1)) (reached (.int 3) (.float (.ofInt 1))) ∧
      (equals "stages" (.arr [.str "a", .int 1])).accepts (reached (.int 3) (.int 1)) = true ∧
      (equals "stages" (.arr [.str "a", .int 1])).accepts
        (reached (.int 3) (.float (.ofInt 1))) = false :=
  ⟨.member [_] [] "stages" (.item [.str "a"] [] (.double (Binary64.eq_ofInt_self 1))),
    by decide +kernel, by decide +kernel⟩

end Matcher
end Automation
