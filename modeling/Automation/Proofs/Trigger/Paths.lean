import Automation.Trigger.Matcher

/-!
# Matchers under a path

A matcher that is meant for a part of a payload can be used on the whole payload, if the way to the
part is put in front of every path in it (`Matcher.accepts_under`).  So a condition may be written
once for a kind of value and used wherever such a value stands.

## Paths one after the other

A path is a text, and two texts are put together with a point between them.  That the keys of the
result are those of the one and then those of the other holds of any two texts, with points at their
ends or next to each other as well: the text with the point is cut where both are cut and at that
point, and no piece is lost, since there is one more piece than points (`Path.keys_join`).  Only the
empty path is different.  It stands for no key at all, where the cut text has one empty piece, so
next to it there is no point.
-/

namespace Automation

namespace Path

/-- One path and then another; the empty path adds nothing. -/
def join (p q : String) : String :=
  if p.isEmpty then q else if q.isEmpty then p else p ++ "." ++ q

/-- There is always a piece. -/
theorem cut_ne_nil (mark : Char) (cs : List Char) : cut mark cs ≠ [] := by
  cases cs with
  | nil => exact List.cons_ne_nil _ _
  | cons c rest =>
    rw [cut]
    split
    · exact List.cons_ne_nil _ _
    · split <;> exact List.cons_ne_nil _ _

/-- At a mark the pieces of one text end and those of another begin. -/
theorem cut_append_mark (mark : Char) (xs ys : List Char) :
    cut mark (xs ++ mark :: ys) = cut mark xs ++ cut mark ys := by
  induction xs with
  | nil =>
    show (if mark = mark then [] :: cut mark ys else _) = _
    rw [if_pos rfl]
    rfl
  | cons c rest ih =>
    rw [List.cons_append, cut, cut, ih]
    by_cases hc : c = mark
    · rw [if_pos hc, if_pos hc, List.cons_append]
    · rw [if_neg hc, if_neg hc]
      -- the first piece goes on with this character, and there is a first piece
      cases hcut : cut mark rest with
      | nil => exact absurd hcut (cut_ne_nil mark rest)
      | cons piece more => rfl

theorem isEmpty_append_point (p q : String) : (p ++ "." ++ q).isEmpty = false := by
  rw [Bool.eq_false_iff, ne_eq, String.isEmpty_iff]
  intro h
  have hlength := congrArg String.length h
  simp at hlength

/-- The keys of one path and then another are those of the one and then those of the other. -/
theorem keys_join (p q : String) : keys (join p q) = keys p ++ keys q := by
  by_cases hp : p.isEmpty = true
  · rw [join, if_pos hp, keys, keys, if_pos hp, List.nil_append]
  · by_cases hq : q.isEmpty = true
    · rw [join, if_neg hp, if_pos hq, keys, keys, if_pos hq, List.append_nil]
    · have htext : (p ++ "." ++ q).toList = p.toList ++ '.' :: q.toList := by simp
      rw [join, if_neg hp, if_neg hq, keys, keys, keys, isEmpty_append_point, if_neg hp, if_neg hq,
        if_neg Bool.false_ne_true, pieces, htext, cut_append_mark, List.map_append]
      rfl

end Path

namespace Json

/-- Keys are followed one after another. -/
theorem follow?_append (v : Json) (first rest : List String) :
    v.follow? (first ++ rest) = (v.follow? first).bind fun w => w.follow? rest := by
  induction first generalizing v with
  | nil => rfl
  | cons key more ih =>
    rw [List.cons_append, follow?, follow?]
    cases v.member? key with
    | none => rfl
    | some w => exact ih w

/-- What two paths lead to. -/
theorem at?_join (v : Json) (p q : String) :
    v.at? (Path.join p q) = (v.at? p).bind fun w => w.at? q := by
  rw [at?, Path.keys_join, follow?_append]
  rfl

end Json

namespace Matcher

/-! ## Matchers with other paths -/

mutual

/-- A matcher with every path in it replaced. -/
def mapPaths (f : String → String) : Matcher → Matcher
  | .equals path value => .equals (f path) value
  | .present path => .present (f path)
  | .within path min max => .within (f path) min max
  | .all ms => .all (mapEachPaths f ms)
  | .any ms => .any (mapEachPaths f ms)
  | .negation m => .negation (m.mapPaths f)

/-- Matchers with every path in them replaced. -/
def mapEachPaths (f : String → String) : List Matcher → List Matcher
  | [] => []
  | m :: ms => m.mapPaths f :: mapEachPaths f ms

end

section MapPaths

variable {f : String → String} {v w : Json}

mutual

/-- A payload is all that its paths lead to: where the replaced paths lead to the same in one
payload as the paths in another, the answers are the same. -/
theorem accepts_mapPaths (h : ∀ q, v.at? (f q) = w.at? q) :
    ∀ m : Matcher, (m.mapPaths f).accepts v = m.accepts w
  | .equals path value => by rw [mapPaths, accepts, accepts, h]
  | .present path => by rw [mapPaths, accepts, accepts, h]
  | .within path min max => by rw [mapPaths, accepts, accepts, h]
  | .all ms => by rw [mapPaths, accepts, accepts, allAccept_mapEachPaths h ms]
  | .any ms => by rw [mapPaths, accepts, accepts, anyAccepts_mapEachPaths h ms]
  | .negation m => by rw [mapPaths, accepts, accepts, accepts_mapPaths h m]

theorem allAccept_mapEachPaths (h : ∀ q, v.at? (f q) = w.at? q) :
    ∀ ms : List Matcher, allAccept (mapEachPaths f ms) v = allAccept ms w
  | [] => by rw [mapEachPaths, allAccept, allAccept]
  | m :: ms => by
    rw [mapEachPaths, allAccept, allAccept, accepts_mapPaths h m, allAccept_mapEachPaths h ms]

theorem anyAccepts_mapEachPaths (h : ∀ q, v.at? (f q) = w.at? q) :
    ∀ ms : List Matcher, anyAccepts (mapEachPaths f ms) v = anyAccepts ms w
  | [] => by rw [mapEachPaths, anyAccepts, anyAccepts]
  | m :: ms => by
    rw [mapEachPaths, anyAccepts, anyAccepts, accepts_mapPaths h m, anyAccepts_mapEachPaths h ms]

end

end MapPaths

/-- A matcher with a path put in front of every path in it. -/
def under (p : String) (m : Matcher) : Matcher := m.mapPaths (Path.join p)

/-- **A matcher under a path.**  On a payload it answers what the matcher answers on the part of the
payload that the path leads to. -/
theorem accepts_under (p : String) (m : Matcher) {v w : Json} (h : v.at? p = some w) :
    (m.under p).accepts v = m.accepts w := by
  have hparts : ∀ q, v.at? (Path.join p q) = w.at? q := fun q => by
    rw [Json.at?_join, h, Option.bind_some]
  exact accepts_mapPaths hparts m

/-- A position as a payload has it, with an empty key in it. -/
def position : Json := .obj [("", .obj [("x", .int 3)]), ("y", .null)]

/-- A payload with a position under an empty key. -/
def moved : Json := .obj [("", .obj [("to", position)]), ("x", .int 9)]

/-- One way of each kind to look at a position; what it says of the whole of it is denied. -/
def atOrigin : Matcher :=
  .any [.all [.within ".x" (some 1) none, .negation (.present "y")], .equals "" (.int 0),
    .present ".x."]

/-- A path that begins with a point is put in front of paths that begin and end with one. -/
theorem accepts_under_moved :
    moved.at? ".to" = some position ∧ (atOrigin.under ".to").accepts moved = true ∧
      (atOrigin.under ".to").accepts moved = atOrigin.accepts position := by
  have hpart : moved.at? ".to" = some position := by rfl
  exact ⟨hpart, by decide +kernel, accepts_under ".to" atOrigin hpart⟩

end Matcher
end Automation
