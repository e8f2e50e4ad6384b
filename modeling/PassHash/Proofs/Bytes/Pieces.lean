import Mathlib.Data.List.Basic

/-!
# Pieces of Equal Length

A list that consists of pieces of equal length, one for every element of another list: where a piece
stands, and what happens to the pieces when two such lists are combined place by place.

## Main statements

- `Pieces.take_drop_flatMap`: a piece is found at its place
- `Pieces.zipWith_flatMap`: lists are combined piece by piece
-/

namespace PassHash

namespace Pieces

variable {α β : Type} {g : α → List β} {size : Nat}

theorem length_flatMap (hg : ∀ a, (g a).length = size) (as : List α) :
    (as.flatMap g).length = size * as.length := by
  induction as with
  | nil => simp
  | cons a as ih =>
    rw [List.flatMap_cons, List.length_append, hg, ih, List.length_cons, Nat.mul_succ, Nat.add_comm]

/-- One piece is what stands from its place on. -/
theorem take_drop_flatMap (hg : ∀ a, (g a).length = size) (as : List α) {k : Nat}
    (hk : k < as.length) : ((as.flatMap g).drop (size * k)).take size = g as[k] := by
  induction as generalizing k with
  | nil => simp at hk
  | cons a as ih =>
    cases k with
    | zero => simp [← hg a]
    | succ k =>
      have hstep : size * (k + 1) = (g a).length + size * k := by
        rw [hg, Nat.mul_succ, Nat.add_comm]
      rw [List.flatMap_cons, hstep, ← List.drop_drop, List.drop_left, List.getElem_cons_succ]
      exact ih (by simpa using hk)

/-- What combines two pieces combines two lists of pieces. -/
theorem zipWith_flatMap (hg : ∀ a, (g a).length = size) {f : β → β → β} {op : α → α → α}
    (hop : ∀ a b, List.zipWith f (g a) (g b) = g (op a b)) {as bs : List α}
    (h : as.length = bs.length) :
    List.zipWith f (as.flatMap g) (bs.flatMap g) = (List.zipWith op as bs).flatMap g := by
  induction as generalizing bs with
  | nil => simp
  | cons a as ih =>
    cases bs with
    | nil => simp at h
    | cons b bs =>
      rw [List.flatMap_cons, List.flatMap_cons, List.zipWith_append ((hg a).trans (hg b).symm), hop,
        ih (by simpa using h), List.zipWith_cons_cons, List.flatMap_cons]

end Pieces

end PassHash
