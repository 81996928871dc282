import Mathlib.Data.List.Basic
import Mathlib.Tactic.Common

/-! Lists that increase strictly under a comparison function. Elements that
compare equal need not be the same. -/
namespace Ordered

open Std

variable {α : Type*} {cmp : α → α → Ordering} {x y z : α} {l r xs : List α}

/-- Every element is below the ones behind it. -/
def Increasing (cmp : α → α → Ordering) (xs : List α) : Prop :=
  xs.Pairwise fun y z => cmp y z = .lt

/-- Of two elements one is in front, if they are not the same. -/
theorem Increasing.cases (h : Increasing cmp xs) (hy : y ∈ xs) (hz : z ∈ xs) :
    y = z ∨ cmp y z = .lt ∨ cmp z y = .lt := by
  obtain ⟨i, hi, rfl⟩ := List.mem_iff_getElem.mp hy
  obtain ⟨j, hj, rfl⟩ := List.mem_iff_getElem.mp hz
  rcases Nat.lt_trichotomy i j with hLess | rfl | hLess
  · exact .inr (.inl (List.pairwise_iff_getElem.mp h i j hi hj hLess))
  · exact .inl rfl
  · exact .inr (.inr (List.pairwise_iff_getElem.mp h j i hj hi hLess))

/-- Putting an element between smaller and larger ones keeps the order. -/
theorem increasing_insert [TransCmp cmp] (h : Increasing cmp (l ++ r))
    (hBelow : ∀ y ∈ l, cmp x y = .gt) (hAbove : ∀ y ∈ r, cmp x y = .lt) :
    Increasing cmp (l ++ x :: r) := by
  obtain ⟨hLeft, hRight, hCross⟩ := List.pairwise_append.mp h
  refine List.pairwise_append.mpr ⟨hLeft, List.pairwise_cons.mpr ⟨hAbove, hRight⟩, ?_⟩
  intro y hy z hz
  rcases List.mem_cons.mp hz with rfl | hz
  · exact OrientedCmp.lt_of_gt (hBelow y hy)
  · exact hCross y hy z hz

/-- Replacing an element by one that compares equal keeps the order. -/
theorem increasing_replace [TransCmp cmp] (h : Increasing cmp (l ++ y :: r))
    (hEq : cmp y z = .eq) : Increasing cmp (l ++ z :: r) := by
  obtain ⟨hLeft, hRight, hCross⟩ := List.pairwise_append.mp h
  obtain ⟨hAbove, hRest⟩ := List.pairwise_cons.mp hRight
  refine List.pairwise_append.mpr ⟨hLeft, List.pairwise_cons.mpr ⟨?_, hRest⟩, ?_⟩
  · intro w hw
    exact TransCmp.lt_of_eq_of_lt (OrientedCmp.eq_symm hEq) (hAbove w hw)
  · intro v hv w hw
    rcases List.mem_cons.mp hw with rfl | hw
    · exact TransCmp.lt_of_lt_of_eq (hCross v hv y List.mem_cons_self) hEq
    · exact hCross v hv w (List.mem_cons_of_mem y hw)

/-- What is below the first element is below all of them. -/
theorem lt_of_lt_head [TransCmp cmp] (h : Increasing cmp (y :: r)) (hLt : cmp x y = .lt) :
    ∀ z ∈ y :: r, cmp x z = .lt := by
  intro z hz
  rcases List.mem_cons.mp hz with rfl | hz
  · exact hLt
  · exact TransCmp.lt_trans hLt (List.rel_of_pairwise_cons h hz)

/-- What is above the last element is above all of them. -/
theorem gt_of_gt_last [TransCmp cmp] (h : Increasing cmp (l ++ [y])) (hGt : cmp x y = .gt) :
    ∀ z ∈ l ++ [y], cmp x z = .gt := by
  intro z hz
  rcases List.mem_append.mp hz with hz | hz
  · have hLess := (List.pairwise_append.mp h).2.2 z hz y List.mem_cons_self
    exact TransCmp.gt_trans hGt (OrientedCmp.gt_of_lt hLess)
  · exact List.mem_singleton.mp hz ▸ hGt

/-- Searching an increasing list for an element that is there. -/
theorem find_of_eq [TransCmp cmp] (h : Increasing cmp (l ++ y :: r)) (hEq : cmp x y = .eq) :
    (l ++ y :: r).find? (fun z => cmp x z == .eq) = some y := by
  have hBelow : l.find? (fun z => cmp x z == .eq) = none := by
    rw [List.find?_eq_none]
    intro z hz
    have hLess := (List.pairwise_append.mp h).2.2 z hz y List.mem_cons_self
    rw [TransCmp.gt_of_eq_of_gt hEq (OrientedCmp.gt_of_lt hLess)]
    decide
  rw [List.find?_append, hBelow, Option.none_or, List.find?_cons_of_pos (by rw [hEq]; rfl)]

/-- Searching a list of smaller and larger elements. -/
theorem find_of_ne (h : ∀ y ∈ xs, cmp x y ≠ .eq) : xs.find? (fun z => cmp x z == .eq) = none := by
  rw [List.find?_eq_none]
  intro y hy
  simpa using h y hy

/-- Searching passes by an element that does not compare equal. -/
theorem find_skip (h : cmp x z ≠ .eq) :
    (l ++ z :: r).find? (fun y => cmp x y == .eq) = (l ++ r).find? (fun y => cmp x y == .eq) := by
  have hSkip : (z :: r).find? (fun y => cmp x y == .eq) = r.find? (fun y => cmp x y == .eq) :=
    List.find?_cons_of_neg (by simpa using h)
  rw [List.find?_append, List.find?_append, hSkip]

end Ordered
