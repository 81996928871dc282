import Peak.Base.Ordered
import Peak.Base.Search

/-! Closed ranges under a comparison function, compared by position: ranges that
overlap compare equal. That is no equivalence, but on ranges that do not overlap
it is the order from left to right, for these and any further one. -/
namespace Ranges

open Std Ordered Search

/-- A range with both of its ends. -/
structure Range (α : Type*) where
  low : α
  high : α
deriving DecidableEq, Repr

variable {α : Type*} {cmp : α → α → Ordering} {x y z : Range α} {a : α} {xs : List (Range α)}

namespace Range

/-- The element lies in the range. -/
def Contains (cmp : α → α → Ordering) (x : Range α) (a : α) : Prop :=
  (cmp x.low a).isLE ∧ (cmp a x.high).isLE

instance (cmp : α → α → Ordering) (x : Range α) (a : α) : Decidable (x.Contains cmp a) :=
  inferInstanceAs (Decidable (_ ∧ _))

/-- The ends are in order. -/
def Proper (cmp : α → α → Ordering) (x : Range α) : Prop := (cmp x.low x.high).isLE

instance (cmp : α → α → Ordering) (x : Range α) : Decidable (x.Proper cmp) :=
  inferInstanceAs (Decidable (_ = _))

/-- No element lies in both ranges. -/
def Apart (cmp : α → α → Ordering) (x y : Range α) : Prop :=
  ∀ a, ¬ (x.Contains cmp a ∧ y.Contains cmp a)

end Range

/-- The position of one range relative to another, equal if they overlap. -/
def overlapCmp (cmp : α → α → Ordering) (x y : Range α) : Ordering :=
  if cmp x.high y.low = .lt then .lt else if cmp x.low y.high = .gt then .gt else .eq

theorem overlapCmp_lt : overlapCmp cmp x y = .lt ↔ cmp x.high y.low = .lt := by
  rw [overlapCmp]
  split_ifs with hLt hGt
  · exact ⟨fun _ => hLt, fun _ => rfl⟩
  · exact ⟨fun h => (by cases h), fun h => absurd h hLt⟩
  · exact ⟨fun h => (by cases h), fun h => absurd h hLt⟩

variable [TransCmp cmp]

/-- Between proper ranges the two ways of saying that one lies in front of the
other agree. -/
theorem overlapCmp_swap (hx : x.Proper cmp) (hy : y.Proper cmp) :
    overlapCmp cmp x y = .gt ↔ overlapCmp cmp y x = .lt := by
  rw [overlapCmp_lt, overlapCmp]
  constructor
  · intro h
    split_ifs at h with hLt hGt
    exact OrientedCmp.lt_of_gt hGt
  · intro h
    -- from low to high through both ranges
    have hLow : cmp y.low x.high = .lt :=
      TransCmp.lt_of_isLE_of_lt hy (TransCmp.lt_of_lt_of_isLE h hx)
    rw [if_neg (OrientedCmp.not_lt_of_lt hLow), if_pos (OrientedCmp.gt_of_lt h)]

/-- Proper ranges compare equal exactly if they have an element in common. -/
theorem overlapCmp_eq (hx : x.Proper cmp) (hy : y.Proper cmp) :
    overlapCmp cmp x y = .eq ↔ ¬ x.Apart cmp y := by
  constructor
  · intro h hApart
    have hNotLt : cmp x.high y.low ≠ .lt := fun hLt => by
      rw [overlapCmp_lt.mpr hLt] at h
      cases h
    have hNotGt : cmp y.high x.low ≠ .lt := fun hLt => by
      rw [(overlapCmp_swap hx hy).mpr (overlapCmp_lt.mpr hLt)] at h
      cases h
    have hFirst : (cmp y.low x.high).isLE := by
      by_contra hNot
      exact hNotLt (OrientedCmp.lt_of_not_isLE hNot)
    have hSecond : (cmp x.low y.high).isLE := by
      by_contra hNot
      exact hNotGt (OrientedCmp.lt_of_not_isLE hNot)
    -- the larger one of the two lower ends is in both
    by_cases hLow : (cmp x.low y.low).isLE
    · exact hApart y.low ⟨⟨hLow, hFirst⟩, ⟨by simp [ReflCmp.compare_self], hy⟩⟩
    · have hLow' : (cmp y.low x.low).isLE := by
        rw [OrientedCmp.lt_of_not_isLE hLow]
        rfl
      exact hApart x.low ⟨⟨by simp [ReflCmp.compare_self], hx⟩, ⟨hLow', hSecond⟩⟩
  · intro hOverlap
    cases h : overlapCmp cmp x y with
    | eq => rfl
    | lt =>
        refine absurd (fun a ha => ?_) hOverlap
        have hLess := TransCmp.lt_of_isLE_of_lt ha.1.2 (overlapCmp_lt.mp h)
        exact OrientedCmp.not_isLE_of_lt hLess ha.2.1
    | gt =>
        refine absurd (fun a ha => ?_) hOverlap
        have hLess := TransCmp.lt_of_isLE_of_lt ha.2.2
          (overlapCmp_lt.mp ((overlapCmp_swap hx hy).mp h))
        exact OrientedCmp.not_isLE_of_lt hLess ha.1.1

/-- A single element as a range meets the ranges that it lies in. -/
theorem overlapCmp_point : overlapCmp cmp ⟨a, a⟩ y = .eq ↔ y.Contains cmp a := by
  rw [overlapCmp]
  constructor
  · intro h
    split_ifs at h with hLt hGt
    refine ⟨?_, ?_⟩
    · by_contra hNot
      exact hLt (OrientedCmp.lt_of_not_isLE hNot)
    · exact Ordering.isLE_iff_ne_gt.mpr hGt
  · rintro ⟨hLow, hHigh⟩
    rw [if_neg (OrientedCmp.not_lt_of_isLE hLow), if_neg (Ordering.isLE_iff_ne_gt.mp hHigh)]

/-- Position is transitive between proper ranges. -/
theorem overlapCmp_trans (hy : y.Proper cmp) (hxy : overlapCmp cmp x y = .lt)
    (hyz : overlapCmp cmp y z = .lt) : overlapCmp cmp x z = .lt := by
  rw [overlapCmp_lt] at *
  exact TransCmp.lt_trans (TransCmp.lt_of_lt_of_isLE hxy hy) hyz

/-- Ranges that follow one another are in order for any further range, although
that may overlap several of them. -/
theorem partitioned (hIncreasing : Increasing (overlapCmp cmp) xs) (hx : x.Proper cmp)
    (hProper : ∀ y ∈ xs, y.Proper cmp) : Partitioned (overlapCmp cmp x) xs := by
  apply hIncreasing.imp_of_mem
  intro y z hy hz hLess
  constructor
  · intro hLt
    exact overlapCmp_trans (hProper y hy) hLt hLess
  · intro hGt
    have hBack := (overlapCmp_swap hx (hProper z hz)).mp hGt
    exact (overlapCmp_swap hx (hProper y hy)).mpr (overlapCmp_trans (hProper z hz) hLess hBack)

/-- A range that goes between the ones in front of it and the ones behind it
keeps them in order. -/
theorem increasing_insert {front back : List (Range α)}
    (hIncreasing : Increasing (overlapCmp cmp) (front ++ back)) (hx : x.Proper cmp)
    (hProper : ∀ y ∈ front, y.Proper cmp) (hFront : ∀ y ∈ front, overlapCmp cmp x y = .gt)
    (hBack : ∀ y ∈ back, overlapCmp cmp x y = .lt) :
    Increasing (overlapCmp cmp) (front ++ x :: back) := by
  obtain ⟨hLeft, hRight, hCross⟩ := List.pairwise_append.mp hIncreasing
  refine List.pairwise_append.mpr ⟨hLeft, List.pairwise_cons.mpr ⟨hBack, hRight⟩, ?_⟩
  intro y hy z hz
  rcases List.mem_cons.mp hz with rfl | hz
  · exact (overlapCmp_swap hx (hProper y hy)).mp (hFront y hy)
  · exact hCross y hy z hz

end Ranges
