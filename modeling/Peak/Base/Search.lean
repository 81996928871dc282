import Mathlib.Data.List.Basic
import Mathlib.Tactic.Common

/-! Binary search with a comparison that need not be an order. It is enough that
the elements below the probe come first and those above it last. -/
namespace Search

variable {α : Type*} {cmp : α → Ordering} {xs : List α} {base lim i : Nat} {x : α}

/-- What the probe is compared greater than stands in front of what it is
compared equal to, and that in front of what it is compared less than. -/
def Partitioned (cmp : α → Ordering) (xs : List α) : Prop :=
  xs.Pairwise fun x y => (cmp x = .lt → cmp y = .lt) ∧ (cmp y = .gt → cmp x = .gt)

/-- The loop of `bsearch` with `lim` elements left, from `base` on. -/
def bsearchFrom (cmp : α → Ordering) (xs : List α) (base lim : Nat) : Option α :=
  if lim = 0 then none
  else
    match xs[base + lim / 2]? with
    | none => none
    | some x =>
        match cmp x with
        | .eq => some x
        | .gt => bsearchFrom cmp xs (base + lim / 2 + 1) ((lim - 1) / 2)
        | .lt => bsearchFrom cmp xs base (lim / 2)
termination_by lim
decreasing_by
  · omega
  · omega

/-- `bsearch` on the first `count` elements, with the probe on the left of the
comparison. -/
def bsearch (cmp : α → Ordering) (xs : List α) (count : Nat) : Option α :=
  bsearchFrom cmp xs 0 count

/-- What is found is there and compares equal. -/
theorem bsearchFrom_some (h : bsearchFrom cmp xs base lim = some x) : x ∈ xs ∧ cmp x = .eq := by
  induction lim using Nat.strongRecOn generalizing base with
  | _ lim ih =>
      rw [bsearchFrom] at h
      split_ifs at h with hLim
      cases hAt : xs[base + lim / 2]? with
      | none => simp only [hAt, reduceCtorEq] at h
      | some y =>
          simp only [hAt] at h
          cases hCmp : cmp y with
          | lt =>
              simp only [hCmp] at h
              exact ih (lim / 2) (by omega) h
          | eq =>
              simp only [hCmp, Option.some.injEq] at h
              subst h
              exact ⟨List.mem_of_getElem? hAt, hCmp⟩
          | gt =>
              simp only [hCmp] at h
              exact ih ((lim - 1) / 2) (by omega) h

/-- In front of an element that the probe is above it is above all. -/
theorem Partitioned.gt_of_le {j : Nat} (h : Partitioned cmp xs) (hij : i ≤ j) (hj : j < xs.length)
    (hGt : cmp xs[j] = .gt) : cmp xs[i] = .gt := by
  rcases Nat.lt_or_eq_of_le hij with hLess | rfl
  · exact (List.pairwise_iff_getElem.mp h i j _ hj hLess).2 hGt
  · exact hGt

/-- Behind an element that the probe is below it is below all. -/
theorem Partitioned.lt_of_le {j : Nat} (h : Partitioned cmp xs) (hij : i ≤ j) (hj : j < xs.length)
    (hLt : cmp xs[i] = .lt) : cmp xs[j] = .lt := by
  rcases Nat.lt_or_eq_of_le hij with hLess | rfl
  · exact (List.pairwise_iff_getElem.mp h i j _ hj hLess).1 hLt
  · exact hLt

/-- If nothing is found, nothing in the part that was left compares equal. -/
theorem bsearchFrom_none (hPart : Partitioned cmp xs) (hEnd : base + lim ≤ xs.length)
    (h : bsearchFrom cmp xs base lim = none) (hLow : base ≤ i) (hHigh : i < base + lim) :
    cmp xs[i] ≠ .eq := by
  induction lim using Nat.strongRecOn generalizing base with
  | _ lim ih =>
      have hMiddle : base + lim / 2 < xs.length := by omega
      rw [bsearchFrom, if_neg (by omega), List.getElem?_eq_getElem hMiddle] at h
      dsimp only at h
      intro hEq
      cases hCmp : cmp xs[base + lim / 2] with
      | lt =>
          simp only [hCmp] at h
          -- the middle is above the probe, so the match is in front of it
          have hFront : i < base + lim / 2 := by
            by_contra hBehind
            have hLt := hPart.lt_of_le (Nat.le_of_not_lt hBehind) (by omega) hCmp
            rw [hEq] at hLt
            cases hLt
          exact ih (lim / 2) (by omega) (by omega) h hLow hFront hEq
      | eq => simp only [hCmp, reduceCtorEq] at h
      | gt =>
          simp only [hCmp] at h
          have hBehind : base + lim / 2 < i := by
            by_contra hFront
            have hGt := hPart.gt_of_le (Nat.le_of_not_lt hFront) hMiddle hCmp
            rw [hEq] at hGt
            cases hGt
          exact ih ((lim - 1) / 2) (by omega) (by omega) h (by omega) (by omega) hEq

/-- A search of all elements finds one that compares equal, if there is one. -/
theorem bsearch_none_iff (hPart : Partitioned cmp xs) :
    bsearch cmp xs xs.length = none ↔ ∀ x ∈ xs, cmp x ≠ .eq := by
  constructor
  · intro h x hMem
    obtain ⟨i, hi, rfl⟩ := List.mem_iff_getElem.mp hMem
    exact bsearchFrom_none hPart (by omega) h (Nat.zero_le i) (by omega)
  · intro h
    cases hFound : bsearch cmp xs xs.length with
    | none => rfl
    | some x =>
        obtain ⟨hMem, hEq⟩ := bsearchFrom_some hFound
        exact absurd hEq (h x hMem)

/-- What it finds is the only element that compares equal, if there is just one. -/
theorem bsearch_eq_some (hPart : Partitioned cmp xs) (hMem : x ∈ xs) (hEq : cmp x = .eq)
    (hUnique : ∀ y ∈ xs, cmp y = .eq → y = x) : bsearch cmp xs xs.length = some x := by
  cases hFound : bsearch cmp xs xs.length with
  | none => exact absurd hEq ((bsearch_none_iff hPart).mp hFound x hMem)
  | some y =>
      obtain ⟨hThere, hMeets⟩ := bsearchFrom_some hFound
      rw [hUnique y hThere hMeets]

end Search
