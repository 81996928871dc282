import Mathlib.Data.List.Pairwise
import Mathlib.Tactic.Common

/-! Ranges of bytes that are kept in a circular buffer in the order in which
they were reserved. The writer either is ahead of the reader, and all ranges lie
between the two, or has wrapped around, and the younger ranges lie before it. -/
namespace Ring

structure Range where
  start : Nat
  room : Nat
deriving DecidableEq, Repr

/-- The position behind a range. -/
def Range.stop (r : Range) : Nat := r.start + r.room

/-- The two ranges have no byte in common. -/
def Range.Apart (r s : Range) : Prop := r.stop ≤ s.start ∨ s.stop ≤ r.start

theorem Range.Apart.symm {r s : Range} (h : r.Apart s) : s.Apart r := Or.symm h

/-- The ranges follow one another between two positions. -/
def Ascends : Nat → List Range → Nat → Prop
  | low, [], high => low ≤ high
  | low, r :: rs, high => low ≤ r.start ∧ Ascends r.stop rs high

/-- The position behind the last range, or the given one. -/
def stopOf : Nat → List Range → Nat
  | low, [] => low
  | _, r :: rs => stopOf r.stop rs

variable {low high read write size k : Nat} {r : Range} {rs rs' front rest : List Range}

theorem le_stop (r : Range) : r.start ≤ r.stop := Nat.le_add_right _ _

theorem ascends_append : Ascends low (rs ++ rs') high ↔
    Ascends low rs (stopOf low rs) ∧ Ascends (stopOf low rs) rs' high := by
  induction rs generalizing low with
  | nil => simp [Ascends, stopOf]
  | cons r rs ih => simp only [List.cons_append, Ascends, stopOf, ih, and_assoc]

theorem Ascends.le (h : Ascends low rs high) : low ≤ high := by
  induction rs generalizing low with
  | nil => exact h
  | cons r rs ih =>
      have := ih h.2
      have := h.1
      have := le_stop r
      omega

theorem Ascends.mem (h : Ascends low rs high) (hr : r ∈ rs) : low ≤ r.start ∧ r.stop ≤ high := by
  induction rs generalizing low with
  | nil => simp at hr
  | cons s rs ih =>
      rcases List.mem_cons.mp hr with rfl | hr
      · exact ⟨h.1, Ascends.le h.2⟩
      · have := ih h.2 hr
        have := h.1
        have := le_stop s
        omega

theorem Ascends.apart (h : Ascends low rs high) : rs.Pairwise Range.Apart := by
  induction rs generalizing low with
  | nil => exact List.Pairwise.nil
  | cons r rs ih =>
      exact List.pairwise_cons.mpr ⟨fun s hs => .inl (Ascends.mem h.2 hs).1, ih h.2⟩

theorem Ascends.stop_le (h : Ascends low rs high) : stopOf low rs ≤ high := by
  have hSplit := h
  rw [← List.append_nil rs, ascends_append] at hSplit
  exact hSplit.2

theorem Ascends.stop (h : Ascends low rs high) : Ascends low rs (stopOf low rs) := by
  rw [← List.append_nil rs, ascends_append] at h
  exact h.1

/-- One more range at the end. -/
theorem Ascends.snoc (h : Ascends low rs high) : Ascends low (rs ++ [⟨high, k⟩]) (high + k) :=
  ascends_append.mpr ⟨h.stop, h.stop_le, Nat.le_refl _⟩

theorem stopOf_append (low : Nat) (rs rs' : List Range) :
    stopOf low (rs ++ rs') = stopOf (stopOf low rs) rs' := by
  induction rs generalizing low with
  | nil => rfl
  | cons r rs ih => exact ih r.stop

theorem stopOf_cons (low low' : Nat) (hNe : rs ≠ []) : stopOf low rs = stopOf low' rs := by
  cases rs with
  | nil => exact absurd rfl hNe
  | cons r rs => rfl

/-- How the live ranges lie in a buffer of `size` bytes. -/
inductive Layout (read write size : Nat) : List Range → Prop where
  | ahead {rs : List Range} (hLt : write < size) (h : Ascends read rs write) :
      Layout read write size rs
  | behind {rs young : List Range} {stop first : Nat} (hBehind : write < read) (hStop : stop < size)
      (hOld : Ascends read rs stop) (hYoung : Ascends 0 (⟨0, first + 1⟩ :: young) write) :
      Layout read write size (rs ++ ⟨0, first + 1⟩ :: young)

theorem Layout.lt_size (h : Layout read write size rs) : write < size ∧ read < size := by
  cases h with
  | ahead hLt h =>
      have := h.le
      omega
  | behind hBehind hStop hOld hYoung =>
      have := hOld.le
      omega

/-- Every live range lies in the buffer. -/
theorem Layout.inside (h : Layout read write size rs) (hr : r ∈ rs) : r.stop ≤ size := by
  cases h with
  | ahead hLt h =>
      have := (h.mem hr).2
      omega
  | behind hBehind hStop hOld hYoung =>
      have := hOld.le
      rcases List.mem_append.mp hr with hr | hr
      · have := (hOld.mem hr).2
        omega
      · have := (hYoung.mem hr).2
        omega

theorem Ascends.length_le (h : Ascends low rs high) (hPos : ∀ r ∈ rs, 0 < r.room) :
    low + rs.length ≤ high := by
  induction rs generalizing low with
  | nil => exact h
  | cons r rs ih =>
      have hRest := ih h.2 fun r hr => hPos r (List.mem_cons_of_mem _ hr)
      have hRoom := hPos r List.mem_cons_self
      have hStart := h.1
      simp only [Range.stop] at hRest
      simp only [List.length_cons]
      omega

/-- There are no more live ranges than bytes. -/
theorem Layout.length_le (h : Layout read write size rs) (hPos : ∀ r ∈ rs, 0 < r.room) :
    rs.length ≤ size := by
  cases h with
  | ahead hLt h =>
      have := h.length_le hPos
      omega
  | behind hBehind hStop hOld hYoung =>
      have hOldLe := hOld.length_le fun r hr => hPos r (List.mem_append_left _ hr)
      have hYoungLe := hYoung.length_le fun r hr => hPos r (List.mem_append_right _ hr)
      rw [List.length_append]
      omega

/-- No two live ranges overlap. -/
theorem Layout.apart (h : Layout read write size rs) : rs.Pairwise Range.Apart := by
  cases h with
  | ahead hLt h => exact h.apart
  | behind hBehind hStop hOld hYoung =>
      refine List.pairwise_append.mpr ⟨hOld.apart, hYoung.apart, fun a ha b hb => .inr ?_⟩
      have := (hOld.mem ha).1
      have := (hYoung.mem hb).2
      omega

/-- A reservation right at the writer, before the end of the buffer and before
a reader that is in front. -/
theorem Layout.reserve (h : Layout read write size rs) (hEnd : write + k < size)
    (hFree : write < read → write + k < read) :
    Layout read (write + k) size (rs ++ [⟨write, k⟩]) := by
  cases h with
  | ahead hLt h => exact .ahead hEnd h.snoc
  | behind hBehind hStop hOld hYoung =>
      rw [List.append_assoc, List.cons_append]
      exact .behind (hFree hBehind) hStop hOld hYoung.snoc

/-- A reservation at the start of the buffer, before the reader, by a writer
that is ahead. -/
theorem Layout.wrap (h : Layout read write size rs) (hAhead : read ≤ write) (hPos : 0 < k)
    (hFree : k < read) : Layout read k size (rs ++ [⟨0, k⟩]) := by
  cases h with
  | ahead hLt h =>
      obtain ⟨first, rfl⟩ : ∃ first, k = first + 1 := ⟨k - 1, by omega⟩
      exact .behind hFree hLt h ⟨Nat.le_refl _, by simp [Range.stop, Ascends]⟩
  | behind hBehind hStop hOld hYoung => omega

/-- Giving up the oldest ranges moves the reader behind the last of them. -/
theorem Layout.reclaim (h : Layout read write size (front ++ rest)) (hNe : front ≠ []) :
    Layout (stopOf 0 front) write size rest := by
  generalize hAll : front ++ rest = all at h
  cases h with
  | ahead hLt h =>
      subst hAll
      rw [stopOf_cons 0 read hNe]
      exact .ahead hLt (ascends_append.mp h).2
  | @behind old young stop first hBehind hStop hOld hYoung =>
      rcases List.append_eq_append_iff.mp hAll with ⟨kept, rfl, rfl⟩ | ⟨gone, rfl, hRest⟩
      · rw [stopOf_cons 0 read hNe]
        have hSplit := ascends_append.mp hOld
        have := hSplit.1.le
        exact .behind (by omega) hStop hSplit.2 hYoung
      · cases gone with
        | nil =>
            obtain rfl := hRest
            rw [List.append_nil] at hNe ⊢
            rw [stopOf_cons 0 read hNe]
            have hStopLe := hOld.stop_le
            have := hOld.stop.le
            have hOne : Layout (stopOf read old) write size ([] ++ ⟨0, first + 1⟩ :: young) :=
              .behind (by omega) (show stopOf read old < size by omega) (Nat.le_refl _) hYoung
            exact hOne
        | cons g gone =>
            have hLt := hOld.le
            rw [hRest] at hYoung
            have hSplit := ascends_append.mp hYoung
            rw [stopOf_append]
            exact .ahead (by omega) hSplit.2

/-- A writer that has wrapped around leaves the first byte to a live range. -/
theorem Layout.first_used (h : Layout read write size rs) (hBehind : write < read) :
    ∃ r ∈ rs, r.start = 0 ∧ 0 < r.room := by
  cases h with
  | ahead hLt h =>
      have := h.le
      omega
  | @behind old young stop first hBehind hStop hOld hYoung =>
      exact ⟨⟨0, first + 1⟩, List.mem_append_right _ List.mem_cons_self, rfl, Nat.succ_pos _⟩

end Ring
