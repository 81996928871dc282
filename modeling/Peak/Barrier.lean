import Mathlib.Algebra.Group.Nat.Defs
import Mathlib.Data.Finset.Card
import Peak.Base.Run

/-! Barriers with a changing number of threads, translated from
`include/peak_sys.h`. A call that holds the mutex is one step. A wait that goes
to sleep is two: the second follows the broadcast that wakes it. -/
namespace Peak

/-- The counters of `barrier_t`, of type `unsigned int`. -/
structure Barrier where
  threads : Nat
  count : Nat
deriving DecidableEq

namespace Barrier

/-- `barrier_init`: one less than no thread. -/
def init : Barrier where
  threads := 2 ^ 32 - 1
  count := 0

/-- `barrier_wait` up to its result, or up to the sleep where there is none. The
sum is of type `unsigned int` and is returned as an `int`. -/
def wait (self : Barrier) : Option Int × Barrier :=
  if self.count < self.threads then (none, { self with count := (self.count + 1) % 2 ^ 32 })
  else (some (Int.bmod ((self.threads + 1) % 2 ^ 32 : Nat) (2 ^ 32)), self)

/-- `barrier_wake`, and whether it broadcasts. -/
def wake (self : Barrier) : Bool × Barrier :=
  if self.count = self.threads then (true, { self with count := 0 }) else (false, self)

/-- `barrier_join`. -/
def join (self : Barrier) : Int × Barrier :=
  if self.count = 0 then (0, { self with threads := (self.threads + 1) % 2 ^ 32 }) else (1, self)

/-- `barrier_leave`. -/
def leave (self : Barrier) : Int × Barrier :=
  if self.count = 0 then
    (0, { self with threads := if self.threads = 0 then 2 ^ 32 - 1 else self.threads - 1 })
  else (1, self)

/-- The counter of a number of threads. -/
def Counts (self : Barrier) (n : Nat) : Prop := self.threads = (2 ^ 32 - 1 + n) % 2 ^ 32

variable {self : Barrier} {n : Nat}

theorem counts_init : init.Counts 0 := rfl

theorem counts_join (hCounts : self.Counts n) (hIdle : self.count = 0) :
    self.join.2.Counts (n + 1) := by
  simp only [Counts, join, if_pos hIdle] at hCounts ⊢
  omega

theorem counts_leave (hCounts : self.Counts (n + 1)) (hIdle : self.count = 0) :
    self.leave.2.Counts n := by
  simp only [Counts, leave, if_pos hIdle] at hCounts ⊢
  split <;> omega

/-- With threads that joined, the counter is one less. -/
theorem Counts.threads_eq (hCounts : self.Counts (n + 1)) (hFew : n < 2 ^ 31) : self.threads = n := by
  simp only [Counts] at hCounts
  omega

/-- A wait has no result while others are missing. -/
theorem wait_of_lt (hMissing : self.count < self.threads) (hFew : self.threads < 2 ^ 31) :
    self.wait = (none, { self with count := self.count + 1 }) := by
  rw [wait, if_pos hMissing, Nat.mod_eq_of_lt]
  omega

/-- The last thread to wait gets the number of threads. -/
theorem wait_of_le (hLast : self.threads ≤ self.count) (hFew : self.threads + 1 < 2 ^ 31) :
    self.wait = (some ((self.threads + 1 : Nat) : Int), self) := by
  rw [wait, if_neg (Nat.not_lt.mpr hLast), Nat.mod_eq_of_lt (by omega),
    Int.bmod_eq_of_le_mul_two (by omega) (by omega)]

variable {θ : Type*} [DecidableEq θ]

/-- A barrier and the threads that use it: those that joined and did not leave,
those asleep in a wait, those a broadcast reached that did not return yet, and
those that a wait gave a non-zero result and that did not wake the others since. -/
structure System (θ : Type*) where
  barrier : Barrier
  joined : Finset θ
  blocked : Finset θ
  woken : Finset θ
  holding : Finset θ

inductive Action (θ : Type*) where
  | join (t : θ)
  | leave (t : θ)
  | wait (t : θ)
  | wake (t : θ)
  | resume (t : θ)

namespace System

/-- A barrier just initialised. -/
def start : System θ where
  barrier := init
  joined := ∅
  blocked := ∅
  woken := ∅
  holding := ∅

/-- What one step does. -/
def step (s : System θ) : Action θ → Except Empty (System θ)
  | .join t => .ok { s with
      barrier := s.barrier.join.2
      joined := if s.barrier.join.1 = 0 then insert t s.joined else s.joined }
  | .leave t => .ok { s with
      barrier := s.barrier.leave.2
      joined := if s.barrier.leave.1 = 0 then s.joined.erase t else s.joined }
  | .wait t => .ok { s with
      barrier := s.barrier.wait.2
      blocked := if s.barrier.wait.1 = none then insert t s.blocked else s.blocked
      holding := if s.barrier.wait.1.getD 0 ≠ 0 then insert t s.holding else s.holding }
  | .wake t => .ok { s with
      barrier := s.barrier.wake.2
      blocked := if s.barrier.wake.1 then ∅ else s.blocked
      woken := if s.barrier.wake.1 then s.woken ∪ s.blocked else s.woken
      holding := s.holding.erase t }
  | .resume t => .ok { s with woken := s.woken.erase t }

/-- The thread is in no wait, so it can make a call. -/
def Free (s : System θ) (t : θ) : Prop := t ∉ s.blocked ∧ t ∉ s.woken

/-- The documented use: a thread joins once before it leaves, only threads that
joined wait or leave, and only a thread that a wait gave a non-zero result wakes
the others. -/
def Documented (s : System θ) : Action θ → Prop
  | .join t => t ∉ s.joined ∧ s.Free t
  | .leave t => t ∈ s.joined ∧ s.Free t
  | .wait t => t ∈ s.joined ∧ s.Free t
  | .wake t => t ∈ s.holding ∧ s.Free t
  | .resume t => t ∈ s.woken

instance (s : System θ) (t : θ) : Decidable (s.Free t) := inferInstanceAs (Decidable (_ ∧ _))

instance (s : System θ) (a : Action θ) : Decidable (s.Documented a) :=
  match a with
  | .join _ => inferInstanceAs (Decidable (_ ∧ _))
  | .leave _ => inferInstanceAs (Decidable (_ ∧ _))
  | .wait _ => inferInstanceAs (Decidable (_ ∧ _))
  | .wake _ => inferInstanceAs (Decidable (_ ∧ _))
  | .resume t => inferInstanceAs (Decidable (t ∈ s.woken))

/-- No other thread joins one that holds a barrier on which none waits, and no
more threads join than an `int` counts. -/
def Spared (s : System θ) : Action θ → Prop
  | .join t => (∀ u ∈ s.holding, u ≠ t → s.barrier.count ≠ 0) ∧ s.joined.card + 1 < 2 ^ 31
  | _ => True

instance (s : System θ) (a : Action θ) : Decidable (s.Spared a) :=
  match a with
  | .join _ => inferInstanceAs (Decidable (_ ∧ _))
  | .leave _ | .wait _ | .wake _ | .resume _ => inferInstanceAs (Decidable True)

/-- While a thread holds the barrier, every other thread that joined is asleep
in a wait. No second thread holds the barrier, and a wait that returns at once
returns the number of threads that joined. -/
structure Exclusive (s : System θ) : Prop where
  others : ∀ t ∈ s.holding, ∀ u ∈ s.joined, u ≠ t → u ∈ s.blocked
  single : ∀ t ∈ s.holding, ∀ u ∈ s.holding, u = t
  result : ∀ t, s.Documented (.wait t) → ∀ n, s.barrier.wait.1 = some n → n = s.joined.card

/-- How the counters and the threads go together. -/
structure Consistent (s : System θ) : Prop where
  threads : s.barrier.Counts s.joined.card
  count : s.barrier.count = s.blocked.card
  few : s.joined.card < 2 ^ 31
  blocked : s.blocked ⊆ s.joined
  woken : s.woken ⊆ s.joined
  asleep : Disjoint s.blocked s.woken
  holder : ∀ t ∈ s.holding, s.joined.erase t = s.blocked ∧ s.holding = {t}

variable {s s' : System θ} {a : Action θ} {t : θ}

theorem consistent_start : Consistent (start : System θ) where
  threads := counts_init
  count := rfl
  few := by simp [start]
  blocked := Finset.empty_subset _
  woken := Finset.empty_subset _
  asleep := Finset.disjoint_empty_left _
  holder := by simp [start]

/-- Joining counts one more thread, unless some thread waits. -/
theorem Consistent.join (hState : Consistent s) (hNew : t ∉ s.joined)
    (hSpared : s.Spared (.join t)) (hStep : step s (.join t) = .ok s') : Consistent s' := by
  cases hStep
  obtain ⟨hThreads, hCount, hFew, hBlocked, hWoken, hAsleep, hHolder⟩ := hState
  by_cases hIdle : s.barrier.count = 0
  · have hAnswer : s.barrier.join.1 = 0 := by rw [Barrier.join, if_pos hIdle]
    have hKept : s.barrier.join.2.count = s.barrier.count := by rw [Barrier.join, if_pos hIdle]
    rw [hAnswer, if_pos rfl]
    refine ⟨?_, hKept.trans hCount, ?_, hBlocked.trans (Finset.subset_insert t s.joined),
      hWoken.trans (Finset.subset_insert t s.joined), hAsleep, ?_⟩
    · rw [Finset.card_insert_of_notMem hNew]
      exact counts_join hThreads hIdle
    · rw [Finset.card_insert_of_notMem hNew]
      exact hSpared.2
    · intro u hu
      obtain ⟨hOthers, hOnly⟩ := hHolder u hu
      -- only the holder itself may join now, after it left
      have hSame : u = t := by
        by_contra hne
        exact hSpared.1 u hu hne hIdle
      subst hSame
      rw [Finset.erase_eq_of_notMem hNew] at hOthers
      exact ⟨by rw [Finset.erase_insert hNew, hOthers], hOnly⟩
  · have hAnswer : s.barrier.join = (1, s.barrier) := by rw [Barrier.join, if_neg hIdle]
    rw [hAnswer, if_neg Int.one_ne_zero]
    exact ⟨hThreads, hCount, hFew, hBlocked, hWoken, hAsleep, hHolder⟩

/-- Leaving counts one thread less, unless some thread waits. -/
theorem Consistent.leave (hState : Consistent s) (hDocumented : s.Documented (.leave t))
    (hStep : step s (.leave t) = .ok s') : Consistent s' := by
  cases hStep
  obtain ⟨hJoined, hAwake, hReturned⟩ := hDocumented
  obtain ⟨hThreads, hCount, hFew, hBlocked, hWoken, hAsleep, hHolder⟩ := hState
  by_cases hIdle : s.barrier.count = 0
  · have hAnswer : s.barrier.leave.1 = 0 := by rw [Barrier.leave, if_pos hIdle]
    have hKept : s.barrier.leave.2.count = s.barrier.count := by rw [Barrier.leave, if_pos hIdle]
    have hNone : s.blocked = ∅ := Finset.card_eq_zero.mp (hCount.symm.trans hIdle)
    have hCard := Finset.card_erase_add_one hJoined
    rw [hAnswer, if_pos rfl]
    refine ⟨?_, hKept.trans hCount, by dsimp only; omega,
      Finset.subset_erase.mpr ⟨hBlocked, hAwake⟩,
      Finset.subset_erase.mpr ⟨hWoken, hReturned⟩, hAsleep, ?_⟩
    · rw [← hCard] at hThreads
      exact counts_leave hThreads hIdle
    · intro u hu
      obtain ⟨hOthers, hOnly⟩ := hHolder u hu
      refine ⟨?_, hOnly⟩
      dsimp only
      rw [Finset.erase_right_comm, hOthers, hNone, Finset.erase_empty]
  · have hAnswer : s.barrier.leave = (1, s.barrier) := by rw [Barrier.leave, if_neg hIdle]
    rw [hAnswer, if_neg Int.one_ne_zero]
    exact ⟨hThreads, hCount, hFew, hBlocked, hWoken, hAsleep, hHolder⟩

/-- What the counters say of a thread that joined and is about to wait. -/
theorem Consistent.about_to_wait (hState : Consistent s) (hDocumented : s.Documented (.wait t)) :
    s.barrier.threads + 1 = s.joined.card ∧ s.blocked ⊆ s.joined.erase t ∧
      (s.joined.erase t).card = s.barrier.threads := by
  have hCard := Finset.card_erase_add_one hDocumented.1
  have hFew := hState.few
  have hCounts := hState.threads
  rw [← hCard] at hCounts hFew
  have hThreads := hCounts.threads_eq (by omega)
  exact ⟨by omega, Finset.subset_erase.mpr ⟨hState.blocked, hDocumented.2.1⟩, hThreads.symm⟩

/-- A thread that waits goes to sleep while others are missing, and otherwise is
the last one awake. -/
theorem Consistent.wait (hState : Consistent s) (hDocumented : s.Documented (.wait t))
    (hStep : step s (.wait t) = .ok s') : Consistent s' := by
  cases hStep
  obtain ⟨hJoined, hOthers, hMembers⟩ := hState.about_to_wait hDocumented
  obtain ⟨hIn, hAwake, hReturned⟩ := hDocumented
  obtain ⟨hThreads, hCount, hFew, hBlocked, hWoken, hAsleep, hHolder⟩ := hState
  by_cases hMissing : s.barrier.count < s.barrier.threads
  · have hNone := wait_of_lt hMissing (by omega)
    rw [hNone]
    rw [if_pos rfl]
    refine ⟨hThreads, ?_, hFew, Finset.insert_subset hIn hBlocked, hWoken,
      Finset.disjoint_insert_left.mpr ⟨hReturned, hAsleep⟩, ?_⟩
    · rw [Finset.card_insert_of_notMem hAwake, ← hCount]
    · -- a holder has all the others asleep already
      intro u hu
      have hOthers := (hHolder u hu).1
      have hCard := Finset.pred_card_le_card_erase (s := s.joined) (a := u)
      rw [hOthers] at hCard
      omega
  · have hAll : s.blocked = s.joined.erase t :=
      Finset.eq_of_subset_of_card_le hOthers (by omega)
    have hResult : s.barrier.wait = (some ((s.barrier.threads + 1 : Nat) : Int), s.barrier) :=
      wait_of_le (by omega) (by omega)
    rw [hResult]
    refine ⟨hThreads, hCount, hFew, hBlocked, hWoken, hAsleep, ?_⟩
    have hHeld : ∀ u ∈ s.holding, u = t := by
      intro u hu
      by_contra hne
      have hAsleepToo := Finset.mem_erase.mpr ⟨Ne.symm hne, hIn⟩
      rw [(hHolder u hu).1] at hAsleepToo
      exact hAwake hAsleepToo
    have hPositive : (some ((s.barrier.threads + 1 : Nat) : Int)).getD 0 ≠ 0 := by
      rw [Option.getD_some]
      omega
    dsimp only
    rw [if_pos hPositive]
    have hSingle : insert t s.holding = {t} := by
      ext u
      rw [Finset.mem_insert, Finset.mem_singleton]
      exact ⟨fun hu => hu.elim id (hHeld u), Or.inl⟩
    intro u hu
    rw [hSingle, Finset.mem_singleton] at hu
    subst hu
    exact ⟨hAll.symm, hSingle⟩

/-- Waking the others gives the barrier up. -/
theorem Consistent.wake (hState : Consistent s) (hDocumented : s.Documented (.wake t))
    (hStep : step s (.wake t) = .ok s') : Consistent s' := by
  cases hStep
  obtain ⟨hThreads, hCount, hFew, hBlocked, hWoken, hAsleep, hHolder⟩ := hState
  have hNone : s.holding.erase t = ∅ := by
    rw [(hHolder t hDocumented.1).2, Finset.erase_singleton]
  have hFree : ∀ u ∈ s.holding.erase t, s.joined.erase u = s.blocked ∧ s.holding.erase t = {u} := by
    rw [hNone]
    simp
  by_cases hAll : s.barrier.count = s.barrier.threads
  · have hBroadcast : s.barrier.wake = (true, { s.barrier with count := 0 }) := by
      rw [Barrier.wake, if_pos hAll]
    rw [hBroadcast]
    refine ⟨hThreads, rfl, hFew, Finset.empty_subset _, Finset.union_subset hWoken hBlocked,
      Finset.disjoint_empty_left _, ?_⟩
    rw [hNone]
    simp
  · have hSilent : s.barrier.wake = (false, s.barrier) := by rw [Barrier.wake, if_neg hAll]
    rw [hSilent]
    exact ⟨hThreads, hCount, hFew, hBlocked, hWoken, hAsleep, hFree⟩

theorem Consistent.resume (hState : Consistent s) (hStep : step s (.resume t) = .ok s') :
    Consistent s' := by
  cases hStep
  obtain ⟨hThreads, hCount, hFew, hBlocked, hWoken, hAsleep, hHolder⟩ := hState
  exact {
    threads := hThreads
    count := hCount
    few := hFew
    blocked := hBlocked
    woken := (Finset.erase_subset t s.woken).trans hWoken
    asleep := hAsleep.mono_right (Finset.erase_subset t s.woken)
    holder := hHolder }

/-- In documented use that spares a holder on whom none waits, the counters and
the threads stay together. -/
theorem consistent_step (hState : Consistent s) (hDocumented : s.Documented a) (hSpared : s.Spared a)
    (hStep : step s a = .ok s') : Consistent s' := by
  cases a with
  | join t => exact hState.join hDocumented.1 hSpared hStep
  | leave t => exact hState.leave hDocumented hStep
  | wait t => exact hState.wait hDocumented hStep
  | wake t => exact hState.wake hDocumented hStep
  | resume t => exact hState.resume hStep

theorem Consistent.exclusive (hState : Consistent s) : Exclusive s where
  others := by
    intro t ht u hu hne
    rw [← (hState.holder t ht).1]
    exact Finset.mem_erase.mpr ⟨hne, hu⟩
  single := by
    intro t ht u hu
    rw [(hState.holder t ht).2] at hu
    exact Finset.mem_singleton.mp hu
  result := by
    intro t hDocumented n hResult
    obtain ⟨hJoined, -, -⟩ := hState.about_to_wait hDocumented
    have hFew := hState.few
    by_cases hMissing : s.barrier.count < s.barrier.threads
    · rw [wait_of_lt hMissing (by omega)] at hResult
      cases hResult
    · rw [wait_of_le (by omega) (by omega)] at hResult
      cases hResult
      rw [hJoined]

/-- However the steps of any number of threads interleave, a thread that a wait
gave a non-zero result has the barrier for itself until it wakes the others, as
long as no other thread joins while none waits. -/
theorem exclusive_of_reached
    (hReached : Run.Reached step (fun s a => Documented s a ∧ Spared s a) (start : System θ) s) :
    Exclusive s := by
  apply Consistent.exclusive
  apply hReached.invariant Consistent consistent_start
  intro s a s' hState hAdmitted hStep
  exact consistent_step hState hAdmitted.1 hAdmitted.2 hStep

/-- Two threads that join before the first of them waits. -/
theorem exclusive_of_reached_two :
    ∃ s, Run.drive step (fun s a => Documented s a ∧ Spared s a) (start : System Nat)
      [.join 0, .join 1, .wait 0, .wait 1] = some s ∧ 1 ∈ s.holding ∧ Exclusive s := by
  have hRun : ∃ s, Run.drive step (fun s a => Documented s a ∧ Spared s a) (start : System Nat)
      [.join 0, .join 1, .wait 0, .wait 1] = some s ∧ 1 ∈ s.holding := ⟨_, rfl, by decide⟩
  obtain ⟨s, hDrive, hHolding⟩ := hRun
  exact ⟨s, hDrive, hHolding, exclusive_of_reached (Run.reached_of_drive Run.Reached.start hDrive)⟩

/-- A thread that is alone at the barrier gets a non-zero result and is not
asleep, so another one joins it. -/
theorem not_exclusive_alone :
    ∃ s, Run.drive step Documented (start : System Nat) [.join 0, .wait 0, .join 1] = some s ∧
      ¬ Exclusive s := by
  refine ⟨_, rfl, ?_⟩
  intro hExclusive
  exact absurd (hExclusive.others 0 (by decide) 1 (by decide) (by decide)) (by decide)

/-- A thread that joins a holder on whom none waits is not asleep. -/
theorem not_exclusive_of_join {u : θ} (hHolder : u ∈ s.holding) (hOther : u ≠ t)
    (hNone : s.barrier.count = 0) (hDocumented : s.Documented (.join t))
    (hStep : step s (.join t) = .ok s') : ¬ Exclusive s' := by
  cases hStep
  intro hExclusive
  have hJoined : s.barrier.join.1 = 0 := by rw [Barrier.join, if_pos hNone]
  apply hDocumented.2.1
  apply hExclusive.others u hHolder t _ (Ne.symm hOther)
  rw [hJoined, if_pos rfl]
  exact Finset.mem_insert_self t s.joined

end System
end Barrier
end Peak
