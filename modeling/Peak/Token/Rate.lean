import Peak.Base.Run
import Peak.Token.Credit

/-! What a bucket grants over a sequence of calls, by the time the calls span. -/
namespace Peak.Token

open Words

/-- The arguments of one call of `_peak_token_credit`. -/
structure Call where
  want : Int
  tsMs : Int

/-- A bucket, with what was acquired from it since its timestamp last moved. -/
structure Account where
  bucket : Bucket
  acquired : Int

namespace Account

/-- What was acquired before at the time the call is made. -/
def carried (a : Account) (c : Call) : Int :=
  if (a.bucket.update c.tsMs).tsMs = a.bucket.tsMs then a.acquired else 0

/-- One call of `_peak_token_credit`. -/
def step (a : Account) (c : Call) : Except Empty Account :=
  .ok {
    bucket := (a.bucket.credit c.want c.tsMs).2
    acquired := a.carried c + if (a.bucket.credit c.want c.tsMs).1 = 0 then 0 else c.want }

/-- A reimbursement must have been acquired at the same time, as the manual
asks. The time itself may be any value. -/
def Covered (a : Account) (c : Call) : Prop :=
  Fits c.want ∧ Fits c.tsMs ∧ -a.carried c ≤ c.want

instance (a : Account) (c : Call) : Decidable (Covered a c) := inferInstanceAs (Decidable (_ ∧ _))

/-- `_peak_token_init`, with nothing acquired. -/
def start (max : Int) : Account where
  bucket := init max
  acquired := 0

/-- What holds of a bucket in documented use. -/
structure Sound (max : Int) (a : Account) : Prop where
  max_eq : a.bucket.max = max
  balance : Fits a.bucket.balance
  time : Fits a.bucket.tsMs
  within : a.bucket.balance + a.acquired ≤ max
  acquired : 0 ≤ a.acquired

variable {max : Int} {a a' : Account} {c : Call}

theorem Sound.balance_le (hSound : Sound max a) : a.bucket.balance ≤ a.bucket.max := by
  have hWithin := hSound.within
  have hAcquired := hSound.acquired
  have hEq := hSound.max_eq
  omega

theorem sound_start (hMax : Fits max) : Sound max (start max) where
  max_eq := rfl
  balance := hMax
  time := show Fits 0 by decide
  within := by simp [start, init]
  acquired := Int.le_refl 0

/-- What was acquired is carried over only with the balance it was taken from. -/
theorem carried_spec (hSound : Sound max a) :
    0 ≤ a.carried c ∧ (a.bucket.update c.tsMs).balance + a.carried c ≤ max := by
  by_cases hSame : (a.bucket.update c.tsMs).tsMs = a.bucket.tsMs
  · rw [carried, if_pos hSame, Bucket.update_eq_of_tsMs hSame]
    exact ⟨hSound.acquired, hSound.within⟩
  · have hUpdate := Bucket.update_balance_le (hSound.balance_le) c.tsMs
    rw [hSound.max_eq] at hUpdate
    rw [carried, if_neg hSame]
    omega

theorem sound_step (hPos : 0 < max) (hMax : Fits max) (hSound : Sound max a) (hCovered : Covered a c)
    (hStep : step a c = .ok a') : Sound max a' := by
  cases hStep
  have hRate : a.bucket.max ≠ 0 := by
    rw [hSound.max_eq]
    omega
  obtain ⟨hWant, hTs, hReimbursed⟩ := hCovered
  obtain ⟨hCarried, hUpdated⟩ := carried_spec (c := c) hSound
  have hBalance : Fits (a.bucket.update c.tsMs).balance :=
    Bucket.fits_update (by rw [hSound.max_eq]; exact hMax) hSound.balance c.tsMs
  have hTime := Bucket.fits_update_tsMs hTs hSound.time
  rcases Bucket.credit_cases hRate c.want c.tsMs with
    ⟨hCredit, -⟩ | ⟨hCredit, hEnough⟩
  · exact {
      max_eq := by rw [Bucket.credit_max, hSound.max_eq]
      balance := by rw [hCredit]; exact hBalance
      time := by rw [hCredit]; exact hTime
      within := by simpa [hCredit] using hUpdated
      acquired := by simpa [hCredit] using hCarried }
  · have hTaken : signed ((a.bucket.update c.tsMs).balance - c.want) =
        (a.bucket.update c.tsMs).balance - c.want := by
      apply signed_of_fits
      simp only [Fits] at hMax hBalance hWant ⊢
      omega
    exact {
      max_eq := by rw [Bucket.credit_max, hSound.max_eq]
      balance := by rw [hCredit]; exact fits_signed _
      time := by rw [hCredit]; exact hTime
      within := by simp only [hCredit, hTaken, Nat.one_ne_zero, if_false]; omega
      acquired := by simp only [hCredit, Nat.one_ne_zero, if_false]; omega }

/-- Documented use keeps the balance below `max`, whatever the timestamps. -/
theorem sound_of_reached (hPos : 0 < max) (hMax : Fits max)
    (hReached : Run.Reached step Covered (start max) a) : Sound max a := by
  apply hReached.invariant (Sound max) (sound_start hMax)
  intro a c a' hSound hCovered hStep
  exact sound_step hPos hMax hSound hCovered hStep

end Account

namespace Bucket

/-- The state a sequence of calls leaves. -/
def run : Bucket → List Call → Bucket
  | self, [] => self
  | self, c :: rest => run (self.credit c.want c.tsMs).2 rest

/-- The positive amounts that a sequence of calls grants, in order. -/
def granted : Bucket → List Call → List Int
  | _, [] => []
  | self, c :: rest =>
      let (answer, next) := self.credit c.want c.tsMs
      if 0 < c.want ∧ answer ≠ 0 then c.want :: granted next rest else granted next rest

/-- A call that reimburses nothing, at a time that is not negative, and whose
product is a value of `int64_t`. -/
structure Plain (bucket : Bucket) (c : Call) : Prop where
  want : 0 ≤ c.want
  want_fits : Fits c.want
  time : 0 ≤ c.tsMs
  time_fits : Fits c.tsMs
  measured : bucket.Measured c.tsMs

/-- Every call of a sequence is plain in the state it is made in. -/
def AllPlain : Bucket → List Call → Prop
  | _, [] => True
  | self, c :: rest => self.Plain c ∧ AllPlain (self.credit c.want c.tsMs).2 rest

/-- The time of a call on a bucket lies within the words. -/
theorem Plain.back {bucket : Bucket} {c : Call} (hPlain : bucket.Plain c) (hPast : Fits bucket.tsMs) :
    -(2 ^ 63) ≤ c.tsMs - bucket.tsMs := by
  have hTime := hPlain.time
  simp only [Fits] at hPast
  omega

/-- What every state of a sequence of plain calls satisfies. -/
structure Bounded (bucket : Bucket) : Prop where
  rate : 0 < bucket.max
  rate_fits : Fits bucket.max
  balance : bucket.balance ≤ bucket.max
  balance_fits : Fits bucket.balance
  time : Fits bucket.tsMs

variable {self : Bucket} {c : Call} {calls : List Call}

/-- The balance a plain call starts from when it takes its amount: no more than
what the time passed adds. -/
theorem update_plain (hBounded : self.Bounded) (hPlain : self.Plain c) :
    self.tsMs ≤ (self.update c.tsMs).tsMs ∧
      (self.update c.tsMs).balance ≤ self.balance +
        ((self.update c.tsMs).tsMs - self.tsMs) * self.max / 1000 := by
  obtain ⟨hRate, hRateFits, hBalance, hBalanceFits, hTime⟩ := hBounded
  rw [update_of_measured hRate (hPlain.back hTime) hPlain.measured]
  split_ifs with hLater
  · dsimp only
    have hRefill := refill_nonneg hRate (Int.le_of_lt hLater)
    have hSum : signed (self.balance + self.refill c.tsMs) ≤ self.balance + self.refill c.tsMs := by
      apply signed_le
      simp only [Fits] at hBalanceFits
      omega
    rw [← refill]
    omega
  · simp

/-- What a plain call takes leaves a value of `int64_t`. -/
theorem credit_plain (hBounded : self.Bounded) (hPlain : self.Plain c) :
    self.credit c.want c.tsMs = (0, self.update c.tsMs) ∧ 0 < c.want ∨
      self.credit c.want c.tsMs = (1, { self.update c.tsMs with
        balance := (self.update c.tsMs).balance - c.want }) ∧
        (0 < c.want → 0 < (self.update c.tsMs).balance) := by
  have hRate : self.max ≠ 0 := Int.ne_of_gt hBounded.rate
  have hUpdated := fits_update hBounded.rate_fits hBounded.balance_fits c.tsMs
  rcases credit_cases hRate c.want c.tsMs with ⟨hCredit, hWant, -⟩ | ⟨hCredit, hEnough⟩
  · exact Or.inl ⟨hCredit, hWant⟩
  · refine Or.inr ⟨?_, hEnough⟩
    rw [hCredit, signed_of_fits]
    have hWant := hPlain.want
    have hFits := hPlain.want_fits
    simp only [Fits] at hUpdated hFits ⊢
    omega

theorem bounded_credit (hBounded : self.Bounded) (hPlain : self.Plain c) :
    (self.credit c.want c.tsMs).2.Bounded := by
  have hUpdated := fits_update hBounded.rate_fits hBounded.balance_fits c.tsMs
  have hBalance := update_balance_le hBounded.balance c.tsMs
  have hTime := fits_update_tsMs hPlain.time_fits hBounded.time
  have hWant := hPlain.want
  have hFits := hPlain.want_fits
  have hRate := hBounded.rate
  have hRateFits := hBounded.rate_fits
  rcases credit_plain hBounded hPlain with ⟨hCredit, -⟩ | ⟨hCredit, hEnough⟩
  · rw [hCredit]
    exact ⟨by simpa using hRate, by simpa using hRateFits, by simpa using hBalance, hUpdated, hTime⟩
  · rw [hCredit]
    refine ⟨by simpa using hRate, by simpa using hRateFits, ?_, ?_, hTime⟩
    · simp only [update_max]
      omega
    · simp only [Fits] at hUpdated hFits ⊢
      omega

theorem tsMs_le_run (hBounded : self.Bounded) (hPlain : self.AllPlain calls) :
    self.tsMs ≤ (self.run calls).tsMs := by
  induction calls generalizing self with
  | nil => exact Int.le_refl _
  | cons c rest ih =>
      obtain ⟨hFirst, hRest⟩ := hPlain
      have hUpdate := (update_plain hBounded hFirst).1
      have hNext := ih (bounded_credit hBounded hFirst) hRest
      rw [credit_tsMs (Int.ne_of_gt hBounded.rate)] at hNext
      exact Int.le_trans hUpdate hNext

theorem bounded_run (hBounded : self.Bounded) (hPlain : self.AllPlain calls) :
    (self.run calls).Bounded := by
  induction calls generalizing self with
  | nil => exact hBounded
  | cons c rest ih => exact ih (bounded_credit hBounded hPlain.1) hPlain.2

@[simp] theorem run_max (self : Bucket) (calls : List Call) : (self.run calls).max = self.max := by
  induction calls generalizing self with
  | nil => rfl
  | cons c rest ih => rw [run, ih, credit_max]

/-- Adding up the time at a moment in between adds no tokens. -/
theorem refill_split (first middle last rate : Int) :
    (middle - first) * rate / 1000 + (last - middle) * rate / 1000 ≤ (last - first) * rate / 1000 := by
  have hSum : (last - first) * rate = (middle - first) * rate + (last - middle) * rate := by
    rw [← Int.add_mul]
    congr 1
    omega
  omega

/-- The time that plain calls span adds no negative amount. -/
theorem added_nonneg (hBounded : self.Bounded) (hPlain : self.AllPlain calls) :
    0 ≤ ((self.run calls).tsMs - self.tsMs) * self.max / 1000 := by
  apply Int.ediv_nonneg _ (by decide)
  exact Int.mul_nonneg (Int.sub_nonneg_of_le (tsMs_le_run hBounded hPlain))
    (Int.le_of_lt hBounded.rate)

/-- All amounts granted but the last positive one come out of the balance and
of what the time passed adds. The last one needs only a balance that is not
used up. -/
theorem granted_dropLast_lt (hBounded : self.Bounded) (hPlain : self.AllPlain calls)
    (hSome : self.granted calls ≠ []) :
    (self.granted calls).dropLast.sum <
      self.balance + ((self.run calls).tsMs - self.tsMs) * self.max / 1000 := by
  induction calls generalizing self with
  | nil => exact absurd rfl hSome
  | cons c rest ih =>
      obtain ⟨hFirst, hRest⟩ := hPlain
      obtain ⟨-, hUpdate⟩ := update_plain hBounded hFirst
      have hNext := bounded_credit hBounded hFirst
      have hRate := credit_max self c.want c.tsMs
      have hTime := credit_tsMs (Int.ne_of_gt hBounded.rate) c.want c.tsMs
      have hCases := credit_plain hBounded hFirst
      simp only [run, granted] at hSome ⊢
      rcases hCredit : self.credit c.want c.tsMs with ⟨answer, next⟩
      simp only [hCredit] at hRest hNext hRate hTime hSome ⊢
      have hTail := ih hNext hRest
      have hAdded := added_nonneg hNext hRest
      have hSplit := refill_split self.tsMs next.tsMs (next.run rest).tsMs self.max
      rw [hRate] at hTail hAdded
      rw [← hTime] at hUpdate
      rcases hCases with ⟨hRefused, -⟩ | ⟨hTaken, hEnough⟩
      · obtain ⟨rfl, rfl⟩ := Prod.mk.inj (hCredit.symm.trans hRefused)
        simp only [ne_eq, not_true, and_false, if_false] at hSome ⊢
        have hSum := hTail hSome
        omega
      · obtain ⟨rfl, hNextEq⟩ := Prod.mk.inj (hCredit.symm.trans hTaken)
        have hBalance : next.balance = (self.update c.tsMs).balance - c.want := by rw [hNextEq]
        simp only [ne_eq, Nat.one_ne_zero, not_false_iff, and_true] at hSome ⊢
        split_ifs at hSome ⊢ with hWant
        · have hPositive := hEnough hWant
          by_cases hLast : next.granted rest = []
          · rw [hLast]
            simp only [List.dropLast_singleton, List.sum_nil]
            omega
          · have hSum := hTail hLast
            rw [List.dropLast_cons_of_ne_nil hLast, List.sum_cons]
            omega
        · have hSum := hTail hSome
          have hZero := hFirst.want
          omega

/-- The tokens granted up to the last positive amount stay below one bucket and
what the rate adds over the time the calls span. -/
theorem granted_lt (hBounded : self.Bounded) (hPlain : self.AllPlain calls) :
    (self.granted calls).dropLast.sum <
      self.max + self.max * ((self.run calls).tsMs - self.tsMs) / 1000 := by
  have hRate := hBounded.rate
  have hBalance := hBounded.balance
  rw [Int.mul_comm self.max]
  by_cases hNone : self.granted calls = []
  · have hAdded := added_nonneg hBounded hPlain
    rw [hNone]
    simp only [List.dropLast_nil, List.sum_nil]
    omega
  · have hSum := granted_dropLast_lt hBounded hPlain hNone
    omega

end Bucket

theorem Account.Sound.bounded {max : Int} {a : Account} (hSound : a.Sound max) (hPos : 0 < max)
    (hMax : Fits max) : a.bucket.Bounded where
  rate := by rw [hSound.max_eq]; exact hPos
  rate_fits := by rw [hSound.max_eq]; exact hMax
  balance := hSound.balance_le
  balance_fits := hSound.balance
  time := hSound.time

/-- However a bucket in documented use is called, its balance stays within
`max`, what it grants before the last positive amount is less than one bucket
and what the rate adds over the time, and a refusal only updates it. -/
theorem rate_bounded {max : Int} {a : Account} (hPos : 0 < max) (hMax : Fits max)
    (hReached : Run.Reached Account.step Account.Covered (Account.start max) a) (calls : List Call)
    (hPlain : a.bucket.AllPlain calls) :
    a.bucket.balance ≤ max ∧ (a.bucket.run calls).balance ≤ max ∧
      (a.bucket.granted calls).dropLast.sum <
        max + max * ((a.bucket.run calls).tsMs - a.bucket.tsMs) / 1000 ∧
      ∀ c, (a.bucket.run calls).Plain c →
        ((a.bucket.run calls).credit c.want c.tsMs).1 = 0 →
          ((a.bucket.run calls).credit c.want c.tsMs).2 =
            if (a.bucket.run calls).tsMs < c.tsMs then
              { a.bucket.run calls with
                tsMs := c.tsMs
                balance := min max (signed ((a.bucket.run calls).balance +
                  (c.tsMs - (a.bucket.run calls).tsMs) * max / 1000)) }
            else a.bucket.run calls := by
  have hSound := Account.sound_of_reached hPos hMax hReached
  have hBounded : a.bucket.Bounded := hSound.bounded hPos hMax
  have hEnd := Bucket.bounded_run hBounded hPlain
  have hEq : a.bucket.max = max := hSound.max_eq
  refine ⟨?_, ?_, ?_, ?_⟩
  · rw [← hEq]
    exact hBounded.balance
  · have hBalance := hEnd.balance
    rw [Bucket.run_max, hEq] at hBalance
    exact hBalance
  · rw [← hEq]
    exact Bucket.granted_lt hBounded hPlain
  · intro c hCall hRefused
    rcases Bucket.credit_plain hEnd hCall with ⟨hCredit, -⟩ | ⟨hCredit, -⟩
    · rw [hCredit, Bucket.update_of_measured hEnd.rate (hCall.back hEnd.time) hCall.measured]
      simp only [Bucket.refill, Bucket.run_max, hEq]
    · rw [hCredit] at hRefused
      exact absurd hRefused Nat.one_ne_zero

/-- Two bursts after one that was taken back, a refusal, and a call that goes
back in time. -/
theorem rate_bounded_hundred :
    ((init 100).granted [⟨75, 0⟩, ⟨75, 0⟩, ⟨1, 0⟩, ⟨60, 1500⟩, ⟨40, 1000⟩]).dropLast.sum <
      100 + 100 * (1500 - 0) / 1000 := by
  have hReached : Run.Reached Account.step Account.Covered (Account.start 100) ⟨init 100, 0⟩ :=
    (Run.Reached.start.step (a := ⟨30, 0⟩) (by decide) rfl).step (a := ⟨-30, 0⟩) (by decide) rfl
  have hPlain : (init 100).AllPlain [⟨75, 0⟩, ⟨75, 0⟩, ⟨1, 0⟩, ⟨60, 1500⟩, ⟨40, 1000⟩] :=
    ⟨⟨by decide, by decide, by decide, by decide, by decide⟩,
      ⟨by decide, by decide, by decide, by decide, by decide⟩,
      ⟨by decide, by decide, by decide, by decide, by decide⟩,
      ⟨by decide, by decide, by decide, by decide, by decide⟩,
      ⟨by decide, by decide, by decide, by decide, by decide⟩, trivial⟩
  exact (rate_bounded (by decide) (by decide) hReached _ hPlain).2.2.1

end Peak.Token
