import Peak.Token.Credit

/-! Polling a bucket, compared with asking it once at the end. -/
namespace Peak.Token.Bucket

open Words

/-- `_peak_token_credit` with nothing wanted, at each of the times. -/
def polled : Bucket → List Int → Bucket
  | self, [] => self
  | self, t :: rest => polled (self.credit 0 t).2 rest

/-- The parts of a token, in thousandths, that the divisions at each of the
times leave out. -/
def fractions (rate : Int) : Int → List Int → Int
  | _, [] => 0
  | past, t :: rest => (t - past) * rate % 1000 + fractions rate t rest

/-- The times do not go back, and follow the last update. -/
def Follows : Int → List Int → Prop
  | _, [] => True
  | past, t :: rest => past ≤ t ∧ Follows t rest

variable {self : Bucket} {times : List Int} {past rate : Int}

theorem fractions_nonneg (rate past : Int) (times : List Int) : 0 ≤ fractions rate past times := by
  induction times generalizing past with
  | nil => exact Int.le_refl 0
  | cons t rest ih =>
      have hRest := ih t
      simp only [fractions]
      omega

theorem le_getLastD (hFollows : Follows past times) : past ≤ times.getLastD past := by
  induction times generalizing past with
  | nil => exact Int.le_refl _
  | cons t rest ih =>
      rw [List.getLastD_cons]
      exact Int.le_trans hFollows.1 (ih hFollows.2)

/-- What polling adds, in thousandths of a token, is what the time adds less
the fractions. -/
theorem fractions_le (hRate : 0 < rate) (hFollows : Follows past times) :
    fractions rate past times ≤ (times.getLastD past - past) * rate ∧
      1000 ∣ (times.getLastD past - past) * rate - fractions rate past times := by
  induction times generalizing past with
  | nil => simp [fractions]
  | cons t rest ih =>
      obtain ⟨hLe, hDvd⟩ := ih hFollows.2
      have hFirst : 0 ≤ (t - past) * rate :=
        Int.mul_nonneg (Int.sub_nonneg_of_le hFollows.1) (Int.le_of_lt hRate)
      have hSum : (rest.getLastD t - past) * rate = (t - past) * rate + (rest.getLastD t - t) * rate := by
        rw [← Int.add_mul]
        congr 1
        omega
      rw [List.getLastD_cons, fractions]
      omega

/-- Asking for nothing only updates the bucket. -/
theorem credit_zero (hMax : 0 < self.max) (hRate : Fits self.max) (hBalance : Fits self.balance)
    (t : Int) : (self.credit 0 t).2 = self.update t := by
  have hUpdate := fits_update hRate hBalance t
  rcases credit_cases (Int.ne_of_gt hMax) 0 t with ⟨hCredit, -⟩ | ⟨hCredit, -⟩
  · rw [hCredit]
  · rw [hCredit, Int.sub_zero, signed_of_fits hUpdate]

@[simp] theorem update_self (self : Bucket) : self.update self.tsMs = self := by
  rw [update, Int.sub_self, if_neg (by decide)]

/-- What polling leaves while no sum leaves the words. -/
theorem polled_balance (hMax : 0 < self.max) (hRate : Fits self.max) (hBalance : Fits self.balance)
    (hFollows : Follows self.tsMs times)
    (hMeasured : (times.getLastD self.tsMs - self.tsMs) * self.max < 2 ^ 63)
    (hSum : self.balance + (times.getLastD self.tsMs - self.tsMs) * self.max / 1000 < 2 ^ 63) :
    (self.polled times).balance =
      if times.getLastD self.tsMs = self.tsMs then self.balance
      else min self.max (self.balance + ((times.getLastD self.tsMs - self.tsMs) * self.max -
        fractions self.max self.tsMs times) / 1000) := by
  induction times generalizing self with
  | nil => simp [polled]
  | cons t rest ih =>
      obtain ⟨hNow, hRest⟩ := hFollows
      rw [List.getLastD_cons] at hMeasured hSum ⊢
      rw [polled, credit_zero hMax hRate hBalance, fractions]
      by_cases hSame : t = self.tsMs
      · subst hSame
        rw [update_self, ih hMax hRate hBalance hRest hMeasured hSum]
        simp
      · have hSplit : (rest.getLastD t - self.tsMs) * self.max =
            (t - self.tsMs) * self.max + (rest.getLastD t - t) * self.max := by
          rw [← Int.add_mul]
          congr 1
          omega
        have hLast := le_getLastD hRest
        have hFirst := Int.mul_nonneg (Int.sub_nonneg_of_le hNow) (Int.le_of_lt hMax)
        have hLater := Int.mul_nonneg (Int.sub_nonneg_of_le hLast) (Int.le_of_lt hMax)
        obtain ⟨hFractions, hDvd⟩ := fractions_le hMax hRest
        have hNonneg := fractions_nonneg self.max t rest
        have hUpdate := fits_update hRate hBalance t
        have hExact : self.update t = { self with
            tsMs := t, balance := min self.max (self.balance + self.refill t) } := by
          rw [update_of_measured hMax (by omega) (by intro _; omega), if_pos (by omega),
            signed_of_fits]
          have hAdded := refill_nonneg hMax hNow
          simp only [Fits, refill] at hBalance hAdded ⊢
          omega
        rw [hExact] at hUpdate ⊢
        simp only [refill] at hUpdate ⊢
        rw [ih (by exact hMax) (by exact hRate) hUpdate hRest (by dsimp only; omega) (by dsimp only; omega)]
        dsimp only
        by_cases hEnd : rest.getLastD t = t
        · rw [if_pos hEnd, if_neg (by omega)]
          rw [hEnd, Int.sub_self, Int.zero_mul] at hFractions
          rw [hEnd]
          omega
        · rw [if_neg hEnd, if_neg (by omega)]
          omega

theorem update_tsMs_succ (self : Bucket) : (self.update (self.tsMs + 1)).tsMs = self.tsMs + 1 := by
  have hOne : self.tsMs + 1 - self.tsMs = 1 := by omega
  rw [update, hOne, if_pos (by decide)]

/-- Polls at one time and the next are one poll that counts. -/
theorem polled_of_short (hMax : 0 < self.max) (hRate : Fits self.max) (hBalance : Fits self.balance)
    (hFollows : Follows self.tsMs times) (hShort : times.getLastD self.tsMs ≤ self.tsMs + 1) :
    self.polled times = self.update (times.getLastD self.tsMs) := by
  induction times generalizing self with
  | nil => simp [polled]
  | cons t rest ih =>
      obtain ⟨hNow, hRest⟩ := hFollows
      have hLast := le_getLastD hRest
      rw [List.getLastD_cons] at hShort ⊢
      rw [polled, credit_zero hMax hRate hBalance]
      by_cases hSame : t = self.tsMs
      · subst hSame
        rw [update_self]
        exact ih hMax hRate hBalance hRest hShort
      · obtain rfl : t = self.tsMs + 1 := by omega
        have hMoved := update_tsMs_succ self
        have hEnd : rest.getLastD (self.tsMs + 1) = (self.update (self.tsMs + 1)).tsMs := by omega
        rw [ih (by simpa using hMax) (by simpa using hRate) (fits_update hRate hBalance _)
          (by rwa [hMoved]) (by rw [hMoved]; omega)]
        rw [hMoved, hEnd, update_self, hMoved]

theorem fractions_of_short (hRate : 0 < rate) (hFollows : Follows past times)
    (hShort : times.getLastD past ≤ past + 1) : fractions rate past times < 1000 := by
  induction times generalizing past with
  | nil => simp [fractions]
  | cons t rest ih =>
      obtain ⟨hNow, hRest⟩ := hFollows
      have hLast := le_getLastD hRest
      rw [List.getLastD_cons] at hShort
      rw [fractions]
      by_cases hSame : t = past
      · subst hSame
        rw [Int.sub_self, Int.zero_mul, Int.zero_emod, Int.zero_add]
        exact ih hRest hShort
      · obtain ⟨hFractions, -⟩ := fractions_le hRate hRest
        have hNonneg := fractions_nonneg rate t rest
        have hEnd : rest.getLastD t = t := by omega
        rw [hEnd, Int.sub_self, Int.zero_mul] at hFractions
        omega

/-- One call at the end leaves what a single poll leaves. -/
theorem credit_last_balance (hMax : 0 < self.max) (hRate : Fits self.max)
    (hBalance : Fits self.balance) {last : Int} (hLast : self.tsMs ≤ last)
    (hMeasured : (last - self.tsMs) * self.max < 2 ^ 63)
    (hSum : self.balance + (last - self.tsMs) * self.max / 1000 < 2 ^ 63) :
    (self.credit 0 last).2.balance = if last = self.tsMs then self.balance
      else min self.max (self.balance + (last - self.tsMs) * self.max / 1000) := by
  have hFollows : Follows self.tsMs [last] := ⟨hLast, trivial⟩
  have hPolled := polled_balance hMax hRate hBalance hFollows hMeasured hSum
  have hWhole : ((last - self.tsMs) * self.max - fractions self.max self.tsMs [last]) / 1000 =
      (last - self.tsMs) * self.max / 1000 := by
    simp only [fractions]
    omega
  simpa only [polled, List.getLastD_cons, List.getLastD_nil, hWhole] using hPolled

/-- Polling a bucket leaves it within one token of what asking it once at the
last time leaves if and only if the fractions that the polls leave out stay
below two tokens, or polling itself fills the bucket up to one token. A balance
above `max` is no state of documented use and is only asked not to overflow. -/
theorem polled_within_one_iff (hMax : 0 < self.max) (hRate : Fits self.max)
    (hBalance : Fits self.balance) (hFollows : Follows self.tsMs times)
    (hMeasured : (times.getLastD self.tsMs - self.tsMs) * self.max < 2 ^ 63)
    (hSum : self.balance ≤ self.max ∨
      self.balance + (times.getLastD self.tsMs - self.tsMs) * self.max / 1000 < 2 ^ 63) :
    ((self.polled times).balance - (self.credit 0 (times.getLastD self.tsMs)).2.balance).natAbs ≤ 1 ↔
      fractions self.max self.tsMs times < 2000 ∨
        1000 * (self.max - self.balance - 1) ≤
          (times.getLastD self.tsMs - self.tsMs) * self.max - fractions self.max self.tsMs times := by
  have hLast := le_getLastD hFollows
  obtain ⟨hFractions, hDvd⟩ := fractions_le hMax hFollows
  have hNonneg := fractions_nonneg self.max self.tsMs times
  by_cases hShort : times.getLastD self.tsMs ≤ self.tsMs + 1
  · have hSmall : fractions self.max self.tsMs times < 1000 := fractions_of_short hMax hFollows hShort
    rw [polled_of_short hMax hRate hBalance hFollows hShort, credit_zero hMax hRate hBalance]
    omega
  · have hDouble : 2 * self.max ≤ (times.getLastD self.tsMs - self.tsMs) * self.max :=
      Int.mul_le_mul_of_nonneg_right (by omega) (Int.le_of_lt hMax)
    have hFits : self.balance + (times.getLastD self.tsMs - self.tsMs) * self.max / 1000 < 2 ^ 63 := by
      omega
    rw [polled_balance hMax hRate hBalance hFollows hMeasured hFits,
      credit_last_balance hMax hRate hBalance hLast hMeasured hFits,
      if_neg (by omega), if_neg (by omega)]
    omega

/-- A bucket with two tokens left of ten, asked every 100 milliseconds. -/
theorem polled_within_one_ten :
    ((polled ⟨2, 10, 0⟩ [100, 200, 300]).balance -
      (credit ⟨2, 10, 0⟩ 0 300).2.balance).natAbs ≤ 1 := by
  have hFollows : Follows 0 [100, 200, 300] := ⟨by decide, by decide, by decide, trivial⟩
  exact (polled_within_one_iff (by decide) (by decide) (by decide) hFollows
    (by decide) (by decide)).mpr (by decide)

/-- A used up bucket for 500 tokens per second that is asked every millisecond
gets none. -/
theorem polled_gets_none :
    (init 500).credit 500 0 = (1, ⟨0, 500, 0⟩) ∧
      ¬ ((polled ⟨0, 500, 0⟩ [1, 2, 3, 4]).balance -
        (credit ⟨0, 500, 0⟩ 0 4).2.balance).natAbs ≤ 1 := by
  decide

end Peak.Token.Bucket
