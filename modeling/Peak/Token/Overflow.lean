import Peak.Token.Rate

/-! When the arithmetic of `_peak_token_credit` leaves the words. -/
namespace Peak.Token.Bucket

open Words

/-- `_peak_token_credit` in integers without bounds. -/
def exactCredit (self : Bucket) (want tsMs : Int) : Nat × Bucket :=
  if self.max = 0 then (1, self)
  else
    let updated := if self.tsMs < tsMs then
        { self with tsMs := tsMs, balance := min self.max (self.balance + self.refill tsMs) }
      else self
    if 0 < want ∧ updated.balance ≤ 0 then (0, updated)
    else (1, { updated with balance := updated.balance - want })

/-- The time passed, its product with the rate and what the call leaves are
those of integers without bounds. -/
structure ExactAt (bucket : Bucket) (c : Call) : Prop where
  time : signed (c.tsMs - bucket.tsMs) = c.tsMs - bucket.tsMs
  product : bucket.tsMs < c.tsMs →
    signed ((c.tsMs - bucket.tsMs) * bucket.max) = (c.tsMs - bucket.tsMs) * bucket.max
  result : bucket.credit c.want c.tsMs = bucket.exactCredit c.want c.tsMs

/-- Every call of a sequence is exact in the state it is made in. -/
def AllExact : Bucket → List Call → Prop
  | _, [] => True
  | self, c :: rest => self.ExactAt c ∧ AllExact (self.credit c.want c.tsMs).2 rest

/-- No call comes so long after the latest one before it that the time between
them, times the rate, leaves `int64_t`. -/
def InTime (rate : Int) : Int → List Call → Prop
  | _, [] => True
  | latest, c :: rest =>
      (latest < c.tsMs → (c.tsMs - latest) * rate < 2 ^ 63) ∧
        InTime rate (if latest < c.tsMs then c.tsMs else latest) rest

/-- What a run with amounts up to the rate keeps of the bucket. -/
structure Modest (bucket : Bucket) : Prop where
  rate : 0 < bucket.max
  rate_le : bucket.max ≤ 2 ^ 40
  balance : bucket.balance ≤ bucket.max
  burst : -bucket.max < bucket.balance
  time : 0 ≤ bucket.tsMs
  time_lt : bucket.tsMs < 2 ^ 43

/-- The amounts and times that the rate is meant for. -/
structure Ordinary (rate : Int) (c : Call) : Prop where
  want : 0 ≤ c.want
  want_le : c.want ≤ rate
  time : 0 ≤ c.tsMs
  time_lt : c.tsMs < 2 ^ 43

variable {self : Bucket} {c : Call} {calls : List Call}

/-- An update whose product is a value of `int64_t` computes in integers. -/
theorem update_modest (hModest : self.Modest) (hCall : Ordinary self.max c)
    (hMeasured : self.Measured c.tsMs) :
    self.update c.tsMs = if self.tsMs < c.tsMs then
      { self with tsMs := c.tsMs, balance := min self.max (self.balance + self.refill c.tsMs) }
      else self := by
  obtain ⟨hRate, hRateLe, hBalance, hBurst, hTime, hTimeLt⟩ := hModest
  have hTs := hCall.time
  rw [update_of_measured hRate (by omega) hMeasured]
  split_ifs with hLater
  · have hAdded := refill_nonneg hRate (Int.le_of_lt hLater)
    have hProduct := hMeasured hLater
    rw [signed_of_fits]
    simp only [Fits, refill] at hAdded ⊢
    omega
  · rfl

theorem modest_update (hModest : self.Modest) (hCall : Ordinary self.max c)
    (hMeasured : self.Measured c.tsMs) : (self.update c.tsMs).Modest := by
  rw [update_modest hModest hCall hMeasured]
  obtain ⟨hRate, hRateLe, hBalance, hBurst, hTime, hTimeLt⟩ := hModest
  split_ifs with hLater
  · have hAdded := refill_nonneg hRate (Int.le_of_lt hLater)
    exact {
      rate := hRate
      rate_le := hRateLe
      balance := by dsimp only; omega
      burst := by dsimp only; omega
      time := hCall.time
      time_lt := hCall.time_lt }
  · exact ⟨hRate, hRateLe, hBalance, hBurst, hTime, hTimeLt⟩

/-- A call whose product is a value of `int64_t` computes in integers. -/
theorem credit_modest (hModest : self.Modest) (hCall : Ordinary self.max c)
    (hMeasured : self.Measured c.tsMs) :
    self.credit c.want c.tsMs = self.exactCredit c.want c.tsMs ∧
      (self.credit c.want c.tsMs).2.Modest := by
  have hUpdated := modest_update hModest hCall hMeasured
  rw [exactCredit, ← update_modest hModest hCall hMeasured]
  obtain ⟨hRate, hRateLe, hBalance, hBurst, hTime, hTimeLt⟩ := id hUpdated
  have hWant := hCall.want
  have hWantLe := hCall.want_le
  rw [update_max] at hRate hRateLe hBalance hBurst
  simp only [credit, if_neg (Int.ne_of_gt hRate)]
  split_ifs with hRefused
  · exact ⟨rfl, hUpdated⟩
  · have hTaken : signed ((self.update c.tsMs).balance - c.want) =
        (self.update c.tsMs).balance - c.want := by
      apply signed_of_fits
      simp only [Fits]
      omega
    rw [hTaken]
    refine ⟨rfl, ?_⟩
    exact {
      rate := by simpa using hRate
      rate_le := by simpa using hRateLe
      balance := by simp only [update_max]; omega
      burst := by simp only [update_max]; omega
      time := hTime
      time_lt := hTimeLt }

theorem modest_init {rate : Int} (hPos : 0 < rate) (hRate : rate ≤ 2 ^ 40) : (init rate).Modest where
  rate := hPos
  rate_le := hRate
  balance := Int.le_refl _
  burst := by simp only [init]; omega
  time := Int.le_refl 0
  time_lt := show (0 : Int) < 2 ^ 43 by decide

/-- A call that is exact has a product that is a value of `int64_t`. -/
theorem ExactAt.measured (hExact : self.ExactAt c) : self.Measured c.tsMs := by
  intro hLater
  have hProduct := hExact.product hLater
  rw [signed_eq_iff] at hProduct
  exact hProduct.2

theorem exactAt_of_measured (hModest : self.Modest) (hCall : Ordinary self.max c)
    (hMeasured : self.Measured c.tsMs) : self.ExactAt c where
  time := by
    apply signed_of_fits
    have hTs := hCall.time
    have hTsLt := hCall.time_lt
    have hPast := hModest.time
    have hPastLt := hModest.time_lt
    simp only [Fits]
    omega
  product := by
    intro hLater
    have hProduct := hMeasured hLater
    have hNonneg : 0 ≤ (c.tsMs - self.tsMs) * self.max :=
      Int.mul_nonneg (by omega) (Int.le_of_lt hModest.rate)
    exact signed_of_fits ⟨by omega, hProduct⟩
  result := (credit_modest hModest hCall hMeasured).1

theorem allExact_iff (hModest : self.Modest) (hCalls : ∀ c ∈ calls, Ordinary self.max c) :
    self.AllExact calls ↔ InTime self.max self.tsMs calls := by
  induction calls generalizing self with
  | nil => exact Iff.rfl
  | cons c rest ih =>
      have hCall := hCalls c List.mem_cons_self
      have hStep : self.Measured c.tsMs → ((self.credit c.want c.tsMs).2.AllExact rest ↔
          InTime self.max (if self.tsMs < c.tsMs then c.tsMs else self.tsMs) rest) := by
        intro hMeasured
        obtain ⟨-, hNext⟩ := credit_modest hModest hCall hMeasured
        rw [ih hNext (by simpa using fun d hd => hCalls d (List.mem_cons_of_mem _ hd)), credit_max,
          credit_tsMs (Int.ne_of_gt hModest.rate), update_modest hModest hCall hMeasured]
        split_ifs <;> rfl
      constructor
      · rintro ⟨hExact, hRest⟩
        exact ⟨hExact.measured, (hStep hExact.measured).mp hRest⟩
      · rintro ⟨hMeasured, hRest⟩
        exact ⟨exactAt_of_measured hModest hCall hMeasured, (hStep hMeasured).mpr hRest⟩

/-- The calls on a fresh bucket compute in integers if and only if none comes
so long after the latest one before it, the first after the epoch, that the
time between them times the rate leaves `int64_t`. -/
theorem exact_iff_inTime {rate : Int} (hPos : 0 < rate) (hRate : rate ≤ 2 ^ 40) (calls : List Call)
    (hCalls : ∀ c ∈ calls, Ordinary rate c) :
    (init rate).AllExact calls ↔ InTime rate 0 calls :=
  allExact_iff (modest_init hPos hRate) hCalls

/-- A bucket for 2048 tokens per second that is first called about 49 days after
the epoch, and again one second later. -/
theorem exact_iff_inTime_early : (init 2048).AllExact [⟨2048, 2 ^ 32⟩, ⟨1, 2 ^ 32 + 1000⟩] := by
  refine (exact_iff_inTime (by decide) (by decide) _ ?_).mpr ⟨by decide, by decide, trivial⟩
  intro c hc
  simp only [List.mem_cons, List.not_mem_nil, or_false] at hc
  rcases hc with rfl | rfl <;> exact ⟨by decide, by decide, by decide, by decide⟩

/-- The first call on a full bucket for 10 gigabits per second, some day in
2014, takes tokens away instead of leaving the bucket full. -/
theorem credit_epoch :
    Ordinary (10 ^ 10) ⟨0, 1400000000000⟩ ∧
      (credit (init (10 ^ 10)) 0 1400000000000).2.balance < 0 ∧
      (exactCredit (init (10 ^ 10)) 0 1400000000000).2.balance = 10 ^ 10 :=
  ⟨⟨by decide, by decide, by decide, by decide⟩, by decide, by decide⟩

end Peak.Token.Bucket
