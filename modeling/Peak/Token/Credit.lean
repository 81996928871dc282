import Peak.Base.Words

/-! Token buckets, translated from `include/peak_token.h`. A value of
`int64_t` is the integer it stands for, and every operation on such values is
followed by `signed`. -/
namespace Peak.Token

open Words

/-- `struct peak_token` without its lock and its reference counter, which
`_peak_token_credit` does not use. The balance is the field `have`. -/
structure Bucket where
  balance : Int
  max : Int
  tsMs : Int
deriving DecidableEq, Repr

/-- `_peak_token_init`. -/
def init (max : Int) : Bucket where
  balance := max
  max := max
  tsMs := 0

namespace Bucket

/-- The first half of `_peak_token_credit`: what the time since the last update
adds to the balance, which is then cut to `max`. -/
def update (self : Bucket) (tsMs : Int) : Bucket :=
  let credit := signed (tsMs - self.tsMs)
  if 0 < credit then
    let sum := signed (self.balance + (signed (credit * self.max)).tdiv 1000)
    { self with tsMs := tsMs, balance := if self.max < sum then self.max else sum }
  else self

/-- `_peak_token_credit`. A negative amount is reimbursed. -/
def credit (self : Bucket) (want tsMs : Int) : Nat × Bucket :=
  if self.max = 0 then (1, self)
  else
    let updated := self.update tsMs
    if 0 < want ∧ updated.balance ≤ 0 then (0, updated)
    else (1, { updated with balance := signed (updated.balance - want) })

variable {self : Bucket} {want tsMs : Int}

@[simp] theorem update_max (self : Bucket) (tsMs : Int) : (self.update tsMs).max = self.max := by
  simp only [update]
  split <;> rfl

@[simp] theorem credit_max (self : Bucket) (want tsMs : Int) :
    (self.credit want tsMs).2.max = self.max := by
  simp only [credit]
  split_ifs <;> simp

/-- A call with a rate is refused while the balance is used up, and otherwise
takes what it asks for. -/
theorem credit_cases (hMax : self.max ≠ 0) (want tsMs : Int) :
    self.credit want tsMs = (0, self.update tsMs) ∧ 0 < want ∧ (self.update tsMs).balance ≤ 0 ∨
      self.credit want tsMs = (1, { self.update tsMs with
        balance := signed ((self.update tsMs).balance - want) }) ∧
        (0 < want → 0 < (self.update tsMs).balance) := by
  simp only [credit, if_neg hMax]
  split_ifs with hRefused
  · exact Or.inl ⟨rfl, hRefused⟩
  · refine Or.inr ⟨rfl, ?_⟩
    intro hWant
    by_contra hEmpty
    exact hRefused ⟨hWant, by omega⟩

theorem credit_tsMs (hMax : self.max ≠ 0) (want tsMs : Int) :
    (self.credit want tsMs).2.tsMs = (self.update tsMs).tsMs := by
  rcases credit_cases hMax want tsMs with ⟨hCredit, -⟩ | ⟨hCredit, -⟩ <;> rw [hCredit]

/-- An update that leaves the timestamp leaves the bucket. -/
theorem update_eq_of_tsMs (hSame : (self.update tsMs).tsMs = self.tsMs) :
    self.update tsMs = self := by
  by_cases hCredit : 0 < signed (tsMs - self.tsMs)
  · simp only [update, if_pos hCredit] at hSame
    rw [hSame, Int.sub_self] at hCredit
    exact absurd hCredit (by decide)
  · rw [update, if_neg hCredit]

/-- The product of the time passed and the rate, which the code divides, is a
value of `int64_t`. -/
def Measured (self : Bucket) (tsMs : Int) : Prop :=
  self.tsMs < tsMs → (tsMs - self.tsMs) * self.max < 2 ^ 63

instance (self : Bucket) (tsMs : Int) : Decidable (self.Measured tsMs) :=
  inferInstanceAs (Decidable (_ → _))

/-- The tokens that the time until `tsMs` adds up to. -/
def refill (self : Bucket) (tsMs : Int) : Int := (tsMs - self.tsMs) * self.max / 1000

theorem refill_nonneg (hMax : 0 < self.max) (hLater : self.tsMs ≤ tsMs) : 0 ≤ self.refill tsMs := by
  apply Int.ediv_nonneg _ (by decide)
  exact Int.mul_nonneg (by omega) (by omega)

/-- While the product is a value of `int64_t`, so is the time passed, and only
the sum can be none. -/
theorem update_of_measured (hMax : 0 < self.max) (hBack : -(2 ^ 63) ≤ tsMs - self.tsMs)
    (hMeasured : self.Measured tsMs) :
    self.update tsMs = if self.tsMs < tsMs then
      { self with
        tsMs := tsMs
        balance := min self.max (signed (self.balance + self.refill tsMs)) }
      else self := by
  simp only [Measured] at hMeasured
  by_cases hLater : self.tsMs < tsMs
  · have hProduct := hMeasured hLater
    have hTime : (tsMs - self.tsMs) * 1 ≤ (tsMs - self.tsMs) * self.max :=
      Int.mul_le_mul_of_nonneg_left (by omega) (by omega)
    rw [update, if_pos hLater]
    have hCredit : signed (tsMs - self.tsMs) = tsMs - self.tsMs :=
      signed_of_fits (by simp only [Fits]; omega)
    have hExact : signed ((tsMs - self.tsMs) * self.max) = (tsMs - self.tsMs) * self.max :=
      signed_of_fits (by simp only [Fits]; omega)
    rw [hCredit, hExact, if_pos (by omega), Int.tdiv_eq_ediv_of_nonneg (by omega)]
    rw [← refill]
    simp only [Int.min_def]
    congr 1
    split_ifs <;> omega
  · have hCredit : signed (tsMs - self.tsMs) = tsMs - self.tsMs :=
      signed_of_fits (by simp only [Fits]; omega)
    rw [update, hCredit, if_neg (by omega), if_neg hLater]

theorem fits_update_tsMs (hTs : Fits tsMs) (hPast : Fits self.tsMs) :
    Fits (self.update tsMs).tsMs := by
  simp only [update]
  split
  · exact hTs
  · exact hPast

/-- No update leaves more than `max` in a bucket that did not hold more. -/
theorem update_balance_le (hBalance : self.balance ≤ self.max) (tsMs : Int) :
    (self.update tsMs).balance ≤ self.max := by
  simp only [update]
  split
  · dsimp only
    split <;> omega
  · exact hBalance

theorem fits_update (hMax : Fits self.max) (hBalance : Fits self.balance) (tsMs : Int) :
    Fits (self.update tsMs).balance := by
  simp only [update]
  split
  · dsimp only
    split
    · exact hMax
    · exact fits_signed _
  · exact hBalance

end Bucket
end Peak.Token
