import Peak.Base.Locked
import Peak.Token.Rate

/-! `peak_token_credit`: threads share a bucket under its spin lock. Within the lock
every access to a field of the bucket is a step of its own. -/
namespace Peak.Token

open Words

/-- The accesses of `_peak_token_credit` in their order, with the local values that are
needed for the next ones. -/
inductive Access where
  | time
  | limited (credit : Int)
  | stamp (credit : Int)
  | load (credit : Int)
  | refill (credit balance : Int)
  | store (sum : Int)
  | excess
  | compare (balance : Int)
  | floor
  | cut (max : Int)
  | refuse
  | debit
  | pay (balance : Int)

/-- One access. -/
def access (self : Bucket) : Call × Access → Bucket × ((Call × Access) ⊕ Nat)
  | (c, .time) => (self, .inl (c, .limited (signed (c.tsMs - self.tsMs))))
  | (c, .limited credit) =>
      if self.max = 0 then (self, .inr 1)
      else if 0 < credit then (self, .inl (c, .stamp credit))
      else (self, .inl (c, .refuse))
  | (c, .stamp credit) => ({ self with tsMs := c.tsMs }, .inl (c, .load credit))
  | (c, .load credit) => (self, .inl (c, .refill credit self.balance))
  | (c, .refill credit balance) => (self, .inl (c, .store (signed (balance + (signed (credit * self.max)).tdiv 1000))))
  | (c, .store sum) => ({ self with balance := sum }, .inl (c, .excess))
  | (c, .excess) => (self, .inl (c, .compare self.balance))
  | (c, .compare balance) => if self.max < balance then (self, .inl (c, .floor)) else (self, .inl (c, .refuse))
  | (c, .floor) => (self, .inl (c, .cut self.max))
  | (c, .cut max) => ({ self with balance := max }, .inl (c, .refuse))
  | (c, .refuse) => if 0 < c.want ∧ self.balance ≤ 0 then (self, .inr 0) else (self, .inl (c, .debit))
  | (c, .debit) => (self, .inl (c, .pay self.balance))
  | (c, .pay balance) => ({ self with balance := signed (balance - c.want) }, .inr 1)

/-- `peak_token_credit` between `spin_lock` and `spin_unlock`. -/
def creditBody : Locked.Body Bucket (Call × Access) Call Nat := ⟨fun c => (c, .time), access⟩

variable {ι : Type} {max : Int} {bucket : Bucket} {c : Call}

/-- The accesses after the bucket was brought up to date. -/
theorem after_refuse (n : Nat) (bucket : Bucket) (c : Call) :
    creditBody.after (n + 3) bucket (c, .refuse) =
      if 0 < c.want ∧ bucket.balance ≤ 0 then (bucket, .inr 0)
      else ({ bucket with balance := signed (bucket.balance - c.want) }, .inr 1) := by
  simp only [Locked.Body.after, creditBody, access]
  split_ifs with hRefused
  · rfl
  · rfl

/-- The accesses that bring the bucket up to date. -/
theorem after_stamp (bucket : Bucket) (c : Call) {credit : Int} (hCredit : credit = signed (c.tsMs - bucket.tsMs))
    (hLater : 0 < credit) :
    creditBody.after 11 bucket (c, .stamp credit) = creditBody.after 3 (bucket.update c.tsMs) (c, .refuse) := by
  have hUpdate : bucket.update c.tsMs = { bucket with
      tsMs := c.tsMs
      balance := if bucket.max < signed (bucket.balance + (signed (credit * bucket.max)).tdiv 1000) then bucket.max
        else signed (bucket.balance + (signed (credit * bucket.max)).tdiv 1000) } := by
    subst hCredit
    simp only [Bucket.update, if_pos hLater]
  rw [hUpdate]
  by_cases hExcess : bucket.max < signed (bucket.balance + (signed (credit * bucket.max)).tdiv 1000)
  · rw [if_pos hExcess]
    simp only [Locked.Body.after, creditBody, access, if_pos hExcess]
  · rw [if_neg hExcess]
    have hLast := after_refuse 2 { bucket with
      tsMs := c.tsMs, balance := signed (bucket.balance + (signed (credit * bucket.max)).tdiv 1000) } c
    rw [← after_refuse 0] at hLast
    rw [← hLast]
    simp only [Locked.Body.after, creditBody, access, if_neg hExcess]

theorem after_time (bucket : Bucket) (c : Call) :
    creditBody.after 13 bucket (c, .time) = ((bucket.credit c.want c.tsMs).2, .inr (bucket.credit c.want c.tsMs).1) := by
  have hTime : creditBody.access bucket (c, .time) = (bucket, .inl (c, .limited (signed (c.tsMs - bucket.tsMs)))) := rfl
  rw [Locked.Body.after_of_inl hTime]
  by_cases hMax : bucket.max = 0
  · have hUnlimited : creditBody.access bucket (c, .limited (signed (c.tsMs - bucket.tsMs))) = (bucket, .inr 1) :=
      if_pos hMax
    rw [Locked.Body.after_of_inr hUnlimited, Bucket.credit, if_pos hMax]
  · have hCredit : bucket.credit c.want c.tsMs =
        if 0 < c.want ∧ (bucket.update c.tsMs).balance ≤ 0 then (0, bucket.update c.tsMs)
        else (1, { bucket.update c.tsMs with balance := signed ((bucket.update c.tsMs).balance - c.want) }) := by
      rw [Bucket.credit, if_neg hMax]
    have hRest : creditBody.after 3 (bucket.update c.tsMs) (c, .refuse) =
        ((bucket.credit c.want c.tsMs).2, .inr (bucket.credit c.want c.tsMs).1) := by
      rw [after_refuse 0, hCredit]
      split_ifs with hRefused
      · rfl
      · rfl
    by_cases hLater : 0 < signed (c.tsMs - bucket.tsMs)
    · have hStamp : creditBody.access bucket (c, .limited (signed (c.tsMs - bucket.tsMs))) =
          (bucket, .inl (c, .stamp (signed (c.tsMs - bucket.tsMs)))) := (if_neg hMax).trans (if_pos hLater)
      rw [Locked.Body.after_of_inl hStamp, after_stamp bucket c rfl hLater, hRest]
    · have hRefuse : creditBody.access bucket (c, .limited (signed (c.tsMs - bucket.tsMs))) =
          (bucket, .inl (c, .refuse)) := (if_neg hMax).trans (if_neg hLater)
      have hSame : bucket.update c.tsMs = bucket := by rw [Bucket.update, if_neg hLater]
      rw [Locked.Body.after_of_inl hRefuse, after_refuse 8, ← after_refuse 0, ← hRest, hSame]

theorem creditBody_computes : creditBody.Computes fun bucket c => bucket.credit c.want c.tsMs :=
  fun bucket c => ⟨13, after_time bucket c⟩

/-- The calls of some threads in the order in which they were done. -/
def calls (done : List (ι × Call × Nat)) : List Call := done.map fun d => d.2.1

/-- The positive amounts that the threads were granted. -/
def grants (done : List (ι × Call × Nat)) : List Int :=
  (done.filter fun d => 0 < d.2.1.want ∧ d.2.2 ≠ 0).map fun d => d.2.1.want

/-- What the threads were answered. -/
def answers (done : List (ι × Call × Nat)) : List Nat := done.map fun d => d.2.2

/-- The answers are those of a bucket that is called by one thread. -/
theorem serve_credit {done : List (ι × Call × Nat)} {bucket bucket' : Bucket}
    (h : Locked.serve (fun bucket c => bucket.credit c.want c.tsMs) bucket (calls done) =
      (answers done, bucket')) :
    bucket' = bucket.run (calls done) ∧ grants done = bucket.granted (calls done) := by
  induction done generalizing bucket with
  | nil =>
      cases h
      exact ⟨rfl, rfl⟩
  | cons d rest ih =>
      simp only [calls, answers, List.map_cons, Locked.serve] at h
      rcases hCredit : bucket.credit d.2.1.want d.2.1.tsMs with ⟨answer, next⟩
      rcases hServe : Locked.serve (fun bucket c => bucket.credit c.want c.tsMs) next (calls rest) with ⟨rets, last⟩
      rw [hCredit] at h
      dsimp only at h
      rw [show rest.map (fun d => d.2.1) = calls rest from rfl, hServe] at h
      obtain ⟨hAnswers, rfl⟩ := Prod.mk.inj h
      obtain ⟨rfl, rfl⟩ := List.cons.inj hAnswers
      obtain ⟨rfl, hGranted⟩ := ih hServe
      have hRun : bucket.run (calls (d :: rest)) = next.run (calls rest) := by
        show (bucket.credit d.2.1.want d.2.1.tsMs).2.run (calls rest) = _
        rw [hCredit]
      refine ⟨hRun.symm, ?_⟩
      have hCons : grants (d :: rest) = if 0 < d.2.1.want ∧ d.2.2 ≠ 0 then d.2.1.want :: grants rest else grants rest := by
        simp only [grants, List.filter_cons, decide_eq_true_eq]
        split_ifs with hPositive
        · rfl
        · rfl
      rw [hCons, hGranted, show calls (d :: rest) = d.2.1 :: calls rest from rfl, Bucket.granted, hCredit]

theorem allPlain_append {first last : List Call} :
    bucket.AllPlain (first ++ last) ↔ bucket.AllPlain first ∧ (bucket.run first).AllPlain last := by
  induction first generalizing bucket with
  | nil => exact ⟨fun hLast => ⟨trivial, hLast⟩, And.right⟩
  | cons c rest ih => exact (and_congr_right fun _ => ih).trans and_assoc.symm

/-- The positive amounts of later calls stay within the rate. -/
theorem grants_lt {before since : List (ι × Call × Nat)} (hPos : 0 < max) (hMax : Fits max)
    (hServed : Locked.serve (fun bucket c => bucket.credit c.want c.tsMs) (init max) (calls (before ++ since)) =
      (answers (before ++ since), bucket))
    (hPlain : (init max).AllPlain (calls (before ++ since))) :
    (grants since).dropLast.sum <
      max + max * (((init max).run (calls (before ++ since))).tsMs - ((init max).run (calls before)).tsMs) / 1000 := by
  have hBounded : (init max).Bounded := (Account.sound_start hMax).bounded hPos hMax
  have hWhole := (serve_credit hServed).1
  have hCalls : calls (before ++ since) = calls before ++ calls since := List.map_append
  have hAnswers : answers (before ++ since) = answers before ++ answers since := List.map_append
  rw [hCalls, hAnswers] at hServed
  obtain ⟨middle, hBefore, hSince⟩ :=
    Locked.serve_append hServed (by rw [calls, answers, List.length_map, List.length_map])
  obtain ⟨rfl, -⟩ := serve_credit hBefore
  obtain ⟨hRun, hGranted⟩ := serve_credit hSince
  rw [hCalls, allPlain_append] at hPlain
  have hLess := Bucket.granted_lt (Bucket.bounded_run hBounded hPlain.1) hPlain.2
  rw [← hGranted, Bucket.run_max, ← hRun, hWhole] at hLess
  exact hLess

/-- Threads that share a bucket get what one thread would get that makes their calls one
after another, reimbursements and overflows included, and at most one of them is at work
on it. So if the calls are plain ones, then whenever some of the threads look at it, they
were granted no more than the rate allows for the time, up to the last amount. -/
theorem shared_rate [DecidableEq ι] {s : Locked.System ι Bucket (Call × Access) Call Nat}
    (hReached : Run.Reached (Locked.step creditBody) Locked.System.Admitted (Locked.start (init max)) s) :
    Locked.serve (fun bucket c => bucket.credit c.want c.tsMs) (init max) (calls s.done) =
        (answers s.done, (init max).run (calls s.done)) ∧
      (s.lock = none → s.shared = (init max).run (calls s.done)) ∧
      (∀ i j, ¬(s.place i).Free → ¬(s.place j).Free → i = j) ∧
      (0 < max → Fits max → (init max).AllPlain (calls s.done) →
        ∀ before since, s.done = before ++ since → (grants since).dropLast.sum <
          max + max * (((init max).run (calls s.done)).tsMs - ((init max).run (calls before)).tsMs) / 1000) := by
  obtain ⟨bucket, hSerial⟩ := Locked.serial_of_reached creditBody_computes hReached
  obtain ⟨rfl, -⟩ := serve_credit hSerial.served
  refine ⟨hSerial.served, hSerial.unlocked, fun i j hFirst hSecond => ?_,
    fun hPos hMax hPlain before since hDone => ?_⟩
  · exact Option.some.inj ((hSerial.lock_eq hFirst).symm.trans (hSerial.lock_eq hSecond))
  · have hServed := hSerial.served
    rw [hDone] at hServed hPlain ⊢
    exact grants_lt hPos hMax hServed hPlain

deriving instance DecidableEq for Call

/-- Two threads in turn. The last call is refused. -/
def twoThreads : List (Locked.Turn Bool Call) :=
  [.call true ⟨75, 0⟩, .call false ⟨75, 0⟩] ++ (List.replicate 7 [.go true, .go false]).flatten ++
    [.call true ⟨1, 0⟩] ++ (List.replicate 11 [.go false, .go true]).flatten

theorem twoThreads_rate :
    ∃ s, Run.drive (Locked.step creditBody) Locked.System.Admitted (Locked.start (init 100)) twoThreads = some s ∧
      answers s.done = [1, 1, 0] ∧ s.lock = none ∧ s.shared = (init 100).run [⟨75, 0⟩, ⟨75, 0⟩, ⟨1, 0⟩] ∧
      Locked.serve (fun (bucket : Bucket) (c : Call) => bucket.credit c.want c.tsMs) (init 100)
        [⟨75, 0⟩, ⟨75, 0⟩, ⟨1, 0⟩] = ([1, 1, 0], s.shared) ∧
      (grants s.done).dropLast.sum < 100 := by
  have hRun : (Run.drive (Locked.step creditBody) Locked.System.Admitted (Locked.start (init 100)) twoThreads).map
      (fun s => (calls s.done, answers s.done, s.lock)) =
        some ([⟨75, 0⟩, ⟨75, 0⟩, ⟨1, 0⟩], [1, 1, 0], none) := by
    decide +kernel
  obtain ⟨s, hDrive, hView⟩ := Option.map_eq_some_iff.mp hRun
  obtain ⟨hCalls, hAnswers, hLock⟩ :
      calls s.done = [⟨75, 0⟩, ⟨75, 0⟩, ⟨1, 0⟩] ∧ answers s.done = [1, 1, 0] ∧ s.lock = none := by
    simpa only [Prod.mk.injEq] using hView
  have hPlain : (init 100).AllPlain (calls s.done) := by
    rw [hCalls]
    exact ⟨⟨by decide, by decide, by decide, by decide, by decide⟩,
      ⟨by decide, by decide, by decide, by decide, by decide⟩,
      ⟨by decide, by decide, by decide, by decide, by decide⟩, trivial⟩
  obtain ⟨hServed, hShared, -, hRate⟩ := shared_rate (Run.reached_of_drive .start hDrive)
  have hLess := hRate (by decide) (by decide) hPlain [] s.done rfl
  have hShared := hShared hLock
  rw [hCalls] at hServed hShared hLess
  rw [hAnswers, ← hShared] at hServed
  exact ⟨s, hDrive, hAnswers, hLock, hShared, hServed, hLess⟩

end Peak.Token
