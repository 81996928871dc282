import Mathlib.Algebra.BigOperators.Group.Finset.Piecewise
import Mathlib.Data.BitVec
import Mathlib.Data.Fintype.Basic
import Mathlib.Logic.Function.Basic
import Peak.Base.Account

/-! The counters of `lib/peak_audit.c`. Every thread counts for itself, and
`peak_audit_sync` adds its counters to a block that threads share, one atomic
addition and one store for each field. -/
namespace Peak

open Account

/-- `AUDIT_MAX`. -/
def auditMax : Nat := 9

/-- `AUDIT_TRACK_ADDED`. -/
def auditTrackAdded : Nat := 6

/-- `AUDIT_TRACK_RECYCLED`. -/
def auditTrackRecycled : Nat := 7

/-- `AUDIT_TRACK_FAILED`. -/
def auditTrackFailed : Nat := 8

/-- `struct peak_audit`. -/
abbrev Audit := Fin auditMax → BitVec 64

namespace Audit

variable (self : Audit) (field : Nat) (value : BitVec 64)

/-- `peak_audit_set`. -/
def set : Audit := if h : field < auditMax then Function.update self ⟨field, h⟩ value else self

/-- `peak_audit_get`. -/
def get : BitVec 64 := if h : field < auditMax then self ⟨field, h⟩ else 0

/-- `peak_audit_add`. -/
def add : Audit :=
  if h : field < auditMax then Function.update self ⟨field, h⟩ (self ⟨field, h⟩ + value) else self

/-- `peak_audit_inc`. -/
def inc : Audit :=
  if h : field < auditMax then Function.update self ⟨field, h⟩ (self ⟨field, h⟩ + 1) else self

/-- A value for one field. -/
def only : Audit := fun f => if f.val = field then value else 0

variable {self field value}

theorem only_of_not_lt (h : ¬field < auditMax) : only field value = 0 := by
  funext f
  exact if_neg fun hSame : f.val = field => h (hSame ▸ f.isLt)

theorem update_add (i : Fin auditMax) : Function.update self i (self i + value) = self + only i value := by
  funext f
  rw [Function.update_apply, Pi.add_apply, only]
  by_cases hSame : f = i
  · rw [if_pos hSame, if_pos (congrArg Fin.val hSame), hSame]
  · rw [if_neg hSame, if_neg fun hVal : f.val = i.val => hSame (Fin.ext hVal), add_zero]

/-- A field that is set to zero, and what was in it. -/
theorem update_zero (i : Fin auditMax) : self = Function.update self i 0 + only i (self i) := by
  rw [← update_add, Function.update_self, Function.update_idem, zero_add, Function.update_eq_self]

theorem add_eq : self.add field value = self + only field value := by
  rw [add]
  split_ifs with h
  · exact update_add ⟨field, h⟩
  · rw [only_of_not_lt h, add_zero]

theorem inc_eq : self.inc field = self + only field 1 := add_eq

/-- To set a field is to add what it lacks. -/
theorem set_eq : self.set field value = self + only field (value - self.get field) := by
  rw [← add_eq, set, add, get]
  split_ifs with h
  · rw [add_sub_cancel]
  · rfl

end Audit

/-- Where a thread is in `peak_audit_sync`, if it is: in front of the addition or
in front of the store for a field. -/
inductive Place (E : Type) where
  | outside
  | adding (target : E) (i : Fin auditMax)
  | wiping (target : E) (i : Fin auditMax)

/-- `audit_thread` of every thread, and the blocks that threads share. -/
structure Auditors (T E : Type) where
  thread : T → Audit
  place : T → Place E
  shared : E → Audit

/-- What may happen next: a thread makes a call, or goes on with its sync. -/
inductive Audited (T E : Type) where
  | set (t : T) (field : Nat) (value : BitVec 64)
  | add (t : T) (field : Nat) (value : BitVec 64)
  | inc (t : T) (field : Nat)
  | sync (t : T) (target : E)
  | proceed (t : T)

namespace Auditors

variable {T E : Type} [DecidableEq T] [DecidableEq E]

/-- A thread with new counters. -/
def count (s : Auditors T E) (t : T) (audit : Audit) : Auditors T E :=
  { s with thread := Function.update s.thread t audit }

def goto (s : Auditors T E) (t : T) (place : Place E) : Auditors T E :=
  { s with place := Function.update s.place t place }

/-- The loop of `peak_audit_sync` after a field. -/
def following (target : E) (i : Fin auditMax) : Place E :=
  if h : i.val + 1 < auditMax then .adding target ⟨i.val + 1, h⟩ else .outside

/-- One atomic step of `peak_audit_sync`. -/
def proceed (s : Auditors T E) (t : T) : Option (Auditors T E) :=
  match s.place t with
  | .outside => none
  | .adding target i =>
      let sum := s.shared target i + s.thread t i
      let block := Function.update (s.shared target) i sum
      some ({ s with shared := Function.update s.shared target block }.goto t (.wiping target i))
  | .wiping target i =>
      let s := s.count t (Function.update (s.thread t) i 0)
      some (s.goto t (following target i))

/-- A call, which a thread makes only while it is in no other. -/
def call (s : Auditors T E) (t : T) (next : Auditors T E) : Option (Auditors T E) :=
  match s.place t with
  | .outside => some next
  | _ => none

def step (s : Auditors T E) : Audited T E → Option (Auditors T E)
  | .set t field value => s.call t (s.count t ((s.thread t).set field value))
  | .add t field value => s.call t (s.count t ((s.thread t).add field value))
  | .inc t field => s.call t (s.count t ((s.thread t).inc field))
  | .sync t target => s.call t (s.goto t (.adding target ⟨0, by decide⟩))
  | .proceed t => s.proceed t

/-- What a call counts. -/
def charge (s : Auditors T E) : Audited T E → Audit
  | .set t field value => Audit.only field (value - (s.thread t).get field)
  | .add _ field value => Audit.only field value
  | .inc _ field => Audit.only field 1
  | .sync _ _ | .proceed _ => 0

/-- The counters of a thread that were not added to a block yet. -/
def outstanding (s : Auditors T E) (t : T) : Audit :=
  match s.place t with
  | .wiping _ i => Function.update (s.thread t) i 0
  | _ => s.thread t

/-- A thread in its sync has no counters left in the fields that it is done with. -/
def Wiped (s : Auditors T E) (t : T) : Prop :=
  match s.place t with
  | .outside => True
  | .adding _ i | .wiping _ i => ∀ j < i, s.thread t j = 0

end Auditors

namespace Auditors

variable {T E : Type} {s s' : Auditors T E} {t u : T} {target : E} {a : Audited T E}

/-- What a thread has outstanding depends on that thread only. -/
theorem outstanding_congr (hThread : s'.thread u = s.thread u) (hPlace : s'.place u = s.place u) :
    s'.outstanding u = s.outstanding u := by
  rw [outstanding, outstanding, hThread, hPlace]

theorem outstanding_outside (h : s.place t = .outside) : s.outstanding t = s.thread t := by
  rw [outstanding, h]

theorem outstanding_adding {i : Fin auditMax} (h : s.place t = .adding target i) :
    s.outstanding t = s.thread t := by
  rw [outstanding, h]

theorem outstanding_wiping {i : Fin auditMax} (h : s.place t = .wiping target i) :
    s.outstanding t = Function.update (s.thread t) i 0 := by
  rw [outstanding, h]

theorem call_eq {next : Auditors T E} (h : s.call t next = some s') : s.place t = .outside ∧ s' = next := by
  rw [call] at h
  cases hPlace : s.place t with
  | outside =>
      rw [hPlace] at h
      exact ⟨rfl, (Option.some.inj h).symm⟩
  | adding target i =>
      rw [hPlace] at h
      cases h
  | wiping target i =>
      rw [hPlace] at h
      cases h

/-- The sum over threads when one of them changes. -/
theorem sum_outstanding [Fintype T] [DecidableEq T] {d : Audit} (hOther : ∀ u ≠ t, s'.outstanding u = s.outstanding u)
    (hThis : s'.outstanding t = s.outstanding t + d) :
    ∑ u, s'.outstanding u = ∑ u, s.outstanding u + d := by
  rw [← Finset.add_sum_erase _ _ (Finset.mem_univ t), ← Finset.add_sum_erase _ s.outstanding (Finset.mem_univ t),
    hThis, Finset.sum_congr rfl fun u hu => hOther u (Finset.ne_of_mem_erase hu), add_right_comm]

theorem sum_shared [Fintype E] [DecidableEq E] {d : Audit} (hOther : ∀ e ≠ target, s'.shared e = s.shared e)
    (hThis : s'.shared target = s.shared target + d) : ∑ e, s'.shared e = ∑ e, s.shared e + d := by
  rw [← Finset.add_sum_erase _ _ (Finset.mem_univ target), ← Finset.add_sum_erase _ s.shared (Finset.mem_univ target),
    hThis, Finset.sum_congr rfl fun e he => hOther e (Finset.ne_of_mem_erase he), add_right_comm]

section Wiped

theorem wiped_congr (h : s.Wiped u) (hThread : s'.thread u = s.thread u) (hPlace : s'.place u = s.place u) :
    s'.Wiped u := by
  rw [Wiped, hThread, hPlace]
  exact h

theorem wiped_outside (h : s.place t = .outside) : s.Wiped t := by
  rw [Wiped, h]
  trivial

theorem wiped_adding {i : Fin auditMax} (h : s.place t = .adding target i) :
    s.Wiped t ↔ ∀ j < i, s.thread t j = 0 := by
  rw [Wiped, h]

theorem wiped_wiping {i : Fin auditMax} (h : s.place t = .wiping target i) :
    s.Wiped t ↔ ∀ j < i, s.thread t j = 0 := by
  rw [Wiped, h]

variable [DecidableEq T]

@[simp] theorem place_goto (s : Auditors T E) (t : T) (place : Place E) : (s.goto t place).place t = place :=
  Function.update_self ..

@[simp] theorem thread_count (s : Auditors T E) (t : T) (audit : Audit) : (s.count t audit).thread t = audit :=
  Function.update_self ..

variable [DecidableEq E]

/-- A thread in its sync is done with the fields in front. -/
theorem wiped_step (h : s.step a = some s') (hWiped : ∀ t, s.Wiped t) : ∀ t, s'.Wiped t := by
  intro u
  have hCount : ∀ t audit, s.place t = .outside → (s.count t audit).Wiped u := by
    intro t audit hPlace
    by_cases hSame : u = t
    · exact wiped_outside (hSame ▸ hPlace)
    · exact wiped_congr (hWiped u) (Function.update_of_ne hSame _ _) rfl
  cases a with
  | set t field value =>
      obtain ⟨hPlace, rfl⟩ := call_eq h
      exact hCount t _ hPlace
  | add t field value =>
      obtain ⟨hPlace, rfl⟩ := call_eq h
      exact hCount t _ hPlace
  | inc t field =>
      obtain ⟨hPlace, rfl⟩ := call_eq h
      exact hCount t _ hPlace
  | sync t target =>
      obtain ⟨_, rfl⟩ := call_eq h
      by_cases hSame : u = t
      · subst hSame
        exact (wiped_adding (place_goto ..)).mpr fun j hLess => absurd hLess (Nat.not_lt_zero _)
      · exact wiped_congr (hWiped u) rfl (Function.update_of_ne hSame _ _)
  | proceed t =>
      rw [step, proceed] at h
      have hThis := hWiped t
      cases hPlace : s.place t with
      | outside =>
          rw [hPlace] at h
          cases h
      | adding target i =>
          rw [hPlace] at h
          rw [← Option.some.inj h]
          by_cases hSame : u = t
          · subst hSame
            exact (wiped_wiping (place_goto ..)).mpr ((wiped_adding hPlace).mp hThis)
          · exact wiped_congr (hWiped u) rfl (Function.update_of_ne hSame _ _)
      | wiping target i =>
          rw [hPlace] at h
          rw [← Option.some.inj h]
          by_cases hSame : u = t
          · subst hSame
            rw [following]
            split_ifs with hNext
            · refine (wiped_adding (place_goto ..)).mpr fun j hLess => ?_
              show (s.count u (Function.update (s.thread u) i 0)).thread u j = 0
              rw [thread_count, Function.update_apply]
              split_ifs with hField
              · rfl
              · have hVal : j.val ≠ i.val := fun hVal => hField (Fin.ext hVal)
                have hBelow : j.val < i.val + 1 := hLess
                exact (wiped_wiping hPlace).mp hThis j (Fin.lt_def.mpr (by omega))
            · exact wiped_outside (place_goto ..)
          · exact wiped_congr (hWiped u) (Function.update_of_ne hSame _ _) (Function.update_of_ne hSame _ _)

/-- The last store of a sync was to the last field. -/
theorem wiped_return (h : s.step (.proceed t) = some s') (hWiped : s.Wiped t)
    (hReturned : s'.place t = .outside) : s'.thread t = 0 := by
  rw [step, proceed] at h
  cases hPlace : s.place t with
  | outside =>
      rw [hPlace] at h
      cases h
  | adding target i =>
      rw [hPlace] at h
      rw [← Option.some.inj h, place_goto] at hReturned
      cases hReturned
  | wiping target i =>
      rw [hPlace] at h
      rw [← Option.some.inj h] at hReturned ⊢
      rw [place_goto, following] at hReturned
      split_ifs at hReturned with hNext
      funext j
      show (s.count t (Function.update (s.thread t) i 0)).thread t j = 0
      rw [thread_count, Function.update_apply]
      split_ifs with hField
      · rfl
      · apply (wiped_wiping hPlace).mp hWiped j
        have hVal : j.val ≠ i.val := fun hVal => hField (Fin.ext hVal)
        have hBound := j.isLt
        exact Fin.lt_def.mpr (by omega)

end Wiped

variable [Fintype T] [Fintype E]

/-- All that was counted, wherever it is. -/
def total (s : Auditors T E) : Audit := ∑ e, s.shared e + ∑ t, s.outstanding t

variable [DecidableEq T]

/-- A thread that is in no call counts. -/
theorem total_count {audit d : Audit} (h : s.place t = .outside) (hAudit : audit = s.thread t + d) :
    (s.count t audit).total = s.total + d := by
  have hSum : ∑ u, (s.count t audit).outstanding u = ∑ u, s.outstanding u + d := by
    apply sum_outstanding (t := t)
    · exact fun u hu => outstanding_congr (Function.update_of_ne hu _ _) rfl
    · have hAfter : (s.count t audit).place t = .outside := h
      rw [outstanding_outside h, ← hAudit, outstanding_outside hAfter]
      exact Function.update_self ..
  rw [total, total, hSum, add_assoc]
  rfl

/-- What is wiped was not outstanding. -/
theorem total_wiping {i : Fin auditMax} (h : s.place t = .wiping target i) :
    ((s.count t (Function.update (s.thread t) i 0)).goto t (following target i)).total = s.total := by
  let s' := (s.count t (Function.update (s.thread t) i 0)).goto t (following target i)
  have hThread : s'.thread t = Function.update (s.thread t) i 0 := Function.update_self ..
  have hPlace : s'.place t = following target i := Function.update_self ..
  show s'.total = s.total
  rw [total, total]
  congr 1
  apply Finset.sum_congr rfl
  intro u _
  by_cases hSame : u = t
  · rw [hSame, outstanding_wiping h, ← hThread]
    rw [following] at hPlace
    split_ifs at hPlace
    · exact outstanding_adding hPlace
    · exact outstanding_outside hPlace
  · exact outstanding_congr (Function.update_of_ne hSame _ _) (Function.update_of_ne hSame _ _)

variable [DecidableEq E]

/-- What is added to a block is not outstanding any more. -/
theorem total_adding {i : Fin auditMax} {block : Audit} (h : s.place t = .adding target i)
    (hBlock : block = Function.update (s.shared target) i (s.shared target i + s.thread t i)) :
    ({ s with shared := Function.update s.shared target block }.goto t (.wiping target i)).total = s.total := by
  let s' := { s with shared := Function.update s.shared target block }.goto t (.wiping target i)
  have hTarget : s'.shared target = s.shared target + Audit.only i (s.thread t i) :=
    (Function.update_self ..).trans (hBlock.trans (Audit.update_add i))
  have hShared : ∑ e, s'.shared e = ∑ e, s.shared e + Audit.only i (s.thread t i) :=
    sum_shared (fun e he => Function.update_of_ne he _ _) hTarget
  have hOutstanding : ∑ u, s.outstanding u = ∑ u, s'.outstanding u + Audit.only i (s.thread t i) := by
    apply sum_outstanding (t := t)
    · exact fun u hu => outstanding_congr rfl (Function.update_of_ne hu _ _).symm
    · have hPlace : s'.place t = .wiping target i := Function.update_self ..
      rw [outstanding_adding h, outstanding_wiping hPlace]
      exact Audit.update_zero i
  show s'.total = s.total
  rw [total, total, hShared, hOutstanding, add_right_comm, add_assoc]

theorem total_step (h : s.step a = some s') : s'.total = s.total + s.charge a := by
  cases a with
  | set t field value =>
      obtain ⟨hPlace, rfl⟩ := call_eq h
      exact total_count hPlace Audit.set_eq
  | add t field value =>
      obtain ⟨hPlace, rfl⟩ := call_eq h
      exact total_count hPlace Audit.add_eq
  | inc t field =>
      obtain ⟨hPlace, rfl⟩ := call_eq h
      exact total_count hPlace Audit.inc_eq
  | sync t target =>
      obtain ⟨hPlace, rfl⟩ := call_eq h
      rw [charge, add_zero, total, total]
      congr 1
      apply Finset.sum_congr rfl
      intro u _
      by_cases hSame : u = t
      · subst hSame
        rw [outstanding_outside hPlace]
        exact outstanding_adding (Function.update_self ..)
      · exact outstanding_congr rfl (Function.update_of_ne hSame _ _)
  | proceed t =>
      rw [step, proceed] at h
      rw [charge, add_zero]
      cases hPlace : s.place t with
      | outside =>
          rw [hPlace] at h
          cases h
      | adding target i =>
          rw [hPlace] at h
          rw [← Option.some.inj h]
          exact total_adding hPlace rfl
      | wiping target i =>
          rw [hPlace] at h
          rw [← Option.some.inj h]
          exact total_wiping hPlace

/-- Whatever the threads do and in whatever order, all that they count is in the
shared blocks or waits for the next sync of its thread, once and not twice, and
a thread that returns from a sync has nothing left to add. -/
theorem counts_conserved {start : Auditors T E} {calls : List (Audited T E)}
    (hOutside : ∀ t, start.place t = .outside) (hRun : run step start calls = some s) :
    ∑ e, s.shared e + ∑ t, s.outstanding t =
        ∑ e, start.shared e + ∑ t, start.thread t + charges step charge start calls ∧
      ∀ t s', s.step (.proceed t) = some s' → s'.place t = .outside → s'.thread t = 0 := by
  have hWiped : ∀ t, s.Wiped t := by
    apply run_keeps (fun s => ∀ t, s.Wiped t) (fun s a s' hWiped h => wiped_step h hWiped) _ hRun
    intro t
    rw [Wiped, hOutside]
    trivial
  constructor
  · have hTotal := value_run (fun _ => True) total (fun _ _ _ _ _ => trivial) (fun _ _ _ _ h => total_step h)
      trivial hRun
    rw [total, total, Finset.sum_congr rfl fun t _ => outstanding_outside (hOutside t)] at hTotal
    exact hTotal
  · exact fun t s' h hReturned => wiped_return h (hWiped t) hReturned

/-- Two threads count to one field. One of them is in its sync and the other one
back from it. -/
theorem twoThreads_counted :
    ∃ s, run step (⟨fun _ => 0, fun _ => .outside, fun _ => 0⟩ : Auditors Bool Unit)
        ([.inc true 0, .inc false 0, .sync true (), .sync false (), .proceed true] ++
          List.replicate 18 (.proceed false)) = some s ∧
      ∑ e, s.shared e + ∑ t, s.outstanding t =
        ∑ _e : Unit, (0 : Audit) + ∑ _t : Bool, (0 : Audit) +
          charges step charge (⟨fun _ => 0, fun _ => .outside, fun _ => 0⟩ : Auditors Bool Unit)
            ([.inc true 0, .inc false 0, .sync true (), .sync false (), .proceed true] ++
              List.replicate 18 (.proceed false)) := by
  obtain ⟨s, hRun⟩ : ∃ s, run step (⟨fun _ => 0, fun _ => .outside, fun _ => 0⟩ : Auditors Bool Unit)
      ([.inc true 0, .inc false 0, .sync true (), .sync false (), .proceed true] ++
        List.replicate 18 (.proceed false)) = some s := ⟨_, rfl⟩
  exact ⟨s, hRun, (counts_conserved (fun _ => rfl) hRun).1⟩

end Auditors

end Peak
