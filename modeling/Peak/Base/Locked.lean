import Mathlib.Logic.Function.Basic
import Peak.Base.Run

/-! Threads that call a function whose body runs between the acquisition and the
release of one lock, one access to the shared state at a time. Whatever the order of
their steps, they get what the calls give one after another. -/
namespace Locked

variable {ι σ ℓ α ρ : Type*} [DecidableEq ι]

/-- A body: where it starts with its arguments, and what one access does. -/
structure Body (σ ℓ α ρ : Type*) where
  enter : α → ℓ
  access : σ → ℓ → σ × (ℓ ⊕ ρ)

namespace Body

/-- The body after so many accesses, or when it has returned. -/
def after (body : Body σ ℓ α ρ) : Nat → σ → ℓ → σ × (ℓ ⊕ ρ)
  | 0, s, l => (s, .inl l)
  | n + 1, s, l =>
      match body.access s l with
      | (s', .inl l') => body.after n s' l'
      | (s', .inr ret) => (s', .inr ret)

/-- The body returns what a function does, when nobody interferes. -/
def Computes (body : Body σ ℓ α ρ) (f : σ → α → ρ × σ) : Prop :=
  ∀ s args, ∃ n, body.after n s (body.enter args) = ((f s args).2, .inr (f s args).1)

variable {body : Body σ ℓ α ρ} {f : σ → α → ρ × σ} {s s' : σ} {l l' : ℓ} {n m : Nat} {ret : ρ} {args : α}

theorem after_of_inl (h : body.access s l = (s', .inl l')) : body.after (n + 1) s l = body.after n s' l' := by
  rw [after, h]

theorem after_of_inr (h : body.access s l = (s', .inr ret)) : body.after (n + 1) s l = (s', .inr ret) := by
  rw [after, h]

theorem after_succ (h : body.after n s l = (s', .inl l')) : body.after (n + 1) s l = body.access s' l' := by
  induction n generalizing s l with
  | zero =>
      obtain ⟨rfl, hPlace⟩ := Prod.mk.inj h
      obtain rfl : l = l' := Sum.inl.inj hPlace
      rw [after]
      rcases body.access s l with ⟨s', l' | ret⟩
      · rfl
      · rfl
  | succ n ih =>
      rcases hAccess : body.access s l with ⟨s₁, l₁ | ret⟩
      · rw [after_of_inl hAccess] at h ⊢
        exact ih h
      · rw [after_of_inr hAccess] at h
        cases h

/-- A body that has returned stays so. -/
theorem after_add (h : body.after n s l = (s', .inr ret)) : body.after (n + m) s l = (s', .inr ret) := by
  induction n generalizing s l with
  | zero => cases h
  | succ n ih =>
      rw [Nat.succ_add]
      rcases hAccess : body.access s l with ⟨s₁, l₁ | ret⟩
      · rw [after_of_inl hAccess] at h ⊢
        exact ih h
      · rw [after_of_inr hAccess] at h ⊢
        exact h

/-- What a body returned is what the function does. -/
theorem Computes.eq (h : body.Computes f) (hAfter : body.after n s (body.enter args) = (s', .inr ret)) :
    f s args = (ret, s') := by
  obtain ⟨m, hReturns⟩ := h s args
  have hOne := after_add (m := m) hAfter
  have hOther := after_add (m := n) hReturns
  rw [Nat.add_comm m n, hOne] at hOther
  obtain ⟨rfl, hRet⟩ := Prod.mk.inj hOther
  cases hRet
  rfl

end Body

/-- Where a thread is. -/
inductive Place (ℓ α ρ : Type*) where
  | outside
  | waiting (args : α)
  | inside (args : α) (l : ℓ)
  | leaving (args : α) (ret : ρ)

/-- The thread does not have the lock. -/
def Place.Free : Place ℓ α ρ → Prop
  | .outside => True
  | .waiting _ => True
  | .inside _ _ => False
  | .leaving _ _ => False

/-- The thread makes no call. -/
def Place.isOutside : Place ℓ α ρ → Bool
  | .outside => true
  | _ => false

/-- The threads, and the calls that are done in the order in which they were. -/
structure System (ι σ ℓ α ρ : Type*) where
  shared : σ
  lock : Option ι
  place : ι → Place ℓ α ρ
  done : List (ι × α × ρ)

/-- A thread makes a call, or goes on with the one it made. -/
inductive Turn (ι α : Type*) where
  | call (i : ι) (args : α)
  | go (i : ι)

/-- Before any call. -/
def start (s : σ) : System ι σ ℓ α ρ := ⟨s, none, fun _ => .outside, []⟩

namespace System

variable (s : System ι σ ℓ α ρ)

def goto (i : ι) (place : Place ℓ α ρ) : System ι σ ℓ α ρ := { s with place := Function.update s.place i place }

/-- A thread goes on: it tries to get the lock, makes an access, or gives the lock back
and returns. -/
def go (body : Body σ ℓ α ρ) (i : ι) : System ι σ ℓ α ρ :=
  match s.place i with
  | .outside => s
  | .waiting args =>
      match s.lock with
      | none => { s.goto i (.inside args (body.enter args)) with lock := some i }
      | some _ => s
  | .inside args l =>
      match body.access s.shared l with
      | (shared, .inl l) => { s.goto i (.inside args l) with shared := shared }
      | (shared, .inr ret) => { s.goto i (.leaving args ret) with shared := shared }
  | .leaving args ret => { s.goto i .outside with lock := none, done := s.done ++ [(i, args, ret)] }

/-- A thread makes one call at a time. -/
def Admitted : Turn ι α → Prop
  | .call i _ => (s.place i).isOutside = true
  | .go _ => True

instance (turn : Turn ι α) : Decidable (s.Admitted turn) :=
  match turn with
  | .call _ _ => inferInstanceAs (Decidable (_ = _))
  | .go _ => inferInstanceAs (Decidable True)

end System

def step (body : Body σ ℓ α ρ) (s : System ι σ ℓ α ρ) : Turn ι α → Except Empty (System ι σ ℓ α ρ)
  | .call i args => .ok (s.goto i (.waiting args))
  | .go i => .ok (s.go body i)

/-- Calls one after another. -/
def serve (f : σ → α → ρ × σ) : σ → List α → List ρ × σ
  | s, [] => ([], s)
  | s, args :: rest =>
      let (ret, s') := f s args
      let (rets, s'') := serve f s' rest
      (ret :: rets, s'')

/-- The first calls and the others. -/
theorem serve_append {f : σ → α → ρ × σ} {s s' : σ} {calls calls' : List α} {rets rets' : List ρ}
    (h : serve f s (calls ++ calls') = (rets ++ rets', s')) (hLength : rets.length = calls.length) :
    ∃ middle, serve f s calls = (rets, middle) ∧ serve f middle calls' = (rets', s') := by
  induction calls generalizing s rets with
  | nil =>
      obtain rfl := List.length_eq_zero_iff.mp hLength
      exact ⟨s, rfl, h⟩
  | cons args rest ih =>
      cases rets with
      | nil => cases hLength
      | cons ret rets =>
          simp only [List.cons_append, serve, Prod.mk.injEq, List.cons.injEq] at h
          obtain ⟨middle, hFirst, hRest⟩ := ih (Prod.ext h.1.2 h.2) (Nat.succ.inj hLength)
          exact ⟨middle, by simp only [serve, hFirst, h.1.1], hRest⟩

theorem serve_snoc {f : σ → α → ρ × σ} {s s' s'' : σ} {calls : List α} {rets : List ρ} {args : α} {ret : ρ}
    (h : serve f s calls = (rets, s')) (hLast : f s' args = (ret, s'')) :
    serve f s (calls ++ [args]) = (rets ++ [ret], s'') := by
  induction calls generalizing s rets with
  | nil =>
      cases h
      simp only [List.nil_append, serve, hLast]
  | cons first rest ih =>
      simp only [serve] at h
      rcases hFirst : f s first with ⟨ret₁, s₁⟩
      rcases hRest : serve f s₁ rest with ⟨rets₁, s₂⟩
      rw [hFirst] at h
      simp only [hRest, Prod.mk.injEq] at h
      obtain ⟨rfl, rfl⟩ := h
      simp only [List.cons_append, serve, hFirst, ih hRest]

variable {body : Body σ ℓ α ρ} {f : σ → α → ρ × σ} {s : System ι σ ℓ α ρ} {first current shared : σ} {i j : ι}

/-- How far the thread with the lock got with its call, from the state that it found. -/
inductive Progress (body : Body σ ℓ α ρ) (current shared : σ) : Place ℓ α ρ → Prop where
  | inside {args : α} {l : ℓ} {n : Nat} (hAfter : body.after n current (body.enter args) = (shared, .inl l)) :
      Progress body current shared (.inside args l)
  | leaving {args : α} {ret : ρ} {n : Nat} (hAfter : body.after n current (body.enter args) = (shared, .inr ret)) :
      Progress body current shared (.leaving args ret)

/-- The calls that are done were made one after another, and one more is under way at
most. -/
structure Serial (body : Body σ ℓ α ρ) (f : σ → α → ρ × σ) (first current : σ) (s : System ι σ ℓ α ρ) : Prop where
  served : serve f first (s.done.map fun d => d.2.1) = (s.done.map fun d => d.2.2, current)
  unlocked : s.lock = none → s.shared = current
  locked : ∀ i, s.lock = some i → Progress body current s.shared (s.place i)
  others : ∀ i, s.lock ≠ some i → (s.place i).Free

omit [DecidableEq ι] in
theorem serial_start : Serial body f first first (start first : System ι σ ℓ α ρ) :=
  ⟨rfl, fun _ => rfl, fun _ hLock => absurd hLock.symm (Option.some_ne_none _), fun _ _ => trivial⟩

omit [DecidableEq ι] in
/-- A thread that is not free has the lock. -/
theorem Serial.lock_eq (h : Serial body f first current s) (hBusy : ¬(s.place i).Free) : s.lock = some i :=
  by_contra fun hOther => hBusy (h.others i hOther)

/-- The other threads stay where they are. -/
theorem Serial.others_goto (h : Serial body f first current s) {place : Place ℓ α ρ} {lock : Option ι}
    (hFree : lock ≠ some i → place.Free) (hLock : ∀ j, j ≠ i → lock ≠ some j → s.lock ≠ some j) :
    ∀ j, lock ≠ some j → ((s.goto i place).place j).Free := by
  intro j hNot
  by_cases hSame : j = i
  · subst hSame
    rw [System.goto]
    dsimp only
    rw [Function.update_self]
    exact hFree hNot
  · rw [System.goto]
    dsimp only
    rw [Function.update_of_ne hSame]
    exact h.others j (hLock j hSame hNot)

theorem Serial.call (h : Serial body f first current s) (args : α) (hOutside : (s.place i).isOutside = true) :
    Serial body f first current (s.goto i (.waiting args)) := by
  have hNot : s.lock ≠ some i := by
    intro hLock
    have hProgress := h.locked i hLock
    cases hPlace : s.place i with
    | outside =>
        rw [hPlace] at hProgress
        cases hProgress
    | waiting args => rw [hPlace] at hOutside; cases hOutside
    | inside args l => rw [hPlace] at hOutside; cases hOutside
    | leaving args ret => rw [hPlace] at hOutside; cases hOutside
  refine ⟨h.served, h.unlocked, fun j hLock => ?_, h.others_goto (fun _ => trivial) fun _ _ hNot => hNot⟩
  have hOther : j ≠ i := fun hSame => hNot (hSame ▸ hLock)
  rw [System.goto]
  dsimp only
  rw [Function.update_of_ne hOther]
  exact h.locked j hLock

theorem Serial.acquire (h : Serial body f first current s) (args : α) (hFree : s.lock = none) :
    Serial body f first current { s.goto i (.inside args (body.enter args)) with lock := some i } := by
  refine ⟨h.served, fun hLock => absurd hLock (Option.some_ne_none i), fun j hLock => ?_,
    h.others_goto (fun hNot => absurd rfl hNot) fun j _ _ hLock => ?_⟩
  · obtain rfl : i = j := Option.some.inj hLock
    show Progress body current s.shared (Function.update s.place i _ i)
    rw [Function.update_self, h.unlocked hFree]
    exact .inside (n := 0) rfl
  · rw [hFree] at hLock
    cases hLock

/-- The thread with the lock goes on. -/
theorem Serial.progress (h : Serial body f first current s) (hLock : s.lock = some i) {place : Place ℓ α ρ}
    (hProgress : Progress body current shared place) :
    Serial body f first current { s.goto i place with shared := shared } := by
  refine ⟨h.served, fun hFree => ?_, fun j hLock' => ?_,
    h.others_goto (fun hNot => absurd hLock hNot) fun _ _ hNot => hNot⟩
  · rw [show s.lock = none from hFree] at hLock
    cases hLock
  · obtain rfl : i = j := Option.some.inj (hLock.symm.trans hLock')
    show Progress body current shared (Function.update s.place i place i)
    rw [Function.update_self]
    exact hProgress

/-- The thread with the lock returns. -/
theorem Serial.release (h : Serial body f first current s) (hLock : s.lock = some i) {args : α} {ret : ρ}
    (hLast : f current args = (ret, s.shared)) :
    Serial body f first s.shared { s.goto i .outside with lock := none, done := s.done ++ [(i, args, ret)] } := by
  refine ⟨?_, fun _ => rfl, fun j hNone => absurd hNone.symm (Option.some_ne_none j),
    h.others_goto (fun _ => trivial) fun j hOther _ hSame => ?_⟩
  · show serve f first ((s.done ++ [(i, args, ret)]).map _) = ((s.done ++ [(i, args, ret)]).map _, _)
    rw [List.map_append, List.map_append]
    exact serve_snoc h.served hLast
  · rw [hLock] at hSame
    exact hOther (Option.some.inj hSame).symm

/-- Every step of a thread keeps the calls in a row. -/
theorem Serial.go (h : Serial body f first current s) (hBody : body.Computes f) (i : ι) :
    ∃ current', Serial body f first current' (s.go body i) := by
  cases hPlace : s.place i with
  | outside =>
      simp only [System.go, hPlace]
      exact ⟨current, h⟩
  | waiting args =>
      simp only [System.go, hPlace]
      cases hLock : s.lock with
      | none => exact ⟨current, h.acquire args hLock⟩
      | some j => exact ⟨current, h⟩
  | inside args l =>
      have hLock : s.lock = some i := h.lock_eq (by rw [hPlace]; exact id)
      have hProgress := h.locked i hLock
      rw [hPlace] at hProgress
      cases hProgress with
      | inside hAfter =>
          have hNext := Body.after_succ hAfter
          simp only [System.go, hPlace]
          rcases hAccess : body.access s.shared l with ⟨shared, l' | ret⟩
          · rw [hAccess] at hNext
            exact ⟨current, h.progress hLock (.inside hNext)⟩
          · rw [hAccess] at hNext
            exact ⟨current, h.progress hLock (.leaving hNext)⟩
  | leaving args ret =>
      have hLock : s.lock = some i := h.lock_eq (by rw [hPlace]; exact id)
      have hProgress := h.locked i hLock
      rw [hPlace] at hProgress
      cases hProgress with
      | leaving hAfter =>
          simp only [System.go, hPlace]
          exact ⟨s.shared, h.release hLock (hBody.eq hAfter)⟩

/-- In every run the calls are made one after another. -/
theorem serial_of_reached (hBody : body.Computes f)
    (hReached : Run.Reached (step body) System.Admitted (start first) s) :
    ∃ current, Serial body f first current s := by
  refine hReached.invariant (fun s => ∃ current, Serial body f first current s) ⟨first, serial_start⟩ ?_
  rintro s turn s' ⟨current, h⟩ hAdmitted hStep
  cases turn with
  | call i args =>
      cases hStep
      exact ⟨current, h.call args hAdmitted⟩
  | go i =>
      cases hStep
      exact h.go hBody i

end Locked
