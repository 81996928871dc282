import Mathlib.Algebra.Group.Nat.Defs
import Mathlib.Data.List.Nodup
import Mathlib.Data.List.Perm.Basic
import Mathlib.Logic.Function.Basic
import Mathlib.Tactic.Common

/-! `include/peak_prealloc.h`: chunks of one size, where a chunk that is not in
use holds the link to another one. -/
namespace Peak.Prealloc

/-- `struct peak_prealloc` at the start of whatever a chunk is used for. -/
structure Overlay (C : Type) where
  next : C → Option Nat
  setNext : C → Option Nat → C
  next_setNext : ∀ c p, next (setNext c p) = p

/-- `prealloc_t`. -/
structure Pool where
  free : Option Nat
  used : Nat
  size : Nat
  memStart : Nat
  memStop : Nat
deriving DecidableEq, Repr

variable {C : Type} (o : Overlay C) (mem : Nat → C)

/-- `prealloc_get`. -/
def Pool.get (self : Pool) : Option Nat × Pool :=
  match self.free with
  | none => (none, self)
  | some e => (some e, { self with free := o.next (mem e), used := (self.used + 1) % 2 ^ 64 })

/-- A store to the link of a chunk. -/
def link (e : Nat) (p : Option Nat) : Nat → C := Function.update mem e (o.setNext (mem e) p)

/-- `prealloc_put`, with what it leaves in memory. -/
def Pool.put (self : Pool) (p : Option Nat) : Pool × (Nat → C) :=
  match p with
  | none => (self, mem)
  | some e =>
      ({ self with free := some e, used := (self.used + 2 ^ 64 - 1) % 2 ^ 64 }, link o mem e self.free)

/-- The loop of `prealloc_init`: as many chunks as given go behind `e`. -/
def insertAfter (size : Nat) : Nat → Nat → (Nat → C) → Nat → C
  | 0, _, mem => mem
  | count + 1, e, mem =>
      let mem := link o mem (e + size) (o.next (mem e))
      insertAfter size count (e + size) (link o mem e (some (e + size)))

/-- `prealloc_init` with the memory that `malign` grants. -/
def init (count size : Nat) (granted : Option Nat) : Option (Pool × (Nat → C)) :=
  if count = 0 ∨ size = 0 then none
  else if size % 8 ≠ 0 then none
  else
    match granted with
    | none => none
    | some e =>
        some (⟨some e, 0, size, e, e + count * size⟩, insertAfter o size (count - 1) e (link o mem e none))

/-- The links lead from one listed chunk to the next. -/
def Chain : Option Nat → List Nat → Prop
  | p, [] => p = none
  | p, e :: free => p = some e ∧ Chain (o.next (mem e)) free

/-- Every chunk is either claimed or in the chain of free ones. -/
structure Holds (pool : Pool) (chunks claimed free : List Nat) : Prop where
  chain : Chain o mem pool.free free
  used : pool.used = claimed.length
  perm : (claimed ++ free).Perm chunks
  nodup : chunks.Nodup
  few : chunks.length < 2 ^ 64

/-- The chunks of a pool, from the start of its memory on. -/
def chunksFrom (e size count : Nat) : List Nat := (List.range count).map fun i => e + i * size

variable {o mem} {mem' : Nat → C} {self : Pool} {chunks claimed claimed' free : List Nat}
variable {e size count : Nat} {p : Option Nat}

@[simp] theorem link_same : link o mem e p e = o.setNext (mem e) p := Function.update_self ..

theorem link_of_ne {a : Nat} (h : a ≠ e) : link o mem e p a = mem a := Function.update_of_ne h ..

theorem Chain.congr (h : Chain o mem p free) (hSame : ∀ a ∈ free, mem' a = mem a) :
    Chain o mem' p free := by
  induction free generalizing p with
  | nil => exact h
  | cons e free ih =>
      obtain ⟨hFirst, hRest⟩ := h
      rw [Chain, hSame e List.mem_cons_self]
      exact ⟨hFirst, ih hRest fun a ha => hSame a (List.mem_cons_of_mem e ha)⟩

theorem Chain.of_next (h : Chain o mem p free) (hNext : ∀ a, o.next (mem' a) = o.next (mem a)) :
    Chain o mem' p free := by
  induction free generalizing p with
  | nil => exact h
  | cons e free ih =>
      obtain ⟨hFirst, hRest⟩ := h
      rw [Chain, hNext e]
      exact ⟨hFirst, ih hRest⟩

/-- Only the links of the chunks matter. -/
theorem Holds.of_next (h : Holds o mem self chunks claimed free) (hNext : ∀ a, o.next (mem' a) = o.next (mem a)) :
    Holds o mem' self chunks claimed free :=
  ⟨h.chain.of_next hNext, h.used, h.perm, h.nodup, h.few⟩

/-- Chunks in use may be written to. -/
theorem Holds.congr (h : Holds o mem self chunks claimed free) (hSame : ∀ a ∈ free, mem' a = mem a) :
    Holds o mem' self chunks claimed free :=
  ⟨h.chain.congr hSame, h.used, h.perm, h.nodup, h.few⟩

theorem Holds.claimed_perm (h : Holds o mem self chunks claimed free) (hPerm : claimed.Perm claimed') :
    Holds o mem self chunks claimed' free :=
  ⟨h.chain, h.used.trans hPerm.length_eq, (hPerm.symm.append_right free).trans h.perm, h.nodup, h.few⟩

theorem Holds.nodup_append (h : Holds o mem self chunks claimed free) : (claimed ++ free).Nodup :=
  h.perm.nodup_iff.mpr h.nodup

theorem Holds.of_claimed (h : Holds o mem self chunks claimed free) (he : e ∈ claimed) : e ∈ chunks :=
  h.perm.mem_iff.mp (List.mem_append_left free he)

theorem Holds.of_free (h : Holds o mem self chunks claimed free) (he : e ∈ free) : e ∈ chunks :=
  h.perm.mem_iff.mp (List.mem_append_right claimed he)

/-- No chunk is claimed and free at once. -/
theorem Holds.not_free (h : Holds o mem self chunks claimed free) (he : e ∈ claimed) : e ∉ free :=
  fun hFree => (List.nodup_append.mp h.nodup_append).2.2 e he e hFree rfl

theorem Holds.head_mem (h : Holds o mem self chunks claimed free) (hFree : self.free = some e) :
    e ∈ free := by
  have hChain := h.chain
  rw [hFree] at hChain
  cases free with
  | nil => cases hChain
  | cons e' free =>
      cases hChain.1
      exact List.mem_cons_self

/-- The head of the chain is a chunk that is not in use. -/
theorem Holds.free_ne (h : Holds o mem self chunks claimed free) {a : Nat} (ha : a ∈ claimed) :
    self.free ≠ some a :=
  fun hFree => h.not_free ha (h.head_mem hFree)

theorem Holds.get_none (h : Holds o mem self chunks claimed []) : self.get o mem = (none, self) := by
  rw [Pool.get, h.chain]

theorem Holds.get_some (h : Holds o mem self chunks claimed (e :: free)) :
    ∃ self', self.get o mem = (some e, self') ∧ Holds o mem self' chunks (e :: claimed) free := by
  obtain ⟨hFirst, hRest⟩ := h.chain
  have hPerm : (e :: claimed ++ free).Perm chunks := List.perm_middle.symm.trans h.perm
  have hLength := hPerm.length_eq
  have hFew := h.few
  rw [List.cons_append, List.length_cons, List.length_append] at hLength
  refine ⟨_, by rw [Pool.get, hFirst], hRest, ?_, hPerm, h.nodup, h.few⟩
  rw [h.used, List.length_cons]
  exact Nat.mod_eq_of_lt (by omega)

theorem Holds.put (h : Holds o mem self chunks (e :: claimed) free) :
    Holds o (self.put o mem (some e)).2 (self.put o mem (some e)).1 chunks claimed (e :: free) := by
  have hNodup := h.nodup_append
  have hLength := h.perm.length_eq
  have hFew := h.few
  rw [List.cons_append, List.length_cons, List.length_append] at hLength
  rw [List.cons_append, List.nodup_cons] at hNodup
  refine ⟨⟨rfl, ?_⟩, ?_, List.perm_middle.trans h.perm, h.nodup, h.few⟩
  · show Chain o (link o mem e self.free) (o.next (link o mem e self.free e)) free
    rw [link_same, o.next_setNext]
    apply h.chain.congr
    intro a ha
    exact link_of_ne fun hSame => hNodup.1 (List.mem_append_right _ (hSame ▸ ha))
  · show (self.used + 2 ^ 64 - 1) % 2 ^ 64 = claimed.length
    rw [h.used, List.length_cons]
    omega

theorem chunksFrom_succ (e size count : Nat) :
    chunksFrom e size (count + 1) = e :: chunksFrom (e + size) size count := by
  rw [chunksFrom, List.range_succ_eq_map, List.map_cons, List.map_map, Nat.zero_mul, Nat.add_zero]
  congr 1
  apply List.map_congr_left
  intro i _
  show e + (i + 1) * size = e + size + i * size
  rw [Nat.succ_mul]
  omega

theorem nodup_chunksFrom (e count : Nat) (hSize : 0 < size) : (chunksFrom e size count).Nodup := by
  apply List.Nodup.map_on _ List.nodup_range
  intro i _ j _ hSame
  exact Nat.eq_of_mul_eq_mul_right hSize (Nat.add_left_cancel hSame)

/-- The loop writes to no chunk in front of the one that it goes on from. -/
theorem insertAfter_of_lt {a : Nat} (h : a < e) : insertAfter o size count e mem a = mem a := by
  induction count generalizing e mem with
  | zero => rfl
  | succ count ih =>
      rw [insertAfter]
      rw [ih (by omega), link_of_ne (by omega), link_of_ne (by omega)]

/-- The chain grows at its end. -/
theorem chain_insertAfter (hSize : 0 < size) (hEnd : o.next (mem e) = none) :
    Chain o (insertAfter o size count e mem) (some e) (chunksFrom e size (count + 1)) := by
  induction count generalizing e mem with
  | zero =>
      rw [chunksFrom_succ]
      exact ⟨rfl, hEnd⟩
  | succ count ih =>
      rw [insertAfter, chunksFrom_succ]
      refine ⟨rfl, ?_⟩
      rw [insertAfter_of_lt (by omega), link_same, o.next_setNext]
      apply ih
      rw [link_of_ne (by omega), link_same, o.next_setNext, hEnd]

/-- A new pool has all its chunks in the chain. -/
theorem init_holds {pool : Pool} {granted : Option Nat} (hCount : count < 2 ^ 64)
    (h : init o mem count size granted = some (pool, mem')) :
    Holds o mem' pool (chunksFrom pool.memStart size count) [] (chunksFrom pool.memStart size count) ∧
      granted = some pool.memStart := by
  unfold init at h
  split_ifs at h with hNone hAlign
  cases granted with
  | none => cases h
  | some e =>
      cases h
      obtain ⟨hCount', hSize⟩ := not_or.mp hNone
      have hSize := Nat.pos_of_ne_zero hSize
      obtain ⟨count, rfl⟩ := Nat.exists_eq_succ_of_ne_zero hCount'
      refine ⟨⟨?_, rfl, .refl _, nodup_chunksFrom e _ hSize, ?_⟩, rfl⟩
      · exact chain_insertAfter hSize (by rw [link_same, o.next_setNext])
      · rw [chunksFrom, List.length_map, List.length_range]
        exact hCount

end Peak.Prealloc
