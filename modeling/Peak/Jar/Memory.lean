import Mathlib.Algebra.Group.Nat.Defs
import Mathlib.Logic.Function.Basic
import Peak.Base.Cells
import Peak.Base.TailQueue

/-! The memory behind `lib/peak_jar.c`: the circular buffer byte by byte, and
the queue heads of the jar and of its contexts outside of it. Numbers lie in the
buffer as little-endian bytes; a pointer is eight cells that know which pointer
they belong to, so that overwriting one of them destroys it. -/
namespace Peak.Jar

open TailQueue

/-- The addresses of queue links: the head of the serial headers, the head of a
context, and the entries in the buffer. -/
inductive Pair where
  | heads
  | datas (context : Nat)
  | entry (off : Nat)
deriving DecidableEq, Repr

/-- One byte of the buffer: a number, a part of a pointer to an entry, a part of
a pointer to a pair of links, or whatever the system left there. -/
inductive Cell where
  | byte (value : UInt8)
  | next (off part : Nat)
  | prev (pair : Pair) (part : Nat)
  | unknown
deriving DecidableEq, Repr

/-- A pointer to an entry. The null pointer is all zero. -/
def nextCells : Option Nat → List Cell
  | none => List.replicate 8 (.byte 0)
  | some off => (List.range 8).map (.next off)

def decodeNext (cells : List Cell) : Option (Option Nat) :=
  if cells = nextCells none then some none
  else
    match cells with
    | .next off _ :: _ => if cells = nextCells (some off) then some (some off) else none
    | _ => none

/-- A pointer to a pair of links. -/
def prevCells (pair : Pair) : List Cell := (List.range 8).map (.prev pair)

def decodePrev (cells : List Cell) : Option Pair :=
  match cells with
  | .prev pair _ :: _ => if cells = prevCells pair then some pair else none
  | _ => none

/-- A number of `width` bytes, least significant byte first. -/
def leCells : Nat → Nat → List Cell
  | 0, _ => []
  | width + 1, value => .byte (UInt8.ofNat value) :: leCells width (value / 256)

def decodeLe : List Cell → Option Nat
  | [] => some 0
  | .byte value :: rest => (decodeLe rest).map fun high => value.toNat + 256 * high
  | _ => none

@[simp] theorem nextCells_length (target : Option Nat) : (nextCells target).length = 8 := by
  cases target <;> simp [nextCells]

@[simp] theorem prevCells_length (pair : Pair) : (prevCells pair).length = 8 := by
  simp [prevCells]

@[simp] theorem leCells_length (width value : Nat) : (leCells width value).length = width := by
  induction width generalizing value with
  | zero => rfl
  | succ width ih => simp [leCells, ih]

@[simp] theorem decodeNext_nextCells (target : Option Nat) :
    decodeNext (nextCells target) = some target := by
  cases target with
  | none => simp [decodeNext]
  | some off =>
      have hHead : nextCells (some off) = .next off 0 :: (nextCells (some off)).tail := rfl
      have hNull : nextCells none = .byte 0 :: (nextCells none).tail := rfl
      have hNe : nextCells (some off) ≠ nextCells none := fun h => by
        rw [hHead, hNull] at h
        exact Cell.noConfusion (List.head_eq_of_cons_eq h)
      simp only [decodeNext, if_neg hNe]
      rw [hHead]
      simp only [← hHead, if_true]

@[simp] theorem decodePrev_prevCells (pair : Pair) : decodePrev (prevCells pair) = some pair := by
  have hHead : prevCells pair = .prev pair 0 :: (prevCells pair).tail := rfl
  simp only [decodePrev]
  rw [hHead]
  simp only [← hHead, if_true]

@[simp] theorem decodeLe_leCells (width value : Nat) :
    decodeLe (leCells width value) = some (value % 256 ^ width) := by
  induction width generalizing value with
  | zero => simp [leCells, decodeLe, Nat.mod_one]
  | succ width ih =>
      simp only [leCells, decodeLe, ih, Option.map_some, Option.some.injEq]
      rw [Nat.pow_succ', Nat.mod_mul, UInt8.toNat_ofNat']

/-- `TAILQ_HEAD`. -/
structure QueueHead where
  first : Option Nat
  last : Pair
deriving DecidableEq, Repr

/-- `struct peak_jars` with the contents of its buffer. -/
structure Jars where
  heads : QueueHead
  firstSerial : Nat
  lastSerial : Nat
  buffer : Nat → Cell
  write : Nat
  read : Nat
  size : Nat

/-- The fields that are plain numbers. -/
def Jars.fields (jars : Jars) : List Nat :=
  [jars.firstSerial, jars.lastSerial, jars.write, jars.read, jars.size]

theorem Jars.fields_eq_iff {jars jars' : Jars} :
    jars'.fields = jars.fields ↔
      jars'.firstSerial = jars.firstSerial ∧ jars'.lastSerial = jars.lastSerial ∧
        jars'.write = jars.write ∧ jars'.read = jars.read ∧ jars'.size = jars.size := by
  simp [fields]

/-- `struct peak_jar`. -/
structure Context where
  datas : QueueHead
  firstSerial : Nat
  lastSerial : Nat

def Context.serials (context : Context) : List Nat := [context.firstSerial, context.lastSerial]

/-- A jar and the contexts that are used with it. -/
structure Shelf where
  jars : Jars
  contexts : Nat → Context

namespace Shelf

variable (s : Shelf)

def store (off : Nat) (cells : List Cell) : Shelf :=
  { s with jars := { s.jars with buffer := Cells.write s.jars.buffer off cells } }

def cells (off count : Nat) : List Cell := Cells.read s.jars.buffer off count

/-- A number in the buffer. -/
def number (off width : Nat) : Option Nat := decodeLe (s.cells off width)

def setContext (c : Nat) (context : Context) : Shelf :=
  { s with contexts := Function.update s.contexts c context }

def next : Pair → Option (Option Nat)
  | .heads => some s.jars.heads.first
  | .datas c => some (s.contexts c).datas.first
  | .entry off => decodeNext (s.cells off 8)

def prev : Pair → Option Pair
  | .heads => some s.jars.heads.last
  | .datas c => some (s.contexts c).datas.last
  | .entry off => decodePrev (s.cells (off + 8) 8)

def setNext (target : Pair) (value : Option Nat) : Shelf :=
  match target with
  | .heads => { s with jars := { s.jars with heads := { s.jars.heads with first := value } } }
  | .datas c =>
      s.setContext c
        { s.contexts c with datas := { (s.contexts c).datas with first := value } }
  | .entry off => s.store off (nextCells value)

def setPrev (target value : Pair) : Shelf :=
  match target with
  | .heads => { s with jars := { s.jars with heads := { s.jars.heads with last := value } } }
  | .datas c =>
      s.setContext c
        { s.contexts c with datas := { (s.contexts c).datas with last := value } }
  | .entry off => s.store (off + 8) (prevCells value)

end Shelf

/-- The queue macros work on these links. -/
def links : Links Shelf Pair Nat where
  elem := .entry
  next := Shelf.next
  prev := Shelf.prev
  setNext := Shelf.setNext
  setPrev := Shelf.setPrev

/-- Pairs that share no byte. -/
def Apart : Pair → Pair → Prop
  | .heads, .heads => False
  | .datas c, .datas d => c ≠ d
  | .entry off, .entry off' => off + 16 ≤ off' ∨ off' + 16 ≤ off
  | _, _ => True

@[simp] theorem buffer_store (s : Shelf) (off : Nat) (cells : List Cell) :
    (s.store off cells).jars.buffer = Cells.write s.jars.buffer off cells := rfl

/-- What was stored is read back. -/
theorem cells_store (s : Shelf) (off : Nat) (cells : List Cell) {count : Nat}
    (hCount : cells.length = count) : (s.store off cells).cells off count = cells := by
  subst hCount
  exact Cells.read_write _ _ _

theorem cells_store_outside (s : Shelf) {off at_ count : Nat} {cells : List Cell}
    (h : at_ + count ≤ off ∨ off + cells.length ≤ at_) :
    (s.store off cells).cells at_ count = s.cells at_ count :=
  Cells.read_write_outside h

/-- The links of a pair lie in both shelves alike. -/
def Same (s s' : Shelf) : Pair → Prop
  | .heads => s'.jars.heads = s.jars.heads
  | .datas c => (s'.contexts c).datas = (s.contexts c).datas
  | .entry off => ∀ i, off ≤ i → i < off + 16 → s'.jars.buffer i = s.jars.buffer i

variable {s s' s'' : Shelf} {a b : Pair} {xs : List Nat} {pairs : List Pair}

theorem Same.trans (h : Same s s' a) (h' : Same s' s'' a) : Same s s'' a := by
  cases a with
  | heads => exact Eq.trans h' h
  | datas c => exact Eq.trans h' h
  | entry off => exact fun i hLow hHigh => (h' i hLow hHigh).trans (h i hLow hHigh)

theorem Same.next (h : Same s s' a) : links.next s' a = links.next s a := by
  cases a with
  | heads => exact congrArg (fun head => some head.first) h
  | datas c => exact congrArg (fun head => some head.first) h
  | entry off =>
      refine congrArg decodeNext (Cells.read_congr fun i hLow hHigh => h i hLow ?_)
      omega

theorem Same.prev (h : Same s s' a) : links.prev s' a = links.prev s a := by
  cases a with
  | heads => exact congrArg (fun head => some head.last) h
  | datas c => exact congrArg (fun head => some head.last) h
  | entry off =>
      refine congrArg decodePrev (Cells.read_congr fun i hLow hHigh => h i ?_ ?_) <;> omega

/-- A store to bytes that are not the pair's. -/
theorem same_store {off : Nat} {cells : List Cell}
    (h : ∀ at_, a = .entry at_ → at_ + 16 ≤ off ∨ off + cells.length ≤ at_) :
    Same s (s.store off cells) a := by
  cases a with
  | heads => rfl
  | datas c => rfl
  | entry at_ =>
      intro i hLow hHigh
      have hAway := h at_ rfl
      exact Cells.write_outside (by omega)

theorem same_setNext (v : Option Nat) (h : Apart a b) : Same s (links.setNext s a v) b := by
  cases a with
  | heads => cases b <;> first | exact h.elim | rfl | exact fun _ _ _ => rfl
  | datas c =>
      cases b with
      | heads => rfl
      | datas d => simp [Same, links, Shelf.setNext, Shelf.setContext, Function.update_of_ne (Ne.symm h)]
      | entry off => exact fun _ _ _ => rfl
  | entry off =>
      apply same_store
      rintro at_ rfl
      simp only [Apart, nextCells_length] at h ⊢
      omega

theorem same_setPrev (v : Pair) (h : Apart a b) : Same s (links.setPrev s a v) b := by
  cases a with
  | heads => cases b <;> first | exact h.elim | rfl | exact fun _ _ _ => rfl
  | datas c =>
      cases b with
      | heads => rfl
      | datas d => simp [Same, links, Shelf.setPrev, Shelf.setContext, Function.update_of_ne (Ne.symm h)]
      | entry off => exact fun _ _ _ => rfl
  | entry off =>
      apply same_store
      rintro at_ rfl
      simp only [Apart, prevCells_length] at h ⊢
      omega

theorem links_lawful : Lawful links Apart where
  symm := by
    intro a b h
    cases a <;> cases b <;> simp_all [Apart] <;> omega
  irrefl := by
    intro a h
    cases a with
    | heads => exact h
    | datas c => exact h rfl
    | entry off =>
        simp only [Apart] at h
        omega
  next_setNext := by
    intro s a v
    cases a with
    | heads => rfl
    | datas c => simp [links, Shelf.next, Shelf.setNext, Shelf.setContext]
    | entry off =>
        simp only [links, Shelf.next, Shelf.setNext]
        rw [cells_store _ _ _ (nextCells_length v), decodeNext_nextCells]
  prev_setPrev := by
    intro s a v
    cases a with
    | heads => rfl
    | datas c => simp [links, Shelf.prev, Shelf.setPrev, Shelf.setContext]
    | entry off =>
        simp only [links, Shelf.prev, Shelf.setPrev]
        rw [cells_store _ _ _ (prevCells_length v), decodePrev_prevCells]
  next_setNext_apart := fun _ _ _ v h => (same_setNext v h).next
  prev_setPrev_apart := fun _ _ _ v h => (same_setPrev v h).prev
  prev_setNext := by
    rintro s a b v (rfl | h)
    · cases a with
      | heads => rfl
      | datas c => simp [links, Shelf.prev, Shelf.setNext, Shelf.setContext]
      | entry off =>
          refine congrArg decodePrev (cells_store_outside s (.inr ?_))
          exact Nat.le_of_eq (congrArg (off + ·) (nextCells_length v))
    · exact (same_setNext v h).prev
  next_setPrev := by
    rintro s a b v (rfl | h)
    · cases a with
      | heads => rfl
      | datas c => simp [links, Shelf.next, Shelf.setPrev, Shelf.setContext]
      | entry off => exact congrArg decodeNext (cells_store_outside s (.inl (Nat.le_refl _)))
    · exact (same_setPrev v h).next

/-- Stores to links keep the links of a pair that is apart from all of them. -/
theorem same_touches (h : links.Touches pairs s s') (hApart : ∀ p ∈ pairs, Apart p a) :
    Same s s' a := by
  induction h with
  | refl => cases a <;> first | rfl | exact fun _ _ _ => rfl
  | next v _ hp ih => exact ih.trans (same_setNext v (hApart _ hp))
  | prev v _ hp ih => exact ih.trans (same_setPrev v (hApart _ hp))

theorem path_same (h : links.Path s a xs) (hSame : ∀ p ∈ links.pairs a xs, Same s s' p) :
    links.Path s' a xs := by
  induction xs generalizing a with
  | nil => trivial
  | cons x xs ih =>
      have hRest : ∀ p ∈ links.pairs (links.elem x) xs, Same s s' p := fun p hp =>
        hSame p (List.mem_cons_of_mem _ hp)
      refine ⟨?_, ?_, ih h.2.2 hRest⟩
      · exact (hSame a List.mem_cons_self).next.trans h.1
      · exact (hRest _ List.mem_cons_self).prev.trans h.2.1

theorem queue_same (h : links.Queue Apart s a xs) (hSame : ∀ p ∈ links.pairs a xs, Same s s' p) :
    links.Queue Apart s' a xs where
  path := path_same h.path hSame
  tail := (hSame _ (lastPair_mem links a xs)).next.trans h.tail
  last := (hSame a List.mem_cons_self).prev.trans h.last
  apart := h.apart

/-- Stores to links change no byte outside of their entries. -/
theorem buffer_touches {i : Nat} (h : links.Touches pairs s s')
    (hClear : ∀ off, .entry off ∈ pairs → i < off ∨ off + 16 ≤ i) :
    s'.jars.buffer i = s.jars.buffer i := by
  refine h.observe (fun s => s.jars.buffer i) fun p hp => ?_
  cases p with
  | heads => exact ⟨fun _ _ => rfl, fun _ _ => rfl⟩
  | datas c => exact ⟨fun _ _ => rfl, fun _ _ => rfl⟩
  | entry off =>
      have hOff := hClear off hp
      constructor <;> intro m v <;> apply Cells.write_outside
      · rw [nextCells_length]
        omega
      · rw [prevCells_length]
        omega

/-- They change no plain field of the jar. -/
theorem fields_touches (h : links.Touches pairs s s') : s'.jars.fields = s.jars.fields := by
  refine h.observe (fun s => s.jars.fields) fun p _ => ?_
  cases p <;> exact ⟨fun _ _ => rfl, fun _ _ => rfl⟩

/-- They do not change the serials of a context. -/
theorem serials_touches (h : links.Touches pairs s s') (c : Nat) :
    (s'.contexts c).serials = (s.contexts c).serials := by
  refine h.observe (fun s => (s.contexts c).serials) fun p _ => ?_
  cases p with
  | heads => exact ⟨fun _ _ => rfl, fun _ _ => rfl⟩
  | datas d =>
      constructor <;> intro m v <;> by_cases hEq : c = d
      · subst hEq
        simp [links, Shelf.setNext, Shelf.setContext, Context.serials]
      · simp [links, Shelf.setNext, Shelf.setContext, Function.update_of_ne hEq]
      · subst hEq
        simp [links, Shelf.setPrev, Shelf.setContext, Context.serials]
      · simp [links, Shelf.setPrev, Shelf.setContext, Function.update_of_ne hEq]
  | entry off => exact ⟨fun _ _ => rfl, fun _ _ => rfl⟩

end Peak.Jar
