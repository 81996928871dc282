import Peak.Base.Run
import Peak.Guards
import Peak.Prealloc

/-! The pools of `include/peak_prealloc.h` in the bytes of the machine, with the
calls that their users make. The link of a free chunk is the pointer in its first
eight bytes; a claimed one belongs to its user, who may write anything to it. -/
namespace Peak.Chunks

open Pointers Prealloc Guarded

variable (m : Nat → UInt8)

/-- `prealloc_get`. -/
def get (self : Pool) : Option Nat × Pool :=
  match self.free with
  | none => (none, self)
  | some e => (some e, { self with free := load m e, used := (self.used + 1) % 2 ^ 64 })

/-- `prealloc_put`, with what it leaves in memory. -/
def put (self : Pool) : Option Nat → Pool × (Nat → UInt8)
  | none => (self, m)
  | some e =>
      ({ self with free := some e, used := (self.used + 2 ^ 64 - 1) % 2 ^ 64 }, store m e self.free)

/-- The loop of `prealloc_init`: as many chunks as given go behind `e`. -/
def insertAfter (size : Nat) : Nat → Nat → (Nat → UInt8) → Nat → UInt8
  | 0, _, m => m
  | count + 1, e, m =>
      let m := store m (e + size) (load m e)
      insertAfter size count (e + size) (store m e (some (e + size)))

/-- `prealloc_init`, with what it leaves in memory. -/
def init (system : Nat → Option Nat) (count size : Nat) : Option (Pool × (Nat → UInt8)) :=
  if count = 0 ∨ size = 0 then none
  else if size &&& 0x7 ≠ 0 then none
  else
    match malign m system count size with
    | none => none
    | some (e, m) =>
        some (⟨some e, 0, size, e, e + count * size % 2 ^ 64⟩,
          insertAfter size (count - 1) e (store m e none))

/-- `_prealloc_exit`: what it returns, or the panic of `free`. -/
def exit (self : Pool) : Except String Nat :=
  if self.used ≠ 0 then .ok 1
  else do
    allocError (peakFree m (some self.memStart))
    return 0

/-- A pool in use, and the chunks that were claimed and not put back. -/
structure Use where
  pool : Pool
  mem : Nat → UInt8
  claimed : List Nat

/-- What a user of the pool does next. -/
inductive Call where
  | get
  | put (chunk : Nat)
  | write (addr : Nat) (byte : UInt8)

namespace Use

/-- Do it. -/
def step (s : Use) : Call → Except Empty Use
  | .get =>
      let (ret, pool) := Chunks.get s.mem s.pool
      .ok { s with pool, claimed := ret.toList ++ s.claimed }
  | .put chunk =>
      let (pool, mem) := Chunks.put s.mem s.pool (some chunk)
      .ok ⟨pool, mem, s.claimed.erase chunk⟩
  | .write addr byte => .ok { s with mem := Function.update s.mem addr byte }

/-- Users put back what they claimed, and write to it and to what is not the pool's. -/
def Allows (s : Use) : Call → Prop
  | .get => True
  | .put chunk => chunk ∈ s.claimed
  | .write addr _ =>
      (∃ e ∈ s.claimed, e ≤ addr ∧ addr < e + s.pool.size) ∨
        addr < s.pool.memStart - malignHead ∨ s.pool.memStop + 8 ≤ addr

instance (s : Use) : ∀ call, Decidable (s.Allows call)
  | .get => isTrue trivial
  | .put chunk => inferInstanceAs (Decidable (chunk ∈ s.claimed))
  | .write addr _ =>
      inferInstanceAs (Decidable ((∃ e ∈ s.claimed, e ≤ addr ∧ addr < e + s.pool.size) ∨
        addr < s.pool.memStart - malignHead ∨ s.pool.memStop + 8 ≤ addr))

end Use

/-! Where the chunks lie. -/

/-- Chunks with room for a link, at addresses of the machine and behind a header. -/
structure Laid (start count size : Nat) : Prop where
  wide : 8 ≤ size
  front : 64 ≤ start
  back : start + count * size + 8 ≤ 2 ^ 64

variable {m} {m' : Nat → UInt8} {start count size a b e n : Nat} {p : Option Nat}
variable {self : Pool} {links : Nat → Option Nat} {claimed free : List Nat}

theorem mem_chunksFrom : a ∈ chunksFrom start size count ↔ ∃ i < count, a = start + i * size := by
  simp only [chunksFrom, List.mem_map, List.mem_range, eq_comm]

theorem chunk_within (ha : a ∈ chunksFrom start size count) :
    start ≤ a ∧ a + size ≤ start + count * size := by
  obtain ⟨i, hi, rfl⟩ := mem_chunksFrom.mp ha
  have hLast : (i + 1) * size ≤ count * size := Nat.mul_le_mul_right size hi
  rw [Nat.succ_mul] at hLast
  omega

/-- Two chunks share no byte. -/
theorem chunks_apart (ha : a ∈ chunksFrom start size count) (hb : b ∈ chunksFrom start size count)
    (hOther : a ≠ b) : a + size ≤ b ∨ b + size ≤ a := by
  obtain ⟨i, -, rfl⟩ := mem_chunksFrom.mp ha
  obtain ⟨j, -, rfl⟩ := mem_chunksFrom.mp hb
  rcases Nat.lt_trichotomy i j with hLess | rfl | hLess
  · have hLow : (i + 1) * size ≤ j * size := Nat.mul_le_mul_right size hLess
    rw [Nat.succ_mul] at hLow
    omega
  · exact absurd rfl hOther
  · have hLow : (j + 1) * size ≤ i * size := Nat.mul_le_mul_right size hLess
    rw [Nat.succ_mul] at hLow
    omega

theorem Laid.storable (hLaid : Laid start count size) (ha : a ∈ chunksFrom start size count) :
    Storable (some a) := by
  intro b hb
  obtain rfl := Option.mem_some_iff.mp hb
  obtain ⟨hLow, hHigh⟩ := chunk_within ha
  obtain ⟨hWide, hFront, hBack⟩ := hLaid
  omega

/-- A store to the link of one chunk leaves the others alone. -/
theorem Laid.load_store_ne (hLaid : Laid start count size) (ha : a ∈ chunksFrom start size count)
    (he : e ∈ chunksFrom start size count) (hOther : a ≠ e) : load (store m e p) a = load m a := by
  have hApart := chunks_apart ha he hOther
  have hWide := hLaid.wide
  exact load_congr (word_store_apart (by omega))

/-! The links of the chunks are those of `Prealloc`, as long as they are looked at
where a chunk starts. -/

/-- A link as all there is of a chunk. -/
def words : Overlay (Option Nat) where
  next := id
  setNext _ p := p
  next_setNext _ _ := rfl

/-- The bytes of the chunks hold these links. -/
def Shows (m : Nat → UInt8) (links : Nat → Option Nat) (chunks : List Nat) : Prop :=
  ∀ a ∈ chunks, load m a = links a

theorem Shows.store (hLaid : Laid start count size)
    (h : Shows m links (chunksFrom start size count)) (he : e ∈ chunksFrom start size count)
    (hp : Storable p) :
    Shows (store m e p) (link words links e p) (chunksFrom start size count) := by
  intro a ha
  by_cases hSame : a = e
  · rw [hSame, load_store hp, link_same]
    rfl
  · rw [hLaid.load_store_ne ha he hSame, link_of_ne hSame]
    exact h a ha

theorem Shows.insertAfter (hLaid : Laid start count size)
    (h : Shows m links (chunksFrom start size count))
    (hChunks : ∀ i ≤ n, e + i * size ∈ chunksFrom start size count) :
    Shows (insertAfter size n e m) (Prealloc.insertAfter words size n e links)
      (chunksFrom start size count) := by
  induction n generalizing e m links with
  | zero => exact h
  | succ n ih =>
      have hFirst : e ∈ chunksFrom start size count := by
        have hZero := hChunks 0 (Nat.zero_le _)
        rwa [Nat.zero_mul] at hZero
      have hSecond : e + size ∈ chunksFrom start size count := by
        have hOne := hChunks 1 (by omega)
        rwa [Nat.one_mul] at hOne
      have hBehind := h.store hLaid hSecond (load_storable m e)
      have hLinked := hBehind.store hLaid hFirst (hLaid.storable hSecond)
      rw [h e hFirst] at hLinked
      rw [Chunks.insertAfter, h e hFirst, Prealloc.insertAfter]
      apply ih hLinked
      intro i hi
      have hNext := hChunks (i + 1) (by omega)
      rwa [Nat.succ_mul, Nat.add_comm (i * size), ← Nat.add_assoc] at hNext

theorem get_eq : get m self = self.get words (load m) := by
  cases hFree : self.free with
  | none => simp only [get, Pool.get, hFree]
  | some e => simp only [get, Pool.get, hFree, words, id]

theorem get_area (m : Nat → UInt8) (self : Pool) : (get m self).2.memStart = self.memStart ∧
    (get m self).2.memStop = self.memStop ∧ (get m self).2.size = self.size := by
  rw [get]
  split <;> exact ⟨rfl, rfl, rfl⟩

/-- What holds of a pool whatever its users did. -/
structure Sound (start count size : Nat) (s : Use) : Prop where
  chunks : ∃ free, Holds words (load s.mem) s.pool (chunksFrom start size count) s.claimed free
  first : s.pool.memStart = start
  stop : s.pool.memStop = start + count * size
  wide : s.pool.size = size
  intact : Intact s.mem start (count * size)

section Steps

variable {s s' : Use} {byte : UInt8}

theorem sound_get (h : Sound start count size s) :
    Sound start count size
      ⟨(get s.mem s.pool).2, s.mem, (get s.mem s.pool).1.toList ++ s.claimed⟩ := by
  obtain ⟨free, hHolds⟩ := h.chunks
  obtain ⟨hFirst, hStop, hWide⟩ := get_area s.mem s.pool
  refine ⟨?_, hFirst.trans h.first, hStop.trans h.stop, hWide.trans h.wide, h.intact⟩
  rw [get_eq]
  cases free with
  | nil =>
      rw [hHolds.get_none]
      exact ⟨[], hHolds⟩
  | cons e free =>
      obtain ⟨self', hGet, hHolds'⟩ := hHolds.get_some
      rw [hGet]
      exact ⟨free, hHolds'⟩

theorem sound_put (hLaid : Laid start count size) (h : Sound start count size s)
    (he : e ∈ s.claimed) :
    Sound start count size
      ⟨(put s.mem s.pool (some e)).1, (put s.mem s.pool (some e)).2, s.claimed.erase e⟩ := by
  obtain ⟨free, hHolds⟩ := h.chunks
  have heChunk := hHolds.of_claimed he
  obtain ⟨hLow, hHigh⟩ := chunk_within heChunk
  have hPointer : Storable s.pool.free := by
    cases hFree : s.pool.free with
    | none => exact fun b hb => absurd hb (Option.not_mem_none b)
    | some a => exact hLaid.storable (hHolds.of_free (hHolds.head_mem hFree))
  have hPut := (hHolds.claimed_perm (List.perm_cons_erase he)).put
  have hShows : Shows (put s.mem s.pool (some e)).2 (s.pool.put words (load s.mem) (some e)).2
      (chunksFrom start size count) :=
    Shows.store hLaid (fun _ _ => rfl) heChunk hPointer
  refine ⟨⟨e :: free, ?_⟩, h.first, h.stop, h.wide, ?_⟩
  · exact hPut.congr fun a ha => hShows a (hPut.of_free ha)
  · apply h.intact.congr hLaid.front
    intro i hi hi' hOther
    have hWide := hLaid.wide
    by_contra hOutside
    exact hOther (store_outside (by omega))

/-- A byte that is no chunk's, or a claimed one's, is in no link. -/
theorem sound_write {addr : Nat} (hLaid : Laid start count size) (h : Sound start count size s)
    (hAllows : s.Allows (.write addr byte)) :
    Sound start count size { s with mem := Function.update s.mem addr byte } := by
  obtain ⟨free, hHolds⟩ := h.chunks
  obtain ⟨hWide, hFront, hBack⟩ := hLaid
  rw [Use.Allows, h.first, h.stop, h.wide, malignHead] at hAllows
  refine ⟨⟨free, hHolds.congr fun a ha => ?_⟩, h.first, h.stop, h.wide, ?_⟩
  · have haChunk := hHolds.of_free ha
    obtain ⟨hLow, hHigh⟩ := chunk_within haChunk
    have hApart : addr < a ∨ a + size ≤ addr := by
      rcases hAllows with ⟨e, he, hStart, hEnd⟩ | hOutside
      · have hOther : e ≠ a := fun hSame => hHolds.not_free he (hSame ▸ ha)
        have hChunks := chunks_apart (hHolds.of_claimed he) haChunk hOther
        omega
      · omega
    exact load_congr (word_congr fun i hi hi' => Function.update_of_ne (by omega) _ _)
  · apply h.intact.congr hFront
    intro i hi hi' hOther
    have hSame : i = addr := by
      by_contra hNe
      exact hOther (Function.update_of_ne hNe _ _)
    rcases hAllows with ⟨e, he, hStart, hEnd⟩ | hOutside
    · have hWithin := chunk_within (hHolds.of_claimed he)
      omega
    · omega

theorem sound_step {call : Call} (hLaid : Laid start count size) (h : Sound start count size s)
    (hAllows : s.Allows call) (hStep : s.step call = .ok s') : Sound start count size s' := by
  cases call with
  | get =>
      cases hStep
      exact sound_get h
  | put chunk =>
      cases hStep
      exact sound_put hLaid h hAllows
  | write addr byte =>
      cases hStep
      exact sound_write hLaid h hAllows

end Steps

section Runs

variable {system : Nat → Option Nat} {pool : Pool} {s : Use}

/-- The memory of a new pool: `e` alone in the list, and the rest behind it. -/
theorem holds_insertAfter (hLaid : Laid e count size) (hCount : 0 < count) :
    Holds words (load (insertAfter size (count - 1) e (store m e none)))
      ⟨some e, 0, size, e, e + count * size⟩ (chunksFrom e size count) []
      (chunksFrom e size count) := by
  have hWide := hLaid.wide
  have hBack := hLaid.back
  have hFew : count ≤ count * size := Nat.le_mul_of_pos_right count (by omega)
  have hFirst : e ∈ chunksFrom e size count := mem_chunksFrom.mpr ⟨0, hCount, by omega⟩
  have hSame : Shows m (load m) (chunksFrom e size count) := fun _ _ => rfl
  have hAlone := hSame.store hLaid hFirst fun b hb => absurd hb (Option.not_mem_none b)
  have hShows := hAlone.insertAfter hLaid (n := count - 1) (e := e) fun i hi =>
    mem_chunksFrom.mpr ⟨i, by omega, rfl⟩
  have hChain : Chain words
      (Prealloc.insertAfter words size (count - 1) e (link words (load m) e none)) (some e)
      (chunksFrom e size (count - 1 + 1)) :=
    chain_insertAfter (by omega) (by rw [link_same]; rfl)
  rw [Nat.sub_add_cancel hCount] at hChain
  refine ⟨hChain.congr hShows, rfl, .refl _, nodup_chunksFrom e count (by omega), ?_⟩
  rw [chunksFrom, List.length_map, List.length_range]
  omega

theorem insertAfter_outside {i : Nat} (hWide : 8 ≤ size) (h : i < e ∨ e + (n + 1) * size ≤ i) :
    insertAfter size n e m i = m i := by
  induction n generalizing e m with
  | zero => rfl
  | succ n ih =>
      rw [Nat.succ_mul, Nat.succ_mul] at h
      rw [insertAfter, ih (by rw [Nat.succ_mul]; omega), store_outside (by omega),
        store_outside (by omega)]

/-- A new pool has all its chunks, none of them claimed. -/
theorem init_sound (hSystem : ∀ n x, system n = some x → x + n ≤ 2 ^ 64)
    (hInit : init m system count size = some (pool, m')) :
    Laid pool.memStart count size ∧ Sound pool.memStart count size ⟨pool, m', []⟩ := by
  rw [init] at hInit
  split_ifs at hInit with hNone hAlign
  obtain ⟨hCount, hSize⟩ := not_or.mp hNone
  have hCount := Nat.pos_of_ne_zero hCount
  have hWords : size % 8 = 0 := by
    rw [← Nat.and_two_pow_sub_one_eq_mod size 3]
    exact not_not.mp hAlign
  cases hBlock : malign m system count size with
  | none =>
      rw [hBlock] at hInit
      cases hInit
  | some block =>
      obtain ⟨e, m₁⟩ := block
      obtain ⟨hFront, hBack, hIntact⟩ := malign_spec hSystem hBlock
      have hProduct : count * size % 2 ^ 64 = count * size := Nat.mod_eq_of_lt (by omega)
      rw [hBlock] at hInit
      dsimp only at hInit
      rw [hProduct] at hInit
      cases hInit
      have hWide : 8 ≤ size := by omega
      have hLaid : Laid e count size := ⟨hWide, hFront, hBack⟩
      refine ⟨hLaid, ⟨_, holds_insertAfter hLaid hCount⟩, rfl, rfl, rfl, ?_⟩
      apply hIntact.congr hFront
      intro i hLow hHigh hOther
      by_contra hOutside
      have hSmall : size ≤ count * size := Nat.le_mul_of_pos_left size hCount
      have hStored : store m₁ e none i = m₁ i := store_outside (by omega)
      apply hOther
      dsimp only
      rw [insertAfter_outside hWide (by rw [Nat.sub_add_cancel hCount]; omega), hStored]

theorem sound_of_reached (hSystem : ∀ n x, system n = some x → x + n ≤ 2 ^ 64)
    (hInit : init m system count size = some (pool, m'))
    (hReached : Run.Reached Use.step Use.Allows ⟨pool, m', []⟩ s) :
    Sound pool.memStart count size s := by
  obtain ⟨hLaid, hSound⟩ := init_sound hSystem hInit
  exact hReached.invariant (Sound pool.memStart count size) hSound
    fun _ _ _ h hAllows hStep => sound_step hLaid h hAllows hStep

/-- The pool is empty if every chunk is claimed, and else gives one that is not. -/
theorem get_spec (h : Holds words links self (chunksFrom start size count) claimed free) :
    ((self.get words links).1 = none ↔ ∀ i < count, start + i * size ∈ claimed) ∧
      ∀ e, (self.get words links).1 = some e →
        e ∉ claimed ∧ ∃ i < count, e = start + i * size := by
  have hAll : ∀ a, a ∈ claimed ++ free ↔ ∃ i < count, a = start + i * size :=
    fun a => h.perm.mem_iff.trans mem_chunksFrom
  cases free with
  | nil =>
      rw [h.get_none]
      refine ⟨⟨fun _ i hi => ?_, fun _ => rfl⟩, fun e he => absurd he (Option.not_mem_none e)⟩
      have hMem := (hAll _).mpr ⟨i, hi, rfl⟩
      rwa [List.append_nil] at hMem
  | cons e free =>
      obtain ⟨self', hGet, -⟩ := h.get_some
      obtain ⟨i, hi, hChunk⟩ := (hAll e).mp (List.mem_append_right _ List.mem_cons_self)
      have hUnclaimed : e ∉ claimed := fun he => h.not_free he List.mem_cons_self
      rw [hGet]
      refine ⟨⟨fun hNone => absurd hNone (Option.some_ne_none e), fun hClaimed => ?_⟩, fun a ha => ?_⟩
      · exact absurd (hChunk ▸ hClaimed i hi) hUnclaimed
      · obtain rfl := Option.some.inj ha
        exact ⟨hUnclaimed, i, hi, hChunk⟩

/-- A pool is given back unless a chunk is missing; its guards are intact. -/
theorem exit_spec (h : Sound start count size s) :
    exit s.mem s.pool = if s.claimed = [] then .ok 0 else .ok 1 := by
  obtain ⟨free, hHolds⟩ := h.chunks
  rw [exit, hHolds.used]
  by_cases hNone : s.claimed = []
  · rw [if_pos hNone, hNone, h.first, h.intact.peakFree]
    rfl
  · rw [if_neg hNone, if_pos fun hZero => hNone (List.length_eq_zero_iff.mp hZero)]

/-- Whatever the users of a pool do: the chunks that they have are different ones
of the `count` that there are, and as many as the pool says. A claim fails exactly
if all are taken, and gives a chunk that is not taken otherwise. The pool can be
given back exactly if none is missing. -/
theorem neither_lost_nor_duplicated (hSystem : ∀ n x, system n = some x → x + n ≤ 2 ^ 64)
    (hInit : init m system count size = some (pool, m'))
    (hReached : Run.Reached Use.step Use.Allows ⟨pool, m', []⟩ s) :
    s.claimed.Nodup ∧ (∀ e ∈ s.claimed, ∃ i < count, e = pool.memStart + i * size) ∧
      s.pool.used = s.claimed.length ∧
      ((get s.mem s.pool).1 = none ↔ ∀ i < count, pool.memStart + i * size ∈ s.claimed) ∧
      (∀ e, (get s.mem s.pool).1 = some e →
        e ∉ s.claimed ∧ ∃ i < count, e = pool.memStart + i * size) ∧
      (exit s.mem s.pool = .ok 0 ↔ s.claimed = []) ∧
      (exit s.mem s.pool = .ok 1 ↔ s.claimed ≠ []) := by
  have hSound := sound_of_reached hSystem hInit hReached
  obtain ⟨free, hHolds⟩ := hSound.chunks
  obtain ⟨hEmpty, hFresh⟩ := get_spec hHolds
  rw [get_eq, exit_spec hSound]
  refine ⟨(List.nodup_append.mp hHolds.nodup_append).1, ?_, hHolds.used, hEmpty, hFresh, ?_, ?_⟩
  · intro e he
    exact mem_chunksFrom.mp (hHolds.of_claimed he)
  · by_cases hNone : s.claimed = [] <;> simp [hNone]
  · by_cases hNone : s.claimed = [] <;> simp [hNone]

/-- A system with one block of memory. -/
def oneBlock (n : Nat) : Option Nat := if n ≤ 4096 then some 65536 else none

/-- Two chunks are claimed, the first one is written to and put back. -/
def twoClaims : List Call := [.get, .write 65603 7, .get, .put 65600]

theorem neither_lost_nor_duplicated_two :
    ∃ pool m' s, init (fun _ => 0) oneBlock 2 8 = some (pool, m') ∧
      Run.drive Use.step Use.Allows ⟨pool, m', []⟩ twoClaims = some s ∧
      s.claimed = [65608] ∧ s.pool.used = s.claimed.length ∧ exit s.mem s.pool = .ok 1 := by
  have hSystem : ∀ n x, oneBlock n = some x → x + n ≤ 2 ^ 64 := by
    intro n x hx
    rw [oneBlock] at hx
    split_ifs at hx with hSmall
    cases hx
    omega
  have hEnd {pool m' s} (hInit : init (fun _ => 0) oneBlock 2 8 = some (pool, m'))
      (hRun : Run.drive Use.step Use.Allows ⟨pool, m', []⟩ twoClaims = some s) :=
    neither_lost_nor_duplicated hSystem hInit (Run.reached_of_drive .start hRun)
  obtain ⟨-, -, hUsed, -, -, -, hExit⟩ := hEnd rfl rfl
  exact ⟨_, _, _, rfl, rfl, rfl, hUsed, hExit.mpr (List.cons_ne_nil _ _)⟩

end Runs

end Peak.Chunks
