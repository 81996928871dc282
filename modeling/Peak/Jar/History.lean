import Mathlib.Logic.Function.Basic
import Mathlib.Data.List.Pairwise
import Mathlib.Data.List.TakeWhile
import Peak.Base.Ring
import Peak.Jar.Calls

/-! What has been done with a jar, apart from how its memory shows it: which
serial headers are linked, which items were packed under them, and for every
context what was packed and not dropped and what its list is meant to hold.
Serials count up without end here; the code keeps their low 32 bits. -/
namespace Peak.Jar

open Ring

/-- A packed item. The stamp counts the items packed before it, the serial the
headers made before its own. -/
structure Item where
  stamp : Nat
  owner : Nat
  off : Nat
  data : List UInt8
  serial : Nat
  prevSerial : Nat
deriving DecidableEq, Repr

/-- The bytes that were reserved for the item. -/
def Item.range (x : Item) : Range := ⟨x.off, headRoom x.data.length⟩

/-- A linked serial header with the items packed under it, oldest first. -/
structure Block where
  off : Nat
  serial : Nat
  items : List Item
deriving DecidableEq, Repr

def Block.ranges (b : Block) : List Range := ⟨b.off, 32⟩ :: b.items.map Item.range

/-- One context: the items packed and not dropped, the items on its list, both
newest first, and the serials it caches. -/
structure Account where
  stock : List Item
  chain : List Item
  first : Nat
  last : Nat

structure History where
  blocks : List Block
  reclaimed : Nat
  packed : Nat
  accounts : Nat → Account

namespace History

variable (h : History)

/-- The number of headers ever made. -/
def created : Nat := h.reclaimed + h.blocks.length

/-- The items under linked headers. -/
def held : List Item := h.blocks.flatMap Block.items

/-- The bytes in use, in the order in which they were reserved. -/
def ranges : List Range := h.blocks.flatMap Block.ranges

/-- The serial belongs to a header that has not been reclaimed. -/
def live (x : Item) : Bool := h.reclaimed ≤ x.serial

/-- The part of a context's list that can still be walked. -/
def near (c : Nat) : List Item := (h.accounts c).chain.takeWhile h.live

/-- The part whose memory is given up. -/
def far (c : Nat) : List Item := (h.accounts c).chain.dropWhile h.live

def setAccount (c : Nat) (a : Account) : History :=
  { h with accounts := Function.update h.accounts c a }

def openBlock (off : Nat) : History := { h with blocks := h.blocks ++ [⟨off, h.created, []⟩] }

def reclaim : History :=
  match h.blocks with
  | [] => h
  | _ :: rest => { h with blocks := rest, reclaimed := h.reclaimed + 1 }

/-- What the search for a serial header did. -/
def header : Header → History
  | .kept _ => h
  | .made head => h.openBlock head
  | .reclaimed => h.reclaim

/-- There is no header that takes another item. -/
def needsHeader : Bool :=
  match h.blocks.getLast? with
  | none => true
  | some b => headCount < b.items.length

/-- The newest header is at the offset and takes another item. -/
def Ready (head : Nat) : Prop :=
  ∃ front b, h.blocks = front ++ [b] ∧ b.off = head ∧ b.items.length ≤ headCount

/-- What the loop of `peak_jar_repair` leaves of a list: its second item, if the
newest one says that this is valid. -/
def rebuilt (a : Account) (x : Item) : List Item → Account
  | [] => { a with chain := [], first := x.serial }
  | y :: _ =>
      if h.reclaimed ≤ x.prevSerial then { a with chain := [y], first := y.serial }
      else { a with chain := [], first := x.serial }

/-- What `peak_jar_repair` makes of a list: it stays, is given up as a whole, or
is rebuilt when the cached serials disagree. -/
def repaired (a : Account) : Account :=
  match a.chain with
  | [] => a
  | x :: rest =>
      if h.blocks = [] ∨ a.last < h.reclaimed then { a with chain := [] }
      else if a.first < h.reclaimed then h.rebuilt a x rest
      else a

def repair (c : Nat) : History := h.setAccount c (h.repaired (h.accounts c))

/-- The item that a call packs now. -/
def item (c off : Nat) (data : List UInt8) : Item where
  stamp := h.packed
  owner := c
  off := off
  data := data
  serial := h.created - 1
  prevSerial := ((h.accounts c).chain.head?.map Item.serial).getD 0

/-- Add an item to the newest block. -/
def place (x : Item) : List Block → List Block
  | [] => []
  | [b] => [{ b with items := b.items ++ [x] }]
  | b :: rest => b :: place x rest

/-- The account with one more item. -/
def added (a : Account) (x : Item) : Account where
  stock := x :: a.stock
  chain := x :: a.chain
  first := if a.chain = [] then x.serial else a.first
  last := x.serial

def store (c off : Nat) (data : List UInt8) : History :=
  let x := h.item c off data
  { h with
    blocks := place x h.blocks
    packed := h.packed + 1
    accounts := Function.update h.accounts c (added (h.accounts c) x) }

/-- What the second part of a call did: it found no room and reclaimed a header,
or it packed the item. -/
def settle (c : Nat) (data : List UInt8) : Option Nat → History
  | none => h.reclaim
  | some off => (h.repair c).store c off data

/-- The live item at the offset. -/
def here (off : Nat) (x : Item) : Bool := x.off = off ∧ h.live x

/-- A callback answered `JAR_DROP` for the item at the offset. -/
def drop (c off : Nat) : History :=
  let a := h.accounts c
  h.setAccount c
    { a with stock := a.stock.eraseP (h.here off), chain := a.chain.eraseP (h.here off) }

/-- All drops of a walk. -/
def record (c : Nat) : History → List (Delivery × Answer) → History
  | h, [] => h
  | h, (delivery, .drop) :: log => record c (h.drop c delivery.off) log
  | h, _ :: log => record c h log

/-- The 32-bit comparison with the oldest header's serial tells whether this one
is older. -/
def Comparable (serial : Nat) : Prop :=
  serial < h.reclaimed + 2 ^ 31 ∧ h.reclaimed ≤ serial + 2 ^ 31

/-- A list can be rebuilt from its newest item: this is live, and if it says that
the second is so too, then that is true. -/
def Rebuildable (x : Item) : List Item → Prop
  | [] => h.reclaimed ≤ x.serial
  | y :: _ =>
      h.reclaimed ≤ x.serial ∧ h.Comparable x.prevSerial ∧
        (h.reclaimed ≤ x.prevSerial → h.reclaimed ≤ y.serial)

/-- A list with these items that `peak_jar_repair` does not trip over. -/
def Untripped (a : Account) : List Item → Prop
  | [] => True
  | x :: rest =>
      h.blocks = [] ∨
        h.Comparable a.last ∧
          (a.last < h.reclaimed ∨
            h.Comparable a.first ∧ (h.reclaimed ≤ a.first ∨ h.Rebuildable x rest))

/-- `peak_jar_repair` does not trip over the context's list. -/
def Repairable (a : Account) : Prop := h.Untripped a a.chain

instance (serial : Nat) : Decidable (h.Comparable serial) := inferInstanceAs (Decidable (_ ∧ _))

instance (x : Item) : (rest : List Item) → Decidable (h.Rebuildable x rest)
  | [] => inferInstanceAs (Decidable (_ ≤ _))
  | _ :: _ => inferInstanceAs (Decidable (_ ∧ _ ∧ (_ → _)))

instance (a : Account) : (chain : List Item) → Decidable (h.Untripped a chain)
  | [] => inferInstanceAs (Decidable True)
  | _ :: _ => inferInstanceAs (Decidable (_ ∨ _))

instance (a : Account) : Decidable (h.Repairable a) := inferInstanceAs (Decidable (h.Untripped a _))

/-- One context is accounted for rightly. -/
structure Kept (c : Nat) (a : Account) : Prop where
  stamp : ∀ x ∈ a.stock, x.stamp < h.packed
  owner : ∀ x ∈ a.stock, x.owner = c
  made : ∀ x ∈ a.stock, x.serial < h.created
  held : ∀ x ∈ a.stock, h.reclaimed ≤ x.serial → x ∈ h.held
  order : a.stock.Pairwise fun x y => y.stamp < x.stamp ∧ y.serial ≤ x.serial
  listed : a.chain.Sublist a.stock
  serials : ∀ x ∈ a.chain, a.first ≤ x.serial ∧ x.serial ≤ a.last
  recent : a.chain ≠ [] → a.last < h.created

/-- What holds of every history. -/
structure Sound : Prop where
  serials : h.blocks.map Block.serial = List.range' h.reclaimed h.blocks.length
  counts : ∀ b ∈ h.blocks, b.items.length ≤ headCount + 1
  items : ∀ b ∈ h.blocks, ∀ x ∈ b.items, x.serial = b.serial ∧ x.data.length + 40 ≤ 2 ^ 64
  accounts : ∀ c, h.Kept c (h.accounts c)

section Lemmas

variable {h : History} {c d off : Nat} {a : Account} {x y : Item} {b : Block} {front : List Block}
variable {data : List UInt8}

@[simp] theorem live_iff : h.live x = true ↔ h.reclaimed ≤ x.serial := by
  simp [live]

@[simp] theorem setAccount_self (h : History) (c : Nat) (a : Account) :
    (h.setAccount c a).accounts c = a := Function.update_self _ _ _

theorem setAccount_of_ne (hNe : d ≠ c) : (h.setAccount c a).accounts d = h.accounts d :=
  Function.update_of_ne hNe _ _

theorem near_append_far (h : History) (c : Nat) : h.near c ++ h.far c = (h.accounts c).chain :=
  List.takeWhile_append_dropWhile

theorem live_of_near (hx : x ∈ h.near c) : h.reclaimed ≤ x.serial :=
  live_iff.mp (List.mem_takeWhile_imp hx)

theorem mem_held : x ∈ h.held ↔ ∃ b ∈ h.blocks, x ∈ b.items := List.mem_flatMap

/-- A header is needed or there is one that takes another item. -/
theorem ready_of_not_needsHeader (hNeeds : ¬h.needsHeader = true) : ∃ head, h.Ready head := by
  rcases List.eq_nil_or_concat h.blocks with hBlocks | ⟨front, b, hBlocks⟩
  · simp [needsHeader, hBlocks] at hNeeds
  · rw [List.concat_eq_append] at hBlocks
    simp only [needsHeader, hBlocks, List.getLast?_concat, decide_eq_true_eq, Nat.not_lt] at hNeeds
    exact ⟨b.off, front, b, hBlocks, rfl, hNeeds⟩

theorem not_needsHeader_of_ready (hReady : h.Ready off) : ¬h.needsHeader = true := by
  obtain ⟨front, b, hBlocks, -, hCount⟩ := hReady
  simp only [needsHeader, hBlocks, List.getLast?_concat, decide_eq_true_eq, Nat.not_lt]
  exact hCount

@[simp] theorem reclaim_blocks (h : History) : h.reclaim.blocks = h.blocks.tail := by
  simp only [reclaim]
  split <;> simp [*]

/-- The newest header is the same until it is reclaimed itself. -/
theorem needsHeader_reclaim (hRest : h.blocks.tail ≠ []) :
    h.reclaim.needsHeader = h.needsHeader := by
  have hLast : h.reclaim.blocks.getLast? = h.blocks.getLast? := by
    rw [reclaim_blocks, List.getLast?_tail, if_neg]
    intro hOne
    obtain ⟨b, hBlocks⟩ := List.length_eq_one_iff.mp hOne
    exact hRest (by rw [hBlocks]; rfl)
  simp only [needsHeader, hLast]

/-- Serials of linked headers. -/
theorem Sound.block_serial (hSound : h.Sound) (hb : b ∈ h.blocks) :
    h.reclaimed ≤ b.serial ∧ b.serial < h.created := by
  have hMem : b.serial ∈ h.blocks.map Block.serial := List.mem_map_of_mem hb
  rw [hSound.serials] at hMem
  exact List.mem_range'_1.mp hMem

theorem Sound.held_fits (hSound : h.Sound) (hx : x ∈ h.held) : x.data.length + 40 ≤ 2 ^ 64 := by
  obtain ⟨b, hb, hx⟩ := mem_held.mp hx
  exact (hSound.items b hb x hx).2

/-- The newest header has the highest serial. -/
theorem Sound.last_serial (hSound : h.Sound) (hBlocks : h.blocks = front ++ [b]) :
    b.serial = h.created - 1 := by
  have hSerials := hSound.serials
  rw [hBlocks, List.length_append, List.length_singleton, List.range'_concat, List.map_append]
    at hSerials
  have hLast := List.append_inj_right' hSerials rfl
  simp only [List.map_cons, List.map_nil, Nat.one_mul, List.cons.injEq, and_true] at hLast
  simp only [created, hBlocks, List.length_append, List.length_singleton]
  omega

/-- The oldest header has the lowest serial. -/
theorem Sound.first_serial {rest : List Block} (hSound : h.Sound) (hBlocks : h.blocks = b :: rest) :
    b.serial = h.reclaimed := by
  have hSerials := hSound.serials
  rw [hBlocks, List.length_cons, List.range'_succ, List.map_cons] at hSerials
  exact List.head_eq_of_cons_eq hSerials

/-- An account that is right stays right while its items and headers do. -/
theorem Kept.mono {h' : History} (hKept : h.Kept c a) (hPacked : h.packed ≤ h'.packed)
    (hCreated : h.created ≤ h'.created) (hReclaimed : h.reclaimed ≤ h'.reclaimed)
    (hHeld : ∀ x ∈ h.held, h'.reclaimed ≤ x.serial → x ∈ h'.held) : h'.Kept c a where
  stamp := fun x hx => Nat.lt_of_lt_of_le (hKept.stamp x hx) hPacked
  owner := hKept.owner
  made := fun x hx => Nat.lt_of_lt_of_le (hKept.made x hx) hCreated
  held := fun x hx hLive =>
    hHeld x (hKept.held x hx (Nat.le_trans hReclaimed hLive)) hLive
  order := hKept.order
  listed := hKept.listed
  serials := hKept.serials
  recent := fun hChain => Nat.lt_of_lt_of_le (hKept.recent hChain) hCreated

/-- Changing one account rightly. -/
theorem Sound.setAccount (hSound : h.Sound) (hKept : h.Kept c a) : (h.setAccount c a).Sound where
  serials := hSound.serials
  counts := hSound.counts
  items := hSound.items
  accounts := by
    intro d
    by_cases hEq : d = c
    · subst hEq
      rw [setAccount_self]
      exact hKept.mono (Nat.le_refl _) (Nat.le_refl _) (Nat.le_refl _) fun x hx _ => hx
    · rw [setAccount_of_ne hEq]
      exact (hSound.accounts d).mono (Nat.le_refl _) (Nat.le_refl _) (Nat.le_refl _)
        fun x hx _ => hx

theorem sound_openBlock (hSound : h.Sound) (off : Nat) : (h.openBlock off).Sound where
  serials := by
    simp only [openBlock, List.map_append, hSound.serials, List.length_append,
      List.length_singleton, List.range'_concat, List.map_cons, List.map_nil, created, Nat.one_mul]
  counts := by
    intro b hb
    rcases List.mem_append.mp hb with hb | hb
    · exact hSound.counts b hb
    · rw [List.mem_singleton.mp hb]
      exact Nat.zero_le _
  items := by
    intro b hb x hx
    rcases List.mem_append.mp hb with hb | hb
    · exact hSound.items b hb x hx
    · rw [List.mem_singleton.mp hb] at hx
      simp at hx
  accounts := by
    intro c
    refine (hSound.accounts c).mono (Nat.le_refl _) ?_ (Nat.le_refl _) ?_
    · simp only [created, openBlock, List.length_append]
      omega
    · intro x hx _
      simpa [held, openBlock] using hx

theorem sound_reclaim (hSound : h.Sound) : h.reclaim.Sound := by
  simp only [reclaim]
  split
  · exact hSound
  · next b rest hBlocks =>
      have hRest : ∀ b ∈ rest, b ∈ h.blocks := fun b hb => hBlocks ▸ List.mem_cons_of_mem _ hb
      have hFirst := hSound.first_serial hBlocks
      refine ⟨?_, fun b hb => hSound.counts b (hRest b hb),
        fun b hb => hSound.items b (hRest b hb), fun c => ?_⟩
      · have hSerials := hSound.serials
        rw [hBlocks, List.length_cons, List.range'_succ, List.map_cons] at hSerials
        exact List.tail_eq_of_cons_eq hSerials
      · refine (hSound.accounts c).mono (Nat.le_refl _) ?_ (Nat.le_succ _) ?_
        · simp only [created, hBlocks, List.length_cons]
          omega
        · intro x hx hLive
          obtain ⟨b', hb', hx⟩ := mem_held.mp hx
          have hSerial := (hSound.items b' hb' x hx).1
          rw [hBlocks] at hb'
          rcases List.mem_cons.mp hb' with rfl | hb'
          · simp only at hLive
            omega
          · exact mem_held.mpr ⟨b', hb', hx⟩

/-- Listing fewer items, with cached serials around them. -/
theorem Kept.relist {chain : List Item} {first : Nat} (hKept : h.Kept c a)
    (hSub : chain.Sublist a.chain) (hFirst : ∀ x ∈ chain, first ≤ x.serial) :
    h.Kept c { a with chain, first } where
  stamp := hKept.stamp
  owner := hKept.owner
  made := hKept.made
  held := hKept.held
  order := hKept.order
  listed := hSub.trans hKept.listed
  serials := fun x hx => ⟨hFirst x hx, (hKept.serials x (hSub.subset hx)).2⟩
  recent := fun hChain => hKept.recent fun hNil => hChain (List.sublist_nil.mp (hNil ▸ hSub))

theorem kept_rebuilt {rest : List Item} (hKept : h.Kept c a) (hChain : a.chain = x :: rest) :
    h.Kept c (h.rebuilt a x rest) := by
  have hNone : h.Kept c { a with chain := [], first := x.serial } :=
    hKept.relist (List.nil_sublist _) (by simp)
  cases rest with
  | nil => exact hNone
  | cons y rest =>
      simp only [rebuilt]
      split_ifs
      · refine hKept.relist ?_ (by simp)
        rw [hChain]
        simp
      · exact hNone

theorem kept_repaired (hKept : h.Kept c a) : h.Kept c (h.repaired a) := by
  simp only [repaired]
  split
  · exact hKept
  · next x rest hChain =>
      split_ifs with hGone hFirst
      · exact hKept.relist (List.nil_sublist _) (by simp)
      · exact kept_rebuilt hKept hChain
      · exact hKept

@[simp] theorem repaired_stock (h : History) (a : Account) : (h.repaired a).stock = a.stock := by
  simp only [repaired]
  split
  · rfl
  · next x rest _ =>
      split_ifs
      · rfl
      · cases rest with
        | nil => rfl
        | cons y rest =>
            simp only [rebuilt]
            split_ifs <;> rfl
      · rfl

/-- After a repair that did not trip everything on the list is live. -/
theorem live_of_repaired (hKept : h.Kept c a) (hRepairable : h.Repairable a)
    (hx : x ∈ (h.repaired a).chain) : h.reclaimed ≤ x.serial := by
  simp only [repaired] at hx
  simp only [Repairable] at hRepairable
  split at hx
  · next hChain =>
      rw [hChain] at hx
      simp at hx
  · next y rest hChain =>
      rw [hChain] at hRepairable
      simp only [Untripped] at hRepairable
      split_ifs at hx with hGone hFirst
      · simp at hx
      · have hRebuildable : h.Rebuildable y rest := by
          rcases hRepairable with hNone | ⟨-, hLast | ⟨-, hLow | hRebuildable⟩⟩
          · exact absurd (.inl hNone) hGone
          · exact absurd (.inr hLast) hGone
          · omega
          · exact hRebuildable
        cases rest with
        | nil => simp [rebuilt] at hx
        | cons z rest =>
            simp only [rebuilt] at hx
            split_ifs at hx with hPrev
            · rw [List.mem_singleton.mp hx]
              exact hRebuildable.2.2 hPrev
            · simp at hx
      · have := (hKept.serials x hx).1
        omega

theorem kept_drop (hKept : h.Kept c a) (off : Nat) :
    h.Kept c { a with
      stock := a.stock.eraseP (h.here off), chain := a.chain.eraseP (h.here off) } where
  stamp := fun x hx => hKept.stamp x (List.mem_of_mem_eraseP hx)
  owner := fun x hx => hKept.owner x (List.mem_of_mem_eraseP hx)
  made := fun x hx => hKept.made x (List.mem_of_mem_eraseP hx)
  held := fun x hx => hKept.held x (List.mem_of_mem_eraseP hx)
  order := hKept.order.sublist List.eraseP_sublist
  listed := hKept.listed.eraseP
  serials := fun x hx => hKept.serials x (List.mem_of_mem_eraseP hx)
  recent := fun hChain => hKept.recent fun hNil => hChain (by rw [hNil, List.eraseP_nil])

@[simp] theorem place_concat (x : Item) (front : List Block) (b : Block) :
    place x (front ++ [b]) = front ++ [{ b with items := b.items ++ [x] }] := by
  induction front with
  | nil => rfl
  | cons first front ih =>
      cases hRest : front ++ [b] with
      | nil => simp at hRest
      | cons next rest => rw [List.cons_append, hRest, place, ← hRest, ih, List.cons_append]; simp

theorem store_blocks (hBlocks : h.blocks = front ++ [b]) :
    (h.store c off data).blocks =
      front ++ [{ b with items := b.items ++ [h.item c off data] }] := by
  simp only [store, hBlocks, place_concat]

theorem held_store (hBlocks : h.blocks = front ++ [b]) :
    (h.store c off data).held = h.held ++ [h.item c off data] := by
  simp [held, store_blocks hBlocks, hBlocks]

theorem ranges_store (hBlocks : h.blocks = front ++ [b]) :
    (h.store c off data).ranges = h.ranges ++ [(h.item c off data).range] := by
  simp [ranges, Block.ranges, store_blocks hBlocks, hBlocks]

theorem created_store (hBlocks : h.blocks = front ++ [b]) :
    (h.store c off data).created = h.created := by
  simp [created, hBlocks, store]

/-- Storing an item makes no difference to what was kept of an account. -/
theorem kept_store (hKept : h.Kept d a) (hBlocks : h.blocks = front ++ [b]) :
    (h.store c off data).Kept d a :=
  hKept.mono (Nat.le_succ _) (Nat.le_of_eq (created_store hBlocks).symm) (Nat.le_refl _)
    fun _ hx _ => held_store hBlocks ▸ List.mem_append_left _ hx

/-- The stored item goes to the front of its context's account. -/
theorem kept_added (hOld : h.Kept c a) (hBlocks : h.blocks = front ++ [b]) :
    (h.store c off data).Kept c (added a (h.item c off data)) := by
  have hNew : (h.store c off data).Kept c a := kept_store hOld hBlocks
  have hItem : (h.item c off data).serial = h.created - 1 := rfl
  have hPos : 0 < h.created := by
    simp only [created, hBlocks, List.length_append, List.length_singleton]
    omega
  constructor
  case stamp =>
    rintro x (_ | ⟨_, hx⟩)
    · exact Nat.lt_succ_self _
    · exact hNew.stamp x hx
  case owner =>
    rintro x (_ | ⟨_, hx⟩)
    · rfl
    · exact hNew.owner x hx
  case made =>
    rintro x (_ | ⟨_, hx⟩)
    · rw [created_store hBlocks, hItem]
      omega
    · exact hNew.made x hx
  case held =>
    rintro x (_ | ⟨_, hx⟩) hLive
    · rw [held_store hBlocks]
      exact List.mem_append_right _ List.mem_cons_self
    · exact hNew.held x hx hLive
  case order =>
    refine List.pairwise_cons.mpr ⟨fun x hx => ⟨hOld.stamp x hx, ?_⟩, hOld.order⟩
    have := hOld.made x hx
    omega
  case listed => exact hOld.listed.cons_cons _
  case serials =>
    rintro x (_ | ⟨_, hx⟩)
    · refine ⟨?_, Nat.le_refl _⟩
      simp only [added]
      split_ifs with hEmpty
      · exact Nat.le_refl _
      · obtain ⟨y, hy⟩ := List.exists_mem_of_ne_nil _ hEmpty
        have := (hOld.serials y hy).1
        have := hOld.made y (hOld.listed.subset hy)
        omega
    · have := hOld.serials x hx
      have := hOld.made x (hOld.listed.subset hx)
      simp only [added, hItem]
      rw [if_neg (List.ne_nil_of_mem hx)]
      omega
  case recent =>
    intro _
    rw [created_store hBlocks]
    simp only [added, hItem]
    omega

theorem sound_store (hSound : h.Sound) (hBlocks : h.blocks = front ++ [b])
    (hCount : b.items.length ≤ headCount) (hFits : data.length + 40 ≤ 2 ^ 64) :
    (h.store c off data).Sound := by
  have hSerial := hSound.last_serial hBlocks
  have hFront : ∀ b' ∈ front, b' ∈ h.blocks := fun b' hb' =>
    hBlocks ▸ List.mem_append_left _ hb'
  have hLast : b ∈ h.blocks := hBlocks ▸ List.mem_append_right _ List.mem_cons_self
  constructor
  case serials =>
    have hSerials := hSound.serials
    rw [store_blocks hBlocks]
    rw [hBlocks] at hSerials
    simp only [List.map_append, List.map_cons, List.map_nil, List.length_append,
      List.length_singleton] at hSerials ⊢
    exact hSerials
  case counts =>
    rw [store_blocks hBlocks]
    intro b' hb'
    rcases List.mem_append.mp hb' with hb' | hb'
    · exact hSound.counts b' (hFront b' hb')
    · rw [List.mem_singleton.mp hb']
      simpa using hCount
  case items =>
    rw [store_blocks hBlocks]
    intro b' hb' x hx
    rcases List.mem_append.mp hb' with hb' | hb'
    · exact hSound.items b' (hFront b' hb') x hx
    · rw [List.mem_singleton.mp hb'] at hx ⊢
      rcases List.mem_append.mp hx with hx | hx
      · exact hSound.items b hLast x hx
      · rw [List.mem_singleton.mp hx]
        exact ⟨hSerial.symm, hFits⟩
  case accounts =>
    intro d
    by_cases hEq : d = c
    · subst hEq
      have hAccount : (h.store d off data).accounts d =
          added (h.accounts d) (h.item d off data) := Function.update_self _ _ _
      rw [hAccount]
      exact kept_added (hSound.accounts d) hBlocks
    · have hAccount : (h.store c off data).accounts d = h.accounts d :=
        Function.update_of_ne hEq _ _
      rw [hAccount]
      exact kept_store (hSound.accounts d) hBlocks

end Lemmas

end History

end Peak.Jar
