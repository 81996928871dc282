import Peak.Jar.History

/-! How the memory of a shelf shows a history: the reserved bytes lie in the ring
in the order of their reservation, headers and items are recorded where they
were put, and the queues link what they should. An operation on the list of one
context leaves everything else alone. -/
namespace Peak.Jar

open TailQueue Ring

/-- The record of a serial header. -/
structure HeaderAt (s : Shelf) (b : Block) : Prop where
  serial : s.number (b.off + 16) 4 = some (b.serial % 2 ^ 32)
  count : s.number (b.off + 20) 4 = some b.items.length
  write : s.number (b.off + 24) 8 = some (stopOf 0 b.ranges)

/-- The record of an item with its bytes. -/
structure ItemAt (s : Shelf) (x : Item) : Prop where
  prevSerial : s.number (x.off + 16) 4 = some (x.prevSerial % 2 ^ 32)
  serial : s.number (x.off + 20) 4 = some (x.serial % 2 ^ 32)
  len : s.number (x.off + 24) 8 = some x.data.length
  bytes : s.cells (x.off + 32) x.data.length = x.data.map .byte

/-- The list of a context as far as it can be walked. Behind that the last link
still names an item that is gone. -/
structure Strung (s : Shelf) (c : Nat) (near far : List Item) : Prop where
  path : links.Path s (.datas c) (near.map Item.off)
  rest : links.next s (links.lastPair (.datas c) (near.map Item.off)) =
    some (far.head?.map Item.off)
  tail : far = [] →
    links.prev s (.datas c) = some (links.lastPair (.datas c) (near.map Item.off))

/-- The shelf shows the history. Room that is reserved and not used yet is
`spare`. -/
structure Reflects (s : Shelf) (h : History) (spare : List Range) : Prop where
  sound : h.Sound
  size : s.jars.size ≤ malignLimit
  layout : Layout s.jars.read s.jars.write s.jars.size (h.ranges ++ spare)
  firstSerial : s.jars.firstSerial = h.reclaimed % 2 ^ 32
  lastSerial : s.jars.lastSerial = h.created % 2 ^ 32
  heads : links.Queue Apart s .heads (h.blocks.map Block.off)
  headers : ∀ b ∈ h.blocks, HeaderAt s b
  items : ∀ x ∈ h.held, ItemAt s x
  lists : ∀ c, Strung s c (h.near c) (h.far c)
  serials : ∀ c, (h.accounts c).chain ≠ [] →
    (s.contexts c).serials = [(h.accounts c).first % 2 ^ 32, (h.accounts c).last % 2 ^ 32]

section Rooms

variable {h : History} {b b' : Block} {x y : Item}

/-- An item has room for its header and its bytes. -/
theorem headRoom_fits {len : Nat} (h : len + 40 ≤ 2 ^ 64) :
    32 + len ≤ headRoom len ∧ headRoom len < 2 ^ 64 := by
  simp only [headRoom, allocAlign]
  split_ifs with hAligned <;> omega

theorem held_ranges_sublist (h : History) : (h.held.map Item.range).Sublist h.ranges := by
  simp only [History.held, History.ranges]
  induction h.blocks with
  | nil => exact List.Sublist.refl _
  | cons b blocks ih =>
      simp only [List.flatMap_cons, List.map_append]
      exact (List.sublist_cons_self _ _).append ih

theorem header_ranges_sublist (h : History) :
    (h.blocks.map fun b => (⟨b.off, 32⟩ : Range)).Sublist h.ranges := by
  simp only [History.ranges]
  induction h.blocks with
  | nil => exact List.Sublist.refl _
  | cons b blocks ih =>
      simp only [List.flatMap_cons, List.map_cons, Block.ranges, List.cons_append]
      exact (ih.trans (List.sublist_append_right _ _)).cons_cons _

theorem header_mem_ranges (hb : b ∈ h.blocks) : (⟨b.off, 32⟩ : Range) ∈ h.ranges :=
  (header_ranges_sublist h).subset (List.mem_map_of_mem hb)

theorem item_mem_ranges (hx : x ∈ h.held) : x.range ∈ h.ranges :=
  (held_ranges_sublist h).subset (List.mem_map_of_mem hx)

/-- Different items do not overlap. -/
theorem held_apart (hApart : h.ranges.Pairwise Range.Apart) (hx : x ∈ h.held) (hy : y ∈ h.held)
    (hNe : x ≠ y) : x.range.Apart y.range := by
  have hPairs := List.pairwise_map.mp (hApart.sublist (held_ranges_sublist h))
  have : Std.Symm fun x y : Item => x.range.Apart y.range := ⟨fun _ _ => Range.Apart.symm⟩
  exact hPairs.forall hx hy hNe

/-- Different headers do not overlap. -/
theorem header_apart (hApart : h.ranges.Pairwise Range.Apart) (hb : b ∈ h.blocks)
    (hb' : b' ∈ h.blocks) (hNe : b ≠ b') : b.off + 32 ≤ b'.off ∨ b'.off + 32 ≤ b.off := by
  have hPairs := List.pairwise_map.mp (hApart.sublist (header_ranges_sublist h))
  have : Std.Symm fun b b' : Block => Range.Apart ⟨b.off, 32⟩ ⟨b'.off, 32⟩ :=
    ⟨fun _ _ => Range.Apart.symm⟩
  exact hPairs.forall hb hb' hNe

/-- A header overlaps no item. -/
theorem header_item_apart (hApart : h.ranges.Pairwise Range.Apart) (hb : b ∈ h.blocks)
    (hx : x ∈ h.held) : Range.Apart ⟨b.off, 32⟩ x.range := by
  obtain ⟨hOne, hTwo⟩ := List.pairwise_flatMap.mp hApart
  obtain ⟨b', hb', hx⟩ := History.mem_held.mp hx
  have hMem : x.range ∈ b'.items.map Item.range := List.mem_map_of_mem hx
  by_cases hEq : b = b'
  · subst hEq
    exact List.rel_of_pairwise_cons (hOne b hb) hMem
  · have : Std.Symm fun b b' : Block => ∀ r ∈ b.ranges, ∀ r' ∈ b'.ranges, r.Apart r' :=
      ⟨fun _ _ h r hr r' hr' => (h r' hr' r hr).symm⟩
    exact hTwo.forall hb hb' hEq _ List.mem_cons_self _ (List.mem_cons_of_mem _ hMem)

end Rooms

section Numbers

variable {s s' : Shelf} {off at_ width value : Nat} {cells : List Cell}

theorem cells_congr {count : Nat}
    (h : ∀ i, off ≤ i → i < off + count → s'.jars.buffer i = s.jars.buffer i) :
    s'.cells off count = s.cells off count :=
  Cells.read_congr h

theorem number_congr (h : ∀ i, off ≤ i → i < off + width → s'.jars.buffer i = s.jars.buffer i) :
    s'.number off width = s.number off width :=
  congrArg decodeLe (cells_congr h)

theorem number_store (s : Shelf) (off width value : Nat) :
    (s.store off (leCells width value)).number off width = some (value % 256 ^ width) := by
  simp only [Shelf.number, cells_store s off _ (leCells_length width value), decodeLe_leCells]

theorem number_store_outside (s : Shelf)
    (h : at_ + width ≤ off ∨ off + cells.length ≤ at_) :
    (s.store off cells).number at_ width = s.number at_ width :=
  congrArg decodeLe (cells_store_outside s h)

theorem HeaderAt.congr {b : Block} (h : HeaderAt s b)
    (hBytes : ∀ i, b.off + 16 ≤ i → i < b.off + 32 → s'.jars.buffer i = s.jars.buffer i) :
    HeaderAt s' b where
  serial := by
    rw [number_congr fun i hLow hHigh => hBytes i (by omega) (by omega), h.serial]
  count := by
    rw [number_congr fun i hLow hHigh => hBytes i (by omega) (by omega), h.count]
  write := by
    rw [number_congr fun i hLow hHigh => hBytes i (by omega) (by omega), h.write]

theorem ItemAt.congr {x : Item} (h : ItemAt s x)
    (hBytes : ∀ i, x.off + 16 ≤ i → i < x.off + 32 + x.data.length →
      s'.jars.buffer i = s.jars.buffer i) : ItemAt s' x where
  prevSerial := by
    rw [number_congr fun i hLow hHigh => hBytes i (by omega) (by omega), h.prevSerial]
  serial := by
    rw [number_congr fun i hLow hHigh => hBytes i (by omega) (by omega), h.serial]
  len := by
    rw [number_congr fun i hLow hHigh => hBytes i (by omega) (by omega), h.len]
  bytes := by
    rw [cells_congr fun i hLow hHigh => hBytes i (by omega) (by omega), h.bytes]

theorem Strung.congr {c : Nat} {near far : List Item} (h : Strung s c near far)
    (hHead : Same s s' (.datas c)) (hNear : ∀ x ∈ near, Same s s' (.entry x.off)) :
    Strung s' c near far := by
  have hSame : ∀ p ∈ links.pairs (.datas c) (near.map Item.off), Same s s' p := by
    intro p hp
    rcases List.mem_cons.mp hp with rfl | hp
    · exact hHead
    · obtain ⟨off, hOff, rfl⟩ := List.mem_map.mp hp
      obtain ⟨x, hx, rfl⟩ := List.mem_map.mp hOff
      exact hNear x hx
  refine ⟨path_same h.path hSame, ?_, fun hFar => hHead.prev.trans (h.tail hFar)⟩
  exact (hSame _ (lastPair_mem links _ _)).next.trans h.rest

/-- The far end of a walk may be given up. -/
theorem Strung.cut {c : Nat} {near mid far : List Item} (h : Strung s c (near ++ mid) far) :
    Strung s c near (mid ++ far) := by
  have hPath := h.path
  have hRest := h.rest
  rw [List.map_append] at hPath hRest
  have hSplit := path_append.mp hPath
  rw [lastPair_append] at hRest
  cases mid with
  | nil => exact ⟨hSplit.1, hRest, by simpa using h.tail⟩
  | cons x mid => exact ⟨hSplit.1, hSplit.2.1, by simp⟩

end Numbers

/-- What an operation on the list of one context does: it may change that
context and the listed bytes. -/
structure Effect (c : Nat) (touched : Nat → Prop) (s s' : Shelf) : Prop where
  fields : s'.jars.fields = s.jars.fields
  heads : s'.jars.heads = s.jars.heads
  contexts : ∀ d, d ≠ c → s'.contexts d = s.contexts d
  bytes : ∀ i, ¬touched i → s'.jars.buffer i = s.jars.buffer i

section Effects

variable {s s' s'' : Shelf} {c off : Nat} {touched touched' : Nat → Prop} {cells : List Cell}

theorem Effect.refl (c : Nat) (touched : Nat → Prop) (s : Shelf) : Effect c touched s s :=
  ⟨rfl, rfl, fun _ _ => rfl, fun _ _ => rfl⟩

theorem Effect.trans (h : Effect c touched s s') (h' : Effect c touched s' s'') :
    Effect c touched s s'' where
  fields := h'.fields.trans h.fields
  heads := h'.heads.trans h.heads
  contexts := fun d hd => (h'.contexts d hd).trans (h.contexts d hd)
  bytes := fun i hi => (h'.bytes i hi).trans (h.bytes i hi)

theorem Effect.mono (h : Effect c touched s s') (hMore : ∀ i, touched i → touched' i) :
    Effect c touched' s s' where
  fields := h.fields
  heads := h.heads
  contexts := h.contexts
  bytes := fun i hi => h.bytes i fun hi' => hi (hMore i hi')

theorem effect_store (s : Shelf) (h : ∀ i, off ≤ i → i < off + cells.length → touched i) :
    Effect c touched s (s.store off cells) where
  fields := rfl
  heads := rfl
  contexts := fun _ _ => rfl
  bytes := by
    intro i hi
    apply Cells.write_outside
    by_contra hIn
    exact hi (h i (by omega) (by omega))

theorem effect_setContext (s : Shelf) (context : Context) :
    Effect c touched s (s.setContext c context) where
  fields := rfl
  heads := rfl
  contexts := fun _ hd => Function.update_of_ne hd _ _
  bytes := fun _ _ => rfl

/-- Stores to links of a context's list. -/
theorem effect_touches {pairs : List Pair} (h : links.Touches pairs s s')
    (hPairs : ∀ p ∈ pairs, p = .datas c ∨
      ∃ off, p = .entry off ∧ ∀ i, off ≤ i → i < off + 16 → touched i) :
    Effect c touched s s' where
  fields := fields_touches h
  heads := by
    refine h.observe (fun s => s.jars.heads) fun p hp => ?_
    rcases hPairs p hp with rfl | ⟨off, rfl, -⟩ <;> exact ⟨fun _ _ => rfl, fun _ _ => rfl⟩
  contexts := by
    intro d hd
    refine h.observe (fun s => s.contexts d) fun p hp => ?_
    rcases hPairs p hp with rfl | ⟨off, rfl, -⟩
    · exact ⟨fun _ _ => Function.update_of_ne hd _ _, fun _ _ => Function.update_of_ne hd _ _⟩
    · exact ⟨fun _ _ => rfl, fun _ _ => rfl⟩
  bytes := by
    intro i hi
    refine buffer_touches h fun off hOff => ?_
    rcases hPairs _ hOff with hEq | ⟨off', hEq, hIn⟩
    · cases hEq
    · cases hEq
      by_contra hOut
      exact hi (hIn i (by omega) (by omega))

theorem Effect.same_entry (h : Effect c touched s s')
    (hClear : ∀ i, off ≤ i → i < off + 16 → ¬touched i) : Same s s' (.entry off) :=
  fun i hLow hHigh => h.bytes i (hClear i hLow hHigh)

end Effects

/-- The links of the context's items. -/
def Own (h : History) (c : Nat) (i : Nat) : Prop :=
  ∃ x ∈ h.held, x.owner = c ∧ x.off ≤ i ∧ i < x.off + 16

namespace Reflects

variable {s s' : Shelf} {h : History} {spare : List Range} {c d i : Nat} {b : Block} {x y : Item}
variable (hReflects : Reflects s h spare)

include hReflects

theorem apart : h.ranges.Pairwise Range.Apart :=
  (List.pairwise_append.mp hReflects.layout.apart).1

/-- Spare room overlaps nothing in use. -/
theorem spare_apart {r q : Range} (hr : r ∈ spare) (hq : q ∈ h.ranges) : r.Apart q :=
  ((List.pairwise_append.mp hReflects.layout.apart).2.2 q hq r hr).symm

theorem item_room (hx : x ∈ h.held) : 32 + x.data.length ≤ headRoom x.data.length :=
  (headRoom_fits (hReflects.sound.held_fits hx)).1

theorem spare_stop_lt {r : Range} (hr : r ∈ spare) : r.stop < 2 ^ 64 := by
  have hInside := hReflects.layout.inside (List.mem_append_right _ hr)
  have hLimit := hReflects.size
  simp only [malignLimit] at hLimit
  omega

theorem spare_header {r : Range} (hr : r ∈ spare) (hb : b ∈ h.blocks) :
    r.stop ≤ b.off ∨ b.off + 32 ≤ r.start :=
  hReflects.spare_apart hr (header_mem_ranges hb)

theorem spare_item {r : Range} (hr : r ∈ spare) (hx : x ∈ h.held) :
    r.stop ≤ x.off ∨ x.off + 32 + x.data.length ≤ r.start := by
  have hApart := hReflects.spare_apart hr (item_mem_ranges hx)
  have hRoom := hReflects.item_room hx
  simp only [Range.Apart, Item.range, Range.stop] at hApart ⊢
  omega

theorem items_apart (hx : x ∈ h.held) (hy : y ∈ h.held) (hNe : x ≠ y) :
    x.off + 32 + x.data.length ≤ y.off ∨ y.off + 32 + y.data.length ≤ x.off := by
  have hxRoom := hReflects.item_room hx
  have hyRoom := hReflects.item_room hy
  have hApart := held_apart hReflects.apart hx hy hNe
  simp only [Range.Apart, Item.range, Range.stop] at hApart
  omega

theorem header_item_apart (hb : b ∈ h.blocks) (hx : x ∈ h.held) :
    b.off + 32 ≤ x.off ∨ x.off + 32 + x.data.length ≤ b.off := by
  have hRoom := hReflects.item_room hx
  have hApart := Jar.header_item_apart hReflects.apart hb hx
  simp only [Range.Apart, Item.range, Range.stop] at hApart
  omega

/-- Headers hold no links of items. -/
theorem header_clear (hb : b ∈ h.blocks) (hLow : b.off ≤ i) (hHigh : i < b.off + 32) :
    ¬Own h c i := by
  rintro ⟨x, hx, -, hLow', hHigh'⟩
  have := hReflects.header_item_apart hb hx
  omega

/-- The records of items are no links. -/
theorem record_clear (hx : x ∈ h.held) (hLow : x.off + 16 ≤ i)
    (hHigh : i < x.off + 32 + x.data.length) : ¬Own h c i := by
  rintro ⟨y, hy, -, hLow', hHigh'⟩
  by_cases hEq : x = y
  · subst hEq
    omega
  · have := hReflects.items_apart hx hy hEq
    omega

/-- The items of other contexts lie elsewhere. -/
theorem other_clear (hx : x ∈ h.held) (hOwner : x.owner ≠ c) (hLow : x.off ≤ i)
    (hHigh : i < x.off + 32 + x.data.length) : ¬Own h c i := by
  rintro ⟨y, hy, hOwn, hLow', hHigh'⟩
  have hNe : x ≠ y := by
    rintro rfl
    exact hOwner hOwn
  have := hReflects.items_apart hx hy hNe
  omega

theorem near_held (hx : x ∈ h.near c) : x ∈ h.held ∧ x.owner = c := by
  have hKept := hReflects.sound.accounts c
  have hStock := hKept.listed.subset ((List.takeWhile_sublist _).subset hx)
  exact ⟨hKept.held x hStock (History.live_of_near hx), hKept.owner x hStock⟩

/-- Heads stay linked under stores away from the headers. -/
theorem heads_congr (hHead : s'.jars.heads = s.jars.heads)
    (hBytes : ∀ b ∈ h.blocks, ∀ i, b.off ≤ i → i < b.off + 16 →
      s'.jars.buffer i = s.jars.buffer i) :
    links.Queue Apart s' .heads (h.blocks.map Block.off) := by
  refine queue_same hReflects.heads fun p hp => ?_
  rcases List.mem_cons.mp hp with rfl | hp
  · exact hHead
  · obtain ⟨off, hOff, rfl⟩ := List.mem_map.mp hp
    obtain ⟨b, hb, rfl⟩ := List.mem_map.mp hOff
    exact hBytes b hb

/-- An operation on the list of one context changes the account of this context
and nothing else. -/
theorem relist {a : Account} (hEffect : Effect c (Own h c) s s') (hKept : h.Kept c a)
    (hStrung : Strung s' c (a.chain.takeWhile h.live) (a.chain.dropWhile h.live))
    (hSerials : a.chain ≠ [] → (s'.contexts c).serials = [a.first % 2 ^ 32, a.last % 2 ^ 32]) :
    Reflects s' (h.setAccount c a) spare := by
  obtain ⟨hFirst, hLast, hWrite, hRead, hSize⟩ := Jars.fields_eq_iff.mp hEffect.fields
  constructor
  case sound => exact hReflects.sound.setAccount hKept
  case size => exact hSize ▸ hReflects.size
  case layout =>
    rw [hWrite, hRead, hSize]
    exact hReflects.layout
  case firstSerial => exact hFirst.trans hReflects.firstSerial
  case lastSerial => exact hLast.trans hReflects.lastSerial
  case heads =>
    exact hReflects.heads_congr hEffect.heads fun b hb i hLow hHigh =>
      hEffect.bytes i (hReflects.header_clear hb hLow (by omega))
  case headers =>
    exact fun b hb => (hReflects.headers b hb).congr fun i hLow hHigh =>
      hEffect.bytes i (hReflects.header_clear hb (by omega) hHigh)
  case items =>
    exact fun x hx => (hReflects.items x hx).congr fun i hLow hHigh =>
      hEffect.bytes i (hReflects.record_clear hx hLow hHigh)
  case lists =>
    intro d
    by_cases hEq : d = c
    · subst hEq
      simp only [History.near, History.far, History.setAccount_self]
      exact hStrung
    · simp only [History.near, History.far, History.setAccount_of_ne hEq]
      refine (hReflects.lists d).congr ?_ fun x hx => ?_
      · exact congrArg Context.datas (hEffect.contexts d hEq)
      · obtain ⟨hHeld, hOwner⟩ := hReflects.near_held hx
        exact hEffect.same_entry fun i hLow hHigh =>
          hReflects.other_clear hHeld (hOwner ▸ hEq) hLow (by omega)
  case serials =>
    intro d hChain
    by_cases hEq : d = c
    · subst hEq
      rw [History.setAccount_self] at hChain ⊢
      exact hSerials hChain
    · rw [History.setAccount_of_ne hEq] at hChain ⊢
      rw [hEffect.contexts d hEq]
      exact hReflects.serials d hChain

end Reflects

end Peak.Jar
