import Peak.Jar.Reflection

/-! Reserving room, reclaiming the oldest header and making a new one. A
reservation is what `peak_jar_write` hands out; it is safe unless the writer has
wrapped around already and the request does not fit before the end of the
buffer, or the request is so large that the end of it is not a `size_t`. -/
namespace Peak.Jar

open TailQueue Ring

/-- The jar hands out room that it does not have: the request is accepted,
although it wraps around for a second time or beyond all sizes. -/
def Overruns (jars : Jars) (headRoom : Nat) : Prop :=
  (write jars headRoom).isSome ∧
    (jars.write < jars.read ∧ jars.size ≤ jars.write + headRoom ∨ 2 ^ 64 ≤ jars.write + headRoom)

instance (jars : Jars) (headRoom : Nat) : Decidable (Overruns jars headRoom) :=
  inferInstanceAs (Decidable (_ ∧ _))

section Write

variable {jars jars' : Jars} {room off : Nat} {rs : List Range}

/-- A reservation without overrun. -/
theorem write_spec (hLayout : Layout jars.read jars.write jars.size rs)
    (hOk : ¬Overruns jars room) (hWrite : write jars room = some (off, jars')) :
    jars' = { jars with write := off + room } ∧
      Layout jars.read (off + room) jars.size (rs ++ [⟨off, room⟩]) := by
  have hLt := hLayout.lt_size
  have hBounds : ¬(jars.write < jars.read ∧ jars.size ≤ jars.write + room) ∧
      jars.write + room < 2 ^ 64 := by
    simp only [Overruns, hWrite, Option.isSome_some, true_and, not_or] at hOk
    exact ⟨hOk.1, by omega⟩
  simp only [write, Nat.mod_eq_of_lt hBounds.2] at hWrite
  split_ifs at hWrite with hWrap hFull hAhead hFull hFull
  all_goals obtain ⟨rfl, rfl⟩ := Prod.mk.inj (Option.some.inj hWrite)
  · rw [Nat.zero_add]
    exact ⟨rfl, hLayout.wrap (by omega) (by omega) (by omega)⟩
  · exact ⟨rfl, hLayout.reserve (by omega) (by omega)⟩
  · exact ⟨rfl, hLayout.reserve (by omega) (by omega)⟩

/-- Room that is handed out lies in the buffer and overlaps nothing in use
exactly if the jar does not overrun. -/
theorem write_safe_iff (hLayout : Layout jars.read jars.write jars.size rs)
    (hSize : jars.size ≤ malignLimit) (hRoom : room < 2 ^ 64)
    (hWrite : write jars room = some (off, jars')) :
    (off + room ≤ jars.size ∧ ∀ r ∈ rs, Range.Apart ⟨off, room⟩ r) ↔ ¬Overruns jars room := by
  constructor
  · rintro ⟨hInside, hApart⟩ ⟨-, hOver⟩
    have hLt := hLayout.lt_size
    simp only [malignLimit] at hSize
    by_cases hHuge : 2 ^ 64 ≤ jars.write + room
    · have hSmall : (jars.write + room) % 2 ^ 64 = jars.write + room - 2 ^ 64 := by omega
      simp only [write, hSmall, if_neg (show ¬jars.size ≤ jars.write + room - 2 ^ 64 by omega)]
        at hWrite
      split_ifs at hWrite
      all_goals obtain ⟨rfl, -⟩ := Prod.mk.inj (Option.some.inj hWrite)
      all_goals omega
    · have hBehind := hOver.resolve_right hHuge
      simp only [write, Nat.mod_eq_of_lt (Nat.lt_of_not_le hHuge), if_pos hBehind.2] at hWrite
      split_ifs at hWrite
      obtain ⟨rfl, -⟩ := Prod.mk.inj (Option.some.inj hWrite)
      -- the first byte of the buffer is in use since the writer wrapped around
      obtain ⟨r, hr, hStart, hPos⟩ := hLayout.first_used hBehind.1
      have hApart := hApart r hr
      simp only [Range.Apart, Range.stop] at hApart
      omega
  · intro hOk
    obtain ⟨-, hNew⟩ := write_spec hLayout hOk hWrite
    refine ⟨hNew.inside (List.mem_append_right _ List.mem_cons_self), fun r hr => ?_⟩
    exact ((List.pairwise_append.mp hNew.apart).2.2 r hr _ List.mem_cons_self).symm

end Write

namespace Reflects

variable {s s' : Shelf} {h : History} {spare : List Range} {b : Block} {x : Item}

/-- Headers and queue heads may change beside the contexts and their items. -/
theorem beside (hReflects : Reflects s h spare) (s' : Shelf)
    (hContexts : s'.contexts = s.contexts)
    (hBytes : ∀ x ∈ h.held, ∀ i, x.off ≤ i → i < x.off + 32 + x.data.length →
      s'.jars.buffer i = s.jars.buffer i) :
    (∀ x ∈ h.held, ItemAt s' x) ∧ (∀ c, Strung s' c (h.near c) (h.far c)) ∧
      ∀ c, (h.accounts c).chain ≠ [] →
        (s'.contexts c).serials = [(h.accounts c).first % 2 ^ 32, (h.accounts c).last % 2 ^ 32] := by
  refine ⟨fun x hx => ?_, fun c => ?_, fun c => ?_⟩
  · exact (hReflects.items x hx).congr fun i hLow hHigh => hBytes x hx i (by omega) hHigh
  · have hHead : Same s s' (.datas c) := congrArg Context.datas (congrFun hContexts c)
    refine (hReflects.lists c).congr hHead fun x hx i hLow hHigh => ?_
    exact hBytes x (hReflects.near_held hx).1 i hLow (by omega)
  · rw [hContexts]
    exact hReflects.serials c

/-- Room is reserved. -/
theorem reserve {off room : Nat} {jars : Jars} (hReflects : Reflects s h [])
    (hOk : ¬Overruns s.jars room) (hWrite : write s.jars room = some (off, jars)) :
    Reflects { s with jars } h [⟨off, room⟩] := by
  have hLayout := hReflects.layout
  rw [List.append_nil] at hLayout
  obtain ⟨rfl, hNew⟩ := write_spec hLayout hOk hWrite
  obtain ⟨hItems, hLists, hSerials⟩ := hReflects.beside
    { s with jars := { s.jars with write := off + room } } rfl fun _ _ _ _ _ => rfl
  exact {
    sound := hReflects.sound
    size := hReflects.size
    layout := hNew
    firstSerial := hReflects.firstSerial
    lastSerial := hReflects.lastSerial
    heads := hReflects.heads_congr rfl fun _ _ _ _ _ => rfl
    headers := fun b hb => (hReflects.headers b hb).congr fun _ _ _ => rfl
    items := hItems
    lists := hLists
    serials := hSerials }

end Reflects

/-- Stores to links of serial headers. -/
theorem heads_touches {s s' : Shelf} {offs : List Nat}
    (h : links.Touches (links.pairs .heads offs) s s') :
    s'.contexts = s.contexts ∧
      ∀ i, (∀ off ∈ offs, i < off ∨ off + 16 ≤ i) → s'.jars.buffer i = s.jars.buffer i := by
  constructor
  · refine h.observe (fun s => s.contexts) fun p hp => ?_
    rcases List.mem_cons.mp hp with rfl | hp
    · exact ⟨fun _ _ => rfl, fun _ _ => rfl⟩
    · obtain ⟨off, -, rfl⟩ := List.mem_map.mp hp
      exact ⟨fun _ _ => rfl, fun _ _ => rfl⟩
  · intro i hi
    refine buffer_touches h fun off hOff => ?_
    rcases List.mem_cons.mp hOff with hEq | hOff
    · cases hEq
    · obtain ⟨off', hMem, hEq⟩ := List.mem_map.mp hOff
      cases hEq
      exact hi off hMem

/-- Items that become invalid leave the end of the part that can be walked. -/
theorem Strung.reclaim {s : Shelf} {c : Nat} {h : History}
    (hStrung : Strung s c (h.near c) (h.far c)) (h' : History) (hLive : ∀ x, h'.live x → h.live x)
    (hChain : (h'.accounts c).chain = (h.accounts c).chain) :
    Strung s c (h'.near c) (h'.far c) := by
  have hSplit : ∀ chain : List Item,
      chain.takeWhile h.live =
        chain.takeWhile h'.live ++ (chain.dropWhile h'.live).takeWhile h.live ∧
      chain.dropWhile h'.live =
        (chain.dropWhile h'.live).takeWhile h.live ++ chain.dropWhile h.live := by
    intro chain
    induction chain with
    | nil => simp
    | cons x chain ih =>
        by_cases hx : h'.live x
        · simp only [List.takeWhile_cons_of_pos hx, List.takeWhile_cons_of_pos (hLive x hx),
            List.dropWhile_cons_of_pos hx, List.dropWhile_cons_of_pos (hLive x hx),
            List.cons_append]
          exact ⟨congrArg (x :: ·) ih.1, ih.2⟩
        · simp only [List.takeWhile_cons_of_neg hx, List.dropWhile_cons_of_neg hx,
            List.nil_append, List.takeWhile_append_dropWhile, and_self]
  simp only [History.near, History.far, hChain] at hStrung ⊢
  rw [(hSplit _).1] at hStrung
  rw [(hSplit _).2]
  exact hStrung.cut

section Heads

variable {s m : Shelf} {h : History} {b : Block} {rest : List Block} {spare : List Range}

/-- Stores to links of serial headers keep their records. -/
theorem Reflects.headers_touches (hReflects : Reflects s h spare)
    (hBytes : ∀ i, (∀ off ∈ h.blocks.map Block.off, i < off ∨ off + 16 ≤ i) →
      m.jars.buffer i = s.jars.buffer i) (hb : b ∈ h.blocks) : HeaderAt m b := by
  refine (hReflects.headers b hb).congr fun i hLow hHigh => hBytes i fun off hOff => ?_
  obtain ⟨b', hb', rfl⟩ := List.mem_map.mp hOff
  by_cases hEq : b = b'
  · subst hEq
    exact .inr hLow
  · have := header_apart hReflects.apart hb hb' hEq
    omega

/-- The oldest header is taken off the queue and its room given up. -/
theorem Reflects.reclaim (hReflects : Reflects s h []) (hBlocks : h.blocks = b :: rest)
    (hHeads : links.Queue Apart m .heads (rest.map Block.off))
    (hTouches : links.Touches (links.pairs .heads (h.blocks.map Block.off)) s m) :
    Reflects { m with
      jars := { m.jars with
        read := stopOf 0 b.ranges, firstSerial := (m.jars.firstSerial + 1) % 2 ^ 32 } }
      h.reclaim [] := by
  obtain ⟨hContexts, hBytes⟩ := heads_touches hTouches
  obtain ⟨hFirst, hLast, hWrite, -, hSize⟩ := Jars.fields_eq_iff.mp (fields_touches hTouches)
  obtain ⟨hItems, hLists, hSerials⟩ := hReflects.beside m hContexts fun x hx i hLow hHigh =>
    hBytes i fun off hOff => by
      obtain ⟨b', hb', rfl⟩ := List.mem_map.mp hOff
      have := hReflects.header_item_apart hb' hx
      omega
  have hSound := History.sound_reclaim hReflects.sound
  have hReclaim : h.reclaim = { h with blocks := rest, reclaimed := h.reclaimed + 1 } := by
    simp only [History.reclaim, hBlocks]
  rw [hReclaim] at hSound ⊢
  constructor
  case sound => exact hSound
  case size => exact hSize ▸ hReflects.size
  case layout =>
    have hLayout := hReflects.layout
    simp only [History.ranges, hBlocks, List.flatMap_cons, List.append_nil] at hLayout
    simp only [History.ranges, List.append_nil, hWrite, hSize]
    exact hLayout.reclaim (List.cons_ne_nil _ _)
  case firstSerial =>
    have := hReflects.firstSerial
    simp only [hFirst]
    omega
  case lastSerial =>
    have hOld := hReflects.lastSerial
    simp only [History.created, hBlocks, List.length_cons] at hOld
    simp only [hLast, hOld, History.created]
    omega
  case heads =>
    refine queue_same hHeads fun p _ => ?_
    cases p <;> first | rfl | exact fun _ _ _ => rfl
  case headers =>
    intro b' hb'
    have hMem : b' ∈ h.blocks := hBlocks ▸ List.mem_cons_of_mem _ hb'
    exact (hReflects.headers_touches hBytes hMem).congr fun _ _ _ => rfl
  case items =>
    intro x hx
    have hMem : x ∈ h.held := by
      simp only [History.held, hBlocks, List.flatMap_cons]
      exact List.mem_append_right _ hx
    exact (hItems x hMem).congr fun _ _ _ => rfl
  case lists =>
    intro c
    have hStrung := (hLists c).reclaim { h with blocks := rest, reclaimed := h.reclaimed + 1 }
      (fun x hx => by
        simp only [History.live_iff] at hx ⊢
        omega) rfl
    exact hStrung.congr rfl fun _ _ _ _ _ => rfl
  case serials => exact hSerials

/-- `peak_jar_read` unlinks the oldest header and moves the reader to where the
header says. -/
theorem Reflects.read_eq (hReflects : Reflects s h []) (hBlocks : h.blocks = b :: rest) :
    ∃ m, links.Queue Apart m .heads (rest.map Block.off) ∧
      links.Touches (links.pairs .heads (h.blocks.map Block.off)) s m ∧
      read s = some { m with
        jars := { m.jars with
          read := stopOf 0 b.ranges, firstSerial := (m.jars.firstSerial + 1) % 2 ^ 32 } } := by
  have hb : b ∈ h.blocks := hBlocks ▸ List.mem_cons_self
  have hQueue : links.Queue Apart s .heads ([] ++ b.off :: rest.map Block.off) := by
    rw [List.nil_append, ← List.map_cons, ← hBlocks]
    exact hReflects.heads
  have hFirst := next_head hQueue
  obtain ⟨m, hRemove, hHeads, hTouches⟩ := remove_spec links_lawful hQueue
  rw [List.nil_append, ← List.map_cons, ← hBlocks] at hTouches
  have hWrite := (hReflects.headers_touches (heads_touches hTouches).2 hb).write
  refine ⟨m, hHeads, hTouches, ?_⟩
  simp only [read, Links.first, hFirst, List.nil_append, List.head?_cons, Option.bind_eq_bind,
    Option.bind_some, hRemove, hWrite]
  rfl

/-- There is nothing to reclaim in an empty jar. -/
theorem Reflects.read_empty (hReflects : Reflects s h []) (hBlocks : h.blocks = []) :
    read s = some s := by
  have hFirst := next_head hReflects.heads
  rw [hBlocks] at hFirst
  simp only [read, Links.first, hFirst]
  rfl

/-- `peak_jar_read` reclaims the oldest header. -/
theorem read_spec (hReflects : Reflects s h []) :
    ∃ s', read s = some s' ∧ Reflects s' h.reclaim [] := by
  cases hBlocks : h.blocks with
  | nil =>
      refine ⟨s, hReflects.read_empty hBlocks, ?_⟩
      simp only [History.reclaim, hBlocks]
      exact hReflects
  | cons b rest =>
      obtain ⟨m, hHeads, hTouches, hRead⟩ := hReflects.read_eq hBlocks
      exact ⟨_, hRead, hReflects.reclaim hBlocks hHeads hTouches⟩

theorem initHeader_bytes {head i : Nat} (hOut : i < head + 16 ∨ head + 32 ≤ i) :
    (initHeader m head).jars.buffer i = m.jars.buffer i := by
  simp only [initHeader, buffer_store]
  rw [Cells.write_outside, Cells.write_outside, Cells.write_outside]
  all_goals
    rw [leCells_length]
    omega

theorem initHeader_header {head : Nat} (hSerial : m.jars.lastSerial = h.created % 2 ^ 32)
    (hWrite : m.jars.write = head + 32) (hLt : head + 32 < 2 ^ 64) :
    HeaderAt (initHeader m head) ⟨head, h.created, []⟩ where
  serial := by
    simp only [initHeader]
    rw [number_store_outside _ (.inl (by omega)), number_store_outside _ (.inl (by omega))]
    refine (number_store m _ _ _).trans ?_
    rw [hSerial]
    simp
  count := by
    simp only [initHeader]
    rw [number_store]
    simp
  write := by
    simp only [initHeader]
    rw [number_store_outside _ (.inr (by rw [leCells_length])), number_store]
    simp only [Block.ranges, List.map_nil, stopOf, Range.stop, Shelf.store, hWrite]
    rw [Nat.mod_eq_of_lt (by omega)]

/-- Linking a new header and filling it in changes its own room and the links of
the other headers. -/
theorem Reflects.linkHeader {head : Nat} (hReflects : Reflects s h [⟨head, 32⟩]) :
    ∃ m, links.insertTail s .heads head = some m ∧
      links.Queue Apart m .heads (h.blocks.map Block.off ++ [head]) ∧
      m.contexts = s.contexts ∧ m.jars.fields = s.jars.fields ∧
      ∀ i, (i < head ∨ head + 32 ≤ i) → (∀ b ∈ h.blocks, i < b.off ∨ b.off + 16 ≤ i) →
        (initHeader m head).jars.buffer i = s.jars.buffer i := by
  obtain ⟨m, hInsert, hHeads, hTouches⟩ := insertTail_spec links_lawful hReflects.heads
    (e := head) (by
      intro p hp
      rcases List.mem_cons.mp hp with rfl | hp
      · trivial
      · obtain ⟨off, hOff, rfl⟩ := List.mem_map.mp hp
        obtain ⟨b, hb, rfl⟩ := List.mem_map.mp hOff
        have := hReflects.spare_header List.mem_cons_self hb
        simp only [Range.stop] at this
        simp only [links, Apart]
        omega)
  have hPairs : links.Touches (links.pairs .heads (head :: h.blocks.map Block.off)) s m := by
    refine hTouches.mono fun p hp => ?_
    simp only [Links.pairs, List.map_cons, List.mem_cons] at hp ⊢
    tauto
  obtain ⟨hContexts, hBytes⟩ := heads_touches hPairs
  refine ⟨m, hInsert, hHeads, hContexts, fields_touches hTouches, fun i hOut hOld => ?_⟩
  rw [initHeader_bytes (by omega)]
  refine hBytes i fun off hOff => ?_
  rcases List.mem_cons.mp hOff with rfl | hOff
  · omega
  · obtain ⟨b, hb, rfl⟩ := List.mem_map.mp hOff
    exact hOld b hb

/-- A new header is linked. -/
theorem Reflects.openBlock {head : Nat} (hReflects : Reflects s h [⟨head, 32⟩])
    (hWrite : s.jars.write = head + 32) :
    ∃ m, links.insertTail s .heads head = some m ∧
      Reflects (initHeader m head) (h.openBlock head) [] := by
  have hHeader : ∀ b ∈ h.blocks, head + 32 ≤ b.off ∨ b.off + 32 ≤ head := fun b hb =>
    hReflects.spare_header List.mem_cons_self hb
  have hItem : ∀ x ∈ h.held, head + 32 ≤ x.off ∨ x.off + 32 + x.data.length ≤ head := fun x hx =>
    hReflects.spare_item List.mem_cons_self hx
  obtain ⟨m, hInsert, hHeads, hContexts, hFields, hAway⟩ := hReflects.linkHeader
  refine ⟨m, hInsert, ?_⟩
  obtain ⟨hFirst, hLast, hWriter, hReader, hSize⟩ := Jars.fields_eq_iff.mp hFields
  obtain ⟨hItems, hLists, hSerials⟩ :=
    hReflects.beside (initHeader m head) hContexts fun x hx i hLow hHigh => by
      refine hAway i ?_ fun b hb => ?_
      · have := hItem x hx
        omega
      · have := hReflects.header_item_apart hb hx
        omega
  have hInside := hReflects.spare_stop_lt List.mem_cons_self
  simp only [Range.stop] at hInside
  have hHeld : (h.openBlock head).held = h.held := by
    simp [History.held, History.openBlock]
  constructor
  case sound => exact History.sound_openBlock hReflects.sound head
  case size => exact (show m.jars.size ≤ malignLimit from hSize ▸ hReflects.size)
  case layout =>
    have hLayout := hReflects.layout
    have hRanges : (h.openBlock head).ranges ++ [] = h.ranges ++ [⟨head, 32⟩] := by
      simp [History.ranges, History.openBlock, Block.ranges]
    rw [← hReader, ← hWriter, ← hSize] at hLayout
    rw [hRanges]
    exact hLayout
  case firstSerial => exact (show m.jars.firstSerial = _ from hFirst.trans hReflects.firstSerial)
  case lastSerial =>
    have hOld := hReflects.lastSerial
    have hCreated : (h.openBlock head).created = h.created + 1 := by
      simp only [History.created, History.openBlock, List.length_append, List.length_singleton]
      omega
    have hNew : (initHeader m head).jars.lastSerial = (m.jars.lastSerial + 1) % 2 ^ 32 := rfl
    rw [hNew, hCreated, hLast, hOld]
    omega
  case heads =>
    have hOffs : (h.openBlock head).blocks.map Block.off = h.blocks.map Block.off ++ [head] := by
      simp [History.openBlock]
    rw [hOffs]
    refine queue_same hHeads fun p hp => ?_
    rcases List.mem_cons.mp hp with rfl | hp
    · rfl
    · obtain ⟨off, hOff, rfl⟩ := List.mem_map.mp hp
      rcases List.mem_append.mp hOff with hOff | hOff
      · obtain ⟨b, hb, rfl⟩ := List.mem_map.mp hOff
        have := hHeader b hb
        exact fun i hLow hHigh => initHeader_bytes (by omega)
      · rw [List.mem_singleton.mp hOff]
        exact fun i hLow hHigh => initHeader_bytes (by omega)
  case headers =>
    intro b hb
    rcases List.mem_append.mp hb with hb | hb
    · refine (hReflects.headers b hb).congr fun i hLow hHigh => hAway i ?_ fun b' hb' => ?_
      · have := hHeader b hb
        omega
      · by_cases hEq : b = b'
        · subst hEq
          exact .inr hLow
        · have := header_apart hReflects.apart hb hb' hEq
          omega
    · rw [List.mem_singleton.mp hb]
      exact initHeader_header (hLast.trans hReflects.lastSerial) (hWriter.trans hWrite) (by omega)
  case items => exact fun x hx => hItems x (hHeld ▸ hx)
  case lists => exact hLists
  case serials => exact hSerials

theorem makeHeader_spec (hReflects : Reflects s h []) (hOk : ¬Overruns s.jars 32) :
    ∃ out s', makeHeader s = some (out, s') ∧ Reflects s' (h.header out) [] ∧
      ∀ head, out.head? = some head → (h.header out).Ready head := by
  cases hWrite : write s.jars 32 with
  | none =>
      obtain ⟨s', hRead, hReflects'⟩ := read_spec hReflects
      refine ⟨.reclaimed, s', ?_, hReflects', by simp [Header.head?]⟩
      simp only [makeHeader, hWrite, hRead]
      rfl
  | some reserved =>
      obtain ⟨head, jars⟩ := reserved
      have hReserved := hReflects.reserve hOk hWrite
      have hLayout := hReflects.layout
      obtain ⟨rfl, -⟩ := write_spec hLayout hOk hWrite
      obtain ⟨m, hInsert, hReflects'⟩ := hReserved.openBlock rfl
      refine ⟨.made head, initHeader m head, ?_, hReflects', ?_⟩
      · simp only [makeHeader, hWrite, hInsert]
        rfl
      · rintro _ ⟨⟩
        exact ⟨h.blocks, ⟨head, h.created, []⟩, rfl, rfl, Nat.zero_le _⟩

/-- The newest header is kept while it takes another item. -/
theorem Reflects.packHeader_kept {head : Nat} (hReflects : Reflects s h spare)
    (hReady : h.Ready head) : packHeader s = some (.kept head, s) := by
  obtain ⟨front, b, hBlocks, rfl, hCount⟩ := hReady
  have hBefore := before_head hReflects.heads
  have hb : b ∈ h.blocks := hBlocks ▸ List.mem_append_right _ List.mem_cons_self
  rw [hBlocks, List.map_append, List.map_singleton, List.getLast?_concat] at hBefore
  simp only [packHeader, hBefore, Option.bind_eq_bind, Option.bind_some,
    (hReflects.headers b hb).count, if_neg (Nat.not_lt.mpr hCount)]
  rfl

/-- Otherwise a new one is asked for. -/
theorem Reflects.packHeader_make (hReflects : Reflects s h spare) (hNeeds : h.needsHeader) :
    packHeader s = makeHeader s := by
  have hBefore := before_head hReflects.heads
  rcases List.eq_nil_or_concat h.blocks with hBlocks | ⟨front, b, hBlocks⟩
  · rw [hBlocks] at hBefore
    simp only [packHeader, hBefore]
    rfl
  · rw [List.concat_eq_append] at hBlocks
    have hb : b ∈ h.blocks := hBlocks ▸ List.mem_append_right _ List.mem_cons_self
    rw [hBlocks, List.map_append, List.map_singleton, List.getLast?_concat] at hBefore
    simp only [History.needsHeader, hBlocks, List.getLast?_concat, decide_eq_true_eq] at hNeeds
    simp only [packHeader, hBefore, Option.bind_eq_bind, Option.bind_some,
      (hReflects.headers b hb).count, if_pos hNeeds]

/-- The search for a serial header finds or makes one with room for an item, or
reclaims the oldest. -/
theorem packHeader_spec (hReflects : Reflects s h [])
    (hOk : h.needsHeader → ¬Overruns s.jars 32) :
    ∃ out s', packHeader s = some (out, s') ∧ Reflects s' (h.header out) [] ∧
      ∀ head, out.head? = some head → (h.header out).Ready head := by
  by_cases hNeeds : h.needsHeader = true
  · rw [hReflects.packHeader_make hNeeds]
    exact makeHeader_spec hReflects (hOk hNeeds)
  · obtain ⟨head, hReady⟩ := History.ready_of_not_needsHeader hNeeds
    refine ⟨.kept head, s, hReflects.packHeader_kept hReady, hReflects, ?_⟩
    rintro _ ⟨⟩
    exact hReady

end Heads

end Peak.Jar
