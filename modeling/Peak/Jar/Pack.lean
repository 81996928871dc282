import Peak.Jar.Lists

/-! Packing an item into reserved room: its record is filled in, it is put at the
head of the context's list, and its serial header is brought up to date. -/
namespace Peak.Jar

open TailQueue Ring

/-- The bytes that packing an item changes: its room, the links of the context's
items and the end of the serial header. -/
def Packed (h : History) (c off len head : Nat) (i : Nat) : Prop :=
  (off ≤ i ∧ i < off + 32 + len) ∨ Own h c i ∨ (head + 20 ≤ i ∧ i < head + 32)

section Fill

variable {s : Shelf} {c off head serial : Nat} {data : List UInt8}

/-- A number in a run of zeros. -/
theorem number_zeros (s : Shelf) (off : Nat) :
    (s.store off (List.replicate 32 (.byte 0))).number (off + 16) 4 = some 0 := by
  have hCells : (s.store off (List.replicate 32 (.byte 0))).cells (off + 16) 4 =
      List.replicate 4 (.byte 0) := by
    refine List.eq_replicate_iff.mpr ⟨Cells.read_length _ _ _, fun cell hCell => ?_⟩
    obtain ⟨i, hi, rfl⟩ := List.mem_map.mp hCell
    obtain ⟨k, rfl⟩ := Nat.le.dest (Nat.le_trans (Nat.le_add_right off 16) (List.mem_range'_1.mp hi).1)
    have hLt := (List.mem_range'_1.mp hi).2
    rw [buffer_store, Cells.write_inside (by rw [List.length_replicate]; omega),
      List.getElem_replicate]
  rw [Shelf.number, hCells]
  rfl

/-- Filling in the record of an item. -/
theorem fill_spec (c : Nat) (hSerial : s.number (head + 16) 4 = some serial)
    (hLt : serial < 2 ^ 32) (hLen : data.length < 2 ^ 64)
    (hApart : off + 32 + data.length ≤ head ∨ head + 32 ≤ off) :
    ∃ m, fill s head off data = some m ∧ m.contexts = s.contexts ∧
      Effect c (fun i => off ≤ i ∧ i < off + 32 + data.length) s m ∧
      m.number (off + 16) 4 = some 0 ∧ m.number (off + 20) 4 = some serial ∧
      m.number (off + 24) 8 = some data.length ∧
      m.cells (off + 32) data.length = data.map .byte := by
  let zeroed := s.store off (List.replicate 32 (.byte 0))
  let copied := zeroed.store (off + 32) (data.map .byte)
  have hRecord : copied.number (head + 16) 4 = some serial := by
    rw [number_store_outside _ (by rw [List.length_map]; omega),
      number_store_outside _ (by rw [List.length_replicate]; omega), hSerial]
  refine ⟨(copied.store (off + 20) (leCells 4 serial)).store (off + 24) (leCells 8 data.length),
    ?_, rfl, ?_, ?_, ?_, ?_, ?_⟩
  · simp only [fill]
    change (copied.number (head + 16) 4 >>= _) = _
    rw [hRecord]
    rfl
  · refine (((effect_store s ?_).trans (effect_store zeroed ?_)).trans
      (effect_store copied ?_)).trans (effect_store _ ?_)
    all_goals
      intro i hLow hHigh
      simp only [List.length_replicate, List.length_map, leCells_length] at hHigh
      omega
  · rw [number_store_outside _ (.inl (by omega)), number_store_outside _ (.inl (by omega)),
      number_store_outside _ (.inl (by omega)), number_zeros]
  · rw [number_store_outside _ (.inl (by omega)), number_store, Nat.mod_eq_of_lt (by omega)]
  · rw [number_store, Nat.mod_eq_of_lt (by omega)]
  · rw [cells_store_outside _ (.inr (by rw [leCells_length])),
      cells_store_outside _ (.inr (by rw [leCells_length]; omega)),
      cells_store _ _ _ (List.length_map _)]

end Fill

section Enlist

variable {s m : Shelf} {c off serial prevSerial : Nat} {offs : List Nat}

/-- The bytes that linking an item into a list changes. -/
def Linked (off : Nat) (offs : List Nat) (i : Nat) : Prop :=
  (off ≤ i ∧ i < off + 20) ∨ ∃ o ∈ offs, o ≤ i ∧ i < o + 16

/-- `context->first_serial` is set for the first item of a list. -/
theorem first_serial_spec (hQueue : links.Queue Apart m (.datas c) offs) (off serial : Nat) :
    ∃ m', (if offs.head? = none then
          m.setContext c { m.contexts c with firstSerial := serial } else m) = m' ∧
      Effect c (Linked off offs) m m' ∧ m'.jars = m.jars ∧
      links.Queue Apart m' (.datas c) offs ∧
      (m'.contexts c).serials =
        [if offs = [] then serial else (m.contexts c).firstSerial, (m.contexts c).lastSerial] := by
  cases offs with
  | nil =>
      refine ⟨_, rfl, effect_setContext m _, rfl, ?_, ?_⟩
      · exact queue_same hQueue fun p _ => same_setContext (by rfl) p
      · simp [Shelf.setContext, Context.serials]
  | cons o offs => exact ⟨m, by simp, Effect.refl _ _ _, rfl, hQueue, by simp [Context.serials]⟩

/-- Linking an item at the head of a list. -/
theorem link_spec (hQueue : links.Queue Apart m (.datas c) offs)
    (hFresh : ∀ o ∈ offs, off + 32 ≤ o ∨ o + 32 ≤ off) :
    ∃ s', links.insertHead m (.datas c) off = some s' ∧
      links.Queue Apart s' (.datas c) (off :: offs) ∧ Effect c (Linked off offs) m s' ∧
      (s'.contexts c).serials = (m.contexts c).serials ∧
      ∀ i, (i < off ∨ off + 16 ≤ i) → (∀ o ∈ offs, i < o ∨ o + 16 ≤ i) →
        s'.jars.buffer i = m.jars.buffer i := by
  obtain ⟨s', hInsert, hNew, hTouches⟩ := insertHead_spec links_lawful (e := off) hQueue
    fun p hp => by
      rcases List.mem_cons.mp hp with rfl | hp
      · trivial
      · obtain ⟨o, ho, rfl⟩ := List.mem_map.mp hp
        have := hFresh o ho
        simp only [links, Apart]
        omega
  refine ⟨s', hInsert, hNew, ?_, serials_touches hTouches c, fun i hOff hOffs => ?_⟩
  · apply effect_touches hTouches
    intro p hp
    simp only [Links.pairs, links, List.mem_cons, List.mem_map] at hp
    rcases hp with rfl | rfl | ⟨o, ho, rfl⟩
    · exact .inr ⟨off, rfl, fun i hLow hHigh => .inl ⟨hLow, by omega⟩⟩
    · exact .inl rfl
    · exact .inr ⟨o, rfl, fun i hLow hHigh => .inr ⟨o, ho, hLow, hHigh⟩⟩
  · apply buffer_touches hTouches
    intro o ho
    simp only [Links.pairs, links, List.mem_cons, List.mem_map, Pair.entry.injEq, reduceCtorEq,
      false_or, exists_eq_right] at ho
    rcases ho with rfl | ho
    · exact hOff
    · exact hOffs o ho

/-- The item goes to the head of the context's list. -/
theorem enlist_spec (hQueue : links.Queue Apart m (.datas c) offs)
    (hFresh : ∀ o ∈ offs, off + 32 ≤ o ∨ o + 32 ≤ off)
    (hApart : ∀ o ∈ offs, ∀ o' ∈ offs, o = o' ∨ o + 32 ≤ o' ∨ o' + 32 ≤ o)
    (hSerial : m.number (off + 20) 4 = some serial)
    (hPrev : (match offs.head? with
      | none => m.number (off + 16) 4
      | some o => m.number (o + 20) 4) = some prevSerial)
    (hLt : prevSerial < 2 ^ 32) :
    ∃ s', enlist m c off = some s' ∧ Effect c (Linked off offs) m s' ∧
      links.Queue Apart s' (.datas c) (off :: offs) ∧
      (s'.contexts c).serials =
        [if offs = [] then serial else (m.contexts c).firstSerial, serial] ∧
      s'.number (off + 16) 4 = some prevSerial := by
  obtain ⟨m₁, hFirst, hEffect₁, hJars, hQueue₁, hSerials₁⟩ :=
    first_serial_spec hQueue off serial
  obtain ⟨m₂, hInsert, hQueue₂, hEffect₂, hSerials₂, hBytes⟩ := link_spec hQueue₁ hFresh
  rw [hJars] at hBytes
  have hRecord : m₂.number (off + 20) 4 = some serial := by
    rw [number_congr fun i hLow hHigh => hBytes i (by omega) fun o ho => ?_, hSerial]
    have := hFresh o ho
    omega
  rw [hSerials₁] at hSerials₂
  let m₃ := m₂.setContext c { m₂.contexts c with lastSerial := serial }
  have hSerials₃ : (m₃.contexts c).serials =
      [if offs = [] then serial else (m.contexts c).firstSerial, serial] := by
    simp only [Context.serials, List.cons.injEq] at hSerials₂
    simp [m₃, Shelf.setContext, Context.serials, hSerials₂.1]
  have hQueue₃ : links.Queue Apart m₃ (.datas c) ([] ++ off :: offs) :=
    queue_same hQueue₂ fun p _ => same_setContext (by rfl) p
  have hEffect₃ : Effect c (Linked off offs) m m₃ :=
    (hEffect₁.trans hEffect₂).trans (effect_setContext m₂ _)
  have hNext : links.next m₃ (.entry off) = some offs.head? := next_elem hQueue₃
  have hHead : links.next m (.datas c) = some offs.head? := next_head hQueue
  have hStart : enlist m c off = (links.next m₃ (.entry off) >>= fun next =>
      match next with
      | none => some m₃
      | some next => m₃.number (next + 20) 4 >>= fun prevSerial =>
          some (m₃.store (off + 16) (leCells 4 prevSerial))) := by
    simp only [enlist, Links.first, hHead, Option.bind_eq_bind, Option.bind_some, hSerial, hFirst,
      hInsert, hRecord]
    rfl
  rw [hStart, hNext]
  cases offs with
  | nil =>
      refine ⟨m₃, rfl, hEffect₃, hQueue₃, hSerials₃, ?_⟩
      refine (number_congr fun i hLow hHigh => hBytes i (by omega) (by simp)).trans hPrev
  | cons o offs =>
      have ho := hFresh o List.mem_cons_self
      have hOld : m₃.number (o + 20) 4 = some prevSerial := by
        refine (number_congr fun i hLow hHigh => hBytes i (by omega) fun o' ho' => ?_).trans hPrev
        have := hApart o List.mem_cons_self o' ho'
        omega
      refine ⟨m₃.store (off + 16) (leCells 4 prevSerial), ?_, ?_, ?_, hSerials₃, ?_⟩
      · simp only [List.head?_cons, Option.bind_eq_bind, Option.bind_some, hOld]
      · refine hEffect₃.trans (effect_store m₃ fun i hLow hHigh => .inl ?_)
        rw [leCells_length] at hHigh
        omega
      · refine queue_same hQueue₃ fun p hp => same_store fun at_ hAt => ?_
        subst hAt
        simp only [Links.pairs, links, List.mem_cons, List.mem_map, Pair.entry.injEq, reduceCtorEq,
          false_or, exists_eq_right] at hp
        rw [leCells_length]
        rcases hp with rfl | hp
        · omega
        · have := hFresh at_ (List.mem_cons.mpr hp)
          omega
      · rw [number_store, Nat.mod_eq_of_lt (by omega)]

end Enlist

section Book

variable {m : Shelf} {c head count : Nat}

/-- The serial header takes note of the new item. -/
theorem book_spec (c : Nat) (hCount : m.number (head + 20) 4 = some count)
    (hLt : count + 1 < 2 ^ 32) (hWrite : m.jars.write < 2 ^ 64) :
    ∃ s', book m head = some s' ∧ s'.contexts = m.contexts ∧
      Effect c (fun i => head + 20 ≤ i ∧ i < head + 32) m s' ∧
      s'.number (head + 20) 4 = some (count + 1) ∧
      s'.number (head + 24) 8 = some m.jars.write := by
  let noted := m.store (head + 24) (leCells 8 m.jars.write)
  have hOld : noted.number (head + 20) 4 = some count := by
    rw [number_store_outside _ (.inl (by omega)), hCount]
  refine ⟨noted.store (head + 20) (leCells 4 (count + 1)), ?_, rfl, ?_, ?_, ?_⟩
  · simp only [book]
    change (noted.number (head + 20) 4 >>= _) = _
    rw [hOld]
    rfl
  · refine (effect_store m ?_).trans (effect_store noted ?_)
    all_goals
      intro i hLow hHigh
      rw [leCells_length] at hHigh
      omega
  · rw [number_store, Nat.mod_eq_of_lt (by omega)]
  · rw [number_store_outside _ (.inr (by rw [leCells_length])), number_store,
      Nat.mod_eq_of_lt (by omega)]

end Book

namespace Reflects

variable {s m : Shelf} {h : History} {c off : Nat} {data : List UInt8} {b : Block}
variable {front : List Block}

/-- The room of a new item overlaps no header. -/
theorem room_header (hReflects : Reflects s h [⟨off, headRoom data.length⟩])
    (hFits : data.length + 40 ≤ 2 ^ 64) (hb : b ∈ h.blocks) :
    off + 32 + data.length ≤ b.off ∨ b.off + 32 ≤ off := by
  have hApart := hReflects.spare_header List.mem_cons_self hb
  have := (headRoom_fits hFits).1
  simp only [Range.stop] at hApart
  omega

/-- It overlaps no item. -/
theorem room_item {x : Item} (hReflects : Reflects s h [⟨off, headRoom data.length⟩])
    (hFits : data.length + 40 ≤ 2 ^ 64) (hx : x ∈ h.held) :
    off + 32 + data.length ≤ x.off ∨ x.off + 32 + x.data.length ≤ off := by
  have hApart := hReflects.spare_item List.mem_cons_self hx
  have := (headRoom_fits hFits).1
  simp only [Range.stop] at hApart
  omega

/-- Packing leaves the serial of a header alone, and all of a header that is not
the item's own. -/
theorem header_not_packed {b' : Block} {i : Nat} (hReflects : Reflects s h [⟨off, headRoom data.length⟩])
    (hFits : data.length + 40 ≤ 2 ^ 64) (hb : b ∈ h.blocks) (hb' : b' ∈ h.blocks)
    (hLow : b'.off ≤ i) (hHigh : i < b'.off + 32) (hOwner : b' = b → i < b'.off + 20) :
    ¬ Packed h c off data.length b.off i := by
  rintro (hIn | hOwn | hIn)
  · have := hReflects.room_header hFits hb'
    omega
  · exact hReflects.header_clear hb' hLow hHigh hOwn
  · by_cases hEq : b' = b
    · have := hOwner hEq
      subst hEq
      omega
    · have := header_apart hReflects.apart hb' hb hEq
      omega

/-- It leaves the bytes of an item alone that are not the links of the context's
items. -/
theorem item_not_packed {x : Item} {i : Nat} (hReflects : Reflects s h [⟨off, headRoom data.length⟩])
    (hFits : data.length + 40 ≤ 2 ^ 64) (hb : b ∈ h.blocks) (hx : x ∈ h.held)
    (hLow : x.off ≤ i) (hHigh : i < x.off + 32 + x.data.length) (hOwn : ¬ Own h c i) :
    ¬ Packed h c off data.length b.off i := by
  rintro (hIn | hIn | hIn)
  · have := hReflects.room_item hFits hx
    omega
  · exact hOwn hIn
  · have := hReflects.header_item_apart hb hx
    omega

/-- The headers in front of the last one are others. -/
theorem front_ne {b' : Block} (hReflects : Reflects s h [⟨off, headRoom data.length⟩])
    (hBlocks : h.blocks = front ++ [b]) (hb' : b' ∈ front) : b' ≠ b := by
  rintro rfl
  have hSerials := hReflects.sound.serials
  rw [hBlocks, List.map_append] at hSerials
  have hNodup : (front.map Block.serial ++ [b'].map Block.serial).Nodup := by
    rw [hSerials]
    exact List.nodup_range'
  exact (List.nodup_append.mp hNodup).2.2 _ (List.mem_map_of_mem hb') _ (by simp) rfl

/-- A new item in front of live ones makes a list of live items. -/
theorem strung_store (hReflects : Reflects s h [⟨off, headRoom data.length⟩])
    (hBlocks : h.blocks = front ++ [b]) (hb : b ∈ h.blocks)
    (hLive : ∀ x ∈ (h.accounts c).chain, h.reclaimed ≤ x.serial)
    (hQueue : links.Queue Apart m (.datas c) (off :: (h.accounts c).chain.map Item.off)) :
    Strung m c ((h.store c off data).near c) ((h.store c off data).far c) := by
  have hAccount : (h.store c off data).accounts c =
      History.added (h.accounts c) (h.item c off data) := Function.update_self _ _ _
  have hNew : h.reclaimed ≤ (h.item c off data).serial := by
    have := (hReflects.sound.block_serial hb).1
    rw [hReflects.sound.last_serial hBlocks] at this
    exact this
  have hAll : ∀ x ∈ (History.added (h.accounts c) (h.item c off data)).chain,
      (h.store c off data).live x = true := by
    rintro x (_ | ⟨_, hx⟩)
    · exact History.live_iff.mpr hNew
    · exact History.live_iff.mpr (hLive x hx)
  simp only [History.near, History.far, hAccount, List.takeWhile_eq_self_iff.mpr hAll,
    List.dropWhile_eq_nil_iff.mpr hAll]
  exact strung_of_queue hQueue

/-- A history with one more item is shown by a shelf that has its record, its
links and its header's record. -/
theorem stored (hReflects : Reflects s h [⟨off, headRoom data.length⟩])
    (hBlocks : h.blocks = front ++ [b]) (hCount : b.items.length ≤ headCount)
    (hFits : data.length + 40 ≤ 2 ^ 64)
    (hLive : ∀ x ∈ (h.accounts c).chain, h.reclaimed ≤ x.serial)
    (hEffect : Effect c (Packed h c off data.length b.off) s m)
    (hItem : ItemAt m (h.item c off data))
    (hHeader : HeaderAt m { b with items := b.items ++ [h.item c off data] })
    (hQueue : links.Queue Apart m (.datas c) (off :: (h.accounts c).chain.map Item.off))
    (hSerials : (m.contexts c).serials =
      [(History.added (h.accounts c) (h.item c off data)).first % 2 ^ 32,
        (h.item c off data).serial % 2 ^ 32]) :
    Reflects m (h.store c off data) [] := by
  have hb : b ∈ h.blocks := hBlocks ▸ List.mem_append_right _ List.mem_cons_self
  obtain ⟨hFirst, hLast, hWrite, hRead, hSize⟩ := Jars.fields_eq_iff.mp hEffect.fields
  have hOffs : (h.store c off data).blocks.map Block.off = h.blocks.map Block.off := by
    simp [History.store_blocks hBlocks, hBlocks]
  have hAccount : (h.store c off data).accounts c =
      History.added (h.accounts c) (h.item c off data) := Function.update_self _ _ _
  have hOthers : ∀ d, d ≠ c → (h.store c off data).accounts d = h.accounts d := fun d hd =>
    Function.update_of_ne hd _ _
  constructor
  case sound => exact History.sound_store hReflects.sound hBlocks hCount hFits
  case size => exact hSize ▸ hReflects.size
  case layout =>
    rw [hWrite, hRead, hSize, History.ranges_store hBlocks, List.append_nil]
    exact hReflects.layout
  case firstSerial => exact hFirst.trans hReflects.firstSerial
  case lastSerial =>
    rw [hLast, hReflects.lastSerial, History.created_store hBlocks]
  case heads =>
    rw [hOffs]
    refine hReflects.heads_congr hEffect.heads fun b' hb' i hLow hHigh => hEffect.bytes i ?_
    exact hReflects.header_not_packed hFits hb hb' hLow (by omega) fun _ => by omega
  case headers =>
    rw [History.store_blocks hBlocks]
    intro b' hb'
    rcases List.mem_append.mp hb' with hb' | hb'
    · have hMem : b' ∈ h.blocks := hBlocks ▸ List.mem_append_left _ hb'
      refine (hReflects.headers b' hMem).congr fun i hLow hHigh => hEffect.bytes i ?_
      exact hReflects.header_not_packed hFits hb hMem (by omega) hHigh fun hEq =>
        absurd hEq (hReflects.front_ne hBlocks hb')
    · rw [List.mem_singleton.mp hb']
      exact hHeader
  case items =>
    rw [History.held_store hBlocks]
    intro x hx
    rcases List.mem_append.mp hx with hx | hx
    · refine (hReflects.items x hx).congr fun i hLow hHigh => hEffect.bytes i ?_
      exact hReflects.item_not_packed hFits hb hx (by omega) hHigh
        (hReflects.record_clear hx hLow hHigh)
    · rw [List.mem_singleton.mp hx]
      exact hItem
  case lists =>
    intro d
    by_cases hEq : d = c
    · subst hEq
      exact hReflects.strung_store hBlocks hb hLive hQueue
    · have hStrung : Strung m d (h.near d) (h.far d) := by
        refine (hReflects.lists d).congr (congrArg Context.datas (hEffect.contexts d hEq)) ?_
        intro x hx
        obtain ⟨hHeld, hOwner⟩ := hReflects.near_held hx
        refine hEffect.same_entry fun i hLow hHigh => ?_
        exact hReflects.item_not_packed hFits hb hHeld hLow (by omega)
          (hReflects.other_clear hHeld (hOwner ▸ hEq) hLow (by omega))
      simp only [History.near, History.far, hOthers d hEq]
      exact hStrung
  case serials =>
    intro d hChain
    by_cases hEq : d = c
    · subst hEq
      rw [hAccount, hSerials]
      rfl
    · rw [hOthers d hEq] at hChain ⊢
      rw [hEffect.contexts d hEq]
      exact hReflects.serials d hChain

/-- The room of a new item overlaps no item of a context's list. -/
theorem room_chain {x : Item} (hReflects : Reflects s h [⟨off, headRoom data.length⟩])
    (hFits : data.length + 40 ≤ 2 ^ 64)
    (hLive : ∀ x ∈ (h.accounts c).chain, h.reclaimed ≤ x.serial)
    (hx : x ∈ (h.accounts c).chain) :
    off + 32 + data.length ≤ x.off ∨ x.off + 32 + x.data.length ≤ off :=
  hReflects.room_item hFits (hReflects.chain_held hx (hLive x hx)).1

/-- The records of the items of a context's list do not overlap. -/
theorem chain_apart {o o' : Nat} (hReflects : Reflects s h [⟨off, headRoom data.length⟩])
    (hLive : ∀ x ∈ (h.accounts c).chain, h.reclaimed ≤ x.serial)
    (ho : o ∈ (h.accounts c).chain.map Item.off) (ho' : o' ∈ (h.accounts c).chain.map Item.off) :
    o = o' ∨ o + 32 ≤ o' ∨ o' + 32 ≤ o := by
  obtain ⟨x, hx, rfl⟩ := List.mem_map.mp ho
  obtain ⟨y, hy, rfl⟩ := List.mem_map.mp ho'
  by_cases hEq : x = y
  · exact .inl (congrArg Item.off hEq)
  · have := hReflects.items_apart (hReflects.chain_held hx (hLive x hx)).1
      (hReflects.chain_held hy (hLive y hy)).1 hEq
    omega

/-- Filling in the room of a new item leaves the context's list alone. -/
theorem queue_filled (hReflects : Reflects s h [⟨off, headRoom data.length⟩])
    (hFits : data.length + 40 ≤ 2 ^ 64)
    (hLive : ∀ x ∈ (h.accounts c).chain, h.reclaimed ≤ x.serial)
    (hContexts : m.contexts = s.contexts)
    (hEffect : Effect c (fun i => off ≤ i ∧ i < off + 32 + data.length) s m) :
    links.Queue Apart m (.datas c) ((h.accounts c).chain.map Item.off) := by
  refine queue_same (hReflects.queue hLive) fun p hp => ?_
  rcases List.mem_cons.mp hp with rfl | hp
  · exact congrArg (fun contexts => (contexts c).datas) hContexts
  · obtain ⟨o, ho, rfl⟩ := List.mem_map.mp hp
    obtain ⟨x, hx, rfl⟩ := List.mem_map.mp ho
    have := hReflects.room_chain hFits hLive hx
    exact hEffect.same_entry fun i hLow hHigh => by omega

/-- The serial that goes before the new item's is that of the newest item of the
list, or the zero that the record was filled with. -/
theorem previous_filled (hReflects : Reflects s h [⟨off, headRoom data.length⟩])
    (hFits : data.length + 40 ≤ 2 ^ 64)
    (hLive : ∀ x ∈ (h.accounts c).chain, h.reclaimed ≤ x.serial)
    (hEffect : Effect c (fun i => off ≤ i ∧ i < off + 32 + data.length) s m)
    (hZero : m.number (off + 16) 4 = some 0) :
    (match ((h.accounts c).chain.map Item.off).head? with
      | none => m.number (off + 16) 4
      | some o => m.number (o + 20) 4) = some ((h.item c off data).prevSerial % 2 ^ 32) := by
  simp only [History.item]
  cases hChain : (h.accounts c).chain with
  | nil => exact hZero
  | cons x rest =>
      have hx : x ∈ (h.accounts c).chain := hChain ▸ List.mem_cons_self
      have := hReflects.room_chain hFits hLive hx
      have hRecord := (hReflects.items x (hReflects.chain_held hx (hLive x hx)).1).congr
        fun i hLow hHigh => hEffect.bytes i (by omega)
      simp only [List.map_cons, List.head?_cons, Option.map_some, Option.getD_some]
      exact hRecord.serial

/-- Booking the item leaves the context's list alone. -/
theorem queue_booked {m' : Shelf} (hReflects : Reflects s h [⟨off, headRoom data.length⟩])
    (hFits : data.length + 40 ≤ 2 ^ 64)
    (hLive : ∀ x ∈ (h.accounts c).chain, h.reclaimed ≤ x.serial) (hb : b ∈ h.blocks)
    (hQueue : links.Queue Apart m (.datas c) (off :: (h.accounts c).chain.map Item.off))
    (hContexts : m'.contexts = m.contexts)
    (hEffect : Effect c (fun i => b.off + 20 ≤ i ∧ i < b.off + 32) m m') :
    links.Queue Apart m' (.datas c) (off :: (h.accounts c).chain.map Item.off) := by
  have hHeaderFree := hReflects.room_header hFits hb
  refine queue_same hQueue fun p hp => ?_
  rcases List.mem_cons.mp hp with rfl | hp
  · exact congrArg (fun contexts => (contexts c).datas) hContexts
  · obtain ⟨o, ho, rfl⟩ := List.mem_map.mp hp
    refine hEffect.same_entry fun i hLow hHigh => ?_
    rcases List.mem_cons.mp ho with rfl | ho
    · omega
    · obtain ⟨x, hx, rfl⟩ := List.mem_map.mp ho
      have := hReflects.header_item_apart hb (hReflects.chain_held hx (hLive x hx)).1
      omega

/-- After the repair the item is filled in, linked and booked. -/
theorem commit (hReflects : Reflects s h [⟨off, headRoom data.length⟩])
    (hWrite : s.jars.write = off + headRoom data.length)
    (hBlocks : h.blocks = front ++ [b]) (hCount : b.items.length ≤ headCount)
    (hFits : data.length + 40 ≤ 2 ^ 64)
    (hLive : ∀ x ∈ (h.accounts c).chain, h.reclaimed ≤ x.serial) :
    ∃ m₁ m₂ m₃, fill s b.off off data = some m₁ ∧ enlist m₁ c off = some m₂ ∧
      book m₂ b.off = some m₃ ∧ Reflects m₃ (h.store c off data) [] := by
  have hb : b ∈ h.blocks := hBlocks ▸ List.mem_append_right _ List.mem_cons_self
  have hHeaderFree := hReflects.room_header hFits hb
  have hHeader := hReflects.headers b hb
  have hHeld : ∀ x ∈ (h.accounts c).chain, x ∈ h.held ∧ x.owner = c := fun x hx =>
    hReflects.chain_held hx (hLive x hx)
  have hSerial : b.serial % 2 ^ 32 = (h.item c off data).serial % 2 ^ 32 := by
    rw [hReflects.sound.last_serial hBlocks]
    rfl
  obtain ⟨m₁, hFill, hContexts₁, hEffect₁, hPrev₁, hSerial₁, hLen₁, hCells₁⟩ :=
    fill_spec c hHeader.serial (Nat.mod_lt _ (by omega)) (by omega) hHeaderFree
  have hQueue₁ := hReflects.queue_filled hFits hLive hContexts₁ hEffect₁
  have hPrev := hReflects.previous_filled hFits hLive hEffect₁ hPrev₁
  have hFresh : ∀ o ∈ (h.accounts c).chain.map Item.off, off + 32 ≤ o ∨ o + 32 ≤ off := by
    intro o ho
    obtain ⟨x, hx, rfl⟩ := List.mem_map.mp ho
    have := hReflects.room_chain hFits hLive hx
    omega
  obtain ⟨m₂, hEnlist, hEffect₂, hQueue₂, hSerials₂, hPrev₂⟩ :=
    enlist_spec hQueue₁ hFresh (fun o ho o' ho' => hReflects.chain_apart hLive ho ho') hSerial₁ hPrev
      (Nat.mod_lt _ (by omega))
  -- neither the header's record nor the item's record is touched by the links
  have hKeep₂ : ∀ i, (b.off ≤ i ∧ i < b.off + 32) ∨
      (off + 20 ≤ i ∧ i < off + 32 + data.length) → m₂.jars.buffer i = m₁.jars.buffer i := by
    intro i hi
    refine hEffect₂.bytes i ?_
    rintro (hIn | ⟨o, ho, hLow, hHigh⟩)
    · omega
    · obtain ⟨x, hx, rfl⟩ := List.mem_map.mp ho
      have := hReflects.room_chain hFits hLive hx
      have := hReflects.header_item_apart hb (hHeld x hx).1
      omega
  have hHeader₂ : HeaderAt m₂ b := (hHeader.congr fun i hLow hHigh =>
    hEffect₁.bytes i (by omega)).congr fun i hLow hHigh => hKeep₂ i (.inl ⟨by omega, hHigh⟩)
  obtain ⟨-, -, hWriter, -⟩ := Jars.fields_eq_iff.mp (hEffect₂.fields.trans hEffect₁.fields)
  have hWrite₂ : m₂.jars.write = off + headRoom data.length := hWriter.trans hWrite
  have hInside := hReflects.spare_stop_lt List.mem_cons_self
  simp only [Range.stop] at hInside
  have hCount' : b.items.length + 1 < 2 ^ 32 := by
    simp only [headCount] at hCount
    omega
  obtain ⟨m₃, hBook, hContexts₃, hEffect₃, hCount₃, hWrite₃⟩ :=
    book_spec c hHeader₂.count hCount' (by omega)
  have hKeep₃ : ∀ i, off + 20 ≤ i → i < off + 32 + data.length →
      m₃.jars.buffer i = m₁.jars.buffer i := by
    intro i hLow hHigh
    rw [hEffect₃.bytes i (by omega), hKeep₂ i (.inr ⟨hLow, hHigh⟩)]
  refine ⟨m₁, m₂, m₃, hFill, hEnlist, hBook, ?_⟩
  refine hReflects.stored hBlocks hCount hFits hLive ?_ ?_ ?_ ?_ ?_
  · refine (hEffect₁.mono ?_).trans ((hEffect₂.mono ?_).trans (hEffect₃.mono ?_))
    · exact fun i hi => .inl hi
    · rintro i (hi | ⟨o, ho, hi⟩)
      · exact .inl ⟨hi.1, by omega⟩
      · obtain ⟨x, hx, rfl⟩ := List.mem_map.mp ho
        exact .inr (.inl ⟨x, (hHeld x hx).1, (hHeld x hx).2, hi⟩)
    · exact fun i hi => .inr (.inr hi)
  · have hOff : (h.item c off data).off = off := rfl
    have hData : (h.item c off data).data = data := rfl
    constructor
    case prevSerial =>
      rw [hOff, number_congr fun i hLow hHigh => hEffect₃.bytes i (by omega), hPrev₂]
    case serial =>
      rw [hOff, ← hSerial, number_congr fun i hLow hHigh => hKeep₃ i hLow (by omega), hSerial₁]
    case len =>
      rw [hOff, number_congr fun i hLow hHigh => hKeep₃ i (by omega) (by omega), hLen₁, hData]
    case bytes =>
      rw [hOff, hData, cells_congr fun i hLow hHigh => hKeep₃ i (by omega) (by omega), hCells₁]
  · constructor
    case serial =>
      simp only
      rw [number_congr fun i hLow hHigh => hEffect₃.bytes i (by omega), hHeader₂.serial]
    case count =>
      rw [hCount₃, List.length_append, List.length_singleton]
    case write =>
      rw [hWrite₃, hWrite₂]
      simp [Block.ranges, stopOf, stopOf_append, Range.stop, Item.range, History.item]
  · exact hReflects.queue_booked hFits hLive hb hQueue₂ hContexts₃ hEffect₃
  · rw [hContexts₃, hSerials₂, hSerial, hContexts₁]
    simp only [History.added, List.map_eq_nil_iff, List.cons.injEq, and_true]
    split_ifs with hEmpty
    · rfl
    · have hOld := hReflects.serials c hEmpty
      simp only [Context.serials, List.cons.injEq] at hOld
      exact hOld.1

end Reflects

/-- Packing an item puts it into reserved room or reclaims the oldest header. -/
theorem packItem_cases {s s' : Shelf} {c head : Nat} {data : List UInt8} {out : Option Nat}
    (hPack : packItem s c data head = some (out, s')) :
    (∃ off jars m₁ m₂ m₃, out = some off ∧
        write s.jars (headRoom data.length) = some (off, jars) ∧
        repair { s with jars } c = some m₁ ∧ fill m₁ head off data = some m₂ ∧
        enlist m₂ c off = some m₃ ∧ book m₃ head = some s') ∨
      out = none ∧ write s.jars (headRoom data.length) = none ∧ read s = some s' := by
  simp only [packItem] at hPack
  cases hWrite : write s.jars (headRoom data.length) with
  | none =>
      simp only [hWrite, Option.bind_eq_bind, Option.bind_eq_some_iff] at hPack
      obtain ⟨m, hRead, hPack⟩ := hPack
      cases hPack
      exact .inr ⟨rfl, rfl, hRead⟩
  | some reserved =>
      obtain ⟨off, jars⟩ := reserved
      simp only [hWrite, Option.bind_eq_bind, Option.bind_eq_some_iff] at hPack
      obtain ⟨m₁, hRepair, m₂, hFill, m₃, hEnlist, m₄, hBook, hPack⟩ := hPack
      cases hPack
      exact .inl ⟨off, jars, m₁, m₂, m₃, rfl, rfl, hRepair, hFill, hEnlist, hBook⟩

/-- The second part of a call packs the item or reclaims a header. -/
theorem packItem_spec {s : Shelf} {h : History} {c head : Nat} {data : List UInt8}
    (hReflects : Reflects s h []) (hReady : h.Ready head)
    (hOk : ¬Overruns s.jars (headRoom data.length))
    (hAccepted : (write s.jars (headRoom data.length)).isSome →
      data.length + 40 ≤ 2 ^ 64 ∧ h.Repairable (h.accounts c)) :
    ∃ out s', packItem s c data head = some (out, s') ∧ Reflects s' (h.settle c data out) [] := by
  cases hWrite : write s.jars (headRoom data.length) with
  | none =>
      obtain ⟨s', hRead, hReflects'⟩ := read_spec hReflects
      refine ⟨none, s', ?_, hReflects'⟩
      simp only [packItem, hWrite, hRead]
      rfl
  | some reserved =>
      obtain ⟨off, jars⟩ := reserved
      obtain ⟨hFits, hRepairable⟩ := hAccepted (by rw [hWrite]; rfl)
      have hReserved := hReflects.reserve hOk hWrite
      obtain ⟨hJars, -⟩ := write_spec hReflects.layout hOk hWrite
      obtain ⟨m, hRepair, hEffect, hRepaired⟩ := hReserved.repair_spec hRepairable
      obtain ⟨front, b, hBlocks, rfl, hCount⟩ := hReady
      have hLive : ∀ x ∈ ((h.repair c).accounts c).chain, h.reclaimed ≤ x.serial := by
        intro x hx
        simp only [History.repair, History.setAccount_self] at hx
        exact History.live_of_repaired (hReflects.sound.accounts c) hRepairable hx
      have hWriter : m.jars.write = off + headRoom data.length := by
        rw [(Jars.fields_eq_iff.mp hEffect.fields).2.2.1, hJars]
      obtain ⟨m₁, m₂, m₃, hFill, hEnlist, hBook, hStored⟩ :=
        hRepaired.commit hWriter hBlocks hCount hFits hLive
      refine ⟨some off, m₃, ?_, hStored⟩
      simp only [packItem, hWrite, hRepair, Option.bind_eq_bind, Option.bind_some, hFill,
        hEnlist, hBook]
      rfl

end Peak.Jar
