import Mathlib.Data.List.Perm.Subperm
import Peak.Jar.Lists

/-! Walks over a context with a callback. Both directions are the same loop with
another follower, so that one argument covers `peak_jar_fifo` and
`peak_jar_lifo`. -/
namespace Peak.Jar

open TailQueue Ring

/-- What a callback should be handed for an item. -/
def Item.delivery (x : Item) : Delivery := ⟨x.off, x.data.length, x.data.map .byte⟩

/-- What a walk over these items hands out under these answers. -/
def replay : List Item → List Answer → List (Delivery × Answer)
  | [], _ => []
  | x :: order, answers =>
      match answers.headD .keep with
      | .back => [(x.delivery, .back)]
      | .drop => (x.delivery, .drop) :: replay order answers.tail
      | .keep => (x.delivery, .keep) :: replay order answers.tail

/-- How a follower goes through a list: `arrange` puts the items that are still
to be visited together with those that were kept. -/
structure Goes (follow : Shelf → Pair → Option (Option Nat))
    (arrange : List Item → List Item → List Item) : Prop where
  drop : ∀ x order kept, ∃ xs ys,
    arrange (x :: order) kept = xs ++ x :: ys ∧ xs ++ ys = arrange order kept
  keep : ∀ x order kept, ∃ kept', arrange (x :: order) kept = arrange order kept'
  first : ∀ s c order,
    links.Queue Apart s (.datas c) ((arrange order []).map Item.off) →
      follow s (.datas c) = some (order.head?.map Item.off)
  next : ∀ s c x order kept,
    links.Queue Apart s (.datas c) ((arrange (x :: order) kept).map Item.off) →
      follow s (.entry x.off) = some (order.head?.map Item.off)

theorem goes_before : Goes links.before fun order kept => order.reverse ++ kept where
  drop := fun x order kept => ⟨order.reverse, kept, by simp, rfl⟩
  keep := fun x order kept => ⟨x :: kept, by simp⟩
  first := by
    intro s c order hQueue
    rw [before_head hQueue]
    simp
  next := by
    intro s c x order kept hQueue
    have hSplit : ((x :: order).reverse ++ kept).map Item.off =
        order.reverse.map Item.off ++ x.off :: kept.map Item.off := by simp
    rw [hSplit] at hQueue
    have hBefore := before_elem hQueue
    rw [List.getLast?_map, List.getLast?_reverse] at hBefore
    exact hBefore

theorem goes_next : Goes links.next fun order kept => kept ++ order where
  drop := fun x order kept => ⟨kept, order, rfl, rfl⟩
  keep := fun x order kept => ⟨kept ++ [x], by simp⟩
  first := by
    intro s c order hQueue
    rw [next_head hQueue]
    simp
  next := by
    intro s c x order kept hQueue
    rw [List.map_append, List.map_cons] at hQueue
    have hNext := next_elem hQueue
    rw [List.head?_map] at hNext
    exact hNext

section Visit

variable {s : Shelf} {h : History} {c : Nat} {x : Item}

theorem deliver_spec (hItem : ItemAt s x) : deliver s x.off = some x.delivery := by
  simp only [deliver, hItem.len, Option.bind_eq_bind, Option.bind_some, hItem.bytes]
  rfl

variable {follow : Shelf → Pair → Option (Option Nat)} {arrange : List Item → List Item → List Item}

/-- The loop hands out the items one after another and takes the dropped ones
off the list. -/
theorem visit_spec (hGoes : Goes follow arrange) {order kept : List Item} {fuel : Nat}
    (answers : List Answer) (hReflects : Reflects s h [])
    (hLive : ∀ y ∈ (h.accounts c).chain, h.reclaimed ≤ y.serial)
    (hChain : (h.accounts c).chain = arrange order kept) (hFuel : order.length ≤ fuel) :
    ∃ s', visit follow c fuel (order.head?.map Item.off) answers s =
        some (replay order answers, s') ∧
      Reflects s' (h.record c (replay order answers)) [] := by
  induction order generalizing kept fuel answers s h with
  | nil => exact ⟨s, by cases fuel <;> rfl, hReflects⟩
  | cons x order ih =>
      obtain ⟨fuel, rfl⟩ : ∃ rest, fuel = rest + 1 := ⟨fuel - 1, by simp at hFuel; omega⟩
      have hFuel' : order.length ≤ fuel := by simpa using hFuel
      have hQueue := hReflects.queue hLive
      rw [hChain] at hQueue
      obtain ⟨xs, ys, hSplit, hRest⟩ := hGoes.drop x order kept
      have hx : x ∈ (h.accounts c).chain := by
        rw [hChain, hSplit]
        exact List.mem_append_right _ List.mem_cons_self
      have hDeliver := deliver_spec (hReflects.items x (hReflects.chain_held hx (hLive x hx)).1)
      have hFollow := hGoes.next s c x order kept hQueue
      simp only [visit, List.head?_cons, Option.map_some, hFollow, hDeliver, Option.bind_eq_bind,
        Option.bind_some, replay]
      cases answers.headD .keep with
      | back => exact ⟨s, rfl, hReflects⟩
      | drop =>
          obtain ⟨m, hRemove, -, hDropped, hNew⟩ :=
            hReflects.drop_spec hLive (hChain.trans hSplit)
          have hLive' : ∀ y ∈ ((h.drop c x.off).accounts c).chain, h.reclaimed ≤ y.serial := by
            intro y hy
            refine hLive y ?_
            rw [hNew] at hy
            rw [hChain, hSplit]
            simp only [List.mem_append, List.mem_cons] at hy ⊢
            tauto
          obtain ⟨s', hVisit, hReflects'⟩ := ih answers.tail hDropped hLive'
            (hNew.trans hRest) hFuel'
          refine ⟨s', ?_, hReflects'⟩
          simp only [hRemove, Option.bind_some, hVisit]
          rfl
      | keep =>
          obtain ⟨kept', hKeep⟩ := hGoes.keep x order kept
          obtain ⟨s', hVisit, hReflects'⟩ := ih answers.tail hReflects hLive
            (hChain.trans hKeep) hFuel'
          refine ⟨s', ?_, hReflects'⟩
          simp only [hVisit, Option.bind_some]
          rfl

/-- A list has no more items than the buffer has bytes. -/
theorem Reflects.chain_length (hReflects : Reflects s h [])
    (hLive : ∀ y ∈ (h.accounts c).chain, h.reclaimed ≤ y.serial) :
    (h.accounts c).chain.length ≤ s.jars.size := by
  have hKept := hReflects.sound.accounts c
  have hNodup : (h.accounts c).chain.Nodup :=
    (hKept.order.sublist hKept.listed).imp fun hOrder hEq => by
      rw [hEq] at hOrder
      exact Nat.lt_irrefl _ hOrder.1
  have hHeld : (h.accounts c).chain ⊆ h.held := fun y hy =>
    (hReflects.chain_held hy (hLive y hy)).1
  have hRooms : ∀ r ∈ h.held.map Item.range, 0 < r.room := by
    intro r hr
    obtain ⟨y, hy, rfl⟩ := List.mem_map.mp hr
    have := hReflects.item_room hy
    simp only [Item.range]
    omega
  have hHeaders : ∀ r ∈ h.ranges ++ [], 0 < r.room := by
    intro r hr
    rw [List.append_nil] at hr
    obtain ⟨b, hb, hr⟩ := List.mem_flatMap.mp hr
    rcases List.mem_cons.mp hr with rfl | hr
    · exact Nat.succ_pos _
    · obtain ⟨y, hy, rfl⟩ := List.mem_map.mp hr
      exact hRooms _ (List.mem_map_of_mem (History.mem_held.mpr ⟨b, hb, hy⟩))
  calc (h.accounts c).chain.length ≤ h.held.length := (hNodup.subperm hHeld).length_le
    _ = (h.held.map Item.range).length := (List.length_map _).symm
    _ ≤ h.ranges.length := (held_ranges_sublist h).length_le
    _ = (h.ranges ++ []).length := by rw [List.append_nil]
    _ ≤ s.jars.size := hReflects.layout.length_le hHeaders

/-- A walk hands out what the repaired list holds. -/
theorem walk_spec (hGoes : Goes follow arrange) {order : List Item} (answers : List Answer)
    (hReflects : Reflects s h []) (hRepairable : h.Repairable (h.accounts c))
    (hOrder : arrange order [] = ((h.repair c).accounts c).chain)
    (hLength : order.length = ((h.repair c).accounts c).chain.length) :
    ∃ left s', walk follow s c answers = some (⟨left, replay order answers⟩, s') ∧
      Reflects s' ((h.repair c).record c (replay order answers)) [] := by
  obtain ⟨m, hRepair, -, hRepaired⟩ := hReflects.repair_spec hRepairable
  have hLive : ∀ y ∈ ((h.repair c).accounts c).chain, h.reclaimed ≤ y.serial := by
    intro y hy
    simp only [History.repair, History.setAccount_self] at hy
    exact History.live_of_repaired (hReflects.sound.accounts c) hRepairable hy
  have hQueue := hRepaired.queue hLive
  rw [← hOrder] at hQueue
  have hFirst := hGoes.first m c order hQueue
  obtain ⟨s', hVisit, hReflects'⟩ := visit_spec hGoes answers hRepaired hLive hOrder.symm
    (hLength ▸ hRepaired.chain_length hLive)
  have hEnd := (hReflects'.lists c).first
  refine ⟨(((((h.repair c).record c (replay order answers)).near c ++
    ((h.repair c).record c (replay order answers)).far c).head?).map Item.off).isSome, s', ?_,
    hReflects'⟩
  simp only [walk, hRepair, Option.bind_eq_bind, Option.bind_some, hFirst, hVisit, Links.first,
    hEnd]
  rfl

theorem fifo_spec (answers : List Answer) (hReflects : Reflects s h [])
    (hRepairable : h.Repairable (h.accounts c)) :
    ∃ left s', fifo s c answers =
        some (⟨left, replay ((h.repair c).accounts c).chain.reverse answers⟩, s') ∧
      Reflects s'
        ((h.repair c).record c (replay ((h.repair c).accounts c).chain.reverse answers)) [] :=
  walk_spec goes_before answers hReflects hRepairable (by simp) (by simp)

theorem lifo_spec (answers : List Answer) (hReflects : Reflects s h [])
    (hRepairable : h.Repairable (h.accounts c)) :
    ∃ left s', lifo s c answers =
        some (⟨left, replay ((h.repair c).accounts c).chain answers⟩, s') ∧
      Reflects s' ((h.repair c).record c (replay ((h.repair c).accounts c).chain answers)) [] :=
  walk_spec goes_next answers hReflects hRepairable rfl rfl

end Visit

end Peak.Jar
