import Peak.Jar.World

/-! Nothing that is live is missing from a list, as long as no list is rebuilt.
`peak_jar_repair` rebuilds a list when the oldest serial it caches is reclaimed
and the newest is not; then the newest item and all but the second are lost. -/
namespace Peak.Jar

open TailQueue Ring Run

namespace History

variable {h : History} {c d off : Nat} {a : Account} {x : Item}

/-- The list of every context has the live ones of its items. -/
def Complete (h : History) : Prop :=
  ∀ c, (h.accounts c).stock.filter h.live = (h.accounts c).chain.filter h.live

/-- Fewer than `2 ^ 31` headers were made, and the cached serials are both
reclaimed or both live: the list is not rebuilt. -/
def Undisturbed (h : History) (a : Account) : Prop :=
  h.created < 2 ^ 31 ∧
    (a.chain = [] ∨ h.blocks = [] ∨ a.last < h.reclaimed ∨ h.reclaimed ≤ a.first)

instance (h : History) (a : Account) : Decidable (h.Undisturbed a) :=
  inferInstanceAs (Decidable (_ ∧ _))

theorem Undisturbed.repairable (hUndisturbed : h.Undisturbed a) (hKept : h.Kept c a) :
    h.Repairable a := by
  obtain ⟨hCreated, hRest⟩ := hUndisturbed
  have hReclaimed : h.reclaimed ≤ h.created := Nat.le_add_right _ _
  simp only [Repairable]
  cases hChain : a.chain with
  | nil => trivial
  | cons x rest =>
      have hNe : a.chain ≠ [] := by simp [hChain]
      have hLast := hKept.recent hNe
      have hMem : x ∈ a.chain := hChain ▸ List.mem_cons_self
      have hSerials := hKept.serials x hMem
      have hMade := hKept.made x (hKept.listed.subset hMem)
      have hComparable : ∀ serial, serial < h.created → h.Comparable serial := by
        intro serial hLt
        simp only [Comparable]
        omega
      rcases hRest with hNil | hNone | hOld | hLive
      · exact absurd hNil hNe
      · exact .inl hNone
      · exact .inr ⟨hComparable _ hLast, .inl hOld⟩
      · exact .inr ⟨hComparable _ hLast, .inr ⟨hComparable _ (by omega), .inl hLive⟩⟩

/-- A list that is not rebuilt stays or is given up. -/
theorem Undisturbed.repaired (hUndisturbed : h.Undisturbed a) :
    h.repaired a = a ∨ h.repaired a = { a with chain := [] } ∧
      (h.blocks = [] ∨ a.last < h.reclaimed) := by
  simp only [History.repaired]
  split
  · exact .inl rfl
  · next x rest hChain =>
      split_ifs with hGone hOld
      · exact .inr ⟨rfl, hGone⟩
      · rcases hUndisturbed.2 with hNil | hNone | hLast | hLive
        · simp [hChain] at hNil
        · exact absurd (.inl hNone) hGone
        · exact absurd (.inr hLast) hGone
        · omega
      · exact .inl rfl

/-- A repair that does not rebuild gives up only what is reclaimed. -/
theorem filter_repaired (hUndisturbed : h.Undisturbed a) (hKept : h.Kept c a) :
    (h.repaired a).chain.filter h.live = a.chain.filter h.live := by
  rcases hUndisturbed.repaired with hStay | ⟨hNone, hGone⟩
  · rw [hStay]
  · rw [hNone]
    symm
    refine List.filter_eq_nil_iff.mpr fun x hx => ?_
    rw [live_iff]
    rcases hGone with hBlocks | hLast
    · have hMade := hKept.made x (hKept.listed.subset hx)
      simp only [created, hBlocks, List.length_nil] at hMade
      omega
    · have := (hKept.serials x hx).2
      omega

theorem complete_repair (hSound : h.Sound) (hComplete : h.Complete)
    (hUndisturbed : h.Undisturbed (h.accounts c)) : (h.repair c).Complete := by
  intro d
  have hLive : (h.repair c).live = h.live := rfl
  rw [hLive]
  by_cases hEq : d = c
  · subst hEq
    simp only [repair, setAccount_self, repaired_stock]
    rw [filter_repaired hUndisturbed (hSound.accounts d)]
    exact hComplete d
  · simp only [repair, setAccount_of_ne hEq]
    exact hComplete d

theorem complete_openBlock (hComplete : h.Complete) (off : Nat) : (h.openBlock off).Complete :=
  hComplete

theorem filter_live_of_imp {h' : History} (hLive : ∀ x, h'.live x = true → h.live x = true)
    (items : List Item) : items.filter h'.live = (items.filter h.live).filter h'.live := by
  rw [List.filter_filter]
  refine List.filter_congr fun x _ => ?_
  rw [Bool.eq_self_and]
  exact hLive x

theorem complete_reclaim (hComplete : h.Complete) : h.reclaim.Complete := by
  have hAccounts : h.reclaim.accounts = h.accounts := by
    simp only [reclaim]
    split <;> rfl
  have hLive : ∀ x, h.reclaim.live x = true → h.live x = true := by
    intro x
    simp only [live_iff, reclaim]
    split
    · exact id
    · exact Nat.le_of_succ_le
  intro c
  rw [filter_live_of_imp hLive, filter_live_of_imp hLive (h.reclaim.accounts c).chain, hAccounts,
    hComplete c]

theorem complete_header (hComplete : h.Complete) (out : Header) : (h.header out).Complete := by
  cases out with
  | kept _ => exact hComplete
  | made head => exact complete_openBlock hComplete head
  | reclaimed => exact complete_reclaim hComplete

theorem complete_store {data : List UInt8} (hComplete : h.Complete) (c off : Nat) :
    (h.store c off data).Complete := by
  intro d
  have hLive : (h.store c off data).live = h.live := rfl
  rw [hLive]
  by_cases hEq : d = c
  · subst hEq
    simp only [store, Function.update_self, added, List.filter_cons, hComplete d]
  · simp only [store, Function.update_of_ne hEq]
    exact hComplete d

/-- Taking out the first live item at a place and looking at the live ones
commute. -/
theorem filter_eraseP_here (h : History) (off : Nat) (items : List Item) :
    (items.eraseP (h.here off)).filter h.live = (items.filter h.live).eraseP (h.here off) := by
  induction items with
  | nil => rfl
  | cons x items ih =>
      by_cases hHere : h.here off x = true
      · have hLive : h.live x = true := by
          simp only [here, decide_eq_true_eq] at hHere
          exact hHere.2
        rw [List.eraseP_cons_of_pos hHere, List.filter_cons_of_pos hLive,
          List.eraseP_cons_of_pos hHere]
      · rw [List.eraseP_cons_of_neg hHere, List.filter_cons, List.filter_cons, ih]
        split_ifs
        · rw [List.eraseP_cons_of_neg hHere]
        · rfl

theorem complete_drop (hComplete : h.Complete) (c off : Nat) : (h.drop c off).Complete := by
  intro d
  have hLive : (h.drop c off).live = h.live := rfl
  rw [hLive]
  by_cases hEq : d = c
  · subst hEq
    simp only [drop, setAccount_self, filter_eraseP_here, hComplete d]
  · simp only [drop, setAccount_of_ne hEq]
    exact hComplete d

theorem complete_record (hComplete : h.Complete) (c : Nat) (log : List (Delivery × Answer)) :
    (h.record c log).Complete := by
  induction log generalizing h with
  | nil => exact hComplete
  | cons entry log ih =>
      obtain ⟨delivery, answer⟩ := entry
      cases answer with
      | back => exact ih hComplete
      | drop => exact ih (complete_drop hComplete c delivery.off)
      | keep => exact ih hComplete

end History

theorem replay_keep {answers : List Answer} (hKeep : ∀ a ∈ answers, a = .keep)
    (order : List Item) : replay order answers = order.map fun x => (x.delivery, .keep) := by
  induction order generalizing answers with
  | nil => rfl
  | cons x order ih =>
      have hHead : answers.headD .keep = .keep := by
        cases answers with
        | nil => rfl
        | cons a answers => exact hKeep a List.mem_cons_self
      simp only [replay, hHead, List.map_cons]
      rw [ih fun a ha => hKeep a (List.mem_of_mem_tail ha)]

/-- Keeping everything drops nothing. -/
theorem record_keep (h : History) (c : Nat) (order : List Item) :
    h.record c (order.map fun x => (x.delivery, .keep)) = h := by
  induction order with
  | nil => rfl
  | cons x order ih => exact ih

section Keep

variable {s : Shelf} {h : History} {c : Nat} {answers : List Answer}

theorem History.Undisturbed.again (hUndisturbed : h.Undisturbed (h.accounts c)) :
    (h.repair c).Undisturbed ((h.repair c).accounts c) := by
  refine ⟨hUndisturbed.1, ?_⟩
  simp only [History.repair, History.setAccount_self]
  rcases hUndisturbed.repaired with hStay | ⟨hNone, -⟩
  · rw [hStay]
    exact hUndisturbed.2
  · exact .inl (by rw [hNone])

/-- What is on a repaired list that was complete. -/
theorem History.repaired_items (hSound : h.Sound) (hComplete : h.Complete)
    (hUndisturbed : h.Undisturbed (h.accounts c)) :
    ((h.repair c).accounts c).chain = (h.accounts c).stock.filter h.live := by
  have hKept := hSound.accounts c
  have hLive : ∀ x ∈ (h.repaired (h.accounts c)).chain, h.live x = true := fun x hx =>
    History.live_iff.mpr (History.live_of_repaired hKept (hUndisturbed.repairable hKept) hx)
  rw [hComplete c, ← History.filter_repaired hUndisturbed hKept, List.filter_eq_self.mpr hLive]
  simp only [History.repair, History.setAccount_self]

variable (hKeep : ∀ a ∈ answers, a = .keep) (hReflects : Reflects s h [])
  (hComplete : h.Complete) (hUndisturbed : h.Undisturbed (h.accounts c))

include hKeep hReflects hComplete hUndisturbed

theorem fifo_keep : ∃ left s', fifo s c answers =
      some (⟨left, ((h.accounts c).stock.filter h.live).reverse.map fun x => (x.delivery, .keep)⟩,
        s') ∧ Reflects s' (h.repair c) [] := by
  have hRepairable := hUndisturbed.repairable (hReflects.sound.accounts c)
  obtain ⟨left, s', hFifo, hAfter⟩ := fifo_spec answers hReflects hRepairable
  rw [History.repaired_items hReflects.sound hComplete hUndisturbed, replay_keep hKeep] at hFifo
  rw [replay_keep hKeep, record_keep] at hAfter
  exact ⟨left, s', hFifo, hAfter⟩

theorem lifo_keep : ∃ left s', lifo s c answers =
      some (⟨left, ((h.accounts c).stock.filter h.live).map fun x => (x.delivery, .keep)⟩, s') ∧
    Reflects s' (h.repair c) [] := by
  have hRepairable := hUndisturbed.repairable (hReflects.sound.accounts c)
  obtain ⟨left, s', hLifo, hAfter⟩ := lifo_spec answers hReflects hRepairable
  rw [History.repaired_items hReflects.sound hComplete hUndisturbed, replay_keep hKeep] at hLifo
  rw [replay_keep hKeep, record_keep] at hAfter
  exact ⟨left, s', hLifo, hAfter⟩

end Keep

namespace World

variable {w w' : World} {e : Event} {size : Nat} {buffer : Nat → Cell} {jars : Jars}
variable {firstSerial lastSerial : Nat → Nat}

/-- No overrun, and no list is rebuilt. -/
def Gentle (w : World) (e : Event) : Prop :=
  (e = .advance → w.Fits) ∧
    ∀ c ∈ w.repairs e, w.history.Undisturbed (w.history.accounts c)

instance (w : World) (e : Event) : Decidable (w.Gentle e) := inferInstanceAs (Decidable (_ ∧ _))

theorem Gentle.safe (hOk : w.Ok) (hGentle : w.Gentle e) : w.Safe e :=
  ⟨hGentle.1, fun c hc => (hGentle.2 c hc).repairable (hOk.reflects.sound.accounts c)⟩

theorem advance_complete (hOk : w.Ok) (hComplete : w.history.Complete)
    (hGentle : w.Gentle .advance) (hAdvance : w.advance = .ok w') : w'.history.Complete := by
  have hRepairs := hGentle.2
  simp only [repairs] at hRepairs
  rcases advance_cases hAdvance with ⟨c, data, out, s', -, -, rfl⟩ |
    ⟨c, data, head, out, s', hPhase, hPack, rfl⟩
  · exact History.complete_header hComplete _
  · rw [hPhase] at hRepairs
    rcases packItem_cases hPack with ⟨off, jars, -, -, -, rfl, hWrite, -⟩ | ⟨rfl, -, -⟩
    · exact History.complete_store (History.complete_repair hOk.reflects.sound hComplete
        (hRepairs c (by simp [hWrite]))) c off
    · exact History.complete_reclaim hComplete

/-- A gentle step keeps the lists complete. -/
theorem step_complete (hOk : w.Ok) (hComplete : w.history.Complete) (hGentle : w.Gentle e)
    (hStep : w.step e = .ok w') : w'.history.Complete := by
  rcases step_cases hStep with ⟨c, data, rfl⟩ | ⟨rfl, hAdvance⟩ | ⟨c, walk, s', hRepairs, -, rfl⟩
  · exact hComplete
  · exact advance_complete hOk hComplete hGentle hAdvance
  · exact History.complete_record
      (History.complete_repair hOk.reflects.sound hComplete (hGentle.2 c hRepairs)) c _

theorem complete_of_reached (hInit : init size buffer = some jars)
    (hReached : Reached step Gentle (start jars firstSerial lastSerial) w) :
    w.Ok ∧ w.history.Complete := by
  refine hReached.invariant (fun w => w.Ok ∧ w.history.Complete) ⟨start_ok hInit, fun c => rfl⟩ ?_
  rintro w e w' ⟨hOk, hComplete⟩ hGentle hStep
  exact ⟨step_ok hOk (hGentle.safe hOk) hStep, step_complete hOk hComplete hGentle hStep⟩

/-- What a walk in one direction that keeps everything hands out, now and when it
is called again. -/
def HandsOut (walk : Shelf → Nat → List Answer → Option (Walk × Shelf)) (s : Shelf) (c : Nat)
    (answers : List Answer) (items : List Item) : Prop :=
  ∃ first s' second s'', walk s c answers = some (first, s') ∧
    first.log = items.map (fun x => (x.delivery, .keep)) ∧
    walk s' c answers = some (second, s'') ∧ second.log = first.log

/-- In every run of gentle steps a walk that keeps everything and rebuilds no
list hands out every item of its context that was not dropped and whose header
is linked, and does so again. -/
theorem walks_complete (hInit : init size buffer = some jars)
    (hReached : Reached step Gentle (start jars firstSerial lastSerial) w) (c : Nat)
    (hUndisturbed : w.history.Undisturbed (w.history.accounts c)) (answers : List Answer)
    (hKeep : ∀ a ∈ answers, a = .keep) :
    HandsOut fifo w.shelf c answers
        ((w.history.accounts c).stock.filter w.history.live).reverse ∧
      HandsOut lifo w.shelf c answers ((w.history.accounts c).stock.filter w.history.live) := by
  obtain ⟨hOk, hComplete⟩ := complete_of_reached hInit hReached
  have hReflects := hOk.reflects
  have hAgain := History.complete_repair hReflects.sound hComplete hUndisturbed
  have hStock : ((w.history.repair c).accounts c).stock.filter (w.history.repair c).live =
      (w.history.accounts c).stock.filter w.history.live := by
    have hLive : (w.history.repair c).live = w.history.live := rfl
    rw [hLive]
    simp only [History.repair, History.setAccount_self, History.repaired_stock]
  constructor
  · obtain ⟨left, s', hFirst, hAfter⟩ := fifo_keep hKeep hReflects hComplete hUndisturbed
    obtain ⟨left', s'', hSecond, -⟩ := fifo_keep hKeep hAfter hAgain hUndisturbed.again
    rw [hStock] at hSecond
    exact ⟨_, s', _, s'', hFirst, rfl, hSecond, rfl⟩
  · obtain ⟨left, s', hFirst, hAfter⟩ := lifo_keep hKeep hReflects hComplete hUndisturbed
    obtain ⟨left', s'', hSecond, -⟩ := lifo_keep hKeep hAfter hAgain hUndisturbed.again
    rw [hStock] at hSecond
    exact ⟨_, s', _, s'', hFirst, rfl, hSecond, rfl⟩

/-- Two items of one context come back twice. -/
theorem smallJar_complete : ∃ w, Reached step Gentle small w ∧
    (w.history.accounts 0).stock.map Item.data = [[2], [1]] ∧
    HandsOut fifo w.shelf 0 []
      ((w.history.accounts 0).stock.filter w.history.live).reverse := by
  obtain ⟨w, hReached, hView⟩ := reached_of_trial Gentle
    [.pack 0 [1], .advance, .advance, .pack 0 [2], .advance, .advance]
    (fun w => ((w.history.accounts 0).stock.map Item.data,
      decide (w.history.Undisturbed (w.history.accounts 0))))
    (v := ([[2], [1]], true)) (by decide)
  simp only [Prod.mk.injEq, decide_eq_true_eq] at hView
  exact ⟨w, hReached, hView.1,
    (walks_complete small_init hReached 0 hView.2 [] (by simp)).1⟩

/-- The second item is live and its context is not handed it. -/
theorem secondItem_is_missing : ∃ w, Reached step (fun _ _ => True) small w ∧
    w.history.created = 2 ∧
    ¬HandsOut fifo w.shelf 1 []
      ((w.history.accounts 1).stock.filter w.history.live).reverse := by
  obtain ⟨w, hReached, hView⟩ := reached_of_trial (fun _ _ => True)
    (overrunEvents ++ [.advance])
    (fun w => ((fifo w.shelf 1 []).map fun r => r.1.log.map fun entry => entry.1.len,
      ((w.history.accounts 1).stock.filter w.history.live).map fun x => x.data.length,
      w.history.created))
    (v := (some [40], [24], 2)) (by decide)
  simp only [Prod.mk.injEq] at hView
  refine ⟨w, hReached, hView.2.2, ?_⟩
  rintro ⟨first, s', second, s'', hFirst, hLog, -⟩
  have hLens := hView.1
  rw [hFirst, Option.map_some, Option.some.injEq, hLog, List.map_map] at hLens
  have hItems := congrArg List.reverse hView.2.1
  rw [← List.map_reverse] at hItems
  have hSame : ((w.history.accounts 1).stock.filter w.history.live).reverse.map
      (fun x => x.data.length) = [40] := hLens
  rw [hItems] at hSame
  simp at hSame

end World

end Peak.Jar
