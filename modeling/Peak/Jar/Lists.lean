import Peak.Jar.Headers

/-! The lists of the contexts: `peak_jar_repair` before every use, and
`TAILQ_REMOVE` for items that a callback drops. -/
namespace Peak.Jar

open TailQueue Ring

section Strings

variable {s : Shelf} {c : Nat} {x : Item} {near far rest : List Item}

/-- The first link of a context names the newest item of its list. -/
theorem Strung.first (h : Strung s c near far) :
    links.next s (.datas c) = some ((near ++ far).head?.map Item.off) := by
  cases near with
  | nil => exact h.rest
  | cons x near => exact h.path.1

/-- The link of the newest item, while this is live, names the second one. -/
theorem Strung.second (h : Strung s c (x :: near) far) :
    links.next s (.entry x.off) = some ((near ++ far).head?.map Item.off) := by
  cases near with
  | nil => exact h.rest
  | cons y near => exact h.path.2.2.1

theorem strung_of_queue (h : links.Queue Apart s (.datas c) (near.map Item.off)) :
    Strung s c near [] :=
  ⟨h.path, h.tail, fun _ => h.last⟩

theorem same_setContext {context : Context} (hDatas : context.datas = (s.contexts c).datas)
    (p : Pair) : Same s (s.setContext c context) p := by
  cases p with
  | heads => rfl
  | datas d =>
      by_cases hEq : d = c
      · subst hEq
        simp [Same, Shelf.setContext, hDatas]
      · simp [Same, Shelf.setContext, Function.update_of_ne hEq]
  | entry off => exact fun _ _ _ => rfl

end Strings

/-- The code's comparison of serials. -/
theorem stale_iff {jars : Jars} {h : History} {serial : Nat}
    (hFirst : jars.firstSerial = h.reclaimed % 2 ^ 32) (hComparable : h.Comparable serial) :
    jars.stale (serial % 2 ^ 32) = decide (serial < h.reclaimed) := by
  obtain ⟨hHigh, hLow⟩ := hComparable
  simp only [Jars.stale, wrap32, sub32, hFirst, decide_eq_decide]
  omega

section Loop

variable {s m : Shelf} {c fuel zap next prevSerial : Nat}

theorem zapLoop_end (hNext : links.next s (.entry zap) = some none) :
    zapLoop c (fuel + 1) zap s = some (zap, s) := by
  simp only [zapLoop, hNext]
  rfl

theorem zapLoop_stale (hNext : links.next s (.entry zap) = some (some next))
    (hPrev : s.number (zap + 16) 4 = some prevSerial) (hStale : s.jars.stale prevSerial = true) :
    zapLoop c (fuel + 1) zap s = some (zap, s) := by
  simp only [zapLoop, hNext, Option.bind_eq_bind, Option.bind_some, hPrev, hStale, if_true]
  rfl

theorem zapLoop_round (hNext : links.next s (.entry zap) = some (some next))
    (hPrev : s.number (zap + 16) 4 = some prevSerial) (hStale : s.jars.stale prevSerial = false)
    (hInsert : links.insertTail s (.datas c) next = some m) :
    zapLoop c (fuel + 1) zap s = zapLoop c fuel next m := by
  simp only [zapLoop, hNext, Option.bind_eq_bind, Option.bind_some, hPrev, hStale,
    Bool.false_eq_true, if_false, hInsert]

end Loop

namespace Reflects

variable {s m : Shelf} {h : History} {spare : List Range} {c : Nat} {a : Account} {x y : Item}
variable {rest : List Item}

/-- A list on which everything is live is a whole queue. -/
theorem queue (hReflects : Reflects s h spare)
    (hLive : ∀ x ∈ (h.accounts c).chain, h.reclaimed ≤ x.serial) :
    links.Queue Apart s (.datas c) ((h.accounts c).chain.map Item.off) := by
  have hKept := hReflects.sound.accounts c
  have hAll : ∀ x ∈ (h.accounts c).chain, h.live x = true := fun x hx =>
    History.live_iff.mpr (hLive x hx)
  have hStrung := hReflects.lists c
  simp only [History.near, History.far, List.takeWhile_eq_self_iff.mpr hAll,
    List.dropWhile_eq_nil_iff.mpr hAll] at hStrung
  refine ⟨hStrung.path, hStrung.rest, hStrung.tail rfl, ?_⟩
  refine List.pairwise_cons.mpr ⟨?_, ?_⟩
  · intro p hp
    obtain ⟨off, -, rfl⟩ := List.mem_map.mp hp
    trivial
  · refine List.pairwise_map.mpr (List.pairwise_map.mpr ?_)
    refine (hKept.order.sublist hKept.listed).imp_of_mem fun {x y} hx hy hOrder => ?_
    have hNe : x ≠ y := by
      rintro rfl
      exact Nat.lt_irrefl _ hOrder.1
    have := hReflects.items_apart (hKept.held x (hKept.listed.subset hx) (hLive x hx))
      (hKept.held y (hKept.listed.subset hy) (hLive y hy)) hNe
    simp only [links, Apart]
    omega

/-- A list is rebuilt from live items that were on it. -/
theorem requeue {chain : List Item} {first : Nat} (hReflects : Reflects s h spare)
    (hEffect : Effect c (Own h c) s m)
    (hQueue : links.Queue Apart m (.datas c) (chain.map Item.off))
    (hSub : chain.Sublist (h.accounts c).chain) (hLive : ∀ x ∈ chain, h.reclaimed ≤ x.serial)
    (hFirst : ∀ x ∈ chain, first ≤ x.serial)
    (hSerials : chain ≠ [] →
      (m.contexts c).serials = [first % 2 ^ 32, (h.accounts c).last % 2 ^ 32]) :
    Reflects m (h.setAccount c { h.accounts c with chain, first }) spare := by
  have hAll : ∀ x ∈ chain, h.live x = true := fun x hx => History.live_iff.mpr (hLive x hx)
  refine hReflects.relist hEffect ((hReflects.sound.accounts c).relist hSub hFirst) ?_ hSerials
  simp only [List.takeWhile_eq_self_iff.mpr hAll, List.dropWhile_eq_nil_iff.mpr hAll]
  exact strung_of_queue hQueue

theorem init_effect (s : Shelf) (c : Nat) (touched : Nat → Prop) :
    Effect c touched s (links.init s (.datas c)) :=
  effect_touches (init_touches links s _) fun _ hp => .inl (List.mem_singleton.mp hp)

/-- `TAILQ_INIT` gives up a list. -/
theorem init_list (hReflects : Reflects s h spare) (c : Nat) :
    Reflects (links.init s (.datas c))
      (h.setAccount c { h.accounts c with chain := [] }) spare :=
  hReflects.requeue (init_effect s c _) (init_queue links_lawful s _) (List.nil_sublist _)
    (by simp) (by simp) (by simp)

theorem chain_held (hReflects : Reflects s h spare) (hx : x ∈ (h.accounts c).chain)
    (hLive : h.reclaimed ≤ x.serial) : x ∈ h.held ∧ x.owner = c := by
  have hKept := hReflects.sound.accounts c
  have hStock := hKept.listed.subset hx
  exact ⟨hKept.held x hStock hLive, hKept.owner x hStock⟩

/-- Work on a list keeps the records of all items. -/
theorem item_effect (hReflects : Reflects s h spare) (hEffect : Effect c (Own h c) s m)
    (hx : x ∈ h.held) : ItemAt m x :=
  (hReflects.items x hx).congr fun i hLow hHigh =>
    hEffect.bytes i (hReflects.record_clear hx hLow hHigh)

/-- The links of the context's own items. -/
theorem own_links (hx : x ∈ h.held ∧ x.owner = c) (i : Nat) (hLow : x.off ≤ i)
    (hHigh : i < x.off + 16) : Own h c i :=
  ⟨x, hx.1, hx.2, hLow, hHigh⟩

/-- What the loop of `peak_jar_repair` does on a list that can be rebuilt: one
round at most, since an item that was inserted at the tail has no successor. -/
theorem zapLoop_spec (hReflects : Reflects s h spare) (hChain : (h.accounts c).chain = x :: rest)
    (hRebuildable : h.Rebuildable x rest) (fuel : Nat) :
    ∃ zap m, zapLoop c (fuel + 2) x.off (links.init s (.datas c)) = some (zap, m) ∧
      Effect c (Own h c) s m ∧
      links.Queue Apart m (.datas c) ((h.rebuilt (h.accounts c) x rest).chain.map Item.off) ∧
      m.number (zap + 20) 4 = some ((h.rebuilt (h.accounts c) x rest).first % 2 ^ 32) ∧
      (m.contexts c).serials = (s.contexts c).serials := by
  have hSerials := serials_touches (init_touches links s (.datas c)) c
  have hLive : h.reclaimed ≤ x.serial := by
    cases rest with
    | nil => exact hRebuildable
    | cons y rest => exact hRebuildable.1
  have hx := hReflects.chain_held (hChain ▸ List.mem_cons_self) hLive
  have hInit := init_effect s c (Own h c)
  have hEmpty := init_queue links_lawful s (.datas c)
  have hItem := hReflects.item_effect hInit hx.1
  have hNext : links.next (links.init s (.datas c)) (.entry x.off) =
      some (rest.head?.map Item.off) := by
    have hStrung := hReflects.lists c
    simp only [History.near, History.far, hChain,
      List.takeWhile_cons_of_pos (History.live_iff.mpr hLive),
      List.dropWhile_cons_of_pos (History.live_iff.mpr hLive)] at hStrung
    have hSame : Same s (links.init s (.datas c)) (.entry x.off) :=
      same_touches (init_touches links s _) fun p hp => by
        rw [List.mem_singleton.mp hp]
        trivial
    rw [hSame.next, hStrung.second, List.takeWhile_append_dropWhile]
  cases rest with
  | nil =>
      refine ⟨x.off, _, ?_, hInit, hEmpty, ?_, hSerials⟩
      · exact zapLoop_end hNext
      · simp only [History.rebuilt, hItem.serial]
  | cons y rest =>
      obtain ⟨-, hComparable, hSecond⟩ := hRebuildable
      have hFields : (links.init s (.datas c)).jars.firstSerial = s.jars.firstSerial := rfl
      have hStale := stale_iff (hFields.trans hReflects.firstSerial) hComparable
      by_cases hPrev : h.reclaimed ≤ x.prevSerial
      · have hMem : y ∈ (h.accounts c).chain := by
          rw [hChain]
          exact List.mem_cons_of_mem _ List.mem_cons_self
        have hy := hReflects.chain_held hMem (hSecond hPrev)
        obtain ⟨m, hInsert, hQueue, hTouches⟩ := insertTail_spec links_lawful hEmpty (e := y.off)
          fun p hp => by
            rw [List.mem_singleton.mp hp]
            trivial
        have hEffect : Effect c (Own h c) s m := by
          refine hInit.trans (effect_touches hTouches fun p hp => ?_)
          rcases List.mem_cons.mp hp with rfl | hp
          · exact .inr ⟨y.off, rfl, own_links hy⟩
          · exact .inl (List.mem_singleton.mp hp)
        refine ⟨y.off, m, ?_, hEffect, ?_, ?_, (serials_touches hTouches c).trans hSerials⟩
        · rw [decide_eq_false (Nat.not_lt.mpr hPrev)] at hStale
          rw [zapLoop_round hNext hItem.prevSerial hStale hInsert]
          exact zapLoop_end hQueue.tail
        · simp only [History.rebuilt, if_pos hPrev]
          exact hQueue
        · simp only [History.rebuilt, if_pos hPrev]
          exact (hReflects.item_effect hEffect hy.1).serial
      · refine ⟨x.off, _, ?_, hInit, ?_, ?_, hSerials⟩
        · rw [decide_eq_true (Nat.lt_of_not_le hPrev)] at hStale
          exact zapLoop_stale hNext hItem.prevSerial hStale
        · simp only [History.rebuilt, if_neg hPrev]
          exact hEmpty
        · simp only [History.rebuilt, if_neg hPrev]
          exact hItem.serial

theorem size_pos (hReflects : Reflects s h spare) (hBlocks : h.blocks ≠ []) :
    ∃ fuel, s.jars.size = fuel + 2 := by
  obtain ⟨b, hb⟩ := List.exists_mem_of_ne_nil _ hBlocks
  have hInside := hReflects.layout.inside (List.mem_append_left _ (header_mem_ranges hb))
  simp only [Range.stop] at hInside
  exact ⟨s.jars.size - 2, by omega⟩

/-- The list that the loop of `peak_jar_repair` leaves behind. -/
theorem requeue_rebuilt (hReflects : Reflects s h spare)
    (hChain : (h.accounts c).chain = x :: rest) (hRebuildable : h.Rebuildable x rest)
    (hEffect : Effect c (Own h c) s m)
    (hQueue : links.Queue Apart m (.datas c)
      ((h.rebuilt (h.accounts c) x rest).chain.map Item.off))
    (hLast : (m.contexts c).lastSerial = (h.accounts c).last % 2 ^ 32) :
    Reflects (m.setContext c { m.contexts c with
        firstSerial := (h.rebuilt (h.accounts c) x rest).first % 2 ^ 32 })
      (h.setAccount c (h.rebuilt (h.accounts c) x rest)) spare := by
  have hKept := History.kept_rebuilt (hReflects.sound.accounts c) hChain
  have hLive : ∀ y ∈ (h.rebuilt (h.accounts c) x rest).chain, h.live y = true := by
    intro y hy
    cases rest with
    | nil => simp [History.rebuilt] at hy
    | cons z rest =>
        simp only [History.rebuilt] at hy
        split_ifs at hy with hPrev
        · rw [List.mem_singleton.mp hy]
          exact History.live_iff.mpr (hRebuildable.2.2 hPrev)
        · simp at hy
  refine hReflects.relist (hEffect.trans (effect_setContext m _)) hKept ?_ fun _ => ?_
  · rw [List.takeWhile_eq_self_iff.mpr hLive, List.dropWhile_eq_nil_iff.mpr hLive]
    refine strung_of_queue (queue_same hQueue fun p _ => same_setContext ?_ p)
    rfl
  · have hSame : (h.rebuilt (h.accounts c) x rest).last = (h.accounts c).last := by
      cases rest with
      | nil => rfl
      | cons z rest =>
          simp only [History.rebuilt]
          split_ifs <;> rfl
    simp only [Shelf.setContext, Function.update_self, Context.serials, hLast, hSame]

/-- `peak_jar_repair` does to the list what it is meant to, unless it trips. -/
theorem repair_spec (hReflects : Reflects s h spare)
    (hRepairable : h.Repairable (h.accounts c)) :
    ∃ s', repair s c = some s' ∧ Effect c (Own h c) s s' ∧ Reflects s' (h.repair c) spare := by
  have hFirst := (hReflects.lists c).first
  rw [History.near_append_far] at hFirst
  have hHeads := next_head hReflects.heads
  have hInit := init_effect s c (Own h c)
  have hStay : h.setAccount c (h.accounts c) = h := by
    simp only [History.setAccount, Function.update_eq_self]
  cases hChain : (h.accounts c).chain with
  | nil =>
      refine ⟨s, ?_, Effect.refl _ _ _, ?_⟩
      · simp only [repair, Links.first, hFirst, hChain, List.head?_nil, Option.map_none]
        rfl
      · simp only [History.repair, History.repaired, hChain, hStay]
        exact hReflects
  | cons x rest =>
      simp only [History.Repairable, hChain, History.Untripped] at hRepairable
      simp only [History.repair, History.repaired, hChain]
      rw [hChain] at hFirst
      have hSerials := hReflects.serials c (by rw [hChain]; exact List.cons_ne_nil _ _)
      simp only [Context.serials, List.cons.injEq, and_true] at hSerials
      by_cases hBlocks : h.blocks = []
      · rw [hBlocks] at hHeads
        refine ⟨_, ?_, hInit, ?_⟩
        · simp only [repair, Links.first, hFirst, List.head?_cons, Option.map_some, hHeads,
            Option.bind_eq_bind, Option.bind_some]
          rfl
        · rw [if_pos (.inl hBlocks)]
          exact hReflects.init_list c
      · have hSome : (h.blocks.map Block.off).head? ≠ none := by
          simpa using hBlocks
        obtain ⟨hLast, hRest⟩ := hRepairable.resolve_left hBlocks
        have hStaleLast := stale_iff hReflects.firstSerial hLast
        rw [← hSerials.2] at hStaleLast
        by_cases hGone : (h.accounts c).last < h.reclaimed
        · rw [decide_eq_true hGone] at hStaleLast
          refine ⟨_, ?_, hInit, ?_⟩
          · simp only [repair, Links.first, hFirst, List.head?_cons, Option.map_some, hHeads,
              Option.bind_eq_bind, Option.bind_some, if_neg hSome, hStaleLast, if_true]
            rfl
          · rw [if_pos (.inr hGone)]
            exact hReflects.init_list c
        · rw [decide_eq_false hGone] at hStaleLast
          obtain ⟨hLow, hRest⟩ := hRest.resolve_left hGone
          have hStaleFirst := stale_iff hReflects.firstSerial hLow
          rw [← hSerials.1] at hStaleFirst
          rw [if_neg (not_or.mpr ⟨hBlocks, hGone⟩)]
          by_cases hOld : (h.accounts c).first < h.reclaimed
          · rw [decide_eq_true hOld] at hStaleFirst
            have hRebuildable : h.Rebuildable x rest := hRest.resolve_left (Nat.not_le.mpr hOld)
            obtain ⟨fuel, hFuel⟩ := hReflects.size_pos hBlocks
            obtain ⟨zap, m, hLoop, hEffect, hQueue, hSerial, hSame⟩ :=
              hReflects.zapLoop_spec hChain hRebuildable fuel
            refine ⟨m.setContext c { m.contexts c with
              firstSerial := (h.rebuilt (h.accounts c) x rest).first % 2 ^ 32 }, ?_, ?_, ?_⟩
            · simp only [repair, Links.first, hFirst, List.head?_cons, Option.map_some, hHeads,
                Option.bind_eq_bind, Option.bind_some, if_neg hSome, hStaleLast, hStaleFirst,
                Bool.false_eq_true, if_false, if_true, hFuel, hLoop, hSerial]
              rfl
            · exact hEffect.trans (effect_setContext m _)
            · rw [if_pos hOld]
              simp only [Context.serials, List.cons.injEq, and_true] at hSame
              exact hReflects.requeue_rebuilt hChain hRebuildable hEffect hQueue
                (hSame.2.trans hSerials.2)
          · rw [decide_eq_false hOld] at hStaleFirst
            refine ⟨s, ?_, Effect.refl _ _ _, ?_⟩
            · simp only [repair, Links.first, hFirst, List.head?_cons, Option.map_some, hHeads,
                Option.bind_eq_bind, Option.bind_some, if_neg hSome, hStaleLast, hStaleFirst,
                Bool.false_eq_true, if_false]
              rfl
            · rw [if_neg hOld, hStay]
              exact hReflects

/-- A drop takes one item off a list on which everything is live. -/
theorem drop_spec {xs ys : List Item} (hReflects : Reflects s h spare)
    (hLive : ∀ y ∈ (h.accounts c).chain, h.reclaimed ≤ y.serial)
    (hChain : (h.accounts c).chain = xs ++ x :: ys) :
    ∃ m, links.remove s (.datas c) x.off = some m ∧ m.jars.size = s.jars.size ∧
      Reflects m (h.drop c x.off) spare ∧ ((h.drop c x.off).accounts c).chain = xs ++ ys := by
  have hQueue := hReflects.queue hLive
  rw [hChain, List.map_append, List.map_cons] at hQueue
  have hErase : (h.accounts c).chain.eraseP (h.here x.off) = xs ++ ys := by
    have hApart := hQueue.apart.of_cons
    rw [List.map_append, List.pairwise_append] at hApart
    have hFront : ∀ y ∈ xs, ¬h.here x.off y = true := by
      intro y hy hHere
      have hAway := hApart.2.2 _ (List.mem_map_of_mem (List.mem_map_of_mem hy)) _
        List.mem_cons_self
      simp only [links, Apart] at hAway
      simp only [History.here, decide_eq_true_eq] at hHere
      omega
    have hx : h.here x.off x = true := by
      have := hLive x (hChain ▸ List.mem_append_right _ List.mem_cons_self)
      simp [History.here, this]
    rw [hChain, List.eraseP_append_right _ hFront, List.eraseP_cons_of_pos hx]
  obtain ⟨m, hRemove, hNew, hTouches⟩ := remove_spec links_lawful hQueue
  have hSerials := serials_touches hTouches c
  have hEffect : Effect c (Own h c) s m := by
    refine effect_touches hTouches fun p hp => ?_
    rcases List.mem_cons.mp hp with rfl | hp
    · exact .inl rfl
    · obtain ⟨off, hOff, rfl⟩ := List.mem_map.mp hp
      rw [← List.map_cons, ← List.map_append, ← hChain] at hOff
      obtain ⟨y, hy, rfl⟩ := List.mem_map.mp hOff
      exact .inr ⟨y.off, rfl, own_links (hReflects.chain_held hy (hLive y hy))⟩
  refine ⟨m, hRemove, ?_, ?_, ?_⟩
  · exact (Jars.fields_eq_iff.mp hEffect.fields).2.2.2.2
  · have hAll : ∀ y ∈ xs ++ ys, h.live y = true := by
      intro y hy
      refine History.live_iff.mpr (hLive y ?_)
      rw [hChain]
      simp only [List.mem_append, List.mem_cons] at hy ⊢
      tauto
    refine hReflects.relist hEffect (History.kept_drop (hReflects.sound.accounts c) x.off) ?_ ?_
    · simp only [hErase, List.takeWhile_eq_self_iff.mpr hAll, List.dropWhile_eq_nil_iff.mpr hAll]
      refine strung_of_queue ?_
      rw [List.map_append]
      exact hNew
    · intro _
      rw [hSerials]
      exact hReflects.serials c (by rw [hChain]; simp)
  · simp only [History.drop, History.setAccount_self, hErase]

end Reflects

end Peak.Jar
