import Peak.Track.Memory
import Peak.Track.Recency

/-! What calls do to the tracker in memory is what they do to the tracker of
lists: the tree, the queue and the pool share the memory without getting in each
other's way, and no link that is followed is missing. -/
namespace Peak.Track

open RedBlack Prealloc TailQueue

namespace Memory

variable {m m' m'' : Memory} {t : RedBlack.Tree Nat} {xs ys : List Nat} {a b slot : Nat} {f : Chunk → Chunk}

theorem cells_onData (m : Memory) (a b : Nat) (f : Chunk → Chunk) :
    (m.onData a f).tree.cells b =
      if b = a then { m.tree.cells b with data := f (m.tree.cells b).data } else m.tree.cells b :=
  Store.cells_modify fun c => { c with data := f c.data }

theorem tos_lawful : Lawful tos (· ≠ ·) where
  symm h := Ne.symm h
  irrefl a h := h rfl
  next_setNext m a v := by
    cases a with
    | none => rfl
    | some a => simp only [tos, cells_onData, if_true]
  prev_setPrev m a v := by
    cases a with
    | none => rfl
    | some a => simp only [tos, cells_onData, if_true]
  next_setNext_apart m a b v h := by
    cases a with
    | none =>
        cases b with
        | none => exact absurd rfl h
        | some b => rfl
    | some a =>
        cases b with
        | none => rfl
        | some b =>
            have hOther : b ≠ a := fun hSame => h (by rw [hSame])
            simp only [tos, cells_onData, if_neg hOther]
  prev_setPrev_apart m a b v h := by
    cases a with
    | none =>
        cases b with
        | none => exact absurd rfl h
        | some b => rfl
    | some a =>
        cases b with
        | none => rfl
        | some b =>
            have hOther : b ≠ a := fun hSame => h (by rw [hSame])
            simp only [tos, cells_onData, if_neg hOther]
  prev_setNext m a b v _ := by
    cases a with
    | none => cases b <;> rfl
    | some a =>
        cases b with
        | none => rfl
        | some b =>
            simp only [tos, cells_onData]
            split_ifs <;> rfl
  next_setPrev m a b v _ := by
    cases a with
    | none => cases b <;> rfl
    | some a =>
        cases b with
        | none => rfl
        | some b =>
            simp only [tos, cells_onData]
            split_ifs <;> rfl

/-- Only links of the queue are different. -/
structure Requeued (m m' : Memory) : Prop where
  root : m'.tree.root = m.tree.root
  cells : ∀ a, ∃ next prev, m'.tree.cells a =
    { m.tree.cells a with data := { (m.tree.cells a).data with tqNext := next, tqPrev := prev } }
  noTimeout : m'.noTimeout = m.noTimeout
  pool : m'.pool = m.pool
  nextFlowId : m'.nextFlowId = m.nextFlowId
  audit : m'.audit = m.audit

theorem Requeued.refl (m : Memory) : Requeued m m :=
  ⟨rfl, fun _ => ⟨_, _, rfl⟩, rfl, rfl, rfl, rfl⟩

theorem Requeued.trans (h : Requeued m m') (h' : Requeued m' m'') : Requeued m m'' := by
  refine ⟨h'.root.trans h.root, ?_, h'.noTimeout.trans h.noTimeout, h'.pool.trans h.pool,
    h'.nextFlowId.trans h.nextFlowId, h'.audit.trans h.audit⟩
  intro a
  obtain ⟨_, _, hCell⟩ := h.cells a
  obtain ⟨next, prev, hCell'⟩ := h'.cells a
  exact ⟨next, prev, by rw [hCell', hCell]⟩

theorem requeued_onData
    (hf : ∀ c, ∃ next prev, f c = { c with tqNext := next, tqPrev := prev }) :
    Requeued m (m.onData a f) := by
  refine ⟨rfl, ?_, rfl, rfl, rfl, rfl⟩
  intro b
  rw [cells_onData]
  split_ifs with hSame
  · obtain ⟨next, prev, hData⟩ := hf (m.tree.cells b).data
    exact ⟨next, prev, by rw [hData]⟩
  · exact ⟨_, _, rfl⟩

/-- What the operations of the queue do to the rest of the tracker. -/
theorem requeued_of_touches {pairs : List (Option Nat)} (h : tos.Touches pairs m m') :
    Requeued m m' := by
  induction h with
  | refl => exact .refl m
  | @next _ a v _ _ ih =>
      cases a with
      | none => exact ih.trans ⟨rfl, fun _ => ⟨_, _, rfl⟩, rfl, rfl, rfl, rfl⟩
      | some a => exact ih.trans (requeued_onData fun c => ⟨v, c.tqPrev, rfl⟩)
  | @prev _ a v _ _ ih =>
      cases a with
      | none => exact ih.trans ⟨rfl, fun _ => ⟨_, _, rfl⟩, rfl, rfl, rfl, rfl⟩
      | some a => exact ih.trans (requeued_onData fun c => ⟨c.tqNext, some v, rfl⟩)

theorem Requeued.flow (h : Requeued m m') (a : Nat) :
    (m'.tree.cells a).data.flow = (m.tree.cells a).data.flow := by
  obtain ⟨_, _, hCell⟩ := h.cells a
  rw [hCell]
  rfl

theorem Requeued.sets (h : Requeued m m') (hSets : m.tree.Sets chunkCmp t) :
    m'.tree.Sets chunkCmp t := by
  have hKey : ∀ a, (m'.tree.cells a).data.key = (m.tree.cells a).data.key :=
    fun a => congrArg Flow.key (h.flow a)
  refine hSets.congr h.root (fun a _ => ?_) fun a _ b _ => ?_
  · obtain ⟨_, _, hCell⟩ := h.cells a
    exact ⟨_, hCell⟩
  · rw [chunkCmp, chunkCmp, hKey, hKey]

theorem Requeued.holds (h : Requeued m m') {chunks claimed free : List Nat}
    (hHolds : Prealloc.Holds trackOverlay m.tree.cells m.pool chunks claimed free) :
    Prealloc.Holds trackOverlay m'.tree.cells m'.pool chunks claimed free := by
  rw [h.pool]
  refine hHolds.of_next fun a => ?_
  obtain ⟨_, _, hCell⟩ := h.cells a
  rw [hCell]
  rfl

/-- The queue depends on its own links only. -/
theorem queue_congr (h : tos.Queue (· ≠ ·) m none xs) (hFirst : m'.tosFirst = m.tosFirst)
    (hLast : m'.tosLast = m.tosLast)
    (hData : ∀ a ∈ xs, (m'.tree.cells a).data.tqNext = (m.tree.cells a).data.tqNext ∧
      (m'.tree.cells a).data.tqPrev = (m.tree.cells a).data.tqPrev) :
    tos.Queue (· ≠ ·) m' none xs := by
  have hNext : ∀ b ∈ tos.pairs none xs, tos.next m' b = tos.next m b := by
    intro b hMem
    rcases List.mem_cons.mp hMem with rfl | hMem
    · exact congrArg some hFirst
    · obtain ⟨a, ha, rfl⟩ := List.mem_map.mp hMem
      exact congrArg some (hData a ha).1
  refine ⟨path_congr h.path (fun b hb _ => hNext b hb) (fun a ha => (hData a ha).2) (tos_lawful.nodup h.apart),
    ?_, ?_, h.apart⟩
  · rw [hNext _ (lastPair_mem tos none xs)]
    exact h.tail
  · rw [← h.last]
    exact congrArg some hLast

/-- Data with the same links changes nothing in the queue. -/
theorem queue_onData (h : tos.Queue (· ≠ ·) m none xs)
    (hf : ∀ c, (f c).tqNext = c.tqNext ∧ (f c).tqPrev = c.tqPrev) :
    tos.Queue (· ≠ ·) (m.onData a f) none xs := by
  refine queue_congr h rfl rfl fun b _ => ?_
  rw [cells_onData]
  split_ifs
  · exact hf _
  · exact ⟨rfl, rfl⟩

/-- Data with the same front changes nothing in the tree. -/
theorem sets_onData (h : m.tree.Sets chunkCmp t) (hf : ∀ c, (f c).front = c.front) :
    (m.onData a f).tree.Sets chunkCmp t := by
  have hCell : ∀ b, ∃ d, (m.onData a f).tree.cells b = { m.tree.cells b with data := d } ∧
      d.key = (m.tree.cells b).data.key := by
    intro b
    rw [cells_onData]
    split_ifs
    · exact ⟨_, rfl, by rw [Chunk.key, Chunk.key, hf]⟩
    · exact ⟨_, rfl, rfl⟩
  refine h.congr rfl (fun b _ => ⟨_, (hCell b).choose_spec.1⟩) fun b _ c _ => ?_
  obtain ⟨_, hb, hKeyB⟩ := hCell b
  obtain ⟨_, hc, hKeyC⟩ := hCell c
  rw [hb, hc, chunkCmp, chunkCmp, hKeyB, hKeyC]

theorem holds_onData {pool : Prealloc.Pool} {chunks claimed free : List Nat}
    (h : Prealloc.Holds trackOverlay m.tree.cells pool chunks claimed free) (hf : ∀ c, (f c).front = c.front) :
    Prealloc.Holds trackOverlay (m.onData a f).tree.cells pool chunks claimed free := by
  refine h.of_next fun b => ?_
  rw [cells_onData]
  split_ifs
  · show (f (m.tree.cells b).data).next = (m.tree.cells b).data.next
    rw [Chunk.next, Chunk.next, hf]
  · rfl

end Memory

/-- The chunk of a slot. -/
def place (e slot : Nat) : Nat := e + slot * trackSize

variable {count rounds e slot : Nat} {m m' : Memory} {s s' : Tracks} {t : RedBlack.Tree Nat} {key : Ref}
variable {free : List Nat}

theorem place_injective (e : Nat) : Function.Injective (place e) := by
  intro i j hSame
  rw [place, place, trackSize] at hSame
  omega

theorem mem_map_place {slots : List Nat} : place e slot ∈ slots.map (place e) ↔ slot ∈ slots := by
  constructor
  · intro hMem
    obtain ⟨slot', hMem', hSame⟩ := List.mem_map.mp hMem
    exact place_injective e hSame ▸ hMem'
  · exact List.mem_map_of_mem

/-- The memory shows the state of the tracker of lists. -/
structure Shows (count e : Nat) (m : Memory) (s : Tracks) (t : RedBlack.Tree Nat) : Prop where
  tree : m.tree.Sets chunkCmp t
  flows : t.toList.Perm (s.flows.map (place e))
  queue : Memory.tos.Queue (· ≠ ·) m none (s.tos.map (place e))
  pool : Prealloc.Holds trackOverlay m.tree.cells m.pool (chunksFrom e trackSize count)
    (s.tos.map (place e)) (s.pool.free.map (place e))
  mem : ∀ slot, s.mem slot = (m.tree.cells (place e slot)).data.flow
  noTimeout : s.noTimeout = m.noTimeout
  nextFlowId : s.nextFlowId = m.nextFlowId

theorem Shows.mem_tree (h : Shows count e m s t) : place e slot ∈ t.toList ↔ slot ∈ s.flows := by
  rw [h.flows.mem_iff, mem_map_place]

theorem Shows.keyOf_eq (h : Shows count e m s t) (slot : Nat) :
    s.keyOf slot = (m.tree.cells (place e slot)).data.key :=
  congrArg Flow.key (h.mem slot)

theorem Ok.few (h : Ok count s) : s.flows.length ≤ count := by
  have hLength := h.length
  rw [← h.tree.length_eq] at hLength
  omega

/-- The tree never has more elements than there are chunks. -/
theorem Shows.enough (h : Shows count e m s t) (hFlows : s.flows.length ≤ count)
    (hRounds : Store.enough count ≤ rounds) : Store.enough t.toList.length ≤ rounds := by
  rw [h.flows.length_eq, List.length_map]
  exact Nat.le_trans (Store.enough_mono hFlows) hRounds

/-- A flow from the pool gets the key, in the tree and at the end of the queue. -/
theorem Shows.addFlow (h : Shows count e m s t) (hFree : s.pool.free = slot :: free)
    (hFlows : slot ∉ s.flows) (hTos : slot ∉ s.tos) (hNew : ∀ slot ∈ s.flows, s.keyOf slot ≠ key)
    (hFew : s.flows.length ≤ count) (hRounds : Store.enough count ≤ rounds) :
    ∃ m' t', m.addFlow rounds key = .ret (some (place e slot)) m' ∧
      m'.audit = m.audit.inc auditTrackAdded ∧
      Shows count e m' { s with
        mem := Function.update s.mem slot (Flow.fresh key s.nextFlowId)
        flows := slot :: s.flows
        tos := s.tos ++ [slot]
        pool := ⟨free, (s.pool.used + 1) % 2 ^ 64⟩
        nextFlowId := (s.nextFlowId + 1) % 2 ^ 64 } t' := by
  have hPool := h.pool
  rw [hFree, List.map_cons] at hPool
  obtain ⟨pool, hGet, hClaimed⟩ := hPool.get_some
  have hMem : place e slot ∉ t.toList := fun hMem => hFlows (h.mem_tree.mp hMem)
  have hQueued : place e slot ∉ s.tos.map (place e) := fun hMem => hTos (mem_map_place.mp hMem)
  have hApart : place e slot ∉ free.map (place e) := hClaimed.not_free List.mem_cons_self
  -- the chunk is written over
  let written : Store Nat Chunk := m.tree.modify (place e slot) fun _ => Memory.blank key
  have hThis : written.cells (place e slot) = Memory.blank key := Store.cells_modify_same _
  have hOthers : ∀ b, b ≠ place e slot → written.cells b = m.tree.cells b :=
    fun b hOther => Store.cells_modify_of_ne _ hOther
  have hWritten : written.Sets chunkCmp t :=
    h.tree.outside rfl fun b hb => hOthers b fun hSame => hMem (hSame ▸ hb)
  have hOther : ∀ a ∈ t.toList, chunkCmp (written.cells (place e slot)).data (written.cells a).data ≠ .eq := by
    intro a ha hEq
    obtain ⟨slot', hSlot, rfl⟩ := List.mem_map.mp (h.flows.mem_iff.mp ha)
    rw [hThis, hOthers _ fun hSame => hMem (hSame ▸ ha)] at hEq
    exact hNew slot' hSlot ((h.keyOf_eq slot').trans (Ref.trackCmp_eq_iff.mp hEq).symm)
  -- it goes into the tree, which changes no data
  obtain ⟨tree, t', hInsert, hSets, hPerm, hKeeps⟩ := hWritten.insert hMem hOther (h.enough hFew hRounds)
  have hData : ∀ b, b ≠ place e slot → (tree.cells b).data = (m.tree.cells b).data :=
    fun b hb => (hKeeps.data b).trans (congrArg Cell.data (hOthers b hb))
  have hDataThis : (tree.cells (place e slot)).data = Chunk.ofKey key :=
    (hKeeps.data _).trans (congrArg Cell.data hThis)
  let m₁ : Memory := { m with pool := pool, tree := tree }
  have hQueue : Memory.tos.Queue (· ≠ ·) m₁ none (s.tos.map (place e)) := by
    refine Memory.queue_congr h.queue rfl rfl fun a ha => ?_
    have hSame := hData a fun hSame => hQueued (hSame ▸ ha)
    exact ⟨congrArg Chunk.tqNext hSame, congrArg Chunk.tqPrev hSame⟩
  have hHolds : Prealloc.Holds trackOverlay tree.cells pool (chunksFrom e trackSize count)
      (place e slot :: s.tos.map (place e)) (free.map (place e)) := by
    refine (hClaimed.congr fun a ha => hOthers a fun hSame => hApart (hSame ▸ ha)).of_next fun a => ?_
    show (tree.cells a).data.next = _
    rw [hKeeps.data]
    rfl
  -- it gets its number, and goes to the end of the queue
  let number : Chunk → Chunk := fun c => { c with id := m.nextFlowId }
  let m₂ : Memory := { m₁.onData (place e slot) number with nextFlowId := (m.nextFlowId + 1) % 2 ^ 64 }
  have hNumbered : Memory.tos.Queue (· ≠ ·) m₂ none (s.tos.map (place e)) := by
    have hSame := Memory.queue_onData (a := place e slot) (f := number) hQueue fun _ => ⟨rfl, rfl⟩
    exact Memory.queue_congr hSame rfl rfl fun _ _ => ⟨rfl, rfl⟩
  have hFresh : ∀ b ∈ Memory.tos.pairs none (s.tos.map (place e)), some (place e slot) ≠ b := by
    intro b hb hSame
    rcases List.mem_cons.mp hb with rfl | hb
    · cases hSame
    · obtain ⟨a, ha, rfl⟩ := List.mem_map.mp hb
      exact hQueued (Option.some.inj hSame ▸ ha)
  obtain ⟨m₃, hTail, hQueued', hTouches⟩ := insertTail_spec Memory.tos_lawful hNumbered hFresh
  have hRequeued := Memory.requeued_of_touches hTouches
  have hEnrol : m₁.enrol (place e slot) = some (m₃.auditInc auditTrackAdded) :=
    congrArg (Option.map (Memory.auditInc · auditTrackAdded)) hTail
  have hRun : m.addFlow rounds key = .ret (some (place e slot)) (m₃.auditInc auditTrackAdded) := by
    rw [Memory.addFlow, hGet]
    dsimp only
    rw [hInsert]
    dsimp only
    rw [hEnrol]
  refine ⟨_, t', hRun, congrArg (Audit.inc · auditTrackAdded) hRequeued.audit, ?_⟩
  constructor
  · have hNumber : m₂.tree.Sets chunkCmp t' := Memory.sets_onData (m := m₁) (f := number) hSets fun _ => rfl
    exact hRequeued.sets hNumber
  · exact hPerm.trans (h.flows.cons _)
  · rw [List.map_append]
    exact Memory.queue_congr hQueued' rfl rfl fun _ _ => ⟨rfl, rfl⟩
  · have hAll : Prealloc.Holds trackOverlay m₂.tree.cells m₂.pool (chunksFrom e trackSize count)
        (place e slot :: s.tos.map (place e)) (free.map (place e)) :=
      Memory.holds_onData (m := m₁) (f := number) hHolds fun _ => rfl
    refine (hRequeued.holds hAll).claimed_perm ?_
    rw [List.map_append]
    exact (List.perm_append_singleton _ _).symm
  · intro slot'
    have hFlow := hRequeued.flow (place e slot')
    have hNumber : m₂.tree.cells (place e slot') = _ :=
      Memory.cells_onData m₁ (place e slot) (place e slot') number
    rw [hNumber] at hFlow
    show Function.update s.mem slot (Flow.fresh key s.nextFlowId) slot' = (m₃.tree.cells (place e slot')).data.flow
    rw [Function.update_apply, hFlow]
    by_cases hSame : slot' = slot
    · rw [if_pos hSame, if_pos (congrArg (place e) hSame), hSame]
      show _ = (number (tree.cells (place e slot)).data).flow
      rw [hDataThis, h.nextFlowId]
      rfl
    · have hNe : place e slot' ≠ place e slot := fun h => hSame (place_injective e h)
      rw [if_neg hSame, if_neg hNe, h.mem]
      exact congrArg Chunk.flow (hData _ hNe).symm
  · exact h.noTimeout.trans hRequeued.noTimeout.symm
  · show (s.nextFlowId + 1) % 2 ^ 64 = m₃.nextFlowId
    rw [hRequeued.nextFlowId, h.nextFlowId]

/-- A flow is taken out of the queue. -/
theorem Shows.dequeue (h : Shows count e m s t) (hMem : slot ∈ s.tos) (hNodup : s.tos.Nodup) :
    ∃ m', Memory.tos.remove m none (place e slot) = some m' ∧ Memory.Requeued m m' ∧
      Memory.tos.Queue (· ≠ ·) m' none ((s.tos.erase slot).map (place e)) := by
  obtain ⟨xs, ys, hTos⟩ := List.mem_iff_append.mp hMem
  have hQueue := h.queue
  rw [hTos, List.map_append, List.map_cons] at hQueue
  obtain ⟨m', hRun, hQueue', hTouches⟩ := remove_spec Memory.tos_lawful hQueue
  refine ⟨m', hRun, Memory.requeued_of_touches hTouches, ?_⟩
  rw [hTos] at hNodup ⊢
  have hFront : slot ∉ xs := fun hIn => (List.nodup_append'.mp hNodup).2.2 hIn List.mem_cons_self
  rw [List.erase_append_right _ hFront, List.erase_cons_head, List.map_append]
  exact hQueue'

/-- A flow that is asked for goes to the end of the queue. -/
theorem Shows.requeue (h : Shows count e m s t) (hMem : slot ∈ s.tos) (hNodup : s.tos.Nodup) :
    ∃ m', ((Memory.tos.remove m none (place e slot)).bind fun m =>
        Memory.tos.insertTail m none (place e slot)) = some m' ∧ m'.audit = m.audit ∧
      Shows count e m' { s with tos := s.tos.erase slot ++ [slot] } t := by
  obtain ⟨m₁, hRemove, hRequeued, hQueue⟩ := h.dequeue hMem hNodup
  have hFresh : ∀ b ∈ Memory.tos.pairs none ((s.tos.erase slot).map (place e)), some (place e slot) ≠ b := by
    intro b hb hSame
    rcases List.mem_cons.mp hb with rfl | hb
    · cases hSame
    · obtain ⟨a, ha, rfl⟩ := List.mem_map.mp hb
      exact hNodup.not_mem_erase (mem_map_place.mp (Option.some.inj hSame ▸ ha))
  obtain ⟨m₂, hTail, hQueue', hTouches⟩ := insertTail_spec Memory.tos_lawful hQueue hFresh
  have hAll := hRequeued.trans (Memory.requeued_of_touches hTouches)
  have hPerm : (s.tos.erase slot ++ [slot]).Perm s.tos :=
    (List.perm_append_singleton slot _).trans (List.perm_cons_erase hMem).symm
  refine ⟨m₂, by rw [hRemove, Option.bind_some, hTail], hAll.audit, ?_⟩
  refine ⟨hAll.sets h.tree, h.flows, ?_, (hAll.holds h.pool).claimed_perm (hPerm.map _).symm,
    fun slot' => (h.mem slot').trans (hAll.flow _).symm, h.noTimeout.trans hAll.noTimeout.symm,
    h.nextFlowId.trans hAll.nextFlowId.symm⟩
  rw [List.map_append]
  exact hQueue'

/-- The first flow of the queue is put back. -/
theorem Shows.recycle {tos : List Nat} (h : Shows count e m s t) (hTos : s.tos = slot :: tos)
    (hNodup : s.tos.Nodup) (hMem : slot ∈ s.flows) (hFew : s.flows.length ≤ count)
    (hRounds : Store.enough count ≤ rounds) :
    ∃ m' t' flow, m.recycle rounds = some m' ∧ m'.audit = m.audit.inc auditTrackRecycled ∧
      Shows count e m' { s with
        mem := Function.update s.mem slot flow
        tos := tos
        flows := s.flows.erase slot
        pool := s.pool.put slot } t' := by
  have hFirst : m.tosFirst = some (place e slot) := by
    have hHead := next_head h.queue
    rw [hTos] at hHead
    exact Option.some.inj hHead
  obtain ⟨m₁, hRemove, hRequeued, hQueue⟩ := h.dequeue (hTos ▸ List.mem_cons_self) hNodup
  rw [hTos, List.erase_cons_head] at hQueue
  have hNotQueued : slot ∉ tos := (List.nodup_cons.mp (hTos ▸ hNodup)).1
  obtain ⟨tree, t', hErase, hSets, hList, hKeeps⟩ := (hRequeued.sets h.tree).remove (h.mem_tree.mpr hMem)
    (h.enough hFew hRounds)
  let m₂ : Memory := { m₁ with tree := tree }
  have hHolds : Prealloc.Holds trackOverlay tree.cells m₁.pool (chunksFrom e trackSize count)
      (place e slot :: tos.map (place e)) (s.pool.free.map (place e)) := by
    have hPool := hRequeued.holds h.pool
    rw [hTos, List.map_cons] at hPool
    refine hPool.of_next fun a => ?_
    show (tree.cells a).data.next = _
    rw [hKeeps.data]
    rfl
  have hOthers : ∀ b, b ≠ place e slot → (m₂.put (place e slot)).tree.cells b = tree.cells b :=
    fun b hb => link_of_ne hb
  have hRun : m.recycle rounds = some ((m₂.put (place e slot)).auditInc auditTrackRecycled) := by
    rw [Memory.recycle, hFirst]
    dsimp only [Option.bind_eq_bind, Option.bind_some]
    rw [hRemove, Option.bind_some, hErase]
    rfl
  refine ⟨_, t', ((m₂.put (place e slot)).tree.cells (place e slot)).data.flow, hRun,
    congrArg (Audit.inc · auditTrackRecycled) hRequeued.audit, ?_⟩
  constructor
  · refine hSets.outside rfl fun b hb => hOthers b fun hSame => ?_
    rw [hList, hSame] at hb
    exact h.tree.holds.nodup.not_mem_erase hb
  · rw [hList, List.map_erase (place_injective e)]
    exact h.flows.erase _
  · refine Memory.queue_congr hQueue rfl rfl fun a ha => ?_
    have hSame : (m₂.put (place e slot)).tree.cells a = tree.cells a :=
      hOthers a fun hSame => hNotQueued (mem_map_place.mp (hSame ▸ ha))
    have hData := (congrArg Cell.data hSame).trans (hKeeps.data a)
    exact ⟨congrArg Chunk.tqNext hData, congrArg Chunk.tqPrev hData⟩
  · exact hHolds.put
  · intro slot'
    show Function.update s.mem slot _ slot' = _
    rw [Function.update_apply]
    split_ifs with hSame
    · rw [hSame]
      rfl
    · have hNe : place e slot' ≠ place e slot := fun h => hSame (place_injective e h)
      rw [h.mem, ← hRequeued.flow, ← congrArg Chunk.flow (hKeeps.data _)]
      exact congrArg (fun c : Cell Nat Chunk => c.data.flow) (hOthers _ hNe).symm
  · exact h.noTimeout.trans hRequeued.noTimeout.symm
  · exact h.nextFlowId.trans hRequeued.nextFlowId.symm

open Lru

/-- The counters after a call. -/
def audited (s : Tracks) (audit : Audit) : Answer Nat → Audit
  | .known _ => audit
  | .made _ =>
      if s.pool.free = [] then (audit.inc auditTrackRecycled).inc auditTrackAdded
      else audit.inc auditTrackAdded
  | .refused => audit.inc auditTrackFailed

/-- A call for a new flow while there are free chunks. -/
theorem Shows.acquire_room (h : Shows count e m s t) (hOk : Ok count s)
    (hNew : ∀ slot ∈ s.flows, s.keyOf slot ≠ key) (hFree : s.pool.free = slot :: free)
    (hFew : s.flows.length ≤ count) (hRounds : Store.enough count ≤ rounds) :
    ∃ m' s' t', m.addFlow rounds key = .ret (some (place e slot)) m' ∧ Acquires s key (.made slot) s' ∧
      Shows count e m' s' t' ∧ m'.audit = m.audit.inc auditTrackAdded := by
  have hApart := hOk.free_apart (hFree ▸ List.mem_cons_self)
  obtain ⟨m', t', hRun, hAudit, hShows⟩ := h.addFlow hFree hApart
    (fun hMem => hApart (hOk.tree.symm.subset hMem)) hNew hFew hRounds
  have hUsed : (s.pool.used + 1) % 2 ^ 64 = s.pool.used + 1 := by
    have hLength := hOk.length
    have hSize := hOk.size
    rw [hFree, List.length_cons] at hLength
    rw [hOk.used]
    exact Nat.mod_eq_of_lt (by omega)
  rw [hUsed] at hShows
  exact ⟨m', _, t', hRun, .made slot free _ (fun slot hMem => hNew slot (hOk.tree.symm.subset hMem)) hFree
    (hOk.tree.cons slot), hShows, hAudit⟩

/-- A call for a new flow that takes the chunk of the one used least recently. -/
theorem Shows.acquire_full {tos : List Nat} (h : Shows count e m s t) (hOk : Ok count s)
    (hNew : ∀ slot ∈ s.flows, s.keyOf slot ≠ key) (hFull : s.pool.free = []) (hTimeout : s.noTimeout = false)
    (hTos : s.tos = slot :: tos) (hFew : s.flows.length ≤ count) (hRounds : Store.enough count ≤ rounds) :
    ∃ m₁ m' s' t', m.recycle rounds = some m₁ ∧ m₁.addFlow rounds key = .ret (some (place e slot)) m' ∧
      Acquires s key (.made slot) s' ∧ Shows count e m' s' t' ∧
      m'.audit = (m.audit.inc auditTrackRecycled).inc auditTrackAdded := by
  have hNodup : s.tos.Nodup := (List.nodup_append'.mp hOk.slots_nodup).1
  have hMem : slot ∈ s.flows := hOk.tree.symm.subset (hTos ▸ List.mem_cons_self)
  have hUsed : ((s.pool.put slot).used + 1) % 2 ^ 64 = s.pool.used := by
    have hLength := hOk.length
    have hSize := hOk.size
    have hCounted := hOk.used
    rw [hTos, List.length_cons] at hLength hCounted
    exact Pool.used_of_put (by omega) (by omega)
  have hPool : (⟨[], s.pool.used⟩ : Pool) = s.pool := by rw [← hFull]
  obtain ⟨m₁, t₁, flow, hRecycle, hAudit₁, hShows₁⟩ := h.recycle hTos hNodup hMem hFew hRounds
  have hOld : ∀ slot' ∈ s.flows.erase slot, Function.update s.mem slot flow slot' = s.mem slot' := by
    intro slot' hIn
    exact Function.update_of_ne (fun hSame => hOk.flows_nodup.not_mem_erase (hSame ▸ hIn)) _ _
  obtain ⟨m', t', hRun, hAudit, hShows⟩ := hShows₁.addFlow (congrArg (slot :: ·) hFull)
    hOk.flows_nodup.not_mem_erase (List.nodup_cons.mp (hTos ▸ hNodup)).1
    (fun slot' hIn hKey => hNew slot' (List.mem_of_mem_erase hIn)
      ((congrArg Flow.key (hOld slot' hIn)).symm.trans hKey))
    (Nat.le_trans List.erase_sublist.length_le hFew) hRounds
  dsimp only at hShows
  rw [hUsed, hPool, Function.update_idem] at hShows
  have hErase : (s.flows.erase slot).Perm tos := by
    have hPerm := hOk.tree.erase slot
    rwa [hTos, List.erase_cons_head] at hPerm
  refine ⟨m₁, m', _, t', hRecycle, hRun, .recycled slot tos _
    (fun slot hMem => hNew slot (hOk.tree.symm.subset hMem)) hFull hTimeout hTos (hErase.cons slot), hShows, ?_⟩
  rw [hAudit, hAudit₁]

/-- What a call does to the memory is what it does to the lists. -/
theorem Shows.acquire (h : Shows count e m s t) (hOk : Ok count s) (hCount : 0 < count)
    (hRounds : Store.enough count ≤ rounds) (key : Ref) :
    ∃ answer m' s' t', m.acquire rounds (some key) = .ret (answer.value.map (place e)) m' ∧
      Acquires s key answer s' ∧ Shows count e m' s' t' ∧ m'.audit = audited s m.audit answer := by
  have hFew := hOk.few
  obtain ⟨found, hFind, hSome, hNone⟩ := h.tree.find (h.enough hFew hRounds) (Chunk.ofKey key)
  rw [Memory.acquire, hFind]
  cases found with
  | some a =>
      obtain ⟨hMem, hEq⟩ := hSome a rfl
      obtain ⟨slot, hSlot, rfl⟩ := List.mem_map.mp (h.flows.mem_iff.mp hMem)
      have hQueued := hOk.tree.subset hSlot
      have hKey : s.keyOf slot = key := (h.keyOf_eq slot).trans (Ref.trackCmp_eq_iff.mp hEq).symm
      obtain ⟨m', hRun, hAudit, hShows⟩ := h.requeue hQueued (List.nodup_append'.mp hOk.slots_nodup).1
      refine ⟨.known slot, m', _, t, ?_, .known slot hQueued hKey, hShows, hAudit⟩
      dsimp only
      rw [hRun]
      rfl
  | none =>
      have hNew : ∀ slot ∈ s.flows, s.keyOf slot ≠ key := by
        intro slot hSlot hKey
        apply hNone rfl _ (h.mem_tree.mpr hSlot)
        exact Ref.trackCmp_eq_iff.mpr (hKey.symm.trans (h.keyOf_eq slot))
      dsimp only
      cases hFree : s.pool.free with
      | cons slot free =>
          have hChain := h.pool.chain
          rw [hFree] at hChain
          obtain ⟨m', s', t', hRun, hAcquires, hShows, hAudit⟩ := h.acquire_room hOk hNew hFree hFew hRounds
          refine ⟨.made slot, m', s', t', ?_, hAcquires, hShows, ?_⟩
          · rw [hChain.1, if_neg (Option.some_ne_none _), hRun]
            rfl
          · rw [hAudit, audited, if_neg (by rw [hFree]; exact List.cons_ne_nil slot free)]
      | nil =>
          have hEmpty : m.pool.free = none := by
            have hChain := h.pool.chain
            rw [hFree] at hChain
            exact hChain
          rw [if_pos hEmpty, ← h.noTimeout]
          cases hTimeout : s.noTimeout with
          | true =>
              refine ⟨.refused, _, s, t, rfl, .refused (fun slot hMem => hNew slot (hOk.tree.symm.subset hMem))
                hFree hTimeout, ?_, rfl⟩
              exact ⟨h.tree, h.flows, Memory.queue_congr h.queue rfl rfl fun _ _ => ⟨rfl, rfl⟩, h.pool, h.mem,
                h.noTimeout, h.nextFlowId⟩
          | false =>
              cases hTos : s.tos with
              | nil =>
                  have hLength := hOk.length
                  rw [hTos, hFree] at hLength
                  exact absurd hLength.symm hCount.ne'
              | cons slot tos =>
                  obtain ⟨m₁, m', s', t', hRecycle, hRun, hAcquires, hShows, hAudit⟩ :=
                    h.acquire_full hOk hNew hFree hTimeout hTos hFew hRounds
                  refine ⟨.made slot, m', s', t', ?_, hAcquires, hShows, ?_⟩
                  · rw [if_neg Bool.false_ne_true, hRecycle]
                    dsimp only
                    rw [hRun]
                    rfl
                  · rw [hAudit, audited, if_pos hFree]

end Peak.Track
