import Mathlib.Data.List.Pairwise
import Mathlib.Tactic.Common

/-! Tail queues whose links lie in the memory they link: every element has a
pair of links, and so has the head of a queue. The forward link names the next
element, the backward link is the address of the pair that names this one. A
load may fail when the memory holds no link there. -/
namespace TailQueue

variable {μ α ε β : Type}

/-- Memory with link pairs at addresses `α`, some of which belong to elements
`ε`. -/
structure Links (μ α ε : Type) where
  elem : ε → α
  next : μ → α → Option (Option ε)
  prev : μ → α → Option α
  setNext : μ → α → Option ε → μ
  setPrev : μ → α → α → μ

/-- Stores change the link they are for and no link of a pair that is apart. -/
structure Lawful (L : Links μ α ε) (Apart : α → α → Prop) : Prop where
  symm : ∀ {a b}, Apart a b → Apart b a
  irrefl : ∀ a, ¬Apart a a
  next_setNext : ∀ m a v, L.next (L.setNext m a v) a = some v
  prev_setPrev : ∀ m a v, L.prev (L.setPrev m a v) a = some v
  next_setNext_apart : ∀ m {a b} v, Apart a b → L.next (L.setNext m a v) b = L.next m b
  prev_setPrev_apart : ∀ m {a b} v, Apart a b → L.prev (L.setPrev m a v) b = L.prev m b
  prev_setNext : ∀ m {a b} v, a = b ∨ Apart a b → L.prev (L.setNext m a v) b = L.prev m b
  next_setPrev : ∀ m {a b} v, a = b ∨ Apart a b → L.next (L.setPrev m a v) b = L.next m b

namespace Links

variable (L : Links μ α ε)

def init (m : μ) (head : α) : μ := L.setPrev (L.setNext m head none) head head

def first (m : μ) (head : α) : Option (Option ε) := L.next m head

/-- The element before an address: the one its predecessor's pair is named by. -/
def before (m : μ) (a : α) : Option (Option ε) := do
  let pair ← L.prev m a
  let pair ← L.prev m pair
  L.next m pair

def insertTail (m : μ) (head : α) (e : ε) : Option μ := do
  let m := L.setNext m (L.elem e) none
  let last ← L.prev m head
  let m := L.setPrev m (L.elem e) last
  let m := L.setNext m last (some e)
  return L.setPrev m head (L.elem e)

def insertHead (m : μ) (head : α) (e : ε) : Option μ := do
  let first ← L.next m head
  let m := L.setNext m (L.elem e) first
  let m :=
    match first with
    | some f => L.setPrev m (L.elem f) (L.elem e)
    | none => L.setPrev m head (L.elem e)
  let m := L.setNext m head (some e)
  return L.setPrev m (L.elem e) head

def remove (m : μ) (head : α) (e : ε) : Option μ := do
  let next ← L.next m (L.elem e)
  let pair ← L.prev m (L.elem e)
  let m :=
    match next with
    | some n => L.setPrev m (L.elem n) pair
    | none => L.setPrev m head pair
  return L.setNext m pair next

/-- The elements `xs` hang together behind the pair at `a`. -/
def Path (m : μ) : α → List ε → Prop
  | _, [] => True
  | a, x :: xs =>
      L.next m a = some (some x) ∧ L.prev m (L.elem x) = some a ∧ Path m (L.elem x) xs

/-- The pair at the end of a path. -/
def lastPair : α → List ε → α
  | a, [] => a
  | _, x :: xs => lastPair (L.elem x) xs

/-- The addresses of a head and its elements. -/
def pairs (head : α) (xs : List ε) : List α := head :: xs.map L.elem

variable (Apart : α → α → Prop)

/-- A well-formed queue. -/
structure Queue (m : μ) (head : α) (xs : List ε) : Prop where
  path : L.Path m head xs
  tail : L.next m (L.lastPair head xs) = some none
  last : L.prev m head = some (L.lastPair head xs)
  apart : (L.pairs head xs).Pairwise Apart

/-- The second memory came from the first by stores to the listed pairs. -/
inductive Touches (pairs : List α) (m : μ) : μ → Prop where
  | refl : Touches pairs m m
  | next {m' : μ} {a : α} (v : Option ε) (h : Touches pairs m m') (ha : a ∈ pairs) :
      Touches pairs m (L.setNext m' a v)
  | prev {m' : μ} {a : α} (v : α) (h : Touches pairs m m') (ha : a ∈ pairs) :
      Touches pairs m (L.setPrev m' a v)

/-- What stores to a pair do not change. -/
def Blind (observe : μ → β) (a : α) : Prop :=
  (∀ m v, observe (L.setNext m a v) = observe m) ∧ ∀ m v, observe (L.setPrev m a v) = observe m

end Links

open Links

variable {L : Links μ α ε} {Apart : α → α → Prop} {m m' m'' : μ} {head a b : α} {e x : ε}
variable {xs ys : List ε} {tail : Option ε} {pairs : List α}

theorem Links.Touches.observe (h : L.Touches pairs m m') (observe : μ → β)
    (hBlind : ∀ a ∈ pairs, L.Blind observe a) : observe m' = observe m := by
  induction h with
  | refl => rfl
  | next v _ ha ih => rw [(hBlind _ ha).1, ih]
  | prev v _ ha ih => rw [(hBlind _ ha).2, ih]

theorem Links.Touches.mono {pairs' : List α} (h : L.Touches pairs m m')
    (hSub : ∀ a ∈ pairs, a ∈ pairs') : L.Touches pairs' m m' := by
  induction h with
  | refl => exact .refl
  | next v _ ha ih => exact ih.next v (hSub _ ha)
  | prev v _ ha ih => exact ih.prev v (hSub _ ha)

theorem lastPair_mem (L : Links μ α ε) (a : α) (xs : List ε) : L.lastPair a xs ∈ L.pairs a xs := by
  induction xs generalizing a with
  | nil => simp [lastPair, Links.pairs]
  | cons x xs ih =>
      have hMem := ih (L.elem x)
      simp only [lastPair, Links.pairs, List.map_cons] at hMem ⊢
      exact List.mem_cons_of_mem _ hMem

theorem elem_mem_pairs (L : Links μ α ε) (a : α) (hx : x ∈ xs) : L.elem x ∈ L.pairs a xs :=
  List.mem_cons_of_mem _ (List.mem_map_of_mem hx)

@[simp] theorem lastPair_append (L : Links μ α ε) (a : α) (xs ys : List ε) :
    L.lastPair a (xs ++ ys) = L.lastPair (L.lastPair a xs) ys := by
  induction xs generalizing a with
  | nil => rfl
  | cons x xs ih => exact ih (L.elem x)

/-- A path is a path followed by a path. -/
theorem path_append : L.Path m a (xs ++ ys) ↔ L.Path m a xs ∧ L.Path m (L.lastPair a xs) ys := by
  induction xs generalizing a with
  | nil => simp [Links.Path, lastPair]
  | cons x xs ih => simp only [List.cons_append, Links.Path, lastPair, ih, and_assoc]

/-- A path depends on the links of its own pairs, and not on the forward link
of the last one. -/
theorem path_congr (h : L.Path m a xs)
    (hNext : ∀ b ∈ L.pairs a xs, b ≠ L.lastPair a xs → L.next m' b = L.next m b)
    (hPrev : ∀ x ∈ xs, L.prev m' (L.elem x) = L.prev m (L.elem x))
    (hNodup : (L.pairs a xs).Nodup) : L.Path m' a xs := by
  induction xs generalizing a with
  | nil => trivial
  | cons x xs ih =>
      obtain ⟨hx, hBack, hRest⟩ := h
      have hNodup' := List.nodup_cons.mp hNodup
      have hLast := lastPair_mem L (L.elem x) xs
      refine ⟨?_, (hPrev x List.mem_cons_self).trans hBack, ih hRest ?_ ?_ hNodup'.2⟩
      · rw [hNext a List.mem_cons_self, hx]
        rintro hEq
        exact hNodup'.1 (hEq ▸ hLast)
      · exact fun b hb hNe => hNext b (List.mem_cons_of_mem _ hb) hNe
      · exact fun y hy => hPrev y (List.mem_cons_of_mem _ hy)

section Specs

variable (hL : Lawful L Apart)

theorem init_touches (L : Links μ α ε) (m : μ) (head : α) : L.Touches [head] m (L.init m head) :=
  (Touches.refl.next none List.mem_cons_self).prev head List.mem_cons_self

/-- Whatever the memory holds, an insertion only stores to links. -/
theorem insertTail_touches (h : L.insertTail m head e = some m') : ∃ pairs, L.Touches pairs m m' := by
  simp only [insertTail, Option.bind_eq_bind, Option.bind_eq_some_iff] at h
  obtain ⟨last, -, h⟩ := h
  cases h
  exact ⟨[L.elem e, last, head], .prev _ (.next _ (.prev _ (.next _ .refl (by simp)) (by simp))
    (by simp)) (by simp)⟩

theorem insertHead_touches (h : L.insertHead m head e = some m') :
    ∃ pairs, L.Touches pairs m m' := by
  simp only [insertHead, Option.bind_eq_bind, Option.bind_eq_some_iff] at h
  obtain ⟨first, -, h⟩ := h
  cases first with
  | none =>
      cases h
      exact ⟨[L.elem e, head], .prev _ (.next _ (.prev _ (.next _ .refl (by simp)) (by simp))
        (by simp)) (by simp)⟩
  | some f =>
      cases h
      exact ⟨[L.elem e, L.elem f, head], .prev _ (.next _ (.prev _ (.next _ .refl (by simp))
        (by simp)) (by simp)) (by simp)⟩

theorem remove_touches (h : L.remove m head e = some m') : ∃ pairs, L.Touches pairs m m' := by
  simp only [remove, Option.bind_eq_bind, Option.bind_eq_some_iff] at h
  obtain ⟨next, -, pair, -, h⟩ := h
  cases next with
  | none =>
      cases h
      exact ⟨[head, pair], .next _ (.prev _ .refl (by simp)) (by simp)⟩
  | some n =>
      cases h
      exact ⟨[L.elem n, pair], .next _ (.prev _ .refl (by simp)) (by simp)⟩

include hL

theorem Lawful.ne_of_apart (h : Apart a b) : a ≠ b := by
  rintro rfl
  exact hL.irrefl a h

/-- Two pairs of a list whose members are apart are the same or apart. -/
theorem Lawful.eq_or_apart (h : pairs.Pairwise Apart) (ha : a ∈ pairs) (hb : b ∈ pairs) :
    a = b ∨ Apart a b := by
  by_cases hEq : a = b
  · exact .inl hEq
  · have : Std.Symm Apart := ⟨fun _ _ h => hL.symm h⟩
    exact .inr (h.forall ha hb hEq)

theorem Lawful.nodup (h : pairs.Pairwise Apart) : pairs.Nodup := h.imp hL.ne_of_apart

theorem init_queue (m : μ) (head : α) : L.Queue Apart (L.init m head) head [] where
  path := trivial
  tail := by
    simp only [lastPair, init]
    rw [hL.next_setPrev _ _ (.inl rfl), hL.next_setNext]
  last := hL.prev_setPrev _ _ _
  apart := List.pairwise_singleton _ _

omit hL in
/-- A pair whose backward link is the end of `xs` comes after the last of
them. Before the first element comes the pair that closes the queue. -/
theorem before_of_prev (hQueue : L.Queue Apart m head (xs ++ ys))
    (hPrev : L.prev m a = some (L.lastPair head xs)) : L.before m a = some xs.getLast? := by
  rcases List.eq_nil_or_concat xs with rfl | ⟨front, x, rfl⟩
  · simp only [before, hPrev, lastPair, Option.bind_eq_bind, Option.bind_some, hQueue.last,
      hQueue.tail, List.getLast?_nil]
  · have hPath := hQueue.path
    rw [List.concat_eq_append, List.append_assoc, path_append] at hPath
    obtain ⟨hNext, hBack, -⟩ := hPath.2
    rw [List.concat_eq_append, lastPair_append] at hPrev
    simp only [lastPair] at hPrev
    simp only [before, hPrev, Option.bind_eq_bind, Option.bind_some, hBack, hNext,
      List.concat_eq_append, List.getLast?_concat]

omit hL in
theorem before_head (hQueue : L.Queue Apart m head xs) : L.before m head = some xs.getLast? := by
  have hAll : L.Queue Apart m head (xs ++ []) := by rwa [List.append_nil]
  exact before_of_prev hAll hQueue.last

omit hL in
theorem before_elem (hQueue : L.Queue Apart m head (xs ++ e :: ys)) :
    L.before m (L.elem e) = some xs.getLast? :=
  before_of_prev hQueue (path_append.mp hQueue.path).2.2.1

omit hL in
theorem next_head (hQueue : L.Queue Apart m head xs) : L.next m head = some xs.head? := by
  cases xs with
  | nil => exact hQueue.tail
  | cons x xs => exact hQueue.path.1

omit hL in
theorem next_elem (hQueue : L.Queue Apart m head (xs ++ e :: ys)) :
    L.next m (L.elem e) = some ys.head? := by
  have hPath := (path_append.mp hQueue.path).2.2.2
  have hTail := hQueue.tail
  cases ys with
  | nil =>
      rw [lastPair_append] at hTail
      exact hTail
  | cons y ys => exact hPath.1

theorem insertTail_spec (hQueue : L.Queue Apart m head xs)
    (hFresh : ∀ b ∈ L.pairs head xs, Apart (L.elem e) b) :
    ∃ m', L.insertTail m head e = some m' ∧ L.Queue Apart m' head (xs ++ [e]) ∧
      L.Touches (L.elem e :: L.pairs head xs) m m' := by
  have hHead : head ∈ L.pairs head xs := List.mem_cons_self
  have hLast := lastPair_mem L head xs
  have hSame := fun {a b} => hL.eq_or_apart (a := a) (b := b) hQueue.apart
  have hPrev : L.prev (L.setNext m (L.elem e) none) head = some (L.lastPair head xs) :=
    (hL.prev_setNext m none (.inr (hFresh head hHead))).trans hQueue.last
  refine ⟨_, by simp only [insertTail, hPrev, Option.bind_eq_bind, Option.bind_some]; rfl, ?_, ?_⟩
  · constructor
    case path =>
      rw [path_append]
      refine ⟨path_congr hQueue.path ?_ ?_ (hL.nodup hQueue.apart), ?_, ?_, trivial⟩
      · intro b hb hNe
        rw [hL.next_setPrev _ _ (hSame hHead hb),
          hL.next_setNext_apart _ _ ((hSame hLast hb).resolve_left (Ne.symm hNe)),
          hL.next_setPrev _ _ (.inr (hFresh b hb)), hL.next_setNext_apart _ _ (hFresh b hb)]
      · intro x hx
        have hb := elem_mem_pairs L head hx
        have hNe : Apart head (L.elem x) :=
          List.rel_of_pairwise_cons hQueue.apart (List.mem_map_of_mem hx)
        rw [hL.prev_setPrev_apart _ _ hNe, hL.prev_setNext _ _ (hSame hLast hb),
          hL.prev_setPrev_apart _ _ (hFresh _ hb), hL.prev_setNext _ _ (.inr (hFresh _ hb))]
      · rw [hL.next_setPrev _ _ (hSame hHead hLast), hL.next_setNext]
      · rw [hL.prev_setPrev_apart _ _ (hL.symm (hFresh head hHead)),
          hL.prev_setNext _ _ (.inr (hL.symm (hFresh _ hLast))), hL.prev_setPrev]
    case tail =>
      rw [lastPair_append]
      simp only [lastPair]
      rw [hL.next_setPrev _ _ (.inr (hL.symm (hFresh head hHead))),
        hL.next_setNext_apart _ _ (hL.symm (hFresh _ hLast)), hL.next_setPrev _ _ (.inl rfl),
        hL.next_setNext]
    case last =>
      rw [hL.prev_setPrev, lastPair_append]
      rfl
    case apart =>
      have hPairs : L.pairs head (xs ++ [e]) = L.pairs head xs ++ [L.elem e] := by
        simp [Links.pairs]
      rw [hPairs, List.pairwise_append]
      refine ⟨hQueue.apart, List.pairwise_singleton _ _, fun b hb c hc => ?_⟩
      rw [List.mem_singleton.mp hc]
      exact hL.symm (hFresh b hb)
  · refine .prev _ (.next _ (.prev _ (.next _ .refl ?_) ?_) ?_) ?_
    · exact List.mem_cons_self
    · exact List.mem_cons_self
    · exact List.mem_cons_of_mem _ hLast
    · exact List.mem_cons_of_mem _ hHead

theorem insertHead_spec (hQueue : L.Queue Apart m head xs)
    (hFresh : ∀ b ∈ L.pairs head xs, Apart (L.elem e) b) :
    ∃ m', L.insertHead m head e = some m' ∧ L.Queue Apart m' head (e :: xs) ∧
      L.Touches (L.elem e :: L.pairs head xs) m m' := by
  have hHead : head ∈ L.pairs head xs := List.mem_cons_self
  have hApart : (L.pairs head (e :: xs)).Pairwise Apart := by
    refine List.pairwise_cons.mpr ⟨?_, List.pairwise_cons.mpr ⟨?_, hQueue.apart.of_cons⟩⟩
    · intro b hb
      rcases List.mem_cons.mp hb with rfl | hb
      · exact hL.symm (hFresh head hHead)
      · exact List.rel_of_pairwise_cons hQueue.apart hb
    · exact fun b hb => hFresh b (List.mem_cons_of_mem _ hb)
  have hFirst := next_head hQueue
  have hEHead := hFresh head hHead
  have hHeadE := hL.symm hEHead
  cases xs with
  | nil =>
      rw [List.head?_nil] at hFirst
      refine ⟨_, by simp only [insertHead, hFirst, Option.bind_eq_bind, Option.bind_some]; rfl,
        ⟨⟨?_, ?_, trivial⟩, ?_, ?_, hApart⟩, ?_⟩
      · rw [hL.next_setPrev _ _ (.inr hEHead), hL.next_setNext]
      · rw [hL.prev_setPrev]
      · simp only [lastPair]
        rw [hL.next_setPrev _ _ (.inl rfl), hL.next_setNext_apart _ _ hHeadE,
          hL.next_setPrev _ _ (.inr hHeadE), hL.next_setNext]
      · simp only [lastPair]
        rw [hL.prev_setPrev_apart _ _ hEHead, hL.prev_setNext _ _ (.inl rfl), hL.prev_setPrev]
      · refine .prev _ (.next _ (.prev _ (.next _ .refl ?_) ?_) ?_) ?_ <;> simp [Links.pairs]
  | cons f xs =>
      rw [List.head?_cons] at hFirst
      have hRest : ∀ b ∈ L.pairs (L.elem f) xs, Apart head b ∧ Apart (L.elem e) b := fun b hb =>
        ⟨List.rel_of_pairwise_cons hQueue.apart hb, hFresh b (List.mem_cons_of_mem _ hb)⟩
      have hF := hRest (L.elem f) List.mem_cons_self
      have hSame : ∀ b ∈ L.pairs (L.elem f) xs, L.elem f = b ∨ Apart (L.elem f) b := fun b hb =>
        hL.eq_or_apart hQueue.apart.of_cons List.mem_cons_self hb
      refine ⟨_, by simp only [insertHead, hFirst, Option.bind_eq_bind, Option.bind_some]; rfl,
        ⟨⟨?_, ?_, ?_, ?_, ?_⟩, ?_, ?_, hApart⟩, ?_⟩
      · rw [hL.next_setPrev _ _ (.inr hEHead), hL.next_setNext]
      · rw [hL.prev_setPrev]
      · rw [hL.next_setPrev _ _ (.inl rfl), hL.next_setNext_apart _ _ hHeadE,
          hL.next_setPrev _ _ (.inr (hL.symm hF.2)), hL.next_setNext]
      · rw [hL.prev_setPrev_apart _ _ hF.2, hL.prev_setNext _ _ (.inr hF.1), hL.prev_setPrev]
      · refine path_congr hQueue.path.2.2 ?_ ?_ (hL.nodup hQueue.apart.of_cons)
        · intro b hb _
          rw [hL.next_setPrev _ _ (.inr (hRest b hb).2), hL.next_setNext_apart _ _ (hRest b hb).1,
            hL.next_setPrev _ _ (hSame b hb), hL.next_setNext_apart _ _ (hRest b hb).2]
        · intro x hx
          have hb := hRest _ (elem_mem_pairs L (L.elem f) hx)
          have hFx : Apart (L.elem f) (L.elem x) :=
            List.rel_of_pairwise_cons hQueue.apart.of_cons (List.mem_map_of_mem hx)
          rw [hL.prev_setPrev_apart _ _ hb.2, hL.prev_setNext _ _ (.inr hb.1),
            hL.prev_setPrev_apart _ _ hFx, hL.prev_setNext _ _ (.inr hb.2)]
      · have hb := lastPair_mem L (L.elem f) xs
        simp only [lastPair]
        rw [hL.next_setPrev _ _ (.inr (hRest _ hb).2), hL.next_setNext_apart _ _ (hRest _ hb).1,
          hL.next_setPrev _ _ (hSame _ hb), hL.next_setNext_apart _ _ (hRest _ hb).2]
        exact hQueue.tail
      · rw [hL.prev_setPrev_apart _ _ hEHead, hL.prev_setNext _ _ (.inl rfl),
          hL.prev_setPrev_apart _ _ (hL.symm hF.1), hL.prev_setNext _ _ (.inr hEHead)]
        exact hQueue.last
      · refine .prev _ (.next _ (.prev _ (.next _ .refl ?_) ?_) ?_) ?_ <;> simp [Links.pairs]

theorem remove_spec (hQueue : L.Queue Apart m head (xs ++ e :: ys)) :
    ∃ m', L.remove m head e = some m' ∧ L.Queue Apart m' head (xs ++ ys) ∧
      L.Touches (L.pairs head (xs ++ e :: ys)) m m' := by
  obtain ⟨hFront, -, hPair, hBack⟩ := path_append.mp hQueue.path
  have hNext := next_elem hQueue
  have hAll : L.pairs head (xs ++ e :: ys) = L.pairs head xs ++ L.pairs (L.elem e) ys := by
    simp [Links.pairs]
  have hParts := hAll ▸ hQueue.apart
  rw [List.pairwise_append] at hParts
  obtain ⟨hApartFront, hApartBack, hAcross⟩ := hParts
  have hApart : (L.pairs head (xs ++ ys)).Pairwise Apart := by
    have hSub : (L.pairs head (xs ++ ys)).Sublist (L.pairs head (xs ++ e :: ys)) := by
      simp [Links.pairs]
    exact hQueue.apart.sublist hSub
  have hHead : head ∈ L.pairs head xs := List.mem_cons_self
  have hLast := lastPair_mem L head xs
  have hSame := fun {a b} => hL.eq_or_apart (a := a) (b := b) hApartFront
  cases ys with
  | nil =>
      rw [List.head?_nil] at hNext
      refine ⟨_, by simp only [remove, hNext, hPair, Option.bind_eq_bind, Option.bind_some]; rfl,
        ⟨?_, ?_, ?_, hApart⟩, ?_⟩
      · rw [List.append_nil]
        refine path_congr hFront ?_ ?_ (hL.nodup hApartFront)
        · intro b hb hNe
          rw [hL.next_setNext_apart _ _ ((hSame hLast hb).resolve_left (Ne.symm hNe)),
            hL.next_setPrev _ _ (hSame hHead hb)]
        · intro x hx
          have hb := elem_mem_pairs L head hx
          rw [hL.prev_setNext _ _ (hSame hLast hb), hL.prev_setPrev_apart _ _
            (List.rel_of_pairwise_cons hApartFront (List.mem_map_of_mem hx))]
      · rw [List.append_nil, hL.next_setNext]
      · rw [List.append_nil, hL.prev_setNext _ _ (hSame hLast hHead), hL.prev_setPrev]
      · refine .next _ (.prev _ .refl ?_) ?_
        · exact List.mem_cons_self
        · exact hAll ▸ List.mem_append_left _ hLast
  | cons y ys =>
      rw [List.head?_cons] at hNext
      have hY : L.elem y ∈ L.pairs (L.elem e) (y :: ys) := elem_mem_pairs L _ List.mem_cons_self
      have hYs : ∀ b ∈ L.pairs (L.elem y) ys, b ∈ L.pairs (L.elem e) (y :: ys) := fun b hb =>
        List.mem_cons_of_mem _ hb
      have hSameY : ∀ b ∈ L.pairs (L.elem y) ys, L.elem y = b ∨ Apart (L.elem y) b := fun b hb =>
        hL.eq_or_apart hApartBack hY (hYs b hb)
      refine ⟨_, by simp only [remove, hNext, hPair, Option.bind_eq_bind, Option.bind_some]; rfl,
        ⟨?_, ?_, ?_, hApart⟩, ?_⟩
      · rw [path_append]
        refine ⟨path_congr hFront ?_ ?_ (hL.nodup hApartFront), ?_, ?_, ?_⟩
        · intro b hb hNe
          rw [hL.next_setNext_apart _ _ ((hSame hLast hb).resolve_left (Ne.symm hNe)),
            hL.next_setPrev _ _ (.inr (hL.symm (hAcross b hb _ hY)))]
        · intro x hx
          have hb := elem_mem_pairs L head hx
          rw [hL.prev_setNext _ _ (hSame hLast hb),
            hL.prev_setPrev_apart _ _ (hL.symm (hAcross _ hb _ hY))]
        · rw [hL.next_setNext]
        · rw [hL.prev_setNext _ _ (.inr (hAcross _ hLast _ hY)), hL.prev_setPrev]
        · refine path_congr hBack.2.2 ?_ ?_ (hL.nodup hApartBack.of_cons)
          · intro b hb _
            rw [hL.next_setNext_apart _ _ (hAcross _ hLast b (hYs b hb)),
              hL.next_setPrev _ _ (hSameY b hb)]
          · intro x hx
            have hb := hYs _ (elem_mem_pairs L (L.elem y) hx)
            rw [hL.prev_setNext _ _ (.inr (hAcross _ hLast _ hb)), hL.prev_setPrev_apart _ _
              (List.rel_of_pairwise_cons hApartBack.of_cons (List.mem_map_of_mem hx))]
      · have hb := lastPair_mem L (L.elem y) ys
        have hTail := hQueue.tail
        rw [lastPair_append] at hTail ⊢
        simp only [lastPair] at hTail ⊢
        rw [hL.next_setNext_apart _ _ (hAcross _ hLast _ (hYs _ hb)),
          hL.next_setPrev _ _ (hSameY _ hb), hTail]
      · have hOld := hQueue.last
        rw [lastPair_append] at hOld ⊢
        simp only [lastPair] at hOld ⊢
        rw [hL.prev_setNext _ _ (hSame hLast hHead),
          hL.prev_setPrev_apart _ _ (hL.symm (hAcross _ hHead _ hY)), hOld]
      · refine .next _ (.prev _ .refl ?_) ?_
        · exact hAll ▸ List.mem_append_right _ hY
        · exact hAll ▸ List.mem_append_left _ hLast

end Specs

end TailQueue
