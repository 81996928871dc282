import Peak.Base.Linked

/-! `RB_FOREACH` on a tree in memory whose elements are given up while it goes
on. `RB_NEXT` never follows the left link of an element that was visited; it
only compares that link with one that was not. -/
namespace RedBlack

variable {A D : Type}

namespace Store

variable [DecidableEq A] (s : Store A D)

/-- The loop of `RB_MINMAX` towards a side. -/
def minmaxFrom (side : Side) : Nat → Option A → Option A → Option (Option A)
  | _, parent, none => some parent
  | 0, _, some _ => none
  | fuel + 1, _, some tmp => minmaxFrom side fuel (some tmp) ((s.cells tmp).child side)

/-- `RB_MIN`. -/
def min (fuel : Nat) : Option (Option A) := s.minmaxFrom .left fuel none s.root

/-- The elements below a link from left to right, of a tree no deeper than the
fuel. -/
def elements : Nat → Option A → List A
  | 0, _ => []
  | _, none => []
  | fuel + 1, some a =>
      elements fuel (s.cells a).left ++ a :: elements fuel (s.cells a).right

/-- Down along the left links. -/
def leftmost : Nat → A → Option A
  | 0, _ => none
  | fuel + 1, elm =>
      match (s.cells elm).left with
      | none => some elm
      | some a => leftmost fuel a

/-- Up as long as the element is a right child, and once more. -/
def climb : Nat → A → Option (Option A)
  | 0, _ => none
  | fuel + 1, elm =>
      match (s.cells elm).parent with
      | none => some none
      | some a => if (s.cells a).right = some elm then climb fuel a else some (some a)

/-- `RB_NEXT`, with loops of at most `fuel` rounds. -/
def next (fuel : Nat) (elm : A) : Option (Option A) :=
  match (s.cells elm).right with
  | some a => (s.leftmost fuel a).map some
  | none =>
      match (s.cells elm).parent with
      | some a => if (s.cells a).left = some elm then some (some a) else s.climb fuel elm
      | none => s.climb fuel elm

end Store

/-- What the links above an element are good for once everything in front of it
was visited: below an element that was not visited all links are there, the left
link of one that was is any but the one compared with. -/
def Ahead (cells : A → Cell A D) : List (Frame A) → A → Prop
  | [], _ => True
  | .left _ g sibling :: path, a =>
      (cells g).left = some a ∧ (cells g).right = sibling.root ∧ (cells g).parent = above path ∧
        Linked cells (some g) sibling ∧ Ahead cells path g
  | .right _ _ g :: path, a =>
      (cells g).left ≠ some a ∧ (cells g).right = some a ∧ (cells g).parent = above path ∧
        Ahead cells path g

/-- The traversal is at an element with a right subtree below it. -/
structure Stands (cells : A → Cell A D) (fuel : Nat) (path : List (Frame A)) (a : A) (b : Tree A) :
    Prop where
  right : (cells a).right = b.root
  parent : (cells a).parent = above path
  below : Linked cells (some a) b
  ahead : Ahead cells path a
  nodup : (a :: (b.toList ++ around path)).Nodup
  few : (a :: (b.toList ++ around path)).length ≤ fuel

/-- The elements still to come. -/
def toCome (path : List (Frame A)) (a : A) (b : Tree A) : List A := a :: (b.toList ++ behind path)

variable {cells cells' : A → Cell A D} {fuel rounds : Nat} {path : List (Frame A)} {a g r : A} {b t : Tree A}

theorem Ahead.congr (h : Ahead cells path a) (hSame : ∀ z ∈ around path, cells' z = cells z) :
    Ahead cells' path a := by
  induction path generalizing a with
  | nil => trivial
  | cons frame path ih =>
      simp only [(around_cons frame path).mem_iff, List.cons_append, List.mem_cons,
        List.mem_append] at hSame
      cases frame with
      | left colour g sibling =>
          obtain ⟨hLeft, hRight, hParent, hLinked, hRest⟩ := h
          rw [Ahead, hSame g (.inl rfl)]
          exact ⟨hLeft, hRight, hParent, hLinked.congr fun z hz => hSame z (.inr (.inl hz)),
            ih hRest fun z hz => hSame z (.inr (.inr hz))⟩
      | right colour sibling g =>
          obtain ⟨hLeft, hRight, hParent, hRest⟩ := h
          rw [Ahead, hSame g (.inl rfl)]
          exact ⟨hLeft, hRight, hParent, ih hRest fun z hz => hSame z (.inr (.inr hz))⟩

/-- Around a left child there is what is around its parent and more. -/
theorem perm_around_left (colour : Colour) (l b : Tree A) (x : A) (path : List (Frame A)) :
    (l.toList ++ around (.left colour x b :: path)).Perm
      ((Tree.node colour l x b).toList ++ around path) := by
  rw [Tree.toList, List.append_assoc]
  exact (around_cons (.left colour x b) path).append_left _

/-- From a left child with nothing left below it to the parent. -/
theorem stands_of_left {colour : Colour} (h : Ahead cells (.left colour g t :: path) a)
    (hNodup : (around (.left colour g t :: path)).Nodup)
    (hFew : (around (.left colour g t :: path)).length ≤ fuel) : Stands cells fuel path g t := by
  have hAround := around_cons (.left colour g t) path
  obtain ⟨_, hRight, hParent, hLinked, hRest⟩ := h
  exact ⟨hRight, hParent, hLinked, hRest, hAround.nodup_iff.mp hNodup, hAround.length_eq ▸ hFew⟩

namespace Store

variable {s : Store A D}

/-- From the root of a subtree that was not visited to its first element. -/
theorem leftmost_stands (hLinked : Linked s.cells (above path) t) (hRoot : t.root = some r)
    (hAhead : Ahead s.cells path r) (hNodup : (t.toList ++ around path).Nodup)
    (hFew : (t.toList ++ around path).length ≤ fuel) (hRounds : t.toList.length ≤ rounds) :
    ∃ path' a b, s.leftmost rounds r = some a ∧ Stands s.cells fuel path' a b ∧
      toCome path' a b = t.toList ++ behind path := by
  induction t generalizing path r rounds with
  | leaf => cases hRoot
  | node colour l x b ihLeft _ =>
      cases hRoot
      obtain ⟨hLeft, hRight, hParent, _, hLinkedLeft, hLinkedRight⟩ := hLinked
      cases rounds with
      | zero =>
          rw [Tree.toList, List.length_append, List.length_cons] at hRounds
          omega
      | succ rounds =>
          rw [Tree.toList, List.length_append] at hRounds
          rw [leftmost, hLeft]
          cases l with
          | leaf => exact ⟨path, x, b, rfl, ⟨hRight, hParent, hLinkedRight, hAhead, hNodup, hFew⟩, rfl⟩
          | node colour' l' y r' =>
              have hPerm := perm_around_left colour (.node colour' l' y r') b x path
              have hLink : Linked s.cells (above (.left colour x b :: path)) (.node colour' l' y r') :=
                hLinkedLeft
              rw [List.length_cons] at hRounds
              obtain ⟨path', a, b', hRun, hStands, hToCome⟩ := ihLeft hLink rfl
                ⟨hLeft, hRight, hParent, hLinkedRight, hAhead⟩ (hPerm.nodup_iff.mpr hNodup)
                (hPerm.length_eq ▸ hFew) (show _ ≤ rounds by omega)
              refine ⟨path', a, b', hRun, hStands, hToCome.trans ?_⟩
              simp only [behind, Frame.behind, Tree.toList, List.append_assoc, List.cons_append]

theorem elements_linked {p : Option A} (h : Linked s.cells p t) (hFew : t.toList.length ≤ fuel) :
    s.elements fuel t.root = t.toList := by
  induction t generalizing p fuel with
  | leaf => cases fuel <;> rfl
  | node colour l x r ihLeft ihRight =>
      obtain ⟨hLeft, hRight, _, _, hLinkedLeft, hLinkedRight⟩ := h
      rw [Tree.toList, List.length_append, List.length_cons] at hFew
      obtain ⟨fuel, rfl⟩ : ∃ m, fuel = m + 1 := ⟨fuel - 1, by omega⟩
      rw [Tree.root, elements, hLeft, hRight, ihLeft hLinkedLeft (by omega),
        ihRight hLinkedRight (by omega), Tree.toList]

theorem minmaxFrom_leftmost {elm : A} (h : s.leftmost rounds r = some elm) (parent : Option A) :
    s.minmaxFrom .left rounds parent (some r) = some (some elm) := by
  induction rounds generalizing r parent with
  | zero => cases h
  | succ rounds ih =>
      rw [leftmost] at h
      show s.minmaxFrom .left rounds (some r) (s.cells r).left = _
      cases hLeft : (s.cells r).left with
      | none =>
          rw [hLeft] at h
          cases h
          cases rounds <;> rfl
      | some a =>
          rw [hLeft] at h
          exact ih h _

/-- `RB_MIN` is where the traversal of a tree starts. -/
theorem min_stands (h : s.Holds t) (hFew : t.toList.length ≤ fuel) :
    (s.min fuel = some none ∧ t = .leaf) ∨
      ∃ path a b, s.min fuel = some (some a) ∧ Stands s.cells fuel path a b ∧ toCome path a b = t.toList := by
  rw [min, h.root]
  cases t with
  | leaf => exact .inl ⟨by cases fuel <;> rfl, rfl⟩
  | node colour l x r =>
      have hLinked : Linked s.cells (above []) (.node colour l x r) := h.linked
      have hList : (Tree.node colour l x r).toList ++ around [] = (Tree.node colour l x r).toList :=
        List.append_nil _
      have hNodup := h.nodup
      have hAll := hFew
      rw [← hList] at hNodup hAll
      obtain ⟨path, a, b, hRun, hStands, hToCome⟩ := leftmost_stands hLinked rfl trivial hNodup hAll hFew
      exact .inr ⟨path, a, b, minmaxFrom_leftmost hRun none, hStands, hToCome.trans hList⟩

variable [DecidableEq A]

/-- Up to the next element that was not visited, if there is one. -/
theorem climb_stands (hParent : (s.cells a).parent = above path) (hAhead : Ahead s.cells path a)
    (hNodup : (a :: around path).Nodup) (hFew : (around path).length ≤ fuel)
    (hRounds : path.length < rounds) :
    (s.climb rounds a = some none ∧ behind path = []) ∨
      ∃ path' g b, s.climb rounds a = some (some g) ∧ Stands s.cells fuel path' g b ∧
        toCome path' g b = behind path := by
  induction path generalizing a rounds with
  | nil =>
      cases rounds with
      | zero => exact absurd hRounds (Nat.not_lt_zero _)
      | succ rounds =>
          rw [climb, hParent]
          exact .inl ⟨rfl, rfl⟩
  | cons frame path ih =>
      have hAround := around_cons frame path
      cases rounds with
      | zero => exact absurd hRounds (Nat.not_lt_zero _)
      | succ rounds =>
          rw [List.length_cons] at hRounds
          obtain ⟨hNew, hNodup⟩ := List.nodup_cons.mp hNodup
          rw [climb, hParent, above_cons]
          dsimp only
          cases frame with
          | left colour g sibling =>
              -- the other child of the parent is not where we come from
              have hOther : (s.cells g).right ≠ some a := by
                rw [hAhead.2.1]
                intro hSame
                have hMem : a ∈ sibling.toList := Tree.root_mem hSame
                exact hNew (hAround.mem_iff.mpr (List.mem_append_left _ (List.mem_cons_of_mem _ hMem)))
              rw [Frame.data, if_neg hOther]
              exact .inr ⟨path, g, sibling, rfl, stands_of_left hAhead hNodup hFew, rfl⟩
          | right colour sibling g =>
              obtain ⟨_, hRight, hUp, hRest⟩ := hAhead
              have hSub : (g :: around path).Sublist (g :: sibling.toList ++ around path) :=
                (List.sublist_append_right ..).cons_cons g
              have hLength := hAround.length_eq ▸ hFew
              rw [Frame.data, if_pos hRight]
              exact ih hUp hRest ((hAround.nodup_iff.mp hNodup).sublist hSub)
                (Nat.le_trans ((List.sublist_cons_self ..).trans hSub).length_le hLength) (by omega)

theorem next_of_left (hRight : (s.cells a).right = none) (hParent : (s.cells a).parent = some g)
    (hLeft : (s.cells g).left = some a) : s.next fuel a = some (some g) := by
  rw [next, hRight, hParent]
  exact if_pos hLeft

/-- The comparison with the left link of the parent fails. -/
theorem next_of_not_left (hRight : (s.cells a).right = none)
    (hOther : ∀ g, (s.cells a).parent = some g → (s.cells g).left ≠ some a) :
    s.next fuel a = s.climb fuel a := by
  rw [next, hRight]
  cases hParent : (s.cells a).parent with
  | none => rfl
  | some g => exact if_neg (hOther g hParent)

/-- `RB_NEXT` from an element whose left link may have been written over. -/
theorem next_stands (h : Stands s.cells fuel path a b)
    (hLink : ∀ r, b.root = some r → (s.cells a).left ≠ some r) :
    (s.next fuel a = some none ∧ b.toList ++ behind path = []) ∨
      ∃ path' a' b', s.next fuel a = some (some a') ∧ Stands s.cells fuel path' a' b' ∧
        toCome path' a' b' = b.toList ++ behind path := by
  obtain ⟨hRight, hParent, hBelow, hAhead, hNodup, hFew⟩ := h
  cases b with
  | leaf =>
      rw [Tree.toList, List.nil_append] at hNodup hFew ⊢
      rw [List.length_cons] at hFew
      have hClimb := climb_stands hParent hAhead hNodup (Nat.le_of_succ_le hFew)
        (Nat.lt_of_le_of_lt (length_le_around path) hFew)
      cases path with
      | nil =>
          rw [next_of_not_left hRight fun g hUp => nomatch hParent.symm.trans hUp]
          exact hClimb
      | cons frame path =>
          cases frame with
          | left colour g sibling =>
              refine .inr ⟨path, g, sibling, next_of_left hRight hParent hAhead.1, ?_, rfl⟩
              exact stands_of_left hAhead (List.nodup_cons.mp hNodup).2 (Nat.le_of_succ_le hFew)
          | right colour sibling g =>
              rw [next_of_not_left hRight fun g' hUp =>
                Option.some.inj (hParent.symm.trans hUp) ▸ hAhead.1]
              exact hClimb
  | node colour l x r =>
      -- what is on the left was visited and does not matter any more
      have hPerm := ((around_cons (.right .black .leaf a) path).append_left
        (Tree.node colour l x r).toList).trans List.perm_middle
      have hLinked : Linked s.cells (above (.right .black .leaf a :: path)) (.node colour l x r) := hBelow
      have hRounds : (Tree.node colour l x r).toList.length ≤ fuel := by
        rw [List.length_cons, List.length_append] at hFew
        omega
      obtain ⟨path', a', b', hRun, hStands, hToCome⟩ := leftmost_stands hLinked rfl
        ⟨hLink x rfl, hRight, hParent, hAhead⟩ (hPerm.nodup_iff.mpr hNodup) (hPerm.length_eq ▸ hFew)
        hRounds
      refine .inr ⟨path', a', b', ?_, hStands, hToCome.trans ?_⟩
      · rw [next, hRight]
        exact congrArg (Option.map some) hRun
      · rfl

end Store

/-- To overwrite the left link of the element does not change where it stands. -/
theorem Stands.overwrite [DecidableEq A] {s : Store A D} (h : Stands s.cells fuel path a b) (link : Option A) :
    Stands (s.setChild .left a link).cells fuel path a b := by
  obtain ⟨hBelow, hAround⟩ := not_or.mp fun hMem =>
    (List.nodup_cons.mp h.nodup).1 (List.mem_append.mpr hMem)
  have hSame : ∀ ys : List A, a ∉ ys → ∀ z ∈ ys, (s.setChild .left a link).cells z = s.cells z :=
    fun ys ha z hz => Store.cells_setChild_of_ne fun hSame : z = a => ha (hSame ▸ hz)
  have hCell : (s.setChild .left a link).cells a = { s.cells a with left := link } :=
    Store.cells_modify_same _
  constructor
  · rw [hCell]
    exact h.right
  · rw [hCell]
    exact h.parent
  · exact h.below.congr (hSame _ hBelow)
  · exact h.ahead.congr (hSame _ hAround)
  · exact h.nodup
  · exact h.few

end RedBlack
