import Peak.Base.Balance
import Peak.Base.Traversal

/-! `RB_REMOVE` and `RB_FIND` on a tree in memory, and what `RB_REMOVE_COLOR` does
to a tree that one black node was taken from: it stays in order, gets balanced
again, and no link that is followed is missing. -/
namespace RedBlack

variable {A D : Type}

namespace Store

variable [DecidableEq A] (s : Store A D)

/-- The test of `RB_REMOVE_COLOR` for a child: it is missing or black. -/
def isBlack (r : Option A) : Bool :=
  match r with
  | none => true
  | some a => (s.cells a).colour == .black

/-- A colour for a child that may be missing. -/
def setColourOf (r : Option A) (k : Colour) : Store A D :=
  match r with
  | none => s
  | some a => s.setColour a k

/-- `child` takes the place of `elm` below its parent. -/
def relink (parent : Option A) (elm : A) (child : Option A) : Store A D :=
  match parent with
  | none => { s with root := child }
  | some a =>
      if (s.cells a).left = some elm then s.setChild .left a child else s.setChild .right a child

/-- A red sibling `tmp` is turned above the parent, and its near child is the
sibling from then on. -/
def turnSibling (side : Side) (parent tmp : A) : Option (Store A D × A) :=
  if (s.cells tmp).colour = .red then do
    let s ← (s.setBlackRed tmp parent).rotate side parent
    let tmp ← (s.cells parent).child side.other
    return (s, tmp)
  else some (s, tmp)

/-- The far child of the sibling is black, and its red near child is turned
above it. -/
def turnNear (side : Side) (parent tmp : A) : Option (Store A D × A) :=
  if s.isBlack ((s.cells tmp).child side.other) then do
    let s := (s.setColourOf ((s.cells tmp).child side) .black).setColour tmp .red
    let s ← s.rotate side.other tmp
    let tmp ← (s.cells parent).child side.other
    return (s, tmp)
  else some (s, tmp)

/-- The sibling is turned above the parent and gets its colour. -/
def takeOver (side : Side) (parent tmp : A) : Option (Store A D) :=
  let s := (s.setColour tmp (s.cells parent).colour).setColour parent .black
  (s.setColourOf ((s.cells tmp).child side.other) .black).rotate side parent

/-- What a round does next to a black sibling. The tree is done, or the parent is
where the next round goes on. -/
def lend (side : Side) (parent tmp : A) : Option (Store A D × Bool) :=
  if s.isBlack ((s.cells tmp).child side) && s.isBlack ((s.cells tmp).child side.other) then
    some (s.setColour tmp .red, false)
  else do
    let (s, tmp) ← s.turnNear side parent tmp
    let s ← s.takeOver side parent tmp
    return (s, true)

/-- `RB_REMOVE_COLOR` in at most `fuel` rounds. -/
def removeColor : Nat → Store A D → Option A → Option A → Option (Store A D)
  | 0, _, _, _ => none
  | fuel + 1, s, parent, elm =>
      if s.isBlack elm ∧ elm ≠ s.root then do
        let parent ← parent
        let side := if (s.cells parent).left = elm then Side.left else Side.right
        let tmp ← (s.cells parent).child side.other
        let (s, tmp) ← s.turnSibling side parent tmp
        let (s, done) ← s.lend side parent tmp
        if done then return s.setColourOf s.root .black
        else removeColor fuel s (s.cells parent).parent (some parent)
      else some (s.setColourOf elm .black)

/-- `elm` has at most one child, which takes its place. -/
def unlink (elm : A) (child : Option A) : Store A D :=
  (s.setParentOf child (s.cells elm).parent).relink (s.cells elm).parent elm child

/-- `elm` gets the links and the colour of `old`. -/
def inherit (old elm : A) : Store A D := s.modify elm fun c => { s.cells old with data := c.data }

/-- Then it takes the place of `old` in the tree. -/
def substitute (old elm : A) : Option (Store A D) := do
  let s := s.inherit old elm
  let s := s.replaceChild (s.cells old).parent old elm
  let left ← (s.cells old).left
  let s := s.setParent left (some elm)
  return s.setParentOf (s.cells old).right (some elm)

/-- `RB_REMOVE`, with loops of at most `fuel` rounds. -/
def remove (fuel : Nat) (old : A) : Option (Store A D) :=
  match (s.cells old).left, (s.cells old).right with
  | none, child | child, none =>
      let parent := (s.cells old).parent
      let color := (s.cells old).colour
      let s := s.unlink old child
      if color = .black then removeColor fuel s parent child else some s
  | some _, some right => do
      let elm ← s.leftmost fuel right
      let child := (s.cells elm).right
      let parent := if (s.cells elm).parent = some old then some elm else (s.cells elm).parent
      let color := (s.cells elm).colour
      let s ← (s.unlink elm child).substitute old elm
      if color = .black then removeColor fuel s parent child else some s

/-- The loop of `RB_FIND`. -/
def findFrom (cmp : D → D → Ordering) (key : D) : Nat → Option A → Option (Option A)
  | _, none => some none
  | 0, some _ => none
  | fuel + 1, some tmp =>
      match cmp key (s.cells tmp).data with
      | .lt => findFrom cmp key fuel (s.cells tmp).left
      | .gt => findFrom cmp key fuel (s.cells tmp).right
      | .eq => some (some tmp)

/-- `RB_FIND`. -/
def find (cmp : D → D → Ordering) (fuel : Nat) (key : D) : Option (Option A) :=
  s.findFrom cmp key fuel s.root

end Store

variable {a b p x y elm : A} {k c : Colour} {l r near far t : Tree A} {path path' : List (Frame A)}
variable {side i : Side} {n fuel : Nat}

theorem plug_append (path path' : List (Frame A)) (t : Tree A) :
    plug (path ++ path') t = plug path' (plug path t) := by
  induction path generalizing t with
  | nil => rfl
  | cons f path ih => exact ih (f.plug t)

theorem before_append (path path' : List (Frame A)) :
    before (path ++ path') = before path' ++ before path := by
  induction path with
  | nil => exact (List.append_nil _).symm
  | cons f path ih => rw [List.cons_append, before, ih, before, List.append_assoc]

theorem behind_append (path path' : List (Frame A)) :
    behind (path ++ path') = behind path ++ behind path' := by
  induction path with
  | nil => rfl
  | cons f path ih => rw [List.cons_append, behind, ih, behind, List.append_assoc]

/-- The far child of a node, from the path above it. -/
theorem plug_of_other (side : Side) (colour : Colour) (a : A) (near t : Tree A) :
    plug (.of side.other colour a near :: path) t = plug path (.branch side colour near a t) := by
  rw [plug_of, Tree.branch_other]

/-- The root above a place stays black whatever is put there. -/
theorem isRed_plug (hRoot : RootBlack path) (hNonempty : path ≠ []) : (plug path t).isRed = false := by
  induction path generalizing t with
  | nil => exact absurd rfl hNonempty
  | cons f path ih =>
      cases path with
      | nil =>
          have hBlack : f.colour = .black := hRoot
          rw [plug, plug, Frame.plug_eq, Tree.isRed_branch, hBlack]
          rfl
      | cons f' path => exact ih hRoot (List.cons_ne_nil f' path)

theorem Tree.Balanced.exists_black (h : t.Balanced (n + 1)) (hBlack : t.isRed = false) (side : Side) :
    ∃ near a far, t = .branch side .black near a far ∧ near.Balanced n ∧ far.Balanced n := by
  cases h with
  | red a hLeft hRight _ _ => cases hBlack
  | black a hLeft hRight =>
      cases side with
      | left => exact ⟨_, a, _, rfl, hLeft, hRight⟩
      | right => exact ⟨_, a, _, rfl, hRight, hLeft⟩

theorem Tree.Balanced.exists_red (h : t.Balanced n) (hRed : t.isRed) (side : Side) :
    ∃ near a far, t = .branch side .red near a far ∧ near.isRed = false ∧ far.isRed = false ∧
      near.Balanced n ∧ far.Balanced n := by
  cases h with
  | leaf => cases hRed
  | black a _ _ => cases hRed
  | red a hLeft hRight hLeftBalanced hRightBalanced =>
      cases side with
      | left => exact ⟨_, a, _, rfl, hLeft, hRight, hLeftBalanced, hRightBalanced⟩
      | right => exact ⟨_, a, _, rfl, hRight, hLeft, hRightBalanced, hLeftBalanced⟩

/-- A subtree in a place for one more black node: it is red and may become
black, or it is balanced and one black node short. -/
def Lacks (n : Nat) (t : Tree A) : Prop :=
  match t.isRed with
  | true => t.blacken.Balanced (n + 1)
  | false => t.Balanced n

theorem lacks_of_red (hRed : t.isRed) : Lacks n t ↔ t.blacken.Balanced (n + 1) := by
  rw [Lacks, hRed]

theorem lacks_of_not_red (hBlack : t.isRed = false) : Lacks n t ↔ t.Balanced n := by
  rw [Lacks, hBlack]

theorem Frame.of_side (f : Frame A) : f = .of f.side f.colour f.data f.sibling := by
  cases f with
  | left colour a sibling => rfl
  | right colour sibling a => rfl

@[simp] theorem Frame.sibling_of (side : Side) (colour : Colour) (a : A) (sibling : Tree A) :
    (Frame.of side colour a sibling).sibling = sibling := by
  cases side with
  | left => rfl
  | right => rfl

@[simp] theorem Frame.data_of (side : Side) (colour : Colour) (a : A) (sibling : Tree A) :
    (Frame.of side colour a sibling).data = a := by
  cases side with
  | left => rfl
  | right => rfl

theorem fits_of : Fits n (.of side k p far :: path) ↔
    far.Balanced n ∧
      match k with
      | .red => far.isRed = false ∧ TakesRed path ∧ Fits n path
      | .black => Fits (n + 1) path := by
  cases side <;> cases k <;> exact Iff.rfl

namespace Store

variable {s s' : Store A D} {q u : Option A}

theorem isBlack_root (h : Linked s.cells q t) : s.isBlack t.root = !t.isRed := by
  cases t with
  | leaf => rfl
  | node colour l a r =>
      rw [Tree.root, isBlack, h.2.2.2.1]
      cases colour <;> rfl

/-- What hangs at a place. -/
theorem Holds.linked_at (h : s.Holds (plug path t)) : Linked s.cells (above path) t :=
  (linked_plug.mp h.linked).2

/-- The root of the tree is not what is at a place below it. -/
theorem Holds.root_ne_of_below (h : s.Holds (plug path (.branch side k t p far))) : t.root ≠ s.root := by
  intro hSame
  rw [h.root, ← plug_of] at hSame
  have hRoot := root_plug (List.cons_ne_nil (Frame.of side k p far) path) t .leaf
  cases hTop : (plug (.of side k p far :: path) t).root with
  | none =>
      rw [plug_of] at hTop
      have hMem : p ∈ (plug path (.branch side k t p far)).toList :=
        mem_plug.mpr (.inl (Tree.mem_branch.mpr (.inl rfl)))
      cases hTree : plug path (.branch side k t p far) with
      | leaf =>
          rw [hTree] at hMem
          exact absurd hMem List.not_mem_nil
      | node colour l a r =>
          rw [hTree] at hTop
          cases hTop
  | some z =>
      have hAround : z ∈ around (.of side k p far :: path) := by
        rcases mem_plug.mp (Tree.root_mem (hRoot.symm.trans hTop)) with hLeaf | hAround
        · exact absurd hLeaf List.not_mem_nil
        · exact hAround
      rw [← plug_of] at h
      exact (nodup_plug.mp h.nodup).2.2 (Tree.root_mem (hSame.trans hTop)) hAround

theorem Reshapes.refl (h : s.Holds t) : s.Reshapes t s t := ⟨h, Keeps.refl s _, rfl⟩

variable [DecidableEq A]

/-- A subtree becomes black, if there is one. -/
theorem Holds.blacken (h : s.Holds (plug path t)) :
    s.Reshapes (plug path t) (s.setColourOf t.root .black) (plug path t.blacken) := by
  cases t with
  | leaf => exact .refl h
  | node colour l a r =>
      have hNode : s.Holds (plug path (.branch .left colour l a r)) := h
      exact hNode.setColour .black

/-- The sibling goes up with the colour of the parent, which goes down black. -/
theorem takeOver_holds (h : s.Holds (plug path (.branch side k t p (.branch side c near a far)))) :
    ∃ s', s.takeOver side p a = some s' ∧
      s.Reshapes (plug path (.branch side k t p (.branch side c near a far))) s'
        (plug path (.branch side k (.branch side .black t p near) a far.blacken)) := by
  have hSibling := h.setColour_far k
  have hParent := hSibling.trans (hSibling.holds.setColour .black)
  have hFar := hParent.holds
  rw [← plug_of_other, ← plug_of_other] at hFar
  have hNephew := hFar.blacken
  simp only [plug_of_other] at hNephew
  have hAll := hParent.trans hNephew
  obtain ⟨s', hRun, hTurn⟩ := hAll.holds.rotate
  have hChild := hParent.holds.cell_far.2.1
  refine ⟨s', ?_, hAll.trans hTurn⟩
  rw [takeOver, h.cell.2.2.2, hChild]
  exact hRun

/-- Both children of the sibling are black. -/
theorem lend_both (h : s.Holds (plug path (.branch side k t p (.branch side .black near a far))))
    (hNear : near.isRed = false) (hFar : far.isRed = false) :
    s.lend side p a = some (s.setColour a .red, false) ∧
      s.Reshapes (plug path (.branch side k t p (.branch side .black near a far))) (s.setColour a .red)
        (plug path (.branch side k t p (.branch side .red near a far))) := by
  obtain ⟨hNearLink, hFarLink, _⟩ := h.cell_far
  have hLinked := h
  rw [← plug_of_other] at hLinked
  obtain ⟨_, _, _, _, hLinkedNear, hLinkedFar⟩ := linked_branch.mp hLinked.linked_at
  refine ⟨?_, h.setColour_far .red⟩
  rw [lend, hNearLink, hFarLink, isBlack_root hLinkedNear, isBlack_root hLinkedFar, hNear, hFar]
  rfl

/-- The far child of the sibling is red. -/
theorem lend_far (h : s.Holds (plug path (.branch side k t p (.branch side .black near a far))))
    (hFar : far.isRed) :
    ∃ s', s.lend side p a = some (s', true) ∧
      s.Reshapes (plug path (.branch side k t p (.branch side .black near a far))) s'
        (plug path (.branch side k (.branch side .black t p near) a far.blacken)) := by
  have hFarLink := h.cell_far.2.1
  have hLinked := h
  rw [← plug_of_other] at hLinked
  obtain ⟨_, _, _, _, _, hLinkedFar⟩ := linked_branch.mp hLinked.linked_at
  have hRed : s.isBlack ((s.cells a).child side.other) = false := by
    rw [hFarLink, isBlack_root hLinkedFar, hFar]
    rfl
  obtain ⟨s', hRun, hShape⟩ := takeOver_holds h
  refine ⟨s', ?_, hShape⟩
  rw [lend, turnNear, hRed, Bool.and_false]
  simp only [Bool.false_eq_true, if_false, Option.bind_eq_bind, Option.bind_some, hRun]
  rfl

/-- The near child of the sibling is red and the far one is not. -/
theorem lend_near
    (h : s.Holds (plug path (.branch side k t p (.branch side .black (.branch side .red near x l) a far))))
    (hFar : far.isRed = false) :
    ∃ s', s.lend side p a = some (s', true) ∧
      s.Reshapes (plug path (.branch side k t p (.branch side .black (.branch side .red near x l) a far))) s'
        (plug path (.branch side k (.branch side .black t p near) x (.branch side .black l a far))) := by
  have hBelow := h
  rw [← plug_of_other] at hBelow
  obtain ⟨hNearLink, hFarLink, _⟩ := hBelow.cell
  obtain ⟨_, _, _, _, hLinkedNear, hLinkedFar⟩ := linked_branch.mp hBelow.linked_at
  have hNearRed : s.isBlack ((s.cells a).child side) = false := by
    rw [hNearLink, isBlack_root hLinkedNear, Tree.isRed_branch]
    rfl
  have hFarBlack : s.isBlack ((s.cells a).child side.other) = true := by
    rw [hFarLink, isBlack_root hLinkedFar, hFar]
    rfl
  have hNephew := hBelow.setColour_near .black
  have hSibling := hNephew.trans (hNephew.holds.setColour .red)
  obtain ⟨s₁, hFirst, hTurn⟩ := hSibling.holds.rotate_near
  have hTurned := hSibling.trans hTurn
  simp only [plug_of_other] at hTurned
  obtain ⟨s', hSecond, hOver⟩ := takeOver_holds hTurned.holds
  have hLink := hTurned.holds.cell.2.1
  have hBlacken : (Tree.branch side .red l a far).blacken = .branch side .black l a far := by
    cases side <;> rfl
  rw [Tree.root_branch] at hLink hNearLink
  rw [hBlacken] at hOver
  refine ⟨s', ?_, hTurned.trans hOver⟩
  rw [lend, turnNear, hNearRed, hFarBlack, hNearLink, setColourOf]
  simp only [Bool.false_and, Bool.false_eq_true, if_false, if_true, Option.bind_eq_bind, hFirst,
    Option.bind_some, hLink, Option.pure_def, hSecond]

/-- The end of `RB_REMOVE_COLOR`: the node is red, or it is the root. -/
theorem removeColor_last (h : s.Holds (plug path t)) (hRoot : RootBlack path) (hPath : Fits (n + 1) path)
    (hTree : Lacks n t) (hLast : t.isRed ∨ path = []) :
    ∃ s' t', removeColor (fuel + 1) s (above path) t.root = some s' ∧ s.Reshapes (plug path t) s' t' ∧
      t'.isRed = false ∧ ∃ m, t'.Balanced m := by
  refine ⟨_, plug path t.blacken, if_neg ?_, h.blacken, ?_⟩
  · rintro ⟨hBlack, hNotRoot⟩
    rw [isBlack_root h.linked_at] at hBlack
    rcases hLast with hRed | rfl
    · rw [hRed] at hBlack
      cases hBlack
    · exact hNotRoot h.root.symm
  · cases path with
    | nil =>
        refine ⟨Tree.isRed_blacken t, ?_⟩
        cases hRed : t.isRed with
        | true => exact ⟨n + 1, (lacks_of_red hRed).mp hTree⟩
        | false =>
            have hSame : plug [] t.blacken = t := Tree.blacken_of_not_red hRed
            exact ⟨n, hSame.symm ▸ (lacks_of_not_red hRed).mp hTree⟩
    | cons f path =>
        have hRed : t.isRed := hLast.resolve_right (List.cons_ne_nil f path)
        refine ⟨isRed_plug hRoot (List.cons_ne_nil f path), ?_⟩
        apply exists_balanced_plug ((lacks_of_red hRed).mp hTree) hPath
        rw [Tree.isRed_blacken]
        exact fun hFalse => absurd hFalse Bool.false_ne_true

/-- What a round comes to: the tree is balanced, or the parent's place is the one
that is short. -/
inductive Lends (s : Store A D) (path : List (Frame A)) (k : Colour) (p : A) (t : Tree A) : Bool → Prop where
  | done (hAll : ∃ m, (plug path t).Balanced m) : Lends s path k p t true
  | short (n : Nat) (hNode : t.root = some p) (hParent : (s.cells p).parent = above path)
      (hTree : Lacks n t) (hPath : Fits (n + 1) path) (hColour : t.isRed = (k == .red)) :
      Lends s path k p t false

/-- A place that is short of a black node next to a black sibling. -/
theorem lend_holds (h : s.Holds (plug path (.branch side k t p (.branch side .black near a far))))
    (hPath : Fits (n + 1) (.of side k p (.branch side .black near a far) :: path)) (hTree : t.Balanced n) :
    ∃ s' done t', s.lend side p a = some (s', done) ∧
      s.Reshapes (plug path (.branch side k t p (.branch side .black near a far))) s' (plug path t') ∧
      Lends s' path k p t' done := by
  obtain ⟨hSibling, hRest⟩ := fits_of.mp hPath
  obtain ⟨_, hSame, hNear, hFar⟩ := Tree.balanced_black.mp hSibling
  cases hSame
  have hDone : ∀ (l r : Tree A) (b : A), l.Balanced (n + 1) → r.Balanced (n + 1) → l.isRed = false →
      r.isRed = false → ∃ m, (plug path (.branch side k l b r)).Balanced m := by
    intro l r b hl hr hLeft hRight
    cases k with
    | red =>
        obtain ⟨_, hTop, hFits⟩ := hRest
        exact exists_balanced_plug (Tree.balanced_red.mpr ⟨hLeft, hRight, hl, hr⟩) hFits fun _ => hTop
    | black =>
        apply exists_balanced_plug (hl.branch_black hr) hRest
        rw [Tree.isRed_branch]
        exact fun hFalse => absurd hFalse (by decide)
  cases hFarRed : far.isRed with
  | true =>
      obtain ⟨s', hRun, hShape⟩ := lend_far h hFarRed
      exact ⟨s', true, _, hRun, hShape, .done (hDone _ _ _ (hTree.branch_black hNear)
        (hFar.blacken_red hFarRed) Tree.isRed_branch (Tree.isRed_blacken far))⟩
  | false =>
      cases hNearRed : near.isRed with
      | true =>
          obtain ⟨l, x, r, rfl, _, _, hl, hr⟩ := hNear.exists_red hNearRed side
          obtain ⟨s', hRun, hShape⟩ := lend_near h hFarRed
          exact ⟨s', true, _, hRun, hShape, .done (hDone _ _ _ (hTree.branch_black hl)
            (hr.branch_black hFar) Tree.isRed_branch Tree.isRed_branch)⟩
      | false =>
          obtain ⟨hRun, hShape⟩ := lend_both h hNearRed hFarRed
          have hRed : (Tree.branch side .red near a far).Balanced n :=
            Tree.balanced_red.mpr ⟨hNearRed, hFarRed, hNear, hFar⟩
          have hParent := hShape.holds.cell.2.2.1
          refine ⟨_, false, _, hRun, hShape, ?_⟩
          cases k with
          | red =>
              refine .short n (Tree.root_branch ..) hParent ?_ hRest.2.2 Tree.isRed_branch
              rw [lacks_of_red Tree.isRed_branch]
              have hBlacken : (Tree.branch side .red t p (.branch side .red near a far)).blacken =
                  .branch side .black t p (.branch side .red near a far) := by
                cases side <;> rfl
              rw [hBlacken]
              exact hTree.branch_black hRed
          | black =>
              refine .short (n + 1) (Tree.root_branch ..) hParent ?_ hRest Tree.isRed_branch
              rw [lacks_of_not_red Tree.isRed_branch]
              exact hTree.branch_black hRed

/-- What a round leaves to do. -/
def proceed (fuel : Nat) (parent : A) : Store A D × Bool → Option (Store A D)
  | (s, true) => some (s.setColourOf s.root .black)
  | (s, false) => removeColor fuel s (s.cells parent).parent (some parent)

theorem removeColor_round (h : s.Holds (plug path (.branch side k t p far))) (hBlack : t.isRed = false)
    (hFar : far.root = some a) :
    removeColor (fuel + 1) s (some p) t.root =
      (s.turnSibling side p a).bind fun (s, tmp) => (s.lend side p tmp).bind (proceed fuel p) := by
  obtain ⟨hNear, hSibling, _⟩ := h.cell
  have hLinked : Linked s.cells (some p) t := (linked_branch.mp h.linked_at).2.2.2.2.1
  have hSide : (if (s.cells p).left = t.root then Side.left else Side.right) = side := by
    cases side with
    | left => exact if_pos hNear
    | right =>
        apply if_neg
        intro hSame
        have hOther : (s.cells p).left = some a := hSibling.trans hFar
        exact h.root_ne (hSame.symm.trans hOther) hFar
  have hTest : s.isBlack t.root ∧ t.root ≠ s.root := by
    refine ⟨?_, h.root_ne_of_below⟩
    rw [isBlack_root hLinked, hBlack]
    rfl
  rw [removeColor, if_pos hTest]
  simp only [Option.bind_eq_bind, Option.bind_some, hSide, hSibling, hFar]
  refine congrArg _ (funext fun (s₁, tmp) => congrArg _ (funext fun (s₂, done) => ?_))
  cases done <;> rfl

theorem proceed_holds {done : Bool} (hLends : Lends s path k p t done) (h : s.Holds (plug path t))
    (hNext : ∀ n, Lacks n t → Fits (n + 1) path → t.isRed = (k == .red) →
      ∃ s' t', removeColor fuel s (above path) t.root = some s' ∧ s.Reshapes (plug path t) s' t' ∧
        t'.isRed = false ∧ ∃ m, t'.Balanced m) :
    ∃ s' t', proceed fuel p (s, done) = some s' ∧ s.Reshapes (plug path t) s' t' ∧
      t'.isRed = false ∧ ∃ m, t'.Balanced m := by
  cases hLends with
  | done hAll =>
      have hTop : s.Holds (plug [] (plug path t)) := h
      refine ⟨_, _, rfl, ?_, Tree.isRed_blacken (plug path t), exists_balanced_blacken hAll⟩
      rw [h.root]
      exact hTop.blacken
  | short n hNode hParent hTree hPath hColour =>
      rw [proceed, hParent, ← hNode]
      exact hNext n hTree hPath hColour

/-- A red sibling is turned away. -/
theorem turnSibling_red (h : s.Holds (plug path (.branch side .black t p (.branch side .red near a far)))) :
    ∃ s', s.turnSibling side p a = (near.root.map fun b => (s', b)) ∧
      s.Reshapes (plug path (.branch side .black t p (.branch side .red near a far))) s'
        (plug path (.branch side .black (.branch side .red t p near) a far)) := by
  have hSibling := h.setColour_far .black
  have hParent := hSibling.trans (hSibling.holds.setColour .red)
  obtain ⟨s', hRun, hTurn⟩ := hParent.holds.rotate
  have hAll := hParent.trans hTurn
  refine ⟨s', ?_, hAll⟩
  rw [turnSibling, if_pos h.cell_far.2.2.2, setBlackRed, hRun]
  simp only [Option.bind_eq_bind, Option.bind_some, hAll.holds.cell_near.2.1]
  cases near <;> rfl

theorem turnSibling_black (h : s.Holds (plug path (.branch side k t p (.branch side .black near a far)))) :
    s.turnSibling side p a = some (s, a) := by
  apply if_neg
  rw [h.cell_far.2.2.2]
  decide

/-- `RB_REMOVE_COLOR` gives a balanced tree with the same elements. -/
theorem removeColor_holds (h : s.Holds (plug path t)) (hRoot : RootBlack path) (hPath : Fits (n + 1) path)
    (hTree : Lacks n t) (hFuel : path.length < fuel) :
    ∃ s' t', removeColor fuel s (above path) t.root = some s' ∧ s.Reshapes (plug path t) s' t' ∧
      t'.isRed = false ∧ ∃ m, t'.Balanced m := by
  induction fuel generalizing s path t n with
  | zero => exact absurd hFuel (Nat.not_lt_zero _)
  | succ fuel ih =>
      cases hRed : t.isRed with
      | true => exact removeColor_last h hRoot hPath hTree (.inl hRed)
      | false =>
          cases path with
          | nil => exact removeColor_last h hRoot hPath hTree (.inr rfl)
          | cons f path =>
              rw [lacks_of_not_red hRed] at hTree
              rw [List.length_cons] at hFuel
              obtain ⟨side, k, p, sib, rfl⟩ : ∃ side k p sib, f = .of side k p sib :=
                ⟨_, _, _, _, f.of_side⟩
              obtain ⟨hSibling, hRest⟩ := fits_of.mp hPath
              rw [plug_of] at h ⊢
              rw [above_cons, Frame.data_of]
              cases hSibRed : sib.isRed with
              | false =>
                  obtain ⟨near, a, far, rfl, _, _⟩ := hSibling.exists_black hSibRed side
                  rw [removeColor_round h hRed (Tree.root_branch ..), turnSibling_black h]
                  obtain ⟨s₁, done, t₁, hRun, hShape, hLends⟩ := lend_holds h hPath hTree
                  obtain ⟨s', t', hDone, hLast, hResult⟩ := proceed_holds hLends hShape.holds
                    fun n hLacks hFits _ => ih hShape.holds hRoot.tail hFits hLacks (by omega)
                  refine ⟨s', t', ?_, hShape.trans hLast, hResult⟩
                  simp only [Option.bind_some, hRun]
                  exact hDone
              | true =>
                  -- the parent is black, and red below the sibling
                  obtain ⟨near, a, far, rfl, hNear, hFar, hNearBalanced, hFarBalanced⟩ :=
                    hSibling.exists_red hSibRed side
                  cases k with
                  | red => cases hSibRed.symm.trans hRest.1
                  | black =>
                      obtain ⟨s₁, hTurn, hShape⟩ := turnSibling_red h
                      have hBelow := hShape.holds
                      rw [← plug_of] at hBelow
                      obtain ⟨l, b, r, rfl, _, _⟩ := hNearBalanced.exists_black hNear side
                      have hFits : Fits (n + 1) (.of side .red p (.branch side .black l b r) ::
                          .of side .black a far :: path) :=
                        fits_of.mpr ⟨hNearBalanced, hNear, takesRed_cons.mpr (Frame.colour_of ..),
                          fits_of.mpr ⟨hFarBalanced, hRest⟩⟩
                      have hRoot' : RootBlack (.of side .black a far :: path) :=
                        hRoot.tail.cons fun _ => Frame.colour_of ..
                      obtain ⟨s₂, done, t₁, hRun, hLend, hLends⟩ := lend_holds hBelow hFits hTree
                      obtain ⟨fuel, rfl⟩ : ∃ k, fuel = k + 1 := ⟨fuel - 1, by omega⟩
                      obtain ⟨s', t', hDone, hLast, hResult⟩ := proceed_holds hLends hLend.holds
                        fun n hLacks hFits hColour =>
                          removeColor_last hLend.holds hRoot' hFits hLacks (.inl hColour)
                      rw [plug_of] at hLend
                      refine ⟨s', t', ?_, (hShape.trans hLend).trans hLast, hResult⟩
                      rw [removeColor_round h hRed (Tree.root_branch ..), hTurn, Tree.root_branch]
                      simp only [Option.map_some, Option.bind_some, hRun]
                      exact hDone

end Store

end RedBlack
