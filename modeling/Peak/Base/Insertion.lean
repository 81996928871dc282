import Peak.Base.Linked

/-! `RB_INSERT` on a tree in memory. It stores what insertion into the tree
makes of it, and never follows a link that is missing. -/
namespace RedBlack

variable {A D : Type}

namespace Store

variable [DecidableEq A] (s : Store A D)

/-- `RB_SET_BLACKRED`. -/
def setBlackRed (black red : A) : Store A D := (s.setColour black .black).setColour red .red

/-- `RB_COLOR` of the root is black at the end. -/
def blackenRoot : Option (Store A D) :=
  match s.root with
  | none => none
  | some a => some (s.setColour a .black)

/-- The uncle is black: an element on the inside is turned outwards, and the
grandparent is turned away. -/
def straighten (side : Side) (gparent parent elm : A) : Option (Store A D × A) := do
  if (s.cells parent).child side.other = some elm then
    let s ← s.rotate side parent
    let s ← (s.setBlackRed elm gparent).rotate side.other gparent
    return (s, parent)
  else
    let s ← (s.setBlackRed parent gparent).rotate side.other gparent
    return (s, elm)

/-- One round of `RB_INSERT_COLOR` below a grandparent that has the parent on
`side`, and the element that the next round starts from. -/
def recolour (side : Side) (gparent parent elm : A) : Option (Store A D × A) :=
  match (s.cells gparent).child side.other with
  | some tmp =>
      if (s.cells tmp).colour = .red then
        some ((s.setColour tmp .black).setBlackRed parent gparent, gparent)
      else s.straighten side gparent parent elm
  | none => s.straighten side gparent parent elm

/-- `RB_INSERT_COLOR` in at most `fuel` rounds. -/
def insertColor : Nat → Store A D → A → Option (Store A D)
  | 0, _, _ => none
  | fuel + 1, s, elm =>
      match (s.cells elm).parent with
      | none => s.blackenRoot
      | some parent =>
          if (s.cells parent).colour = .red then do
            let gparent ← (s.cells parent).parent
            let side := if (s.cells gparent).left = some parent then Side.left else Side.right
            let (s, elm) ← s.recolour side gparent parent elm
            insertColor fuel s elm
          else s.blackenRoot

/-- The descent of `RB_INSERT` from `tmp` on: the last element passed and how the
new one compared to it, or the element that compares equal. -/
def descend (cmp : D → D → Ordering) (elm : A) :
    Nat → Option A → Ordering → Option A → Option (Except A (Option A × Ordering))
  | _, parent, comp, none => some (.ok (parent, comp))
  | 0, _, _, some _ => none
  | fuel + 1, _, _, some tmp =>
      match cmp (s.cells elm).data (s.cells tmp).data with
      | .lt => descend cmp elm fuel (some tmp) .lt (s.cells tmp).left
      | .gt => descend cmp elm fuel (some tmp) .gt (s.cells tmp).right
      | .eq => some (.error tmp)

/-- `RB_SET`. -/
def set (elm : A) (parent : Option A) : Store A D :=
  s.modify elm fun c => { c with left := none, right := none, parent := parent, colour := .red }

/-- A new element as the child that the last comparison says. -/
def attach (elm : A) (parent : Option A) (comp : Ordering) : Store A D :=
  match parent with
  | none => { s.set elm parent with root := some elm }
  | some a =>
      if comp = .lt then (s.set elm parent).setChild .left a (some elm)
      else (s.set elm parent).setChild .right a (some elm)

/-- `RB_INSERT`. It returns the element that is in the way, if there is one. -/
def insert (cmp : D → D → Ordering) (fuel : Nat) (elm : A) : Option (Except A (Store A D)) := do
  match ← s.descend cmp elm fuel none .eq s.root with
  | .error tmp => return .error tmp
  | .ok (parent, comp) =>
      let s ← insertColor fuel (s.attach elm parent comp) elm
      return .ok s

end Store

/-! Insertion into the tree, by the sides that the frames are on. -/

variable {a x : A} {l r near far : Tree A} {f f' : Frame A} {path : List (Frame A)}

/-- There is no parent, or it is black. -/
theorem insertColor_done (h : ∀ f ∈ path.head?, f.colour = .black) :
    RedBlack.insertColor path l x r = (plug path (.node .red l x r)).blacken := by
  cases path with
  | nil => rfl
  | cons f path =>
      have hBlack := h f rfl
      cases f <;> cases hBlack <;> cases path <;> rfl

/-- The uncle is red: the grandparent becomes red in its place. -/
theorem insertColor_recolour (hRed : f.colour = .red) (hUncle : f'.sibling.isRed)
    (hNode : Tree.branch f'.side .red (.branch f.side .black (.node .red l x r) f.data f.sibling)
      f'.data f'.sibling.blacken = .node .red near f'.data far) :
    RedBlack.insertColor (f :: f' :: path) l x r = RedBlack.insertColor path near f'.data far := by
  cases f <;> cases f' <;> cases hRed <;> cases hNode <;>
    exact (RedBlack.insertColor.eq_def ..).trans (if_pos hUncle)

/-- The uncle is black and the element on the outside. -/
theorem insertColor_outside (hRed : f.colour = .red) (hUncle : ¬f'.sibling.isRed)
    (hSide : f.side = f'.side) :
    RedBlack.insertColor (f :: f' :: path) l x r =
      (plug path (.branch f'.side .black (.node .red l x r) f.data
        (.branch f'.side .red f.sibling f'.data f'.sibling))).blacken := by
  cases f <;> cases f' <;> cases hRed <;> cases hSide <;>
    exact (RedBlack.insertColor.eq_def ..).trans (if_neg hUncle)

/-- The uncle is black and the element on the inside. -/
theorem insertColor_inside (hRed : f.colour = .red) (hUncle : ¬f'.sibling.isRed)
    (hSide : f.side = f'.side.other)
    (hNode : Tree.node .red l x r = .branch f'.side .red near x far) :
    RedBlack.insertColor (f :: f' :: path) l x r =
      (plug path (.branch f'.side .black (.branch f'.side .red f.sibling f.data near) x
        (.branch f'.side .red far f'.data f'.sibling))).blacken := by
  cases f <;> cases f' <;> cases hRed <;> cases hSide <;> cases hNode <;>
    exact (RedBlack.insertColor.eq_def ..).trans (if_neg hUncle)

/-- A frame by the side that the child is on. -/
def Frame.of (side : Side) (colour : Colour) (a : A) (sibling : Tree A) : Frame A :=
  match side with
  | .left => .left colour a sibling
  | .right => .right colour sibling a

theorem plug_of (side : Side) (colour : Colour) (a : A) (sibling t : Tree A) :
    plug (.of side colour a sibling :: path) t = plug path (.branch side colour t a sibling) := by
  cases side with
  | left => rfl
  | right => rfl

@[simp] theorem Frame.colour_of (side : Side) (colour : Colour) (a : A) (sibling : Tree A) :
    (Frame.of side colour a sibling).colour = colour := by
  cases side with
  | left => rfl
  | right => rfl

/-- The root above a place is black. -/
def RootBlack : List (Frame A) → Prop
  | [] => True
  | [f] => f.colour = .black
  | _ :: f :: path => RootBlack (f :: path)

theorem RootBlack.tail (h : RootBlack (f :: path)) : RootBlack path := by
  cases path with
  | nil => trivial
  | cons f' path => exact h

theorem RootBlack.cons (h : RootBlack path) (hTop : path = [] → f.colour = .black) :
    RootBlack (f :: path) := by
  cases path with
  | nil => exact hTop rfl
  | cons f' path => exact h

theorem Tree.exists_branch_of_isRed {t : Tree A} (h : t.isRed) :
    ∃ l a r, t = .branch .left .red l a r := by
  cases t with
  | leaf => cases h
  | node colour l a r =>
      cases colour with
      | red => exact ⟨l, a, r, rfl⟩
      | black => cases h

theorem Tree.exists_node_of_branch (side : Side) (c : Colour) (near : Tree A) (a : A) (far : Tree A) :
    ∃ l r, branch side c near a far = node c l a r := by
  cases side with
  | left => exact ⟨near, far, rfl⟩
  | right => exact ⟨far, near, rfl⟩

theorem Tree.exists_branch_of_node (side : Side) (c : Colour) (l : Tree A) (a : A) (r : Tree A) :
    ∃ near far, node c l a r = branch side c near a far := by
  cases side with
  | left => exact ⟨l, r, rfl⟩
  | right => exact ⟨r, l, rfl⟩

namespace Store

variable {s s' : Store A D} {side i : Side} {c d k : Colour} {t uncle sib : Tree A} {b p g : A}

/-- The cells of a grandparent, a parent and an uncle. -/
theorem Holds.cell_near (h : s.Holds (plug path (.branch side k (.branch i c near a far) g t))) :
    (s.cells a).child i = near.root ∧ (s.cells a).child i.other = far.root ∧
      (s.cells a).parent = some g ∧ (s.cells a).colour = c := by
  rw [← plug_of] at h
  obtain ⟨hNear, hFar, hParent, hColour⟩ := h.cell
  exact ⟨hNear, hFar, by rw [hParent]; cases side <;> rfl, hColour⟩

theorem Holds.cell_far (h : s.Holds (plug path (.branch side k t g (.branch i c near a far)))) :
    (s.cells a).child i = near.root ∧ (s.cells a).child i.other = far.root ∧
      (s.cells a).parent = some g ∧ (s.cells a).colour = c := by
  rw [← Tree.branch_other] at h
  exact h.cell_near

/-- The links to two children are not the same. -/
theorem Holds.root_ne (h : s.Holds (plug path (.branch side c near a far))) (hNear : near.root = some b) :
    far.root ≠ some b := by
  intro hFar
  obtain ⟨hTree, _⟩ := nodup_plug.mp h.nodup
  obtain ⟨_, _, _, _, hApart⟩ := Tree.nodup_branch.mp hTree
  exact hApart (Tree.root_mem hNear) (Tree.root_mem hFar)

variable [DecidableEq A]

/-- A child may change its colour. -/
theorem Holds.setColour_near (h : s.Holds (plug path (.branch side k (.branch i c near a far) g t)))
    (d : Colour) : s.Reshapes (plug path (.branch side k (.branch i c near a far) g t))
      (s.setColour a d) (plug path (.branch side k (.branch i d near a far) g t)) := by
  rw [← plug_of] at h ⊢
  rw [← plug_of side k g t]
  exact h.setColour d

theorem Holds.setColour_far (h : s.Holds (plug path (.branch side k t g (.branch i c near a far))))
    (d : Colour) : s.Reshapes (plug path (.branch side k t g (.branch i c near a far)))
      (s.setColour a d) (plug path (.branch side k t g (.branch i d near a far))) := by
  rw [← Tree.branch_other] at h ⊢
  rw [← Tree.branch_other side]
  exact h.setColour_near d

/-- The grandparent is turned away from the parent. -/
theorem Holds.rotate_near (h : s.Holds (plug path (.branch side c (.branch side d near a far) g t))) :
    ∃ s', s.rotate side.other g = some s' ∧
      s.Reshapes (plug path (.branch side c (.branch side d near a far) g t)) s'
        (plug path (.branch side d near a (.branch side c far g t))) := by
  have hBefore : Tree.branch side c (.branch side d near a far) g t =
      .branch side.other c t g (.branch side.other d far a near) := by
    rw [Tree.branch_other, Tree.branch_other]
  have hAfter : Tree.branch side d near a (.branch side c far g t) =
      .branch side.other d (.branch side.other c t g far) a near := by
    rw [Tree.branch_other, Tree.branch_other]
  rw [hBefore] at h ⊢
  rw [hAfter]
  exact h.rotate

/-- The parent is turned below the grandparent. -/
theorem Holds.rotate_below
    (h : s.Holds (plug path (.branch side k (.branch side c sib p (.branch side d near a far)) g t))) :
    ∃ s', s.rotate side p = some s' ∧
      s.Reshapes (plug path (.branch side k (.branch side c sib p (.branch side d near a far)) g t)) s'
        (plug path (.branch side k (.branch side d (.branch side c sib p near) a far) g t)) := by
  rw [← plug_of] at h ⊢
  rw [← plug_of side k g t]
  exact h.rotate

theorem recolour_red (h : s.Holds (plug path (.branch side k (.branch i c t p sib) g uncle)))
    (hUncle : uncle.isRed) :
    ∃ s', s.recolour side g p x = some (s', g) ∧
      s.Reshapes (plug path (.branch side k (.branch i c t p sib) g uncle)) s'
        (plug path (.branch side .red (.branch i .black t p sib) g uncle.blacken)) := by
  obtain ⟨l, u, r, rfl⟩ := Tree.exists_branch_of_isRed hUncle
  have hUncleBlack := h.setColour_far .black
  have hParentBlack := hUncleBlack.holds.setColour_near .black
  have hAll := (hUncleBlack.trans hParentBlack).trans (hParentBlack.holds.setColour .red)
  refine ⟨_, ?_, hAll⟩
  rw [recolour, h.cell.2.1, Tree.root_branch]
  exact if_pos h.cell_far.2.2.2

/-- Whatever the uncle is, if it is not red. -/
theorem recolour_black (h : s.Holds (plug path (.branch side k t g uncle))) (hUncle : ¬uncle.isRed) :
    s.recolour side g p x = s.straighten side g p x := by
  cases uncle with
  | leaf => rw [recolour, h.cell.2.1, Tree.root]
  | node colour l u r =>
      have hColour := (Holds.cell_far (i := .left) h).2.2.2
      rw [recolour, h.cell.2.1, Tree.root]
      apply if_neg
      intro hRed
      exact hUncle (by rw [← hColour, hRed]; rfl)

/-- The element is on the outside. -/
theorem straighten_outside (h : s.Holds (plug path (.branch side k (.branch side c t p sib) g uncle)))
    (hElm : t.root = some x) :
    ∃ s', s.straighten side g p x = some (s', x) ∧
      s.Reshapes (plug path (.branch side k (.branch side c t p sib) g uncle)) s'
        (plug path (.branch side .black t p (.branch side .red sib g uncle))) := by
  have hOther : ¬(s.cells p).child side.other = some x := by
    rw [h.cell_near.2.1]
    rw [← plug_of] at h
    exact h.root_ne hElm
  have hBlack := h.setColour_near .black
  have hRed := hBlack.trans (hBlack.holds.setColour .red)
  obtain ⟨s', hRun, hTurn⟩ := hRed.holds.rotate_near
  refine ⟨s', ?_, hRed.trans hTurn⟩
  rw [straighten, if_neg hOther, setBlackRed, hRun]
  rfl

/-- The element is on the inside: it and its parent change places. -/
theorem straighten_inside
    (h : s.Holds (plug path (.branch side k (.branch side c sib p (.branch side d near x far)) g uncle))) :
    ∃ s', s.straighten side g p x = some (s', p) ∧
      s.Reshapes
        (plug path (.branch side k (.branch side c sib p (.branch side d near x far)) g uncle)) s'
        (plug path (.branch side .black (.branch side c sib p near) x (.branch side .red far g uncle))) := by
  have hInside : (s.cells p).child side.other = some x := by
    rw [h.cell_near.2.1, Tree.root_branch]
  obtain ⟨s₁, hFirst, hBelow⟩ := h.rotate_below
  have hBlack := hBelow.holds.setColour_near .black
  have hRed := hBlack.trans (hBlack.holds.setColour .red)
  obtain ⟨s', hSecond, hTurn⟩ := hRed.holds.rotate_near
  refine ⟨s', ?_, (hBelow.trans hRed).trans hTurn⟩
  rw [straighten, if_pos hInside, hFirst]
  show ((s₁.setBlackRed x g).rotate side.other g).bind _ = _
  rw [setBlackRed, hSecond]
  rfl

/-- Which child of the grandparent the parent is. -/
theorem Holds.side_eq (h : s.Holds (plug path (.branch side k (.branch i c near a far) g t))) :
    (if (s.cells g).left = some a then Side.left else Side.right) = side := by
  obtain ⟨hNear, hFar, _⟩ := h.cell
  rw [Tree.root_branch] at hNear
  cases side with
  | left => exact if_pos hNear
  | right =>
      apply if_neg
      intro hSame
      exact h.root_ne (Tree.root_branch ..) (hFar.symm.trans hSame)

/-- One round: it turns or recolours the tree, and what insertion has left to do
is the same. -/
theorem recolour_holds (h : s.Holds (plug (f :: f' :: path) (.node .red l x r)))
    (hRed : f.colour = .red) (hRoot : RootBlack (f :: f' :: path)) :
    ∃ s' y path' l' r', s.recolour f'.side f'.data f.data x = some (s', y) ∧
      s.Reshapes (plug (f :: f' :: path) (.node .red l x r)) s' (plug path' (.node .red l' y r')) ∧
      RedBlack.insertColor path' l' y r' = RedBlack.insertColor (f :: f' :: path) l x r ∧
      RootBlack path' ∧ path'.length ≤ path.length + 1 := by
  have hTree : plug (f :: f' :: path) (.node .red l x r) = plug path (.branch f'.side f'.colour
      (.branch f.side .red (.node .red l x r) f.data f.sibling) f'.data f'.sibling) := by
    rw [plug, plug, Frame.plug_eq, Frame.plug_eq, hRed]
  have hPath : ∀ side a sib, RootBlack (Frame.of side .black a sib :: path) := fun side a sib =>
    hRoot.tail.tail.cons fun _ => Frame.colour_of ..
  rw [hTree] at h ⊢
  by_cases hUncle : f'.sibling.isRed
  · obtain ⟨s', hRun, hShape⟩ := recolour_red (x := x) h hUncle
    obtain ⟨l', r', hNode⟩ := Tree.exists_node_of_branch f'.side .red
      (.branch f.side .black (.node .red l x r) f.data f.sibling) f'.data f'.sibling.blacken
    rw [hNode] at hShape
    exact ⟨s', f'.data, path, l', r', hRun, hShape, (insertColor_recolour hRed hUncle hNode).symm,
      hRoot.tail.tail, Nat.le_succ _⟩
  · rw [recolour_black h hUncle]
    by_cases hSide : f.side = f'.side
    · rw [hSide] at h ⊢
      obtain ⟨s', hRun, hShape⟩ := straighten_outside (x := x) h rfl
      rw [← plug_of f'.side .black] at hShape
      refine ⟨s', x, _, l, r, hRun, hShape, ?_, hPath _ _ _, Nat.le_refl _⟩
      rw [insertColor_outside hRed hUncle hSide, insertColor_done, plug_of]
      intro f hf
      cases hf
      exact Frame.colour_of ..
    · have hInside : f.side = f'.side.other := by
        cases hf : f.side <;> cases hf' : f'.side <;> simp_all [Side.other]
      obtain ⟨near, far, hElm⟩ := Tree.exists_branch_of_node f'.side .red l x r
      rw [hInside, hElm, Tree.branch_other] at h ⊢
      obtain ⟨s', hRun, hShape⟩ := straighten_inside h
      obtain ⟨l', r', hParent⟩ := Tree.exists_node_of_branch f'.side .red f.sibling f.data near
      rw [← plug_of f'.side .black, hParent] at hShape
      refine ⟨s', f.data, _, l', r', hRun, hShape, ?_, hPath _ _ _, Nat.le_refl _⟩
      rw [insertColor_inside hRed hUncle hInside hElm, insertColor_done, plug_of, hParent]
      intro f hf
      cases hf
      exact Frame.colour_of ..

theorem blackenRoot_holds (h : s.Holds t) (hSome : x ∈ t.toList) :
    ∃ s', s.blackenRoot = some s' ∧ s.Reshapes t s' t.blacken := by
  cases t with
  | leaf => cases hSome
  | node colour l a r =>
      have hNode : s.Holds (plug [] (.branch .left colour l a r)) := h
      refine ⟨_, ?_, hNode.setColour .black⟩
      rw [blackenRoot, h.root]
      rfl

/-- `RB_INSERT_COLOR` does what insertion has left to do, within as many rounds
as the element has others above it. -/
theorem insertColor_holds {fuel : Nat} (h : s.Holds (plug path (.node .red l x r)))
    (hRoot : RootBlack path) (hFuel : path.length < fuel) :
    ∃ s', insertColor fuel s x = some s' ∧
      s.Reshapes (plug path (.node .red l x r)) s' (RedBlack.insertColor path l x r) := by
  induction fuel generalizing s path l x r with
  | zero => exact absurd hFuel (Nat.not_lt_zero _)
  | succ fuel ih =>
      have hMem : x ∈ (plug path (.node .red l x r)).toList :=
        mem_plug.mpr (.inl (List.mem_append_right _ List.mem_cons_self))
      have hNode : s.Holds (plug path (.branch .left .red l x r)) := h
      have hParent := hNode.cell.2.2.1
      rw [insertColor, hParent]
      cases path with
      | nil => exact blackenRoot_holds h hMem
      | cons f path =>
          have hColour : (s.cells f.data).colour = f.colour := by
            rw [plug, Frame.plug_eq] at h
            exact h.cell.2.2.2
          rw [above_cons]
          dsimp only
          rw [hColour]
          by_cases hRed : f.colour = .red
          · cases path with
            | nil =>
                rw [hRoot] at hRed
                cases hRed
            | cons f' path =>
                obtain ⟨s₁, y, path', l', r', hRound, hShape, hSame, hRoot', hLength⟩ :=
                  recolour_holds h hRed hRoot
                rw [List.length_cons, List.length_cons] at hFuel
                obtain ⟨s', hRun, hRest⟩ := ih hShape.holds hRoot' (by omega)
                rw [plug, plug, Frame.plug_eq, Frame.plug_eq] at h
                have hGrand := h.cell_near.2.2.1
                refine ⟨s', ?_, hSame ▸ hShape.trans hRest⟩
                rw [if_pos hRed, hGrand]
                dsimp only [Option.bind_eq_bind, Option.bind_some]
                rw [h.side_eq, hRound]
                exact hRun
          · rw [if_neg hRed, insertColor_done]
            · exact blackenRoot_holds h hMem
            · intro f' hf'
              cases hf'
              cases hBlack : f.colour with
              | red => exact absurd hBlack hRed
              | black => rfl

end Store

/-- The side of the last comparison. -/
def turn : List (Frame A) → Ordering
  | [] => .eq
  | .left _ _ _ :: _ => .lt
  | .right _ _ _ :: _ => .gt

section Descend

variable {cmp : A → Ordering} {t : Tree A} {path' : List (Frame A)}

/-- The place that the descent ends at is in the tree that it started in. -/
theorem plug_of_descend (h : RedBlack.descend cmp path t = .ok path') :
    plug path' .leaf = plug path t := by
  induction t generalizing path with
  | leaf =>
      cases h
      rfl
  | node colour l a r ihLeft ihRight =>
      rw [RedBlack.descend] at h
      cases hCmp : cmp a with
      | lt =>
          rw [hCmp] at h
          exact ihLeft h
      | eq =>
          rw [hCmp] at h
          cases h
      | gt =>
          rw [hCmp] at h
          exact ihRight h

theorem rootBlack_of_descend (hRoot : RootBlack path) (hBlack : path = [] → t.isRed = false)
    (h : RedBlack.descend cmp path t = .ok path') : RootBlack path' := by
  induction t generalizing path with
  | leaf =>
      cases h
      exact hRoot
  | node colour l a r ihLeft ihRight =>
      have hColour : path = [] → colour = .black := by
        intro hNil
        have hNode := hBlack hNil
        cases colour with
        | red => cases hNode
        | black => rfl
      rw [RedBlack.descend] at h
      cases hCmp : cmp a with
      | lt =>
          rw [hCmp] at h
          exact ihLeft (hRoot.cons (f := .left colour a r) hColour)
            (fun hNil => absurd hNil (List.cons_ne_nil _ _)) h
      | eq =>
          rw [hCmp] at h
          cases h
      | gt =>
          rw [hCmp] at h
          exact ihRight (hRoot.cons (f := .right colour l a) hColour)
            (fun hNil => absurd hNil (List.cons_ne_nil _ _)) h

end Descend

/-- Insertion leaves a black root. -/
theorem isRed_insertColor (path : List (Frame A)) (l : Tree A) (x : A) (r : Tree A) :
    (RedBlack.insertColor path l x r).isRed = false := by
  have hBlacken : ∀ t : Tree A, t.blacken.isRed = false := fun t => by cases t <;> rfl
  fun_induction RedBlack.insertColor path l x r with
  | case1 _ _ _ _ _ _ _ _ _ _ ih => exact ih
  | case2 => exact hBlacken _
  | case3 _ _ _ _ _ _ _ _ _ _ ih => exact ih
  | case4 => exact hBlacken _
  | case5 _ _ _ _ _ _ _ _ _ _ ih => exact ih
  | case6 => exact hBlacken _
  | case7 _ _ _ _ _ _ _ _ _ _ ih => exact ih
  | case8 => exact hBlacken _
  | case9 => exact hBlacken _

namespace Store

variable {s : Store A D} {t t' : Tree A} {elm met : A} {cmp : D → D → Ordering} {fuel : Nat}

/-- The descent along the links, within as many rounds as the tree has
elements. -/
theorem descend_linked [DecidableEq A] (cmp : D → D → Ordering) (elm : A)
    (h : Linked s.cells (above path) t) (hFuel : t.toList.length ≤ fuel) :
    s.descend cmp elm fuel (above path) (turn path) t.root =
      some ((RedBlack.descend (fun a => cmp (s.cells elm).data (s.cells a).data) path t).map
        fun path => (above path, turn path)) := by
  induction t generalizing path fuel with
  | leaf =>
      cases fuel <;> rfl
  | node colour l a r ihLeft ihRight =>
      obtain ⟨hLeft, hRight, _, _, hLinkedLeft, hLinkedRight⟩ := h
      rw [Tree.toList, List.length_append, List.length_cons] at hFuel
      cases fuel with
      | zero => omega
      | succ fuel =>
          rw [Tree.root, descend, RedBlack.descend, hLeft, hRight]
          cases cmp (s.cells elm).data (s.cells a).data with
          | lt =>
              have hLink : Linked s.cells (above (.left colour a r :: path)) l := hLinkedLeft
              exact ihLeft hLink (by omega)
          | eq => rfl
          | gt =>
              have hLink : Linked s.cells (above (.right colour l a :: path)) r := hLinkedRight
              exact ihRight hLink (by omega)

variable [DecidableEq A]

/-- The new element in its place. -/
theorem attach_holds (h : s.Holds (plug path .leaf)) (hNew : elm ∉ around path) :
    (s.attach elm (above path) (turn path)).Holds (plug path (.node .red .leaf elm .leaf)) ∧
      s.Keeps (s.attach elm (above path) (turn path)) (elm :: around path) := by
  obtain ⟨hSurrounds, _⟩ := linked_plug.mp h.linked
  obtain ⟨_, hAround, _⟩ := nodup_plug.mp h.nodup
  have hSet : Surrounds (s.set elm (above path)).cells path none :=
    hSurrounds.congr fun b hb => cells_modify_of_ne _ fun hSame : b = elm => hNew (hSame ▸ hb)
  have hKeeps : s.Keeps (s.set elm (above path)) (elm :: around path) :=
    (Keeps.refl s _).modify List.mem_cons_self fun _ => rfl
  have hNodup : (plug path (.node .red .leaf elm .leaf)).toList.Nodup :=
    nodup_plug.mpr ⟨List.nodup_singleton elm, hAround, List.singleton_disjoint.mpr hNew⟩
  cases path with
  | nil =>
      refine ⟨⟨rfl, ?_, hNodup⟩, hKeeps.data, hKeeps.outside⟩
      show Linked (s.set elm none).cells none (.node .red .leaf elm .leaf)
      rw [Linked, set, cells_modify_same]
      exact ⟨rfl, rfl, rfl, rfl, trivial, trivial⟩
  | cons f path =>
      have hAttach : s.attach elm (above (f :: path)) (turn (f :: path)) =
          (s.set elm (some f.data)).setChild f.side f.data (some elm) := by
        cases f <;> rfl
      have hData : f.data ∈ around (f :: path) := (around_cons f path).mem_iff.mpr List.mem_cons_self
      have hOther : elm ≠ f.data := fun hSame => hNew (hSame ▸ hData)
      rw [hAttach]
      refine ⟨⟨?_, ?_, hNodup⟩, hKeeps.setChild (List.mem_cons_of_mem _ hData)⟩
      · exact h.root.trans (root_plug (List.cons_ne_nil f path) _ _)
      · rw [linked_plug]
        refine ⟨surrounds_setChild hSet hAround, ?_⟩
        rw [Linked, cells_setChild_of_ne hOther, set, cells_modify_same]
        exact ⟨rfl, rfl, rfl, rfl, trivial, trivial⟩

/-- `RB_INSERT` goes where insertion goes, and on from there. -/
theorem insert_eq (h : s.Holds t) (hFuel : t.toList.length ≤ fuel) :
    s.insert cmp fuel elm =
      match RedBlack.descend (fun a => cmp (s.cells elm).data (s.cells a).data) [] t with
      | .error met => some (.error met)
      | .ok path => (insertColor fuel (s.attach elm (above path) (turn path)) elm).map .ok := by
  have hLink : Linked s.cells (above []) t := h.linked
  have hDescend := descend_linked cmp elm hLink hFuel
  rw [insert, h.root]
  refine (congrArg (Option.bind · _) hDescend).trans ?_
  cases RedBlack.descend (fun a => cmp (s.cells elm).data (s.cells a).data) [] t with
  | error met => rfl
  | ok path => exact Option.map_eq_bind.symm

/-- `RB_INSERT` refuses an element where insertion does. -/
theorem insert_of_error (h : s.Holds t) (hFuel : t.toList.length ≤ fuel)
    (hInsert : RedBlack.insert (fun a => cmp (s.cells elm).data (s.cells a).data) elm t = .error met) :
    s.insert cmp fuel elm = some (.error met) := by
  rw [RedBlack.insert] at hInsert
  rw [insert_eq h hFuel]
  cases hTree : RedBlack.descend (fun a => cmp (s.cells elm).data (s.cells a).data) [] t with
  | error tmp =>
      rw [hTree] at hInsert
      cases hInsert
      rfl
  | ok path =>
      rw [hTree] at hInsert
      cases hInsert

/-- Where insertion accepts an element, `RB_INSERT` stores the tree that it makes,
and nothing outside of that tree. -/
theorem insert_of_ok (h : s.Holds t) (hBlack : t.isRed = false) (hNew : elm ∉ t.toList)
    (hFuel : t.toList.length < fuel)
    (hInsert : RedBlack.insert (fun a => cmp (s.cells elm).data (s.cells a).data) elm t = .ok t') :
    ∃ s', s.insert cmp fuel elm = some (.ok s') ∧ s'.Holds t' ∧ t'.isRed = false ∧
      t'.toList.Perm (elm :: t.toList) ∧ s.Keeps s' (elm :: t.toList) := by
  rw [RedBlack.insert] at hInsert
  rw [insert_eq h (Nat.le_of_lt hFuel)]
  cases hTree : RedBlack.descend (fun a => cmp (s.cells elm).data (s.cells a).data) [] t with
  | error tmp =>
      rw [hTree] at hInsert
      cases hInsert
  | ok path =>
      rw [hTree] at hInsert
      cases hInsert
      have hPlug : plug path .leaf = t := plug_of_descend hTree
      have hAround : t.toList.Perm (around path) := hPlug ▸ perm_plug path .leaf
      have hRoot := rootBlack_of_descend (show RootBlack [] from trivial) (fun _ => hBlack) hTree
      obtain ⟨hHolds, hKeeps⟩ := attach_holds (hPlug ▸ h) fun hMem => hNew (hAround.mem_iff.mpr hMem)
      have hLength := length_le_around path
      rw [← hAround.length_eq] at hLength
      obtain ⟨s', hRun, hShape⟩ := insertColor_holds hHolds hRoot (Nat.lt_of_le_of_lt hLength hFuel)
      have hPerm := (perm_plug path (.node .red .leaf elm .leaf)).trans (hAround.symm.cons elm)
      refine ⟨s', ?_, hShape.holds, isRed_insertColor .., hShape.order ▸ hPerm, ?_⟩
      · exact congrArg (Option.map Except.ok) hRun
      · apply (hKeeps.mono fun a ha => _).trans (hShape.keeps.mono fun a ha => hPerm.mem_iff.mp ha)
        exact fun a ha => (hAround.symm.cons elm).mem_iff.mp ha

end Store

end RedBlack
