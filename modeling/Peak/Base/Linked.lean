import Mathlib.Data.List.Nodup
import Mathlib.Logic.Function.Basic
import Peak.Base.RedBlack

/-! The trees of `sys/tree.h` in memory: cells that name their children and their
parent, and insertion as stores to these links. What the stores do to the cells
of a tree is what insertion does to the tree. -/
namespace RedBlack

/-- The two links to children. -/
inductive Side where
  | left
  | right
deriving DecidableEq, Repr

def Side.other : Side → Side
  | .left => .right
  | .right => .left

/-- `RB_ENTRY`, and what the element holds besides. -/
structure Cell (A D : Type) where
  left : Option A
  right : Option A
  parent : Option A
  colour : Colour
  data : D
deriving DecidableEq, Repr

variable {A D : Type}

namespace Cell

variable (c : Cell A D) (side : Side) (p : Option A)

def child : Side → Option A
  | .left => c.left
  | .right => c.right

def setChild : Side → Cell A D
  | .left => { c with left := p }
  | .right => { c with right := p }

def setParent : Cell A D := { c with parent := p }
def setColour (k : Colour) : Cell A D := { c with colour := k }

@[simp] theorem child_setChild : (c.setChild p side).child side = p := by
  cases side with
  | left => rfl
  | right => rfl

@[simp] theorem child_other_setChild : (c.setChild p side).child side.other = c.child side.other := by
  cases side with
  | left => rfl
  | right => rfl

@[simp] theorem child_setChild_other : (c.setChild p side.other).child side = c.child side := by
  cases side with
  | left => rfl
  | right => rfl

@[simp] theorem parent_setChild : (c.setChild p side).parent = c.parent := by
  cases side with
  | left => rfl
  | right => rfl

@[simp] theorem colour_setChild : (c.setChild p side).colour = c.colour := by
  cases side with
  | left => rfl
  | right => rfl

@[simp] theorem data_setChild : (c.setChild p side).data = c.data := by
  cases side with
  | left => rfl
  | right => rfl

@[simp] theorem child_setParent : (c.setParent p).child side = c.child side := by
  cases side with
  | left => rfl
  | right => rfl

@[simp] theorem parent_setParent : (c.setParent p).parent = p := rfl
@[simp] theorem colour_setParent : (c.setParent p).colour = c.colour := rfl

@[simp] theorem child_setColour (k : Colour) : (c.setColour k).child side = c.child side := by
  cases side with
  | left => rfl
  | right => rfl

@[simp] theorem parent_setColour (k : Colour) : (c.setColour k).parent = c.parent := rfl
@[simp] theorem colour_setColour (k : Colour) : (c.setColour k).colour = k := rfl

end Cell

/-- `RB_HEAD` and the memory that its tree lies in. -/
structure Store (A D : Type) where
  cells : A → Cell A D
  root : Option A

namespace Store

variable [DecidableEq A]

def modify (s : Store A D) (a : A) (f : Cell A D → Cell A D) : Store A D :=
  { s with cells := Function.update s.cells a (f (s.cells a)) }

variable (s : Store A D)

def setChild (side : Side) (a : A) (p : Option A) : Store A D := s.modify a fun c => c.setChild p side
def setParent (a : A) (p : Option A) : Store A D := s.modify a fun c => c.setParent p
def setColour (a : A) (k : Colour) : Store A D := s.modify a fun c => c.setColour k

/-- A store through a link that may be missing. -/
def setParentOf (r p : Option A) : Store A D :=
  match r with
  | none => s
  | some a => s.setParent a p

/-- `tmp` takes the place of `elm` below its parent. -/
def replaceChild (parent : Option A) (elm tmp : A) : Store A D :=
  match parent with
  | none => { s with root := some tmp }
  | some a =>
      if (s.cells a).left = some elm then s.setChild .left a (some tmp)
      else s.setChild .right a (some tmp)

/-- The rotations, which load and store the same links on opposite sides. -/
def rotate (side : Side) (elm : A) : Option (Store A D) :=
  match (s.cells elm).child side.other with
  | none => none
  | some tmp =>
      let inner := (s.cells tmp).child side
      let s := (s.setChild side.other elm inner).setParentOf inner (some elm)
      let parent := (s.cells elm).parent
      let s := (s.setParent tmp parent).replaceChild parent elm tmp
      some ((s.setChild side tmp (some elm)).setParent elm (some tmp))

/-- `RB_ROTATE_LEFT`. -/
def rotateLeft : A → Option (Store A D) := s.rotate .left

/-- `RB_ROTATE_RIGHT`. -/
def rotateRight : A → Option (Store A D) := s.rotate .right

end Store

/-! The trees that the cells hold. -/

namespace Tree

/-- The link to the tree. -/
def root : Tree A → Option A
  | leaf => none
  | node _ _ a _ => some a

/-- A node by the side that one of its children is on. -/
def branch (side : Side) (colour : Colour) (near : Tree A) (a : A) (far : Tree A) : Tree A :=
  match side with
  | .left => .node colour near a far
  | .right => .node colour far a near

@[simp] theorem root_branch (side : Side) (colour : Colour) (near : Tree A) (a : A) (far : Tree A) :
    (branch side colour near a far).root = some a := by
  cases side with
  | left => rfl
  | right => rfl

theorem branch_other (side : Side) (colour : Colour) (near : Tree A) (a : A) (far : Tree A) :
    branch side.other colour near a far = branch side colour far a near := by
  cases side with
  | left => rfl
  | right => rfl

/-- The colour does not show in the order. -/
theorem toList_branch (side : Side) (c d : Colour) (near : Tree A) (a : A) (far : Tree A) :
    (branch side c near a far).toList = (branch side d near a far).toList := by
  cases side with
  | left => rfl
  | right => rfl

theorem mem_branch {side : Side} {colour : Colour} {near far : Tree A} {a b : A} :
    b ∈ (branch side colour near a far).toList ↔ b = a ∨ b ∈ near.toList ∨ b ∈ far.toList := by
  cases side with
  | left =>
      simp only [branch, toList, List.mem_append, List.mem_cons]
      exact or_left_comm
  | right =>
      simp only [branch, toList, List.mem_append, List.mem_cons]
      rw [or_left_comm, or_comm (a := b ∈ far.toList)]

theorem nodup_branch {side : Side} {colour : Colour} {near far : Tree A} {a : A} :
    (branch side colour near a far).toList.Nodup ↔
      a ∉ near.toList ∧ a ∉ far.toList ∧ near.toList.Nodup ∧ far.toList.Nodup ∧
        near.toList.Disjoint far.toList := by
  cases side with
  | left =>
      simp only [branch, toList, List.nodup_append', List.nodup_cons, List.disjoint_cons_right]
      tauto
  | right =>
      have hComm : far.toList.Disjoint near.toList ↔ near.toList.Disjoint far.toList :=
        List.disjoint_comm
      simp only [branch, toList, List.nodup_append', List.nodup_cons, List.disjoint_cons_right]
      tauto

end Tree

namespace Frame

def side : Frame A → Side
  | .left _ _ _ => .left
  | .right _ _ _ => .right

def colour : Frame A → Colour
  | .left colour _ _ => colour
  | .right colour _ _ => colour

def data : Frame A → A
  | .left _ a _ => a
  | .right _ _ a => a

def sibling : Frame A → Tree A
  | .left _ _ sibling => sibling
  | .right _ sibling _ => sibling

theorem plug_eq (frame : Frame A) (t : Tree A) :
    frame.plug t = .branch frame.side frame.colour t frame.data frame.sibling := by
  cases frame with
  | left colour a sibling => rfl
  | right colour sibling a => rfl

end Frame

/-- The link to the parent of a node. -/
def above (path : List (Frame A)) : Option A := path.head?.map Frame.data

@[simp] theorem above_cons (frame : Frame A) (path : List (Frame A)) :
    above (frame :: path) = some frame.data := rfl

/-- The cells are linked as the tree is. -/
def Linked (cells : A → Cell A D) : Option A → Tree A → Prop
  | _, .leaf => True
  | p, .node colour l a r =>
      (cells a).left = l.root ∧ (cells a).right = r.root ∧ (cells a).parent = p ∧
        (cells a).colour = colour ∧ Linked cells (some a) l ∧ Linked cells (some a) r

/-- The cells are linked as the tree around a place is that `r` is the link
to. -/
def Surrounds (cells : A → Cell A D) : List (Frame A) → Option A → Prop
  | [], _ => True
  | frame :: path, r =>
      (cells frame.data).child frame.side = r ∧
        (cells frame.data).child frame.side.other = frame.sibling.root ∧
        (cells frame.data).parent = above path ∧ (cells frame.data).colour = frame.colour ∧
        Linked cells (some frame.data) frame.sibling ∧ Surrounds cells path (some frame.data)

theorem linked_branch {cells : A → Cell A D} {p : Option A} {side : Side} {colour : Colour}
    {near far : Tree A} {a : A} :
    Linked cells p (.branch side colour near a far) ↔
      (cells a).child side = near.root ∧ (cells a).child side.other = far.root ∧
        (cells a).parent = p ∧ (cells a).colour = colour ∧
        Linked cells (some a) near ∧ Linked cells (some a) far := by
  cases side with
  | left => exact Iff.rfl
  | right =>
      rw [Tree.branch, Linked, and_left_comm, and_comm (a := Linked cells (some a) far)]
      exact Iff.rfl

/-- A tree is linked if a part of it is and what is around that part. -/
theorem linked_plug {cells : A → Cell A D} {path : List (Frame A)} {t : Tree A} :
    Linked cells none (plug path t) ↔ Surrounds cells path t.root ∧ Linked cells (above path) t := by
  induction path generalizing t with
  | nil => exact (and_iff_right trivial).symm
  | cons frame path ih =>
      rw [plug, ih, Frame.plug_eq, linked_branch, Tree.root_branch, Surrounds, above_cons]
      tauto

/-- The elements around a place in a tree. -/
def around (path : List (Frame A)) : List A := before path ++ behind path

theorem around_cons (frame : Frame A) (path : List (Frame A)) :
    (around (frame :: path)).Perm (frame.data :: frame.sibling.toList ++ around path) := by
  cases frame with
  | left colour a sibling =>
      show (before path ++ [] ++ (a :: sibling.toList ++ behind path)).Perm _
      rw [List.append_nil]
      exact List.perm_append_comm_assoc ..
  | right colour sibling a =>
      show (before path ++ (sibling.toList ++ [a]) ++ behind path).Perm _
      rw [List.append_assoc]
      exact (List.perm_append_comm_assoc ..).trans ((List.perm_append_singleton ..).append_right _)

theorem length_le_around (path : List (Frame A)) : path.length ≤ (around path).length := by
  induction path with
  | nil => exact Nat.zero_le _
  | cons frame path ih =>
      rw [(around_cons frame path).length_eq, List.length_cons, List.cons_append, List.length_cons,
        List.length_append]
      omega

theorem perm_plug (path : List (Frame A)) (t : Tree A) :
    (plug path t).toList.Perm (t.toList ++ around path) := by
  rw [toList_plug, List.append_assoc]
  exact List.perm_append_comm_assoc ..

theorem mem_plug {path : List (Frame A)} {t : Tree A} {a : A} :
    a ∈ (plug path t).toList ↔ a ∈ t.toList ∨ a ∈ around path := by
  rw [(perm_plug path t).mem_iff, List.mem_append]

theorem nodup_plug {path : List (Frame A)} {t : Tree A} :
    (plug path t).toList.Nodup ↔
      t.toList.Nodup ∧ (around path).Nodup ∧ t.toList.Disjoint (around path) := by
  rw [(perm_plug path t).nodup_iff, List.nodup_append']

theorem Linked.congr {cells cells' : A → Cell A D} {p : Option A} {t : Tree A}
    (h : Linked cells p t) (hSame : ∀ a ∈ t.toList, cells' a = cells a) : Linked cells' p t := by
  induction t generalizing p with
  | leaf => trivial
  | node colour l a r ihLeft ihRight =>
      simp only [Tree.toList, List.mem_append, List.mem_cons] at hSame
      obtain ⟨hLeft, hRight, hParent, hColour, hLinkedLeft, hLinkedRight⟩ := h
      rw [Linked, hSame a (.inr (.inl rfl))]
      exact ⟨hLeft, hRight, hParent, hColour, ihLeft hLinkedLeft fun b hb => hSame b (.inl hb),
        ihRight hLinkedRight fun b hb => hSame b (.inr (.inr hb))⟩

theorem Surrounds.congr {cells cells' : A → Cell A D} {r : Option A} {path : List (Frame A)}
    (h : Surrounds cells path r) (hSame : ∀ a ∈ around path, cells' a = cells a) :
    Surrounds cells' path r := by
  induction path generalizing r with
  | nil => trivial
  | cons frame path ih =>
      simp only [(around_cons frame path).mem_iff, List.cons_append, List.mem_cons,
        List.mem_append] at hSame
      obtain ⟨hChild, hSibling, hParent, hColour, hLinked, hRest⟩ := h
      rw [Surrounds, hSame _ (.inl rfl)]
      exact ⟨hChild, hSibling, hParent, hColour, hLinked.congr fun b hb => hSame b (.inr (.inl hb)),
        ih hRest fun b hb => hSame b (.inr (.inr hb))⟩

theorem Tree.root_mem {t : Tree A} {a : A} (h : t.root = some a) : a ∈ t.toList := by
  cases t with
  | leaf => cases h
  | node colour l b r =>
      cases h
      exact List.mem_append_right _ List.mem_cons_self

theorem above_mem {path : List (Frame A)} {a : A} (h : above path = some a) : a ∈ around path := by
  cases path with
  | nil => cases h
  | cons frame path =>
      cases h
      exact (around_cons frame path).mem_iff.mpr List.mem_cons_self

/-- The root is the same whatever is at a place below it. -/
theorem root_plug {path : List (Frame A)} (h : path ≠ []) (t t' : Tree A) :
    (plug path t).root = (plug path t').root := by
  induction path generalizing t t' with
  | nil => exact absurd rfl h
  | cons frame path ih =>
      rw [plug, plug, Frame.plug_eq, Frame.plug_eq]
      cases path with
      | nil => rw [plug, plug, Tree.root_branch, Tree.root_branch]
      | cons frame' path => exact ih (List.cons_ne_nil frame' path) _ _

theorem root_plug_of_root {path : List (Frame A)} {t t' : Tree A} (h : t.root = t'.root) :
    (plug path t).root = (plug path t').root := by
  cases path with
  | nil => exact h
  | cons frame path => exact root_plug (List.cons_ne_nil frame path) t t'

/-- A rotation leaves the order as it is. -/
theorem toList_rotated (path : List (Frame A)) (side : Side) (c d : Colour) (near mid far : Tree A)
    (a b : A) : (plug path (.branch side d (.branch side c near a mid) b far)).toList =
      (plug path (.branch side c near a (.branch side d mid b far))).toList := by
  rw [toList_plug, toList_plug]
  cases side with
  | left => simp only [Tree.branch, Tree.toList, List.append_assoc, List.cons_append]
  | right => simp only [Tree.branch, Tree.toList, List.append_assoc, List.cons_append]

namespace Store

variable {s s' s'' : Store A D} {xs ys : List A} {a b elm tmp : A} {r p q : Option A}
variable {path : List (Frame A)} {t t' t'' near mid far : Tree A} {side : Side} {c d : Colour}

/-- What changes are links of the listed elements. -/
structure Keeps (s s' : Store A D) (xs : List A) : Prop where
  data : ∀ a, (s'.cells a).data = (s.cells a).data
  outside : ∀ a, a ∉ xs → s'.cells a = s.cells a

theorem Keeps.refl (s : Store A D) (xs : List A) : s.Keeps s xs := ⟨fun _ => rfl, fun _ _ => rfl⟩

theorem Keeps.trans (h : s.Keeps s' xs) (h' : s'.Keeps s'' xs) : s.Keeps s'' xs :=
  ⟨fun a => (h'.data a).trans (h.data a), fun a ha => (h'.outside a ha).trans (h.outside a ha)⟩

theorem Keeps.mono (h : s.Keeps s' xs) (hMore : ∀ a ∈ xs, a ∈ ys) : s.Keeps s' ys :=
  ⟨h.data, fun a ha => h.outside a fun hMem => ha (hMore a hMem)⟩

/-- The store holds a tree: its links are those of the tree, and no element is
there twice. -/
structure Holds (s : Store A D) (t : Tree A) : Prop where
  root : s.root = t.root
  linked : Linked s.cells none t
  nodup : t.toList.Nodup

/-- From one tree to another with the same elements in the same order, by stores
to these elements. -/
structure Reshapes (s : Store A D) (t : Tree A) (s' : Store A D) (t' : Tree A) : Prop where
  holds : s'.Holds t'
  keeps : s.Keeps s' t.toList
  order : t'.toList = t.toList

theorem Reshapes.trans (h : s.Reshapes t s' t') (h' : s'.Reshapes t' s'' t'') :
    s.Reshapes t s'' t'' :=
  ⟨h'.holds, h.keeps.trans (h.order ▸ h'.keeps), h'.order.trans h.order⟩

/-- The cell of an element. -/
theorem Holds.cell (h : s.Holds (plug path (.branch side c near a far))) :
    (s.cells a).child side = near.root ∧ (s.cells a).child side.other = far.root ∧
      (s.cells a).parent = above path ∧ (s.cells a).colour = c := by
  obtain ⟨hNear, hFar, hParent, hColour, _⟩ := linked_branch.mp (linked_plug.mp h.linked).2
  exact ⟨hNear, hFar, hParent, hColour⟩

variable [DecidableEq A]

@[simp] theorem root_modify (f : Cell A D → Cell A D) : (s.modify a f).root = s.root := rfl

theorem cells_modify (f : Cell A D → Cell A D) :
    (s.modify a f).cells b = if b = a then f (s.cells b) else s.cells b := by
  show Function.update s.cells a (f (s.cells a)) b = _
  rw [Function.update_apply]
  split_ifs with hSame
  · rw [hSame]
  · rfl

@[simp] theorem cells_modify_same (f : Cell A D → Cell A D) :
    (s.modify a f).cells a = f (s.cells a) := by
  rw [cells_modify, if_pos rfl]

theorem cells_modify_of_ne (f : Cell A D → Cell A D) (h : b ≠ a) :
    (s.modify a f).cells b = s.cells b := by
  rw [cells_modify, if_neg h]

@[simp] theorem root_setParentOf : (s.setParentOf r p).root = s.root := by
  cases r with
  | none => rfl
  | some a => rfl

theorem cells_setParentOf_of_ne (h : r ≠ some b) : (s.setParentOf r p).cells b = s.cells b := by
  cases r with
  | none => rfl
  | some a =>
      rw [setParentOf, setParent]
      exact cells_modify_of_ne _ fun hSame : b = a => h (by rw [hSame])

theorem Keeps.modify (h : s.Keeps s' xs) (ha : a ∈ xs) {f : Cell A D → Cell A D}
    (hData : ∀ c, (f c).data = c.data) : s.Keeps (s'.modify a f) xs := by
  constructor
  · intro b
    rw [← h.data b, cells_modify]
    split_ifs
    · exact hData _
    · rfl
  · intro b hb
    rw [cells_modify_of_ne f fun hSame : b = a => hb (hSame ▸ ha), h.outside b hb]

theorem Keeps.setChild (h : s.Keeps s' xs) (ha : a ∈ xs) : s.Keeps (s'.setChild side a p) xs :=
  h.modify ha fun c => Cell.data_setChild c side p

theorem Keeps.setParent (h : s.Keeps s' xs) (ha : a ∈ xs) : s.Keeps (s'.setParent a p) xs :=
  h.modify ha fun _ => rfl

theorem Keeps.setColour (h : s.Keeps s' xs) (ha : a ∈ xs) : s.Keeps (s'.setColour a c) xs :=
  h.modify ha fun _ => rfl

theorem Keeps.setParentOf (h : s.Keeps s' xs) (hr : ∀ a, r = some a → a ∈ xs) :
    s.Keeps (s'.setParentOf r p) xs := by
  cases r with
  | none => exact h
  | some a => exact h.setParent (hr a rfl)

theorem Keeps.replaceChild (h : s.Keeps s' xs) (hr : ∀ a, r = some a → a ∈ xs) :
    s.Keeps (s'.replaceChild r elm tmp) xs := by
  cases r with
  | none => exact ⟨h.data, h.outside⟩
  | some a =>
      rw [Store.replaceChild]
      split_ifs
      · exact h.setChild (hr a rfl)
      · exact h.setChild (hr a rfl)

/-- A tree below another parent. -/
theorem linked_setParentOf (h : Linked s.cells p t) (hNodup : t.toList.Nodup) :
    Linked (s.setParentOf t.root q).cells q t := by
  cases t with
  | leaf => trivial
  | node colour l a r =>
      have hNode : (Tree.branch .left colour l a r).toList.Nodup := hNodup
      obtain ⟨hl, hr, _, _, _⟩ := Tree.nodup_branch.mp hNode
      obtain ⟨hLeft, hRight, _, hColour, hLinkedLeft, hLinkedRight⟩ := h
      rw [Tree.root, setParentOf, setParent, Linked, cells_modify_same]
      refine ⟨hLeft, hRight, rfl, hColour, hLinkedLeft.congr ?_, hLinkedRight.congr ?_⟩
      · intro b hb
        exact cells_modify_of_ne _ fun hSame => hl (hSame ▸ hb)
      · intro b hb
        exact cells_modify_of_ne _ fun hSame => hr (hSame ▸ hb)

theorem cells_replaceChild_of_ne (h : r ≠ some b) :
    (s.replaceChild r elm tmp).cells b = s.cells b := by
  cases r with
  | none => rfl
  | some a =>
      have hOther : b ≠ a := fun hSame => h (by rw [hSame])
      rw [replaceChild]
      split_ifs
      · exact cells_modify_of_ne _ hOther
      · exact cells_modify_of_ne _ hOther

/-- Another tree at a place: its parent gets another child. -/
theorem surrounds_setChild {frame : Frame A} (h : Surrounds s.cells (frame :: path) r)
    (hNodup : (around (frame :: path)).Nodup) :
    Surrounds (s.setChild frame.side frame.data p).cells (frame :: path) p := by
  rw [(around_cons frame path).nodup_iff, List.cons_append, List.nodup_cons] at hNodup
  obtain ⟨hData, _⟩ := hNodup
  obtain ⟨_, hSibling, hParent, hColour, hLinked, hPath⟩ := h
  have hSame : ∀ b, b ∈ frame.sibling.toList ∨ b ∈ around path →
      (s.setChild frame.side frame.data p).cells b = s.cells b := by
    intro b hb
    exact cells_modify_of_ne _ fun hSame => hData (hSame ▸ List.mem_append.mpr hb)
  rw [Surrounds, setChild, cells_modify_same, Cell.child_setChild, Cell.child_other_setChild,
    Cell.parent_setChild, Cell.colour_setChild]
  exact ⟨rfl, hSibling, hParent, hColour, hLinked.congr fun b hb => hSame b (.inl hb),
    hPath.congr fun b hb => hSame b (.inr hb)⟩

/-- The link of the parent is the one to the element that is replaced. -/
theorem surrounds_replaceChild (h : Surrounds s.cells path (some elm)) (hNodup : (around path).Nodup)
    (hElm : elm ∉ around path) :
    Surrounds (s.replaceChild (above path) elm tmp).cells path (some tmp) := by
  cases path with
  | nil => trivial
  | cons frame path =>
      have hStore : s.replaceChild (some frame.data) elm tmp =
          s.setChild frame.side frame.data (some tmp) := by
        rw [replaceChild]
        cases hSide : frame.side with
        | left =>
            have hChild := h.1
            rw [hSide] at hChild
            exact if_pos hChild
        | right =>
            have hSibling := h.2.1
            rw [hSide] at hSibling
            apply if_neg
            intro hSame
            have hMem := Tree.root_mem (hSibling.symm.trans hSame)
            exact hElm ((around_cons frame path).mem_iff.mpr
              (List.mem_cons_of_mem _ (List.mem_append_left _ hMem)))
      rw [above_cons, hStore]
      exact surrounds_setChild h hNodup

/-- Stores to other elements do not matter to the tree. -/
theorem Holds.modify (h : s.Holds t) (ha : a ∉ t.toList) (f : Cell A D → Cell A D) :
    (s.modify a f).Holds t :=
  ⟨h.root, h.linked.congr fun b hb => cells_modify_of_ne f fun hSame : b = a => ha (hSame ▸ hb), h.nodup⟩

theorem Holds.setColour (h : s.Holds (plug path (.branch side c near a far))) (d : Colour) :
    s.Reshapes (plug path (.branch side c near a far)) (s.setColour a d)
      (plug path (.branch side d near a far)) := by
  obtain ⟨hSurrounds, hLinked⟩ := linked_plug.mp h.linked
  obtain ⟨hNear, hFar, hParent, _, hLinkedNear, hLinkedFar⟩ := linked_branch.mp hLinked
  obtain ⟨hTree, _, hApart⟩ := nodup_plug.mp h.nodup
  obtain ⟨hNotNear, hNotFar, _⟩ := Tree.nodup_branch.mp hTree
  have hNotAround : a ∉ around path := hApart (Tree.mem_branch.mpr (.inl rfl))
  have hSame : ∀ ys : List A, a ∉ ys → ∀ b ∈ ys, (s.setColour a d).cells b = s.cells b :=
    fun ys ha b hb => cells_modify_of_ne _ fun hSame : b = a => ha (hSame ▸ hb)
  have hOrder : (plug path (.branch side d near a far)).toList =
      (plug path (.branch side c near a far)).toList := by
    rw [toList_plug, toList_plug, Tree.toList_branch side d c]
  refine ⟨⟨?_, ?_, ?_⟩, ?_, hOrder⟩
  · rw [Store.setColour, root_modify, h.root]
    exact root_plug_of_root (by rw [Tree.root_branch, Tree.root_branch])
  · rw [linked_plug, linked_branch, Tree.root_branch, Store.setColour, cells_modify_same,
      Cell.child_setColour, Cell.child_setColour, Cell.parent_setColour, Cell.colour_setColour]
    rw [Tree.root_branch] at hSurrounds
    exact ⟨hSurrounds.congr (hSame _ hNotAround), hNear, hFar, hParent, rfl,
      hLinkedNear.congr (hSame _ hNotNear), hLinkedFar.congr (hSame _ hNotFar)⟩
  · rw [hOrder]
    exact h.nodup
  · exact (Keeps.refl s _).setColour (mem_plug.mpr (.inl (Tree.mem_branch.mpr (.inl rfl))))

theorem cells_setParent_of_ne (h : b ≠ a) : (s.setParent a p).cells b = s.cells b :=
  cells_modify_of_ne _ h

theorem cells_setChild_of_ne (h : b ≠ a) : (s.setChild side a p).cells b = s.cells b :=
  cells_modify_of_ne _ h

/-- The stores of a rotation that lifts `tmp` above `elm`. -/
def rotated (s : Store A D) (side : Side) (elm tmp : A) (inner parent : Option A) : Store A D :=
  (((((s.setChild side.other elm inner).setParentOf inner (some elm)).setParent tmp parent).replaceChild
    parent elm tmp).setChild side tmp (some elm)).setParent elm (some tmp)

theorem rotate_eq (hTmp : (s.cells elm).child side.other = some tmp)
    (hInner : (s.cells tmp).child side ≠ some elm) :
    s.rotate side elm =
      some (s.rotated side elm tmp ((s.cells tmp).child side) (s.cells elm).parent) := by
  have hParent : ((s.setChild side.other elm ((s.cells tmp).child side)).setParentOf
      ((s.cells tmp).child side) (some elm)).cells elm =
      (s.cells elm).setChild ((s.cells tmp).child side) side.other := by
    rw [cells_setParentOf_of_ne hInner, setChild, cells_modify_same]
  rw [rotate, hTmp]
  dsimp only
  rw [hParent, Cell.parent_setChild, rotated]

theorem cells_rotated_elm (hInner : r ≠ some elm) (hParent : p ≠ some elm) (hTmp : elm ≠ tmp) :
    (s.rotated side elm tmp r p).cells elm =
      ((s.cells elm).setChild r side.other).setParent (some tmp) := by
  rw [rotated, setParent, cells_modify_same, cells_setChild_of_ne hTmp,
    cells_replaceChild_of_ne hParent, cells_setParent_of_ne hTmp, cells_setParentOf_of_ne hInner,
    setChild, cells_modify_same]

theorem cells_rotated_tmp (hInner : r ≠ some tmp) (hParent : p ≠ some tmp) (hElm : tmp ≠ elm) :
    (s.rotated side elm tmp r p).cells tmp =
      ((s.cells tmp).setParent p).setChild (some elm) side := by
  rw [rotated, cells_setParent_of_ne hElm, setChild, cells_modify_same,
    cells_replaceChild_of_ne hParent, setParent, cells_modify_same, cells_setParentOf_of_ne hInner,
    cells_setChild_of_ne hElm]

/-- The passed on child, and everything that is not near the rotation. -/
theorem cells_rotated_of_ne (hElm : b ≠ elm) (hTmp : b ≠ tmp) (hParent : p ≠ some b) :
    (s.rotated side elm tmp r p).cells b = (s.setParentOf r (some elm)).cells b := by
  rw [rotated, cells_setParent_of_ne hElm, cells_setChild_of_ne hTmp,
    cells_replaceChild_of_ne hParent, cells_setParent_of_ne hTmp]
  cases r with
  | none => exact cells_setChild_of_ne hElm
  | some a =>
      rw [setParentOf, setParentOf, setParent, setParent, cells_modify, cells_modify,
        cells_setChild_of_ne hElm]

theorem keeps_rotated (hElm : elm ∈ xs) (hTmp : tmp ∈ xs) (hInner : ∀ a, r = some a → a ∈ xs)
    (hParent : ∀ a, p = some a → a ∈ xs) : s.Keeps (s.rotated side elm tmp r p) xs := by
  have hFirst : s.Keeps ((s.setChild side.other elm r).setParentOf r (some elm)) xs :=
    ((Keeps.refl s xs).setChild hElm).setParentOf hInner
  exact (((hFirst.setParent hTmp).replaceChild hParent).setChild hTmp).setParent hElm

theorem surrounds_rotated (h : Surrounds s.cells path (some elm)) (hNodup : (around path).Nodup)
    (hElm : elm ∉ around path) (hTmp : tmp ∉ around path) (hInner : ∀ a, r = some a → a ∉ around path) :
    Surrounds (s.rotated side elm tmp r (above path)).cells path (some tmp) := by
  have hBefore : Surrounds ((((s.setChild side.other elm r).setParentOf r (some elm)).setParent tmp
      (above path))).cells path (some elm) := by
    apply h.congr
    intro b hb
    rw [cells_setParent_of_ne fun hSame : b = tmp => hTmp (hSame ▸ hb),
      cells_setParentOf_of_ne fun hSame => hInner b hSame hb,
      cells_setChild_of_ne fun hSame : b = elm => hElm (hSame ▸ hb)]
  apply (surrounds_replaceChild hBefore hNodup hElm).congr
  intro b hb
  rw [rotated, cells_setParent_of_ne fun hSame : b = elm => hElm (hSame ▸ hb),
    cells_setChild_of_ne fun hSame : b = tmp => hTmp (hSame ▸ hb)]

theorem root_replaceChild (hRoot : s.root = (plug path t).root) (h : t'.root = some tmp) :
    (s.replaceChild (above path) elm tmp).root = (plug path t').root := by
  cases path with
  | nil => exact h.symm
  | cons frame path =>
      rw [root_plug (List.cons_ne_nil frame path) t' t, ← hRoot, above_cons, replaceChild]
      split_ifs <;> rfl

/-- A rotation: the far child comes up and passes its near child on. -/
theorem Holds.rotate
    (h : s.Holds (plug path (.branch side c near a (.branch side d mid b far)))) :
    ∃ s', s.rotate side a = some s' ∧
      s.Reshapes (plug path (.branch side c near a (.branch side d mid b far))) s'
        (plug path (.branch side d (.branch side c near a mid) b far)) := by
  obtain ⟨hSurrounds, hLinked⟩ := linked_plug.mp h.linked
  obtain ⟨hNear, hFar, hParent, hColour, hLinkedNear, hLinkedFar⟩ := linked_branch.mp hLinked
  obtain ⟨hMid, hEnd, hParent', hColour', hLinkedMid, hLinkedEnd⟩ := linked_branch.mp hLinkedFar
  obtain ⟨hTree, hAround, hApart⟩ := nodup_plug.mp h.nodup
  obtain ⟨haNear, haFar, hNodupNear, hNodupFar, hNearFar⟩ := Tree.nodup_branch.mp hTree
  obtain ⟨hbMid, hbEnd, hNodupMid, hNodupEnd, hMidEnd⟩ := Tree.nodup_branch.mp hNodupFar
  simp only [List.Disjoint, Tree.mem_branch, not_or] at haFar hNearFar hApart
  obtain ⟨hab, haMid, haEnd⟩ := haFar
  rw [Tree.root_branch] at hFar hSurrounds
  have haAround : a ∉ around path := hApart (.inl rfl)
  have hbAround : b ∉ around path := hApart (.inr (.inr (.inl rfl)))
  have hElm : mid.root ≠ some a := fun hRoot => haMid (Tree.root_mem hRoot)
  have hTmp : mid.root ≠ some b := fun hRoot => hbMid (Tree.root_mem hRoot)
  have hParentElm : above path ≠ some a := fun hAbove => haAround (above_mem hAbove)
  have hParentTmp : above path ≠ some b := fun hAbove => hbAround (above_mem hAbove)
  have hRun := rotate_eq hFar (by rw [hMid]; exact hElm)
  rw [hMid, hParent] at hRun
  have hOther : ∀ z, z ≠ a → z ≠ b → z ∉ around path → (s.rotated side a b mid.root (above path)).cells z =
      (s.setParentOf mid.root (some a)).cells z :=
    fun z hza hzb hz => cells_rotated_of_ne hza hzb fun hAbove => hz (above_mem hAbove)
  have hSame : ∀ z, z ≠ a → z ≠ b → z ∉ around path → z ∉ mid.toList →
      (s.rotated side a b mid.root (above path)).cells z = s.cells z := by
    intro z hza hzb hz hzMid
    rw [hOther z hza hzb hz, cells_setParentOf_of_ne fun hRoot => hzMid (Tree.root_mem hRoot)]
  refine ⟨_, hRun, ⟨?_, ?_, ?_⟩, ?_, toList_rotated ..⟩
  · exact root_replaceChild (root_setParentOf.trans h.root) (Tree.root_branch ..)
  · rw [linked_plug, Tree.root_branch, linked_branch, linked_branch, Tree.root_branch,
      cells_rotated_elm hElm hParentElm hab, cells_rotated_tmp hTmp hParentTmp (Ne.symm hab)]
    simp only [Cell.child_setChild, Cell.child_other_setChild, Cell.parent_setChild,
      Cell.colour_setChild, Cell.child_setParent, Cell.parent_setParent, Cell.colour_setParent,
      Cell.child_setChild_other]
    refine ⟨surrounds_rotated hSurrounds hAround haAround hbAround ?_, trivial, hEnd, trivial, hColour',
      ⟨hNear, trivial, trivial, hColour, ?_, ?_⟩, ?_⟩
    · exact fun z hRoot => hApart (.inr (.inr (.inr (.inl (Tree.root_mem hRoot)))))
    · apply hLinkedNear.congr
      intro z hz
      exact hSame z (fun hSame => haNear (hSame ▸ hz)) (fun hzb => hNearFar hz (.inl hzb))
        (hApart (.inr (.inl hz))) fun hzMid => hNearFar hz (.inr (.inl hzMid))
    · apply (linked_setParentOf hLinkedMid hNodupMid).congr
      intro z hz
      exact hOther z (fun hSame => haMid (hSame ▸ hz)) (fun hSame => hbMid (hSame ▸ hz))
        (hApart (.inr (.inr (.inr (.inl hz)))))
    · apply hLinkedEnd.congr
      intro z hz
      exact hSame z (fun hSame => haEnd (hSame ▸ hz)) (fun hSame => hbEnd (hSame ▸ hz))
        (hApart (.inr (.inr (.inr (.inr hz))))) (fun hzMid => hMidEnd hzMid hz)
  · rw [toList_rotated]
    exact h.nodup
  · apply keeps_rotated
    · exact mem_plug.mpr (.inl (Tree.mem_branch.mpr (.inl rfl)))
    · exact mem_plug.mpr (.inl (Tree.mem_branch.mpr (.inr (.inr (Tree.mem_branch.mpr (.inl rfl))))))
    · intro z hRoot
      have hzMid : z ∈ (Tree.branch side d mid b far).toList :=
        Tree.mem_branch.mpr (.inr (.inl (Tree.root_mem hRoot)))
      exact mem_plug.mpr (.inl (Tree.mem_branch.mpr (.inr (.inr hzMid))))
    · exact fun z hAbove => mem_plug.mpr (.inr (above_mem hAbove))

end Store

end RedBlack
