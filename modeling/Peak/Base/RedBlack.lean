import Peak.Base.Search

/-! The red-black trees of `sys/tree.h`: insertion with its descent along the
comparisons and its rotations on the way back. Elements are told apart by the
comparison only, which need not be an order. -/
namespace RedBlack

open Search

/-- The colour of a node. -/
inductive Colour where
  | red
  | black
deriving DecidableEq, Repr

inductive Tree (α : Type*) where
  | leaf
  | node (colour : Colour) (left : Tree α) (data : α) (right : Tree α)
deriving DecidableEq, Repr

variable {α : Type*}

namespace Tree

/-- The elements as `RB_FOREACH` visits them. -/
def toList : Tree α → List α
  | leaf => []
  | node _ left data right => left.toList ++ data :: right.toList

def isRed : Tree α → Bool
  | node .red _ _ _ => true
  | _ => false

def blacken : Tree α → Tree α
  | leaf => leaf
  | node _ left data right => node .black left data right

@[simp] theorem toList_blacken (t : Tree α) : t.blacken.toList = t.toList := by
  cases t with
  | leaf => rfl
  | node colour left data right => rfl

end Tree

/-- A parent, seen from its child: whether that is the left or the right one,
and what the parent has besides. -/
inductive Frame (α : Type*) where
  | left (colour : Colour) (data : α) (sibling : Tree α)
  | right (colour : Colour) (sibling : Tree α) (data : α)
deriving Repr

namespace Frame

/-- The parent with the child put in. -/
def plug : Frame α → Tree α → Tree α
  | .left colour data sibling, child => .node colour child data sibling
  | .right colour sibling data, child => .node colour sibling data child

/-- The elements in front of the child, as far as the parent has them. -/
def before : Frame α → List α
  | .left _ _ _ => []
  | .right _ sibling data => sibling.toList ++ [data]

/-- The elements behind the child. -/
def behind : Frame α → List α
  | .left _ data sibling => data :: sibling.toList
  | .right _ _ _ => []

end Frame

/-- The tree around a node, from its parent to the root. -/
def plug : List (Frame α) → Tree α → Tree α
  | [], t => t
  | frame :: path, t => plug path (frame.plug t)

/-- All elements in front of the node. -/
def before : List (Frame α) → List α
  | [] => []
  | frame :: path => before path ++ frame.before

/-- All elements behind the node. -/
def behind : List (Frame α) → List α
  | [] => []
  | frame :: path => frame.behind ++ behind path

/-- `RB_INSERT_COLOR` for a red node at the end of the path. A red parent has a
parent of its own, since the root is black. -/
def insertColor : List (Frame α) → Tree α → α → Tree α → Tree α
  | .left .red p c :: .left _ g uncle :: path, a, x, b =>
      if uncle.isRed then
        insertColor path (.node .black (.node .red a x b) p c) g uncle.blacken
      else (plug path (.node .black (.node .red a x b) p (.node .red c g uncle))).blacken
  | .right .red c p :: .left _ g uncle :: path, a, x, b =>
      if uncle.isRed then
        insertColor path (.node .black c p (.node .red a x b)) g uncle.blacken
      else (plug path (.node .black (.node .red c p a) x (.node .red b g uncle))).blacken
  | .right .red c p :: .right _ uncle g :: path, a, x, b =>
      if uncle.isRed then
        insertColor path uncle.blacken g (.node .black c p (.node .red a x b))
      else (plug path (.node .black (.node .red uncle g c) p (.node .red a x b))).blacken
  | .left .red p c :: .right _ uncle g :: path, a, x, b =>
      if uncle.isRed then
        insertColor path uncle.blacken g (.node .black (.node .red a x b) p c)
      else (plug path (.node .black (.node .red uncle g a) x (.node .red b p c))).blacken
  | path, a, x, b => (plug path (.node .red a x b)).blacken

/-- The descent of `RB_INSERT`: the place of a new element, or the element that
it compares equal to. -/
def descend (cmp : α → Ordering) : List (Frame α) → Tree α → Except α (List (Frame α))
  | path, .leaf => .ok path
  | path, .node colour left data right =>
      match cmp data with
      | .lt => descend cmp (.left colour data right :: path) left
      | .gt => descend cmp (.right colour left data :: path) right
      | .eq => .error data

/-- `RB_INSERT`. It returns the element that is in the way, if there is one. -/
def insert (cmp : α → Ordering) (elm : α) (t : Tree α) : Except α (Tree α) :=
  match descend cmp [] t with
  | .error tmp => .error tmp
  | .ok path => .ok (insertColor path .leaf elm .leaf)

attribute [simp] Tree.toList Frame.plug Frame.before Frame.behind plug before behind

theorem toList_plug (path : List (Frame α)) (t : Tree α) :
    (plug path t).toList = before path ++ t.toList ++ behind path := by
  induction path generalizing t with
  | nil => simp
  | cons frame path ih =>
      rw [plug, ih]
      cases frame with
      | left colour data sibling => simp
      | right colour sibling data => simp

/-- Rotating and recolouring keeps the elements in order. -/
theorem toList_insertColor (path : List (Frame α)) (a : Tree α) (x : α) (b : Tree α) :
    (insertColor path a x b).toList = before path ++ (a.toList ++ x :: b.toList) ++ behind path := by
  fun_induction insertColor path a x b with
  | case1 p c colour g uncle path a x b hRed ih => simp [ih]
  | case2 p c colour g uncle path a x b hBlack => simp [toList_plug]
  | case3 c p colour g uncle path a x b hRed ih => simp [ih]
  | case4 c p colour g uncle path a x b hBlack => simp [toList_plug]
  | case5 c p colour uncle g path a x b hRed ih => simp [ih]
  | case6 c p colour uncle g path a x b hBlack => simp [toList_plug]
  | case7 p c colour uncle g path a x b hRed ih => simp [ih]
  | case8 p c colour uncle g path a x b hBlack => simp [toList_plug]
  | case9 path a x b _ _ _ _ => simp [toList_plug]

variable {cmp : α → Ordering} {elm met : α} {t t' : Tree α} {path path' : List (Frame α)}

/-- The descent stops at an element only if that compares equal. -/
theorem descend_error (h : descend cmp path t = .error met) : met ∈ t.toList ∧ cmp met = .eq := by
  induction t generalizing path with
  | leaf => cases h
  | node colour left data right ihLeft ihRight =>
      rw [descend] at h
      cases hCmp : cmp data with
      | lt =>
          simp only [hCmp] at h
          obtain ⟨hMem, hEq⟩ := ihLeft h
          exact ⟨by simp [hMem], hEq⟩
      | eq =>
          simp only [hCmp, Except.error.injEq] at h
          subst h
          exact ⟨by simp, hCmp⟩
      | gt =>
          simp only [hCmp] at h
          obtain ⟨hMem, hEq⟩ := ihRight h
          exact ⟨by simp [hMem], hEq⟩

/-- Otherwise it ends between the elements that the new one is above and those
that it is below. -/
theorem descend_ok (hPart : Partitioned cmp t.toList) (h : descend cmp path t = .ok path')
    (hBefore : ∀ x ∈ before path, cmp x = .gt) (hBehind : ∀ x ∈ behind path, cmp x = .lt) :
    before path' ++ behind path' = before path ++ t.toList ++ behind path ∧
      (∀ x ∈ before path', cmp x = .gt) ∧ ∀ x ∈ behind path', cmp x = .lt := by
  induction t generalizing path with
  | leaf =>
      cases h
      exact ⟨by simp, hBefore, hBehind⟩
  | node colour left data right ihLeft ihRight =>
      rw [descend] at h
      obtain ⟨hLeft, hRight, hCross⟩ := List.pairwise_append.mp hPart
      obtain ⟨hData, hRight⟩ := List.pairwise_cons.mp hRight
      cases hCmp : cmp data with
      | lt =>
          simp only [hCmp] at h
          have hNext : ∀ x ∈ behind (.left colour data right :: path), cmp x = .lt := by
            intro x hMem
            simp only [behind, Frame.behind, List.cons_append, List.mem_cons, List.mem_append] at hMem
            rcases hMem with rfl | hMem | hMem
            · exact hCmp
            · exact (hData x hMem).1 hCmp
            · exact hBehind x hMem
          obtain ⟨hList, hGt, hLt⟩ := ihLeft hLeft h (by simpa using hBefore) hNext
          exact ⟨by simpa using hList, hGt, hLt⟩
      | eq => simp only [hCmp, reduceCtorEq] at h
      | gt =>
          simp only [hCmp] at h
          have hNext : ∀ x ∈ before (.right colour left data :: path), cmp x = .gt := by
            intro x hMem
            simp only [before, Frame.before, List.mem_append, List.mem_singleton] at hMem
            rcases hMem with hMem | hMem | rfl
            · exact hBefore x hMem
            · exact (hCross x hMem data List.mem_cons_self).2 hCmp
            · exact hCmp
          obtain ⟨hList, hGt, hLt⟩ := ihRight hRight h hNext (by simpa using hBehind)
          exact ⟨by simpa using hList, hGt, hLt⟩

/-- Insertion is refused because of an element that compares equal. -/
theorem insert_error (h : insert cmp elm t = .error met) : met ∈ t.toList ∧ cmp met = .eq := by
  rw [insert] at h
  cases hDescend : descend cmp [] t with
  | error tmp =>
      rw [hDescend] at h
      cases h
      exact descend_error hDescend
  | ok path =>
      rw [hDescend] at h
      cases h

/-- Otherwise the element goes between those that it is above and those that it
is below. -/
theorem insert_ok (hPart : Partitioned cmp t.toList) (h : insert cmp elm t = .ok t') :
    ∃ front back, t.toList = front ++ back ∧ t'.toList = front ++ elm :: back ∧
      (∀ x ∈ front, cmp x = .gt) ∧ ∀ x ∈ back, cmp x = .lt := by
  rw [insert] at h
  cases hDescend : descend cmp [] t with
  | error tmp =>
      rw [hDescend] at h
      cases h
  | ok path =>
      rw [hDescend] at h
      cases h
      obtain ⟨hList, hGt, hLt⟩ := descend_ok hPart hDescend (by simp) (by simp)
      refine ⟨before path, behind path, ?_, ?_, hGt, hLt⟩
      · simpa using hList.symm
      · simp [toList_insertColor]

/-- Whatever the comparison is, the new element goes between two that it was
compared with. -/
theorem descend_between (h : descend cmp path t = .ok path')
    (hBefore : ∀ x ∈ (before path).getLast?, cmp x = .gt)
    (hBehind : ∀ x ∈ (behind path).head?, cmp x = .lt) :
    before path' ++ behind path' = before path ++ t.toList ++ behind path ∧
      (∀ x ∈ (before path').getLast?, cmp x = .gt) ∧ ∀ x ∈ (behind path').head?, cmp x = .lt := by
  induction t generalizing path with
  | leaf =>
      cases h
      exact ⟨by simp, hBefore, hBehind⟩
  | node colour left data right ihLeft ihRight =>
      rw [descend] at h
      cases hCmp : cmp data with
      | lt =>
          simp only [hCmp] at h
          obtain ⟨hList, hGt, hLt⟩ := ihLeft h (by simpa using hBefore) (by simpa using hCmp)
          exact ⟨by simpa using hList, hGt, hLt⟩
      | eq => simp only [hCmp, reduceCtorEq] at h
      | gt =>
          simp only [hCmp] at h
          obtain ⟨hList, hGt, hLt⟩ := ihRight h (by simpa using hCmp) (by simpa using hBehind)
          exact ⟨by simpa using hList, hGt, hLt⟩

theorem insert_between (h : insert cmp elm t = .ok t') :
    ∃ front back, t.toList = front ++ back ∧ t'.toList = front ++ elm :: back ∧
      (∀ x ∈ front.getLast?, cmp x = .gt) ∧ ∀ x ∈ back.head?, cmp x = .lt := by
  rw [insert] at h
  cases hDescend : descend cmp [] t with
  | error tmp =>
      rw [hDescend] at h
      cases h
  | ok path =>
      rw [hDescend] at h
      cases h
      obtain ⟨hList, hGt, hLt⟩ := descend_between hDescend (by simp) (by simp)
      refine ⟨before path, behind path, ?_, ?_, hGt, hLt⟩
      · simpa using hList.symm
      · simp [toList_insertColor]

/-! Insertion does not look into the elements but for the comparison. -/

variable {β : Type*}

/-- The tree with other elements. -/
def Tree.map (f : α → β) : Tree α → Tree β
  | leaf => leaf
  | node colour left data right => node colour (left.map f) (f data) (right.map f)

def Frame.map (f : α → β) : Frame α → Frame β
  | .left colour data sibling => .left colour (f data) (sibling.map f)
  | .right colour sibling data => .right colour (sibling.map f) (f data)

variable {f g : α → β}

@[simp] theorem toList_map (t : Tree α) : (t.map f).toList = t.toList.map f := by
  induction t with
  | leaf => rfl
  | node colour left data right ihLeft ihRight => simp [Tree.map, ihLeft, ihRight]

@[simp] theorem isRed_map (t : Tree α) : (t.map f).isRed = t.isRed := by
  cases t with
  | leaf => rfl
  | node colour left data right => cases colour <;> rfl

@[simp] theorem blacken_map (t : Tree α) : (t.map f).blacken = t.blacken.map f := by
  cases t with
  | leaf => rfl
  | node colour left data right => rfl

@[simp] theorem plug_map (path : List (Frame α)) (t : Tree α) :
    plug (path.map (Frame.map f)) (t.map f) = (plug path t).map f := by
  induction path generalizing t with
  | nil => rfl
  | cons frame path ih =>
      rw [List.map_cons, plug, plug, ← ih]
      cases frame <;> rfl

theorem Tree.map_congr (h : ∀ x ∈ t.toList, f x = g x) : t.map f = t.map g := by
  induction t with
  | leaf => rfl
  | node colour left data right ihLeft ihRight =>
      simp only [toList, List.mem_append, List.mem_cons] at h
      rw [map, map, ihLeft fun x hx => h x (.inl hx), h data (.inr (.inl rfl)),
        ihRight fun x hx => h x (.inr (.inr hx))]

theorem insertColor_map (path : List (Frame α)) (a : Tree α) (x : α) (b : Tree α) :
    insertColor (path.map (Frame.map f)) (a.map f) (f x) (b.map f) = (insertColor path a x b).map f := by
  fun_induction insertColor path a x b with
  | case1 p c colour g uncle path a x b hRed ih | case3 c p colour g uncle path a x b hRed ih
  | case5 c p colour uncle g path a x b hRed ih | case7 p c colour uncle g path a x b hRed ih =>
      simp only [List.map_cons, Frame.map, insertColor, isRed_map, hRed, if_true, blacken_map]
      exact ih
  | case2 p c colour g uncle path a x b hBlack | case4 c p colour g uncle path a x b hBlack
  | case6 c p colour uncle g path a x b hBlack | case8 p c colour uncle g path a x b hBlack =>
      simp only [List.map_cons, Frame.map, insertColor, isRed_map, hBlack, Bool.false_eq_true, if_false]
      rw [← blacken_map, ← plug_map]
      rfl
  | case9 path a x b h₁ h₂ h₃ h₄ =>
      rw [← blacken_map, ← plug_map]
      -- the path has no red parent with a grandparent, so it shows no other case
      rcases path with _ | ⟨⟨_ | _, p, c⟩ | ⟨_ | _, c, p⟩, _ | ⟨⟨k, g, uncle⟩ | ⟨k, uncle, g⟩, path⟩⟩
      all_goals
        first
        | rfl
        | exact (h₁ _ _ _ _ _ _ rfl).elim
        | exact (h₂ _ _ _ _ _ _ rfl).elim
        | exact (h₃ _ _ _ _ _ _ rfl).elim
        | exact (h₄ _ _ _ _ _ _ rfl).elim

theorem descend_map {cmp : β → Ordering} (path : List (Frame α)) (t : Tree α) :
    descend cmp (path.map (Frame.map f)) (t.map f) =
      (match descend (fun x => cmp (f x)) path t with
        | .error met => .error (f met)
        | .ok path' => .ok (path'.map (Frame.map f))) := by
  induction t generalizing path with
  | leaf => rfl
  | node colour left data right ihLeft ihRight =>
      rw [Tree.map, descend, descend]
      cases cmp (f data) with
      | lt => exact ihLeft (.left colour data right :: path)
      | eq => rfl
      | gt => exact ihRight (.right colour left data :: path)

/-- Insertion into a tree of other elements that compare the same. -/
theorem insert_map (cmp : β → Ordering) (f : α → β) (elm : α) (t : Tree α) :
    insert cmp (f elm) (t.map f) =
      (match insert (fun x => cmp (f x)) elm t with
        | .error met => .error (f met)
        | .ok t' => .ok (t'.map f)) := by
  have hDescend : descend cmp (([] : List (Frame α)).map (Frame.map f)) (t.map f) = _ := descend_map [] t
  rw [List.map_nil] at hDescend
  rw [insert, insert, hDescend]
  cases descend (fun x => cmp (f x)) [] t with
  | error met => rfl
  | ok path => exact congrArg Except.ok (insertColor_map path .leaf elm .leaf)

end RedBlack
