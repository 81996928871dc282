import Mathlib.Algebra.Group.Nat.Defs
import Peak.Base.Insertion

/-! Red-black trees are balanced: no red node has a red child, and all ways from
the root to a missing child pass the same number of black nodes. Insertion keeps
this, so the way to any element stays short. -/
namespace RedBlack

variable {A : Type} {n m : Nat} {side : Side} {colour : Colour} {a x : A} {l r near far t : Tree A}
variable {f : Frame A} {path : List (Frame A)}

namespace Tree

/-- There are `n` black nodes on every way down, and no two red ones in a row. -/
inductive Balanced : Nat → Tree A → Prop where
  | leaf : Balanced 0 .leaf
  | red {n : Nat} {l r : Tree A} (a : A) (hLeft : l.isRed = false) (hRight : r.isRed = false) :
      Balanced n l → Balanced n r → Balanced n (.node .red l a r)
  | black {n : Nat} {l r : Tree A} (a : A) :
      Balanced n l → Balanced n r → Balanced (n + 1) (.node .black l a r)

@[simp] theorem isRed_branch : (branch side colour near a far).isRed = (colour == .red) := by
  cases side <;> cases colour <;> rfl

theorem balanced_red : (branch side .red near a far).Balanced n ↔
    near.isRed = false ∧ far.isRed = false ∧ near.Balanced n ∧ far.Balanced n := by
  cases side with
  | left =>
      constructor
      · rintro (_ | ⟨_, hNear, hFar, hNearBalanced, hFarBalanced⟩)
        exact ⟨hNear, hFar, hNearBalanced, hFarBalanced⟩
      · rintro ⟨hNear, hFar, hNearBalanced, hFarBalanced⟩
        exact .red a hNear hFar hNearBalanced hFarBalanced
  | right =>
      constructor
      · rintro (_ | ⟨_, hFar, hNear, hFarBalanced, hNearBalanced⟩)
        exact ⟨hNear, hFar, hNearBalanced, hFarBalanced⟩
      · rintro ⟨hNear, hFar, hNearBalanced, hFarBalanced⟩
        exact .red a hFar hNear hFarBalanced hNearBalanced

theorem balanced_black : (branch side .black near a far).Balanced m ↔
    ∃ n, m = n + 1 ∧ near.Balanced n ∧ far.Balanced n := by
  cases side with
  | left =>
      constructor
      · rintro (_ | _ | ⟨_, hNear, hFar⟩)
        exact ⟨_, rfl, hNear, hFar⟩
      · rintro ⟨n, rfl, hNear, hFar⟩
        exact .black a hNear hFar
  | right =>
      constructor
      · rintro (_ | _ | ⟨_, hFar, hNear⟩)
        exact ⟨_, rfl, hNear, hFar⟩
      · rintro ⟨n, rfl, hNear, hFar⟩
        exact .black a hFar hNear

theorem Balanced.branch_black (hNear : near.Balanced n) (hFar : far.Balanced n) :
    (branch side .black near a far).Balanced (n + 1) :=
  balanced_black.mpr ⟨n, rfl, hNear, hFar⟩

/-- A red root that becomes black makes all ways one black node longer. -/
theorem Balanced.blacken_red (h : t.Balanced n) (hRed : t.isRed) : t.blacken.Balanced (n + 1) := by
  cases h with
  | leaf => cases hRed
  | red a hLeft hRight hLeftBalanced hRightBalanced => exact .black a hLeftBalanced hRightBalanced
  | black a hLeftBalanced hRightBalanced => cases hRed

theorem blacken_of_not_red (h : t.isRed = false) : t.blacken = t := by
  cases t with
  | leaf => rfl
  | node colour l a r =>
      cases colour with
      | red => cases h
      | black => rfl

theorem isRed_blacken (t : Tree A) : t.blacken.isRed = false := by
  cases t with
  | leaf => rfl
  | node colour l a r => rfl

/-- A red root may always become black. -/
theorem Balanced.blacken (h : t.Balanced n) : ∃ m, t.blacken.Balanced m := by
  cases hRed : t.isRed with
  | false => exact ⟨n, (blacken_of_not_red hRed).symm ▸ h⟩
  | true => exact ⟨n + 1, h.blacken_red hRed⟩

/-- The longest way down. -/
def depth : Tree A → Nat
  | leaf => 0
  | node _ l _ r => max l.depth r.depth + 1

theorem depth_branch : (branch side colour near a far).depth = max near.depth far.depth + 1 := by
  cases side with
  | left => rfl
  | right => rw [branch, depth, Nat.max_comm]

/-- At most every other node on the way is red. -/
theorem Balanced.depth_le (h : t.Balanced n) : t.depth ≤ 2 * n + t.isRed.toNat := by
  induction h with
  | leaf => exact Nat.zero_le _
  | red a hLeft hRight _ _ ihLeft ihRight =>
      rw [hLeft] at ihLeft
      rw [hRight] at ihRight
      rw [depth]
      exact Nat.succ_le_succ (Nat.max_le.mpr ⟨ihLeft, ihRight⟩)
  | @black n l r a _ _ ihLeft ihRight =>
      have hLeft := Bool.toNat_le l.isRed
      have hRight := Bool.toNat_le r.isRed
      rw [depth]
      have hMax : max l.depth r.depth ≤ 2 * n + 1 := Nat.max_le.mpr ⟨by omega, by omega⟩
      omega

/-- Black nodes only make a full tree. -/
theorem Balanced.size_le (h : t.Balanced n) : 2 ^ n ≤ t.toList.length + 1 := by
  induction h with
  | leaf => exact Nat.le_refl _
  | red a _ _ _ _ ihLeft ihRight =>
      rw [toList, List.length_append, List.length_cons]
      omega
  | black a _ _ ihLeft ihRight =>
      rw [toList, List.length_append, List.length_cons, Nat.pow_succ]
      omega

/-- The longest way below a black root. -/
theorem Balanced.depth_le_log (h : t.Balanced n) (hBlack : t.isRed = false) :
    t.depth ≤ 2 * (t.toList.length + 1).log2 := by
  have hDepth := h.depth_le
  have hLog : n ≤ (t.toList.length + 1).log2 := (Nat.le_log2 (Nat.succ_ne_zero _)).mpr h.size_le
  rw [hBlack, Bool.toNat_false] at hDepth
  omega

end Tree

/-- A red node may be put below the path. -/
def TakesRed (path : List (Frame A)) : Prop := ∀ f ∈ path.head?, f.colour = .black

/-- A tree with `n` black nodes on every way down fits below the path. -/
def Fits : Nat → List (Frame A) → Prop
  | _, [] => True
  | n, f :: path =>
      f.sibling.Balanced n ∧
        match f.colour with
        | .red => f.sibling.isRed = false ∧ TakesRed path ∧ Fits n path
        | .black => Fits (n + 1) path

theorem fits_red (hRed : f.colour = .red) : Fits n (f :: path) ↔
    f.sibling.Balanced n ∧ f.sibling.isRed = false ∧ TakesRed path ∧ Fits n path := by
  rw [Fits, hRed]

theorem fits_black (hBlack : f.colour = .black) :
    Fits n (f :: path) ↔ f.sibling.Balanced n ∧ Fits (n + 1) path := by
  rw [Fits, hBlack]

theorem takesRed_cons : TakesRed (f :: path) ↔ f.colour = .black := by
  constructor
  · exact fun h => h f rfl
  · intro h f' hMem
    cases hMem
    exact h

/-- A tree is balanced if what is at a place and what is around it fit. -/
theorem balanced_plug : (∃ m, (plug path t).Balanced m) ↔
    ∃ n, t.Balanced n ∧ Fits n path ∧ (t.isRed → TakesRed path) := by
  induction path generalizing t with
  | nil => exact ⟨fun ⟨m, h⟩ => ⟨m, h, trivial, fun _ _ hf => absurd hf (Option.not_mem_none _)⟩,
      fun ⟨n, h, _⟩ => ⟨n, h⟩⟩
  | cons f path ih =>
      rw [plug, ih, Frame.plug_eq, Tree.isRed_branch]
      cases hColour : f.colour with
      | red =>
          simp only [fits_red hColour, takesRed_cons, hColour, Tree.balanced_red, reduceCtorEq, imp_false,
            Bool.not_eq_true]
          constructor
          · rintro ⟨n, ⟨hTree, hSibling, hTreeBalanced, hSiblingBalanced⟩, hPath, hTop⟩
            exact ⟨n, hTreeBalanced, ⟨hSiblingBalanced, hSibling, hTop rfl, hPath⟩, hTree⟩
          · rintro ⟨n, hTreeBalanced, ⟨hSiblingBalanced, hSibling, hTop, hPath⟩, hTree⟩
            exact ⟨n, ⟨hTree, hSibling, hTreeBalanced, hSiblingBalanced⟩, hPath, fun _ => hTop⟩
      | black =>
          simp only [fits_black hColour, takesRed_cons, hColour, Tree.balanced_black, implies_true, and_true]
          constructor
          · rintro ⟨_, ⟨n, rfl, hTree, hSibling⟩, hPath, _⟩
            exact ⟨n, hTree, hSibling, hPath⟩
          · rintro ⟨n, hTree, hSibling, hPath⟩
            exact ⟨n + 1, ⟨n, rfl, hTree, hSibling⟩, hPath, fun hRed => absurd hRed (by decide)⟩

theorem exists_balanced_plug (h : t.Balanced n) (hPath : Fits n path) (hTop : t.isRed → TakesRed path) :
    ∃ m, (plug path t).Balanced m :=
  balanced_plug.mpr ⟨n, h, hPath, hTop⟩

theorem exists_balanced_blacken (h : ∃ m, t.Balanced m) : ∃ m, t.blacken.Balanced m := by
  obtain ⟨m, h⟩ := h
  exact h.blacken

/-- Insertion restores what a red node below a red parent breaks. -/
theorem insertColor_balanced {n : Nat} {l r : Tree A} {x : A} {path : List (Frame A)}
    (hLeft : l.isRed = false) (hRight : r.isRed = false) (hl : l.Balanced n) (hr : r.Balanced n)
    (hPath : Fits n path) : ∃ m, (insertColor path l x r).Balanced m := by
  have hNode : (Tree.node .red l x r).Balanced n := .red x hLeft hRight hl hr
  match path with
  | [] =>
      rw [insertColor_done fun f hf => absurd hf (Option.not_mem_none _)]
      exact hNode.blacken
  | [f] =>
      cases hColour : f.colour with
      | black =>
          rw [insertColor_done (takesRed_cons.mpr hColour)]
          exact exists_balanced_blacken (exists_balanced_plug hNode hPath fun _ => takesRed_cons.mpr hColour)
      | red =>
          -- the parent is the root and becomes black
          obtain ⟨hSibling, _⟩ := (fits_red hColour).mp hPath
          have hTree : insertColor [f] l x r = .branch f.side .black (.node .red l x r) f.data f.sibling := by
            cases f <;> cases hColour <;> rfl
          exact ⟨n + 1, hTree ▸ hNode.branch_black hSibling⟩
  | f :: f' :: path =>
      cases hColour : f.colour with
      | black =>
          rw [insertColor_done (takesRed_cons.mpr hColour)]
          exact exists_balanced_blacken (exists_balanced_plug hNode hPath fun _ => takesRed_cons.mpr hColour)
      | red =>
          obtain ⟨hSibling, hSiblingBlack, hTop, hRest⟩ := (fits_red hColour).mp hPath
          obtain ⟨hUncle, hRest⟩ := (fits_black (takesRed_cons.mp hTop)).mp hRest
          cases hRed : f'.sibling.isRed with
          | true =>
              obtain ⟨near, far, hShape⟩ := Tree.exists_node_of_branch f'.side .red
                (.branch f.side .black (.node .red l x r) f.data f.sibling) f'.data f'.sibling.blacken
              have hGrand : (Tree.node .red near f'.data far).Balanced (n + 1) := by
                rw [← hShape, Tree.balanced_red]
                exact ⟨Tree.isRed_branch, Tree.isRed_blacken _, hNode.branch_black hSibling,
                  hUncle.blacken_red hRed⟩
              rw [insertColor_recolour hColour hRed hShape]
              cases hGrand with
              | red _ hNear hFar hNearBalanced hFarBalanced =>
                  exact insertColor_balanced hNear hFar hNearBalanced hFarBalanced hRest
          | false =>
              have hTurned : ∀ t : Tree A, t.Balanced (n + 1) → t.isRed = false →
                  ∃ m, (plug path t).blacken.Balanced m := fun t hBalanced hBlack =>
                exists_balanced_blacken (exists_balanced_plug hBalanced hRest fun hIs =>
                  absurd (hBlack.symm.trans hIs) Bool.false_ne_true)
              by_cases hSide : f.side = f'.side
              · rw [insertColor_outside hColour (by rw [hRed]; exact Bool.false_ne_true) hSide]
                apply hTurned _ _ Tree.isRed_branch
                exact hNode.branch_black (Tree.balanced_red.mpr ⟨hSiblingBlack, hRed, hSibling, hUncle⟩)
              · have hInside : f.side = f'.side.other := by
                  cases hf : f.side <;> cases hf' : f'.side <;> simp_all [Side.other]
                obtain ⟨near, far, hShape⟩ := Tree.exists_branch_of_node f'.side .red l x r
                rw [hShape, Tree.balanced_red] at hNode
                obtain ⟨hNear, hFar, hNearBalanced, hFarBalanced⟩ := hNode
                rw [insertColor_inside hColour (by rw [hRed]; exact Bool.false_ne_true) hInside hShape]
                apply hTurned _ _ Tree.isRed_branch
                exact (Tree.balanced_red.mpr ⟨hSiblingBlack, hNear, hSibling, hNearBalanced⟩).branch_black
                  (Tree.balanced_red.mpr ⟨hFar, hRed, hFarBalanced, hUncle⟩)
termination_by path.length

/-- Insertion keeps the tree balanced. -/
theorem insert_balanced {cmp : A → Ordering} {t' : Tree A} (h : t.Balanced n)
    (hInsert : insert cmp x t = .ok t') : ∃ m, t'.Balanced m := by
  rw [insert] at hInsert
  cases hDescend : descend cmp [] t with
  | error met =>
      rw [hDescend] at hInsert
      cases hInsert
  | ok path =>
      rw [hDescend] at hInsert
      cases hInsert
      have hPlug : plug path .leaf = t := plug_of_descend hDescend
      obtain ⟨n, hLeaf, hPath, _⟩ := balanced_plug.mp ⟨n, hPlug ▸ h⟩
      exact insertColor_balanced rfl rfl hLeaf hLeaf hPath

/-- The way to a place is not longer than the longest one. -/
theorem length_add_depth_le (path : List (Frame A)) (t : Tree A) :
    path.length + t.depth ≤ (plug path t).depth := by
  induction path generalizing t with
  | nil => exact Nat.le_of_eq (Nat.zero_add _)
  | cons f path ih =>
      have hPath := ih (f.plug t)
      rw [Frame.plug_eq, Tree.depth_branch] at hPath
      have hNear := Nat.le_max_left t.depth f.sibling.depth
      rw [plug, Frame.plug_eq, List.length_cons]
      omega

end RedBlack
