import Peak.Base.Removal

/-! What `RB_REMOVE` and `RB_FIND` do to a balanced tree in memory. Removal takes
out one element and leaves a balanced tree, and all loops are done within the
depth of the tree. -/
namespace RedBlack

variable {A D : Type} {a b p x y elm : A} {k c : Colour} {l r near far t : Tree A}
variable {path path' : List (Frame A)} {side i : Side} {n fuel : Nat}

theorem Tree.mem_node : a ∈ (Tree.node k l x r).toList ↔ a = x ∨ a ∈ l.toList ∨ a ∈ r.toList := by
  rw [toList, List.mem_append, List.mem_cons]
  exact or_left_comm

theorem mem_around_append {path path' : List (Frame A)} :
    a ∈ around (path ++ path') ↔ a ∈ around path ∨ a ∈ around path' := by
  simp only [around, before_append, behind_append, List.mem_append]
  tauto

/-- The frame of `RB_REMOVE`'s element has other data afterwards, which nothing
about balance depends on. -/
theorem fits_append_data (side : Side) (k : Colour) (x y : A) (far : Tree A) :
    Fits n (path ++ .of side k x far :: path') ↔ Fits n (path ++ .of side k y far :: path') := by
  induction path generalizing n with
  | nil => exact fits_of.trans fits_of.symm
  | cons f path ih =>
      have hTop : TakesRed (path ++ .of side k x far :: path') ↔
          TakesRed (path ++ .of side k y far :: path') := by
        cases path with
        | nil => exact (takesRed_cons.trans (by simp)).trans takesRed_cons.symm
        | cons f' path => exact takesRed_cons.trans takesRed_cons.symm
      rw [List.cons_append, List.cons_append, Fits, Fits, hTop, ih, ih]

theorem rootBlack_append_data (side : Side) (k : Colour) (x y : A) (far : Tree A) :
    RootBlack (path ++ .of side k x far :: path') ↔ RootBlack (path ++ .of side k y far :: path') := by
  induction path with
  | nil =>
      cases path' with
      | nil => rw [List.nil_append, List.nil_append, RootBlack, RootBlack, Frame.colour_of, Frame.colour_of]
      | cons f' path' => exact Iff.rfl
  | cons f path ih =>
      cases path with
      | nil => exact ih
      | cons f' path => exact ih

theorem rootBlack_of_plug (h : (plug path t).isRed = false) : RootBlack path := by
  induction path generalizing t with
  | nil => trivial
  | cons f path ih =>
      refine (ih h).cons fun hNil => ?_
      subst hNil
      rw [plug, plug, Frame.plug_eq, Tree.isRed_branch] at h
      cases hColour : f.colour with
      | red =>
          rw [hColour] at h
          cases h
      | black => rfl

/-- The parent that `RB_REMOVE` goes on from: where it was the removed element it
is the one that took its place. -/
theorem above_append_data {side : Side} [DecidableEq A]
    (h : (around (path ++ .of side k x far :: path')).Nodup)
    (hx : x ∈ around (.of side k x far :: path')) :
    (if above (path ++ .of side k x far :: path') = some x then some y
      else above (path ++ .of side k x far :: path')) = above (path ++ .of side k y far :: path') := by
  cases path with
  | nil =>
      rw [List.nil_append, List.nil_append, above_cons, above_cons, Frame.data_of, Frame.data_of]
      exact if_pos rfl
  | cons f path =>
      apply if_neg
      intro hSame
      have hf : f.data = x := Option.some.inj hSame
      rw [List.cons_append, (around_cons _ _).nodup_iff, List.cons_append, List.nodup_cons] at h
      apply h.1
      exact List.mem_append_right _ (mem_around_append.mpr (.inr (hf ▸ hx)))

/-- A place that a node of this colour with a single child below it was taken
from. -/
def Misses (k : Colour) (t : Tree A) (path : List (Frame A)) : Prop :=
  match k with
  | .black => ∃ n, Lacks n t ∧ Fits (n + 1) path
  | .red => ∃ n, t.Balanced n ∧ t.isRed = false ∧ Fits n path ∧ path ≠ []

theorem lacks_of_balanced (h : t.Balanced n) : Lacks n t := by
  cases hRed : t.isRed with
  | true => exact (lacks_of_red hRed).mpr (h.blacken_red hRed)
  | false => exact (lacks_of_not_red hRed).mpr h

theorem misses_of_balanced (h : ∃ m, (plug path (.branch side k t x .leaf)).Balanced m)
    (hBlack : (plug path (.branch side k t x .leaf)).isRed = false) : Misses k t path := by
  obtain ⟨n, hNode, hPath, _⟩ := balanced_plug.mp h
  cases k with
  | black =>
      obtain ⟨n, rfl, hTree, _⟩ := Tree.balanced_black.mp hNode
      exact ⟨n, lacks_of_balanced hTree, hPath⟩
  | red =>
      obtain ⟨hRed, _, hTree, _⟩ := Tree.balanced_red.mp hNode
      refine ⟨n, hTree, hRed, hPath, ?_⟩
      rintro rfl
      rw [plug, Tree.isRed_branch] at hBlack
      cases hBlack

theorem misses_append_data (side : Side) (c : Colour) (x y : A) (far : Tree A)
    (h : Misses k t (path ++ .of side c x far :: path')) :
    Misses k t (path ++ .of side c y far :: path') := by
  cases k with
  | black =>
      obtain ⟨n, hTree, hPath⟩ := h
      exact ⟨n, hTree, (fits_append_data side c x y far).mp hPath⟩
  | red =>
      obtain ⟨n, hTree, hRed, hPath, _⟩ := h
      exact ⟨n, hTree, hRed, (fits_append_data side c x y far).mp hPath, by simp⟩

/-- The place of an element in a tree. -/
theorem exists_plug (h : x ∈ t.toList) : ∃ path k l r, t = plug path (.node k l x r) := by
  induction t with
  | leaf => exact absurd h List.not_mem_nil
  | node k l a r ihLeft ihRight =>
      rcases List.mem_append.mp h with hMem | hMem
      · obtain ⟨path, k', l', r', rfl⟩ := ihLeft hMem
        refine ⟨path ++ [.left k a r], k', l', r', ?_⟩
        rw [plug_append]
        rfl
      · rcases List.mem_cons.mp hMem with rfl | hMem
        · exact ⟨[], k, l, r, rfl⟩
        · obtain ⟨path, k', l', r', rfl⟩ := ihRight hMem
          refine ⟨path ++ [.right k l a], k', l', r', ?_⟩
          rw [plug_append]
          rfl

namespace Store

variable {s s' : Store A D} {q u : Option A}

/-- Down along the left links to the first element. -/
theorem leftmost_linked (h : Linked s.cells q t) (hRoot : t.root = some b) (hFuel : t.depth ≤ fuel) :
    ∃ path k a r, t = plug path (.node k .leaf a r) ∧ before path = [] ∧ s.leftmost fuel b = some a := by
  induction t generalizing q b fuel with
  | leaf => cases hRoot
  | node k l x r ihLeft _ =>
      cases hRoot
      obtain ⟨hLeft, _, _, _, hLinkedLeft, _⟩ := h
      rw [Tree.depth] at hFuel
      obtain ⟨fuel, rfl⟩ : ∃ m, fuel = m + 1 := ⟨fuel - 1, by omega⟩
      rw [leftmost, hLeft]
      cases l with
      | leaf => exact ⟨[], k, x, r, rfl, rfl, rfl⟩
      | node k' l' x' r' =>
          have hBelow := Nat.le_max_left (Tree.node k' l' x' r').depth r.depth
          obtain ⟨path, k₁, a, r₁, hTree, hBefore, hRun⟩ :=
            ihLeft hLinkedLeft rfl (show _ ≤ fuel by omega)
          refine ⟨path ++ [.left k x r], k₁, a, r₁, ?_, ?_, hRun⟩
          · rw [plug_append, ← hTree]
            rfl
          · rw [before_append, hBefore]
            rfl

/-- The loop of `RB_FIND` finds what is equal, and only that. -/
theorem findFrom_linked {cmp : D → D → Ordering} {key : D} (h : Linked s.cells q t)
    (hPart : Search.Partitioned (fun a => cmp key (s.cells a).data) t.toList) (hFuel : t.depth ≤ fuel) :
    ∃ found, s.findFrom cmp key fuel t.root = some found ∧
      (∀ a, found = some a → a ∈ t.toList ∧ cmp key (s.cells a).data = .eq) ∧
      (found = none → ∀ a ∈ t.toList, cmp key (s.cells a).data ≠ .eq) := by
  induction t generalizing q fuel with
  | leaf =>
      refine ⟨none, by cases fuel <;> rfl, fun a hSome => absurd hSome.symm (Option.some_ne_none a), ?_⟩
      exact fun _ a hMem => absurd hMem List.not_mem_nil
  | node k l x r ihLeft ihRight =>
      obtain ⟨hLeft, hRight, _, _, hLinkedLeft, hLinkedRight⟩ := h
      obtain ⟨hPartLeft, hPartRest, hCross⟩ := List.pairwise_append.mp hPart
      obtain ⟨hFront, hPartRight⟩ := List.pairwise_cons.mp hPartRest
      rw [Tree.depth] at hFuel
      obtain ⟨fuel, rfl⟩ : ∃ m, fuel = m + 1 := ⟨fuel - 1, by omega⟩
      have hLeftFuel := Nat.le_max_left l.depth r.depth
      have hRightFuel := Nat.le_max_right l.depth r.depth
      rw [Tree.root, findFrom, hLeft, hRight]
      cases hCmp : cmp key (s.cells x).data with
      | eq =>
          refine ⟨some x, rfl, ?_, fun hNone => absurd hNone (Option.some_ne_none x)⟩
          intro a hSame
          cases hSame
          exact ⟨List.mem_append_right _ List.mem_cons_self, hCmp⟩
      | lt =>
          obtain ⟨found, hRun, hFound, hNone⟩ := ihLeft hLinkedLeft hPartLeft (show _ ≤ fuel by omega)
          refine ⟨found, hRun, ?_, ?_⟩
          · intro a hSome
            obtain ⟨hMem, hEq⟩ := hFound a hSome
            exact ⟨List.mem_append_left _ hMem, hEq⟩
          · intro hMissing a hMem hEq
            rcases List.mem_append.mp hMem with hMem | hMem
            · exact hNone hMissing a hMem hEq
            · rcases List.mem_cons.mp hMem with rfl | hMem
              · cases hCmp.symm.trans hEq
              · cases ((hFront a hMem).1 hCmp).symm.trans hEq
      | gt =>
          obtain ⟨found, hRun, hFound, hNone⟩ := ihRight hLinkedRight hPartRight (show _ ≤ fuel by omega)
          refine ⟨found, hRun, ?_, ?_⟩
          · intro a hSome
            obtain ⟨hMem, hEq⟩ := hFound a hSome
            exact ⟨List.mem_append_right _ (List.mem_cons_of_mem _ hMem), hEq⟩
          · intro hMissing a hMem hEq
            rcases List.mem_append.mp hMem with hMem | hMem
            · cases ((hCross a hMem x List.mem_cons_self).2 hCmp).symm.trans hEq
            · rcases List.mem_cons.mp hMem with rfl | hMem
              · cases hCmp.symm.trans hEq
              · exact hNone hMissing a hMem hEq

variable [DecidableEq A] {xs : List A} {frame : Frame A}

theorem Keeps.relink (h : s.Keeps s' xs) (hParent : ∀ a, q = some a → a ∈ xs) :
    s.Keeps (s'.relink q elm u) xs := by
  cases q with
  | none => exact ⟨h.data, h.outside⟩
  | some a =>
      rw [Store.relink]
      split_ifs
      · exact h.setChild (hParent a rfl)
      · exact h.setChild (hParent a rfl)

theorem cells_relink_of_ne (h : q ≠ some b) : (s.relink q elm u).cells b = s.cells b := by
  cases q with
  | none => rfl
  | some a =>
      have hOther : b ≠ a := fun hSame => h (by rw [hSame])
      rw [relink]
      split_ifs
      · exact cells_modify_of_ne _ hOther
      · exact cells_modify_of_ne _ hOther

/-- The parent has `elm` on the side of the frame. -/
theorem relink_frame (h : Surrounds s.cells (frame :: path) (some elm))
    (hElm : elm ∉ around (frame :: path)) :
    s.relink (some frame.data) elm u = s.setChild frame.side frame.data u := by
  rw [relink]
  cases hSide : frame.side with
  | left =>
      have hChild := h.1
      rw [hSide] at hChild
      exact if_pos hChild
  | right =>
      have hSibling := h.2.1
      rw [hSide] at hSibling
      apply if_neg
      intro hSame
      have hMem := Tree.root_mem (hSibling.symm.trans hSame)
      exact hElm ((around_cons frame path).mem_iff.mpr
        (List.mem_cons_of_mem _ (List.mem_append_left _ hMem)))

/-- A tree whose root has another parent, below the path. -/
theorem relink_holds (h : Surrounds s.cells path (some elm)) (hTree : Linked s.cells (above path) t)
    (hNodup : (plug path t).toList.Nodup) (hElm : elm ∉ around path)
    (hRoot : path ≠ [] → s.root = (plug path t).root) :
    (s.relink (above path) elm t.root).Holds (plug path t) := by
  obtain ⟨_, hAround, hApart⟩ := nodup_plug.mp hNodup
  have hSame : ∀ b ∈ t.toList, (s.relink (above path) elm t.root).cells b = s.cells b := by
    intro b hMem
    exact cells_relink_of_ne fun hAbove => hApart hMem (above_mem hAbove)
  refine ⟨?_, linked_plug.mpr ⟨?_, hTree.congr hSame⟩, hNodup⟩
  · cases path with
    | nil => rfl
    | cons frame path =>
        rw [above_cons, relink_frame h hElm]
        exact hRoot (List.cons_ne_nil frame path)
  · cases path with
    | nil => trivial
    | cons frame path =>
        rw [above_cons, relink_frame h hElm]
        exact surrounds_setChild h hAround

/-- An element with one child or none gives its place to that. -/
theorem unlink_holds (h : s.Holds (plug path (.branch side k t x .leaf))) :
    (s.unlink x t.root).Holds (plug path t) ∧
      s.Keeps (s.unlink x t.root) (plug path (.branch side k t x .leaf)).toList := by
  obtain ⟨hSurrounds, hLinked⟩ := linked_plug.mp h.linked
  obtain ⟨_, _, hParent, _, hLinkedTree, _⟩ := linked_branch.mp hLinked
  obtain ⟨hTree, hAround, hApart⟩ := nodup_plug.mp h.nodup
  obtain ⟨hxTree, _, hNodup, _, _⟩ := Tree.nodup_branch.mp hTree
  have hxAround : x ∉ around path := hApart (Tree.mem_branch.mpr (.inl rfl))
  have hTreeApart : t.toList.Disjoint (around path) := fun b hMem =>
    hApart (Tree.mem_branch.mpr (.inr (.inl hMem)))
  rw [Tree.root_branch] at hSurrounds
  rw [unlink, hParent]
  constructor
  · apply relink_holds _ (linked_setParentOf hLinkedTree hNodup) (nodup_plug.mpr ⟨hNodup, hAround, hTreeApart⟩)
      hxAround
    · intro hPath
      rw [root_setParentOf, h.root]
      exact root_plug hPath _ _
    · apply hSurrounds.congr
      intro b hMem
      exact cells_setParentOf_of_ne fun hRoot => hTreeApart (Tree.root_mem hRoot) hMem
  · apply Keeps.relink
    · apply (Keeps.refl s _).setParentOf
      exact fun a hRoot => mem_plug.mpr (.inl (Tree.mem_branch.mpr (.inr (.inl (Tree.root_mem hRoot)))))
    · exact fun a hAbove => mem_plug.mpr (.inr (above_mem hAbove))

theorem cells_inherit (h : y ≠ x) : (s.inherit x y).cells x = s.cells x := cells_modify_of_ne _ (Ne.symm h)

/-- The stores of `substitute` once the left child is known. -/
theorem substitute_eq (hParent : (s.cells x).parent ≠ some x) (hLeft : (s.cells x).left = some b)
    (hOther : y ≠ x) (hChild : x ≠ b) :
    s.substitute x y = some
      ((((s.inherit x y).replaceChild (s.cells x).parent x y).setParent b (some y)).setParentOf
        (s.cells x).right (some y)) := by
  have hReplaced : ((s.inherit x y).replaceChild (s.cells x).parent x y).cells x = s.cells x :=
    (cells_replaceChild_of_ne hParent).trans (cells_inherit hOther)
  rw [substitute]
  dsimp only [Option.bind_eq_bind]
  rw [cells_inherit hOther, hReplaced, hLeft, Option.bind_some, cells_setParent_of_ne hChild, hReplaced]
  rfl

/-- An element outside of the tree takes the place of one with a left child. -/
theorem substitute_holds (h : s.Holds (plug path (.node k l x r))) (hLeft : l.root = some b)
    (hNew : y ∉ (plug path (.node k l x r)).toList) :
    ∃ s', s.substitute x y = some s' ∧ s'.Holds (plug path (.node k l y r)) ∧
      s.Keeps s' (y :: (plug path (.node k l x r)).toList) := by
  obtain ⟨hSurrounds, hLinked⟩ := linked_plug.mp h.linked
  obtain ⟨hLeftLink, hRightLink, hParent, hColour, hLinkedLeft, hLinkedRight⟩ := hLinked
  obtain ⟨hTree, hAround, hApart⟩ := nodup_plug.mp h.nodup
  have hBranch : (Tree.branch .left k l x r).toList.Nodup := hTree
  obtain ⟨hxLeft, hxRight, hNodupLeft, hNodupRight, hSides⟩ := Tree.nodup_branch.mp hBranch
  have hMem : ∀ z, z ∈ (plug path (.node k l x r)).toList ↔
      (z = x ∨ z ∈ l.toList ∨ z ∈ r.toList) ∨ z ∈ around path := fun z =>
    mem_plug.trans (or_congr_left Tree.mem_node)
  simp only [hMem, not_or] at hNew
  obtain ⟨⟨hyx, hyLeft, hyRight⟩, hyAround⟩ := hNew
  have hApart' : ∀ z, z = x ∨ z ∈ l.toList ∨ z ∈ r.toList → z ∉ around path := fun z hz =>
    hApart (Tree.mem_node.mpr hz)
  have hxAround := hApart' x (.inl rfl)
  have hRun : s.substitute x y = some
      ((((s.inherit x y).replaceChild (above path) x y).setParentOf
        l.root (some y)).setParentOf r.root (some y)) := by
    rw [substitute_eq (b := b) (by rw [hParent]; exact fun hAbove => hxAround (above_mem hAbove))
      (hLeftLink.trans hLeft) hyx (fun hSame => hxLeft (hSame ▸ Tree.root_mem hLeft)), hParent,
      hRightLink, hLeft]
    rfl
  refine ⟨_, hRun, ?_, ?_⟩
  · -- first the place, then the two subtrees
    have hPlace : Surrounds ((s.inherit x y).replaceChild
        (above path) x y).cells path (some y) := by
      apply surrounds_replaceChild _ hAround hxAround
      exact hSurrounds.congr fun z hz => cells_modify_of_ne _ fun hSame => hyAround (hSame ▸ hz)
    have hSame : ∀ z, z ≠ y → z ∉ around path → ((s.inherit x y).replaceChild (above path) x y).cells z = s.cells z := fun z hzy hz =>
      (cells_replaceChild_of_ne fun hAbove => hz (above_mem hAbove)).trans (cells_modify_of_ne _ hzy)
    have hNew : ((s.inherit x y).replaceChild (above path) x y).cells y =
        { s.cells x with data := (s.cells y).data } :=
      (cells_replaceChild_of_ne fun hAbove => hyAround (above_mem hAbove)).trans (cells_modify_same _)
    have hLeftBelow := linked_setParentOf (q := some y) (hLinkedLeft.congr fun z hz =>
      hSame z (fun hSame => hyLeft (hSame ▸ hz)) (hApart' z (.inr (.inl hz)))) hNodupLeft
    have hRightBelow : Linked (((s.inherit x y).replaceChild
        (above path) x y).setParentOf l.root (some y)).cells (some x) r := by
      apply hLinkedRight.congr
      intro z hz
      rw [cells_setParentOf_of_ne fun hRoot => hSides (Tree.root_mem hRoot) hz]
      exact hSame z (fun hSame => hyRight (hSame ▸ hz)) (hApart' z (.inr (.inr hz)))
    refine ⟨?_, linked_plug.mpr ⟨?_, ?_⟩, ?_⟩
    · rw [root_setParentOf, root_setParentOf]
      exact root_replaceChild (t := .node k l x r) h.root rfl
    · apply hPlace.congr
      intro z hz
      rw [cells_setParentOf_of_ne fun hRoot => hApart' z (.inr (.inr (Tree.root_mem hRoot))) hz,
        cells_setParentOf_of_ne fun hRoot => hApart' z (.inr (.inl (Tree.root_mem hRoot))) hz]
    · rw [Linked, cells_setParentOf_of_ne fun hRoot => hyRight (Tree.root_mem hRoot),
        cells_setParentOf_of_ne fun hRoot => hyLeft (Tree.root_mem hRoot), hNew]
      refine ⟨hLeftLink, hRightLink, hParent, hColour, ?_, linked_setParentOf hRightBelow hNodupRight⟩
      apply hLeftBelow.congr
      intro z hz
      exact cells_setParentOf_of_ne fun hRoot => hSides hz (Tree.root_mem hRoot)
    · refine nodup_plug.mpr ⟨?_, hAround, ?_⟩
      · have hBranch : (Tree.branch .left k l y r).toList.Nodup :=
          Tree.nodup_branch.mpr ⟨hyLeft, hyRight, hNodupLeft, hNodupRight, hSides⟩
        exact hBranch
      · intro z hz
        rcases Tree.mem_node.mp hz with rfl | hz
        · exact hyAround
        · exact hApart' z (.inr hz)
  · have hFirst : s.Keeps (s.inherit x y)
        (y :: (plug path (.node k l x r)).toList) :=
      (Keeps.refl s _).modify List.mem_cons_self fun _ => rfl
    refine ((hFirst.replaceChild ?_).setParentOf ?_).setParentOf ?_
    · exact fun a hAbove => List.mem_cons_of_mem _ ((hMem a).mpr (.inr (above_mem hAbove)))
    · exact fun a hRoot => List.mem_cons_of_mem _ ((hMem a).mpr (.inl (.inr (.inl (Tree.root_mem hRoot)))))
    · exact fun a hRoot => List.mem_cons_of_mem _ ((hMem a).mpr (.inl (.inr (.inr (Tree.root_mem hRoot)))))

/-- The end of `RB_REMOVE`. -/
theorem misses_holds (h : s.Holds (plug path t)) (hRoot : RootBlack path) (hMisses : Misses k t path)
    (hFuel : path.length < fuel) :
    ∃ s' t', (if k = .black then removeColor fuel s (above path) t.root else some s) = some s' ∧
      s.Reshapes (plug path t) s' t' ∧ t'.isRed = false ∧ ∃ m, t'.Balanced m := by
  cases k with
  | black =>
      obtain ⟨n, hTree, hPath⟩ := hMisses
      rw [if_pos rfl]
      exact removeColor_holds h hRoot hPath hTree hFuel
  | red =>
      obtain ⟨n, hTree, hBlack, hPath, hNonempty⟩ := hMisses
      refine ⟨s, _, if_neg (by decide), .refl h, isRed_plug hRoot hNonempty, ?_⟩
      exact exists_balanced_plug hTree hPath fun hRed => absurd (hBlack.symm.trans hRed) Bool.false_ne_true

/-- An element with one child or none is removed. -/
theorem remove_single (h : s.Holds (plug path (.branch side k t x .leaf)))
    (hTree : ∃ m, (plug path (.branch side k t x .leaf)).Balanced m)
    (hRoot : (plug path (.branch side k t x .leaf)).isRed = false) (hFuel : path.length < fuel) :
    ∃ s' t', (if (s.cells x).colour = .black then
        removeColor fuel (s.unlink x t.root) (s.cells x).parent t.root else some (s.unlink x t.root)) = some s' ∧
      s'.Holds t' ∧ t'.toList = (plug path t).toList ∧ t'.isRed = false ∧ (∃ m, t'.Balanced m) ∧
      s.Keeps s' (plug path (.branch side k t x .leaf)).toList := by
  obtain ⟨_, _, hParent, hColour⟩ := h.cell
  obtain ⟨hHolds, hKeeps⟩ := unlink_holds h
  obtain ⟨s', t', hRun, hShape, hBlack, hBalanced⟩ := misses_holds hHolds (rootBlack_of_plug hRoot)
    (misses_of_balanced hTree hRoot) hFuel
  refine ⟨s', t', ?_, hShape.holds, hShape.order, hBlack, hBalanced, hKeeps.trans (hShape.keeps.mono ?_)⟩
  · rw [hColour, hParent]
    exact hRun
  · intro a hMem
    refine mem_plug.mpr ((mem_plug.mp hMem).imp_left fun hTree => ?_)
    exact Tree.mem_branch.mpr (.inr (.inl hTree))

/-- An element with two children is removed, by way of the next one in order. -/
theorem remove_double (h : s.Holds (plug path (.node k l x r))) (hLeft : l.root = some a)
    (hRight : r.root = some b) (hBlack : (plug path (.node k l x r)).isRed = false)
    (hBalanced : ∃ m, (plug path (.node k l x r)).Balanced m)
    (hFuel : (plug path (.node k l x r)).depth < fuel) :
    ∃ s' t', s.remove fuel x = some s' ∧ s'.Holds t' ∧
      t'.toList = before path ++ (l.toList ++ r.toList) ++ behind path ∧ t'.isRed = false ∧
      (∃ m, t'.Balanced m) ∧ s.Keeps s' (plug path (.node k l x r)).toList := by
  have hNode : s.Holds (plug path (.branch .left k l x r)) := h
  have hLinkedRight : Linked s.cells (some x) r := (linked_branch.mp hNode.linked_at).2.2.2.2.2
  have hLinks := hNode.cell
  have hLength := length_add_depth_le path (.node k l x r)
  have hBelow := Nat.le_max_right l.depth r.depth
  rw [Tree.depth] at hLength
  obtain ⟨path', k', y, r', rfl, hFront, hFirst⟩ :=
    leftmost_linked hLinkedRight hRight (show _ ≤ fuel by omega)
  -- the next element hangs on a path of its own below the element
  have hDeep : ∀ z t, plug path (.node k l z (plug path' t)) = plug (path' ++ .of .right k z l :: path) t :=
    fun z t => (plug_append path' (.of .right k z l :: path) t).symm
  have hNext : s.Holds (plug (path' ++ .of .right k x l :: path) (.branch .right k' r' y .leaf)) := by
    rw [← hDeep]
    exact h
  have hMisses : Misses k' r' (path' ++ .of .right k y l :: path) := by
    apply misses_append_data .right k x y l
    have hNode : (∃ m, (plug (path' ++ .of .right k x l :: path) (.branch .right k' r' y .leaf)).Balanced m) ∧
        (plug (path' ++ .of .right k x l :: path) (.branch .right k' r' y .leaf)).isRed = false := by
      rw [← hDeep]
      exact ⟨hBalanced, hBlack⟩
    exact misses_of_balanced hNode.1 hNode.2
  have hRoot : RootBlack (path' ++ .of .right k y l :: path) := by
    apply (rootBlack_append_data .right k x y l).mp
    apply rootBlack_of_plug (t := .branch .right k' r' y .leaf)
    rw [← hDeep]
    exact hBlack
  obtain ⟨hTree, hAround, hApart⟩ := nodup_plug.mp hNext.nodup
  have hxAround : x ∈ around (.of .right k x l :: path) :=
    (around_cons _ _).mem_iff.mpr (by rw [Frame.data_of]; exact List.mem_cons_self)
  have hyAround : y ∉ around (path' ++ .of .right k x l :: path) :=
    hApart (Tree.mem_branch.mpr (.inl rfl))
  have hNew : y ∉ (plug path (.node k l x (plug path' r'))).toList := by
    rw [hDeep, mem_plug]
    exact not_or.mpr ⟨(Tree.nodup_branch.mp hTree).1, hyAround⟩
  obtain ⟨hChild, _, hParent, hColour⟩ := hNext.cell
  obtain ⟨hUnlinked, hUnlinks⟩ := unlink_holds hNext
  rw [← hDeep] at hUnlinked hUnlinks
  obtain ⟨s₁, hSubstitute, hHolds, hKeeps⟩ := substitute_holds hUnlinked hLeft hNew
  rw [hDeep y] at hHolds
  have hShort := length_add_depth_le path' (.node k' .leaf y r')
  have hLength' : (path' ++ .of .right k y l :: path).length < fuel := by
    rw [Tree.depth] at hShort
    rw [List.length_append, List.length_cons]
    omega
  obtain ⟨s', t', hRun, hShape, hDone⟩ := misses_holds hHolds hRoot hMisses hLength'
  have hAbove : (if (s.cells y).parent = some x then some y else (s.cells y).parent) =
      above (path' ++ .of .right k y l :: path) := by
    rw [hParent]
    exact above_append_data hAround hxAround
  refine ⟨s', t', ?_, hShape.holds, ?_, hDone.1, hDone.2, ?_⟩
  · have hxLeft : (s.cells x).left = some a := hLinks.1.trans hLeft
    have hxRight : (s.cells x).right = some b := hLinks.2.1.trans hRight
    have hyRight : (s.cells y).right = r'.root := hChild
    rw [remove, hxLeft, hxRight]
    dsimp only [Option.bind_eq_bind]
    rw [hFirst, Option.bind_some, hyRight, hAbove, hColour, hSubstitute]
    exact hRun
  · rw [hShape.order, toList_plug, toList_plug, hFront]
    simp [before_append, behind_append, Frame.of, hFront]
  · have hUnlinks' : s.Keeps (s.unlink y r'.root)
        (plug path (.node k l x (plug path' (.node k' .leaf y r')))).toList := hUnlinks
    refine (hUnlinks'.trans (hKeeps.mono ?_)).trans (hShape.keeps.mono ?_)
    · intro z hMem
      simp only [List.mem_cons, mem_plug, Tree.toList, List.mem_append, List.nil_append] at hMem ⊢
      tauto
    · intro z hMem
      rw [← hDeep] at hMem
      simp only [List.mem_cons, mem_plug, Tree.toList, List.mem_append, List.nil_append] at hMem ⊢
      tauto

/-- `RB_REMOVE` of an element of a balanced tree in memory takes out that element
only. -/
theorem remove_holds (h : s.Holds t) (hBalanced : ∃ m, t.Balanced m) (hBlack : t.isRed = false)
    (hMem : x ∈ t.toList) (hFuel : t.depth < fuel) :
    ∃ s' t', s.remove fuel x = some s' ∧ s'.Holds t' ∧ t'.toList = t.toList.erase x ∧ t'.isRed = false ∧
      (∃ m, t'.Balanced m) ∧ s.Keeps s' t.toList := by
  obtain ⟨path, k, l, r, rfl⟩ := exists_plug hMem
  have hErase : (plug path (.node k l x r)).toList.erase x =
      before path ++ (l.toList ++ r.toList) ++ behind path := by
    have hNodup := h.nodup
    have hList : (plug path (.node k l x r)).toList =
        (before path ++ l.toList) ++ x :: (r.toList ++ behind path) := by
      rw [toList_plug]
      simp
    rw [hList] at hNodup ⊢
    have hFront : x ∉ before path ++ l.toList := fun hIn =>
      (List.nodup_append'.mp hNodup).2.2 hIn List.mem_cons_self
    rw [List.erase_append_right _ hFront, List.erase_cons_head]
    simp
  have hLength := length_add_depth_le path (.node k l x r)
  rw [Tree.depth] at hLength
  have hCell : s.Holds (plug path (.branch .left k l x r)) := h
  obtain ⟨hLeft, hRight, _⟩ := hCell.cell
  rw [hErase]
  cases l with
  | leaf =>
      have hSingle : s.Holds (plug path (.branch .right k r x .leaf)) := h
      obtain ⟨s', t', hRun, hHolds, hOrder, hDone⟩ := remove_single hSingle hBalanced hBlack
        (show path.length < fuel by omega)
      refine ⟨s', t', ?_, hHolds, hOrder.trans ?_, hDone⟩
      · have hxLeft : (s.cells x).left = none := hLeft
        have hxRight : (s.cells x).right = r.root := hRight
        rw [remove, hxLeft, hxRight]
        exact hRun
      · rw [toList_plug]
        rfl
  | node kl ll a lr =>
      cases r with
      | leaf =>
          have hSingle : s.Holds (plug path (.branch .left k (.node kl ll a lr) x .leaf)) := h
          obtain ⟨s', t', hRun, hHolds, hOrder, hDone⟩ := remove_single hSingle hBalanced hBlack
            (show path.length < fuel by omega)
          refine ⟨s', t', ?_, hHolds, hOrder.trans ?_, hDone⟩
          · have hxLeft : (s.cells x).left = some a := hLeft
            have hxRight : (s.cells x).right = none := hRight
            rw [remove, hxLeft, hxRight]
            exact hRun
          · rw [toList_plug, Tree.toList, Tree.toList, List.append_nil]
      | node kr rl b rr => exact remove_double h rfl rfl hBlack hBalanced hFuel

end Store

end RedBlack
