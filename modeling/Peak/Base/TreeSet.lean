import Peak.Base.Erasure
import Peak.Base.Ordered

/-! Trees of `sys/tree.h` in memory as ordered sets: what `RB_FIND`, `RB_INSERT`
and `RB_REMOVE` do to the elements when the comparison is an order. No call
follows a missing link, and none takes more rounds than twice the logarithm of
the number of elements. -/
namespace RedBlack

open Std Ordered Search

variable {A D : Type} {cmp : D → D → Ordering} {fuel fuel' : Nat} {t t' : Tree A} {elm x : A} {key : D}

theorem transCmp_of [TransCmp cmp] (f : A → D) : TransCmp fun a b => cmp (f a) (f b) where
  eq_swap := OrientedCmp.eq_swap
  isLE_trans := TransCmp.isLE_trans

namespace Store

/-- A balanced tree in memory whose elements increase. -/
structure Sets (cmp : D → D → Ordering) (s : Store A D) (t : Tree A) : Prop where
  holds : s.Holds t
  balanced : ∃ m, t.Balanced m
  black : t.isRed = false
  increasing : Increasing (fun a b => cmp (s.cells a).data (s.cells b).data) t.toList

/-- As many rounds as a loop over a set of this size takes. -/
def enough (size : Nat) : Nat := 2 * (size + 1).log2 + 1

variable {s s' : Store A D} {p q : Option A} {c : Ordering}

theorem Sets.depth_lt (h : s.Sets cmp t) (hFuel : enough t.toList.length ≤ fuel) : t.depth < fuel := by
  obtain ⟨m, hBalanced⟩ := h.balanced
  have hDepth := hBalanced.depth_le_log h.black
  rw [enough] at hFuel
  omega

theorem enough_mono {m n : Nat} (h : m ≤ n) : enough m ≤ enough n := by
  have hLog : (m + 1).log2 ≤ (n + 1).log2 :=
    (Nat.le_log2 (Nat.succ_ne_zero n)).mpr
      (Nat.le_trans (Nat.log2_self_le (Nat.succ_ne_zero m)) (Nat.succ_le_succ h))
  rw [enough, enough]
  omega

theorem linked_of_links {cells cells' : A → Cell A D} (h : Linked cells q t)
    (hLinks : ∀ a ∈ t.toList, ∃ d, cells' a = { cells a with data := d }) : Linked cells' q t := by
  induction t generalizing q with
  | leaf => trivial
  | node k l a r ihLeft ihRight =>
      simp only [Tree.toList, List.mem_append, List.mem_cons] at hLinks
      obtain ⟨hLeft, hRight, hParent, hColour, hLinkedLeft, hLinkedRight⟩ := h
      obtain ⟨d, hCell⟩ := hLinks a (.inr (.inl rfl))
      rw [Linked, hCell]
      exact ⟨hLeft, hRight, hParent, hColour, ihLeft hLinkedLeft fun b hb => hLinks b (.inl hb),
        ihRight hLinkedRight fun b hb => hLinks b (.inr (.inr hb))⟩

/-- Links and what is compared are as before. -/
theorem Sets.congr (h : s.Sets cmp t) (hRoot : s'.root = s.root)
    (hLinks : ∀ a ∈ t.toList, ∃ d, s'.cells a = { s.cells a with data := d })
    (hData : ∀ a ∈ t.toList, ∀ b ∈ t.toList, cmp (s'.cells a).data (s'.cells b).data =
      cmp (s.cells a).data (s.cells b).data) : s'.Sets cmp t := by
  refine ⟨⟨hRoot.trans h.holds.root, linked_of_links h.holds.linked hLinks, h.holds.nodup⟩, h.balanced,
    h.black, ?_⟩
  exact h.increasing.imp_of_mem fun {a b} ha hb hLess => (hData a ha b hb).trans hLess

/-- Only comparisons with elements of the tree matter to `RB_FIND`. -/
theorem findFrom_congr {cmp' : D → D → Ordering} (h : Linked s.cells q t)
    (hSame : ∀ a ∈ t.toList, cmp key (s.cells a).data = cmp' key (s.cells a).data) :
    s.findFrom cmp key fuel t.root = s.findFrom cmp' key fuel t.root := by
  induction t generalizing q fuel with
  | leaf => cases fuel <;> rfl
  | node k l x r ihLeft ihRight =>
      obtain ⟨hLeft, hRight, _, _, hLinkedLeft, hLinkedRight⟩ := h
      simp only [Tree.toList, List.mem_append, List.mem_cons] at hSame
      cases fuel with
      | zero => rfl
      | succ fuel =>
          rw [Tree.root, findFrom, findFrom, hLeft, hRight, hSame x (.inr (.inl rfl)),
            ihLeft hLinkedLeft fun a ha => hSame a (.inl ha),
            ihRight hLinkedRight fun a ha => hSame a (.inr (.inr ha))]

/-- Only comparisons with elements of the tree matter to the descent of
`RB_INSERT`. -/
theorem descend_congr {cmp' : D → D → Ordering} (h : Linked s.cells q t)
    (hSame : ∀ a ∈ t.toList, cmp (s.cells elm).data (s.cells a).data =
      cmp' (s.cells elm).data (s.cells a).data) :
    s.descend cmp elm fuel p c t.root = s.descend cmp' elm fuel p c t.root := by
  induction t generalizing p q c fuel with
  | leaf => cases fuel <;> rfl
  | node k l x r ihLeft ihRight =>
      obtain ⟨hLeft, hRight, _, _, hLinkedLeft, hLinkedRight⟩ := h
      simp only [Tree.toList, List.mem_append, List.mem_cons] at hSame
      cases fuel with
      | zero => rfl
      | succ fuel =>
          rw [Tree.root, descend, descend, hLeft, hRight, hSame x (.inr (.inl rfl)),
            ihLeft hLinkedLeft fun a ha => hSame a (.inl ha),
            ihRight hLinkedRight fun a ha => hSame a (.inr (.inr ha))]

/-- Other cells do not matter. -/
theorem Sets.outside (h : s.Sets cmp t) (hRoot : s'.root = s.root)
    (hSame : ∀ a ∈ t.toList, s'.cells a = s.cells a) : s'.Sets cmp t :=
  h.congr hRoot (fun a ha => ⟨_, hSame a ha⟩) fun a ha b hb => by rw [hSame a ha, hSame b hb]

/-- An element is found exactly if one is there that compares equal. -/
theorem Sets.find [TransCmp cmp] (h : s.Sets cmp t) (hFuel : enough t.toList.length ≤ fuel) (key : D) :
    ∃ found, s.find cmp fuel key = some found ∧
      (∀ a, found = some a → a ∈ t.toList ∧ cmp key (s.cells a).data = .eq) ∧
      (found = none → ∀ a ∈ t.toList, cmp key (s.cells a).data ≠ .eq) := by
  have hPart : Partitioned (fun a => cmp key (s.cells a).data) t.toList := by
    refine h.increasing.imp fun {a b} hLess => ⟨fun hLt => TransCmp.lt_trans hLt hLess, fun hGt => ?_⟩
    exact TransCmp.gt_trans hGt (OrientedCmp.gt_of_lt hLess)
  rw [Store.find, h.holds.root]
  exact findFrom_linked h.holds.linked hPart (Nat.le_of_lt (h.depth_lt hFuel))

/-- More rounds than the tree is deep make no difference to the descent. -/
theorem descend_more (h : Linked s.cells q t) (hFuel : t.depth ≤ fuel) (hMore : fuel ≤ fuel') :
    s.descend cmp elm fuel p c t.root = s.descend cmp elm fuel' p c t.root := by
  induction t generalizing p q c fuel fuel' with
  | leaf => cases fuel <;> cases fuel' <;> rfl
  | node k l x r ihLeft ihRight =>
      obtain ⟨hLeft, hRight, _, _, hLinkedLeft, hLinkedRight⟩ := h
      rw [Tree.depth] at hFuel
      have hLeftFuel := Nat.le_max_left l.depth r.depth
      have hRightFuel := Nat.le_max_right l.depth r.depth
      obtain ⟨fuel, rfl⟩ : ∃ m, fuel = m + 1 := ⟨fuel - 1, by omega⟩
      obtain ⟨fuel', rfl⟩ : ∃ m, fuel' = m + 1 := ⟨fuel' - 1, by omega⟩
      rw [Tree.root, descend, descend, hLeft, hRight]
      cases cmp (s.cells elm).data (s.cells x).data with
      | lt => exact ihLeft hLinkedLeft (by omega) (by omega)
      | eq => rfl
      | gt => exact ihRight hLinkedRight (by omega) (by omega)

/-- In a tree in memory everything around an element is ahead of it. -/
theorem ahead_of_surrounds {path : List (Frame A)} (h : Surrounds s.cells path (some x))
    (hNodup : (x :: around path).Nodup) : Ahead s.cells path x := by
  induction path generalizing x with
  | nil => trivial
  | cons frame path ih =>
      obtain ⟨hChild, hOther, hParent, _, hLinked, hRest⟩ := h
      have hAround := around_cons frame path
      obtain ⟨hNew, hFrame⟩ := List.nodup_cons.mp hNodup
      have hSub : (frame.data :: around path).Sublist (frame.data :: frame.sibling.toList ++ around path) :=
        (List.sublist_append_right ..).cons_cons frame.data
      have hUp := ih hRest ((hAround.nodup_iff.mp hFrame).sublist hSub)
      cases frame with
      | left colour g sibling => exact ⟨hChild, hOther, hParent, hLinked, hUp⟩
      | right colour sibling g =>
          refine ⟨fun hSame => hNew (hAround.mem_iff.mpr ?_), hChild, hParent, hUp⟩
          have hMem : x ∈ sibling.toList := Tree.root_mem (hOther.symm.trans hSame)
          exact List.mem_append_left _ (List.mem_cons_of_mem _ hMem)

variable [DecidableEq A]

/-- `RB_INSERT` within the depth of the tree. -/
theorem insert_within (h : s.Holds t) (hFuel : t.depth ≤ fuel) :
    s.insert cmp fuel elm =
      match RedBlack.descend (fun a => cmp (s.cells elm).data (s.cells a).data) [] t with
      | .error met => some (.error met)
      | .ok path => (insertColor fuel (s.attach elm (above path) (turn path)) elm).map .ok := by
  have hLink : Linked s.cells (above []) t := h.linked
  have hDescend : s.descend cmp elm fuel none .eq t.root = _ :=
    (descend_more hLink hFuel (Nat.le_max_left fuel t.toList.length)).trans
      (descend_linked cmp elm hLink (Nat.le_max_right fuel t.toList.length))
  rw [Store.insert, h.root]
  refine (congrArg (Option.bind · _) hDescend).trans ?_
  cases RedBlack.descend (fun a => cmp (s.cells elm).data (s.cells a).data) [] t with
  | error met => rfl
  | ok path => exact Option.map_eq_bind.symm

theorem insert_congr {cmp' : D → D → Ordering} (h : s.Holds t)
    (hSame : ∀ a ∈ t.toList, cmp (s.cells elm).data (s.cells a).data =
      cmp' (s.cells elm).data (s.cells a).data) :
    s.insert cmp fuel elm = s.insert cmp' fuel elm := by
  rw [Store.insert, Store.insert, h.root, descend_congr h.linked hSame]

/-- `RB_NEXT` goes to the element behind, if there is one. -/
theorem Holds.next {front rest : List A} (h : s.Holds t) (hList : t.toList = front ++ x :: rest)
    (hFew : t.toList.length ≤ fuel) : s.next fuel x = some rest.head? := by
  obtain ⟨path, k, l, r, rfl⟩ : ∃ path k l r, t = plug path (.node k l x r) :=
    exists_plug (hList ▸ List.mem_append_right _ List.mem_cons_self)
  obtain ⟨hSurrounds, hLeft, hRight, hParent, _, _, hBelow⟩ := linked_plug.mp h.linked
  have hPerm := perm_plug path (.node k l x r)
  have hAll : (l.toList ++ (x :: (r.toList ++ around path))).Nodup := by
    have hNodup := hPerm.nodup_iff.mp h.nodup
    rwa [Tree.toList, List.append_assoc, List.cons_append] at hNodup
  have hLength := hPerm.length_eq
  rw [Tree.toList, List.append_assoc, List.cons_append, List.length_append] at hLength
  obtain ⟨_, hNodup, hApart⟩ := List.nodup_append'.mp hAll
  have hAhead : Ahead s.cells path x := by
    refine ahead_of_surrounds hSurrounds (hNodup.sublist ?_)
    exact (List.sublist_append_right ..).cons_cons x
  have hStands : Stands s.cells fuel path x r :=
    ⟨hRight, hParent, hBelow, hAhead, hNodup, by omega⟩
  have hBehind : r.toList ++ behind path = rest := by
    rw [toList_plug, Tree.toList, List.append_assoc, List.append_assoc, List.cons_append,
      ← List.append_assoc] at hList
    have hOnce := h.nodup
    rw [toList_plug, Tree.toList, List.append_assoc, List.append_assoc, List.cons_append,
      ← List.append_assoc] at hOnce
    obtain ⟨hFront, hBack⟩ := not_or.mp fun hMem =>
      (List.nodup_cons.mp (List.nodup_middle.mp hOnce)).1 (List.mem_append.mpr hMem)
    exact ((List.append_cons_inj_of_notMem hFront hBack).mp hList).2.2
  rcases next_stands hStands fun a hRoot hSame => hApart (Tree.root_mem (hLeft.symm.trans hSame))
      (List.mem_cons_of_mem _ (List.mem_append_left _ (Tree.root_mem hRoot))) with
    ⟨hRun, hNone⟩ | ⟨path', a, b, hRun, _, hToCome⟩
  · rw [hRun, ← hBehind, hNone]
    rfl
  · rw [hRun, ← hBehind, ← hToCome]
    rfl

omit [DecidableEq A] in
/-- `RB_MIN` is the first element, if there is one. -/
theorem Holds.min (h : s.Holds t) (hFew : t.toList.length ≤ fuel) :
    s.min fuel = some t.toList.head? := by
  rcases min_stands h hFew with ⟨hRun, rfl⟩ | ⟨path, a, b, hRun, _, hToCome⟩
  · exact hRun
  · rw [hRun, ← hToCome]
    rfl

/-- An element that compares equal to none is inserted. -/
theorem Sets.insert [TransCmp cmp] (h : s.Sets cmp t) (hNew : elm ∉ t.toList)
    (hOther : ∀ a ∈ t.toList, cmp (s.cells elm).data (s.cells a).data ≠ .eq)
    (hFuel : enough t.toList.length ≤ fuel) :
    ∃ s' t', s.insert cmp fuel elm = some (.ok s') ∧ s'.Sets cmp t' ∧
      t'.toList.Perm (elm :: t.toList) ∧ s.Keeps s' (elm :: t.toList) := by
  have hDepth := h.depth_lt hFuel
  have hPart : Partitioned (fun a => cmp (s.cells elm).data (s.cells a).data) t.toList := by
    refine h.increasing.imp fun {a b} hLess => ⟨fun hLt => TransCmp.lt_trans hLt hLess, fun hGt => ?_⟩
    exact TransCmp.gt_trans hGt (OrientedCmp.gt_of_lt hLess)
  rw [insert_within h.holds (Nat.le_of_lt hDepth)]
  cases hTree : RedBlack.descend (fun a => cmp (s.cells elm).data (s.cells a).data) [] t with
  | error met =>
      obtain ⟨hMem, hEq⟩ := descend_error hTree
      exact absurd hEq (hOther met hMem)
  | ok path =>
      have hPlug : plug path .leaf = t := plug_of_descend hTree
      have hInsert : RedBlack.insert (fun a => cmp (s.cells elm).data (s.cells a).data) elm t =
          .ok (RedBlack.insertColor path .leaf elm .leaf) := by
        rw [RedBlack.insert, hTree]
      have hAround : t.toList.Perm (around path) := hPlug ▸ perm_plug path .leaf
      have hRoot := rootBlack_of_descend (show RootBlack [] from trivial) (fun _ => h.black) hTree
      obtain ⟨hHolds, hKeeps⟩ := attach_holds (hPlug ▸ h.holds) fun hMem => hNew (hAround.mem_iff.mpr hMem)
      have hLength := length_add_depth_le path (.leaf : Tree A)
      rw [hPlug] at hLength
      obtain ⟨s', hRun, hShape⟩ := insertColor_holds hHolds hRoot
        (Nat.lt_of_le_of_lt (Nat.le_trans (Nat.le_add_right _ _) hLength) hDepth)
      have hPerm := (perm_plug path (.node .red .leaf elm .leaf)).trans (hAround.symm.cons elm)
      have hAll : s.Keeps s' (elm :: t.toList) := by
        apply (hKeeps.mono fun a ha => (hAround.symm.cons elm).mem_iff.mp ha).trans
        exact hShape.keeps.mono fun a ha => hPerm.mem_iff.mp ha
      obtain ⟨m, hBalanced⟩ := h.balanced
      refine ⟨s', _, congrArg (Option.map Except.ok) hRun,
        ⟨hShape.holds, insert_balanced hBalanced hInsert, isRed_insertColor .., ?_⟩,
        hShape.order ▸ hPerm, hAll⟩
      obtain ⟨front, back, hList, hList', hGt, hLt⟩ := insert_ok hPart hInsert
      simp only [hAll.data]
      rw [hList']
      have hBefore := h.increasing
      rw [hList] at hBefore
      have hTrans : TransCmp fun a b => cmp (s.cells a).data (s.cells b).data :=
        transCmp_of fun a => (s.cells a).data
      exact increasing_insert hBefore hGt hLt

/-- An element is taken out. -/
theorem Sets.remove (h : s.Sets cmp t) (hMem : x ∈ t.toList) (hFuel : enough t.toList.length ≤ fuel) :
    ∃ s' t', s.remove fuel x = some s' ∧ s'.Sets cmp t' ∧ t'.toList = t.toList.erase x ∧
      s.Keeps s' t.toList := by
  obtain ⟨s', t', hRun, hHolds, hErase, hBlack, hBalanced, hKeeps⟩ :=
    remove_holds h.holds h.balanced h.black hMem (h.depth_lt hFuel)
  refine ⟨s', t', hRun, ⟨hHolds, hBalanced, hBlack, ?_⟩, hErase, hKeeps⟩
  rw [hErase]
  simp only [hKeeps.data]
  exact h.increasing.sublist List.erase_sublist

end Store

end RedBlack
