import Peak.Strings.Trie

/-! The tree as a map from paths of characters to nodes, and what one insertion
of a child changes of it. -/
namespace Peak.Strings

open PagedList Ordered Std

variable {next pages : List (Page Node)} {node new : Node} {c c' : Nat}

/-- The children of a node are in order. -/
abbrev ChildrenOk (next : List (Page Node)) : Prop := Ok 5 stringCmp next

theorem stringCmp_ref {y : Node} : stringCmp (Node.ref c) y = .eq ↔ y.character = c := by
  simp only [stringCmp, compareOn, Node.ref, Nat.compare_eq_eq]
  exact eq_comm

theorem child_eq_find (hOk : ChildrenOk next) (c : Nat) :
    child next c = (elems next).find? (fun y => stringCmp (Node.ref c) y == .eq) :=
  find_spec hOk.filled hOk.sorted (Node.ref c)

/-- A child has the character it was looked up by. -/
theorem character_of_child (hOk : ChildrenOk next) (h : child next c = some node) :
    node.character = c := by
  rw [child_eq_find hOk] at h
  have hEq := List.find?_some h
  exact stringCmp_ref.mp (by simpa using hEq)

/-- Pages with a child between other ones. -/
theorem child_of_between {l r : List Node} (hOk : ChildrenOk pages)
    (hElems : elems pages = l ++ new :: r) (hNew : new.character = c) (c' : Nat) :
    child pages c' =
      if c' = c then some new
      else (l ++ r).find? (fun y => stringCmp (Node.ref c') y == .eq) := by
  have hSorted := hOk.sorted
  rw [child_eq_find hOk]
  rw [hElems] at hSorted ⊢
  split_ifs with hEq
  · exact find_of_eq hSorted (stringCmp_ref.mpr (hNew.trans hEq.symm))
  · exact find_skip fun hMatch => hEq ((stringCmp_ref.mp hMatch).symm.trans hNew)

/-- Pages with the same counters are filled alike. -/
theorem ok_of_counts (hOk : ChildrenOk next) (hCounts : pages.map Page.count = next.map Page.count)
    (hSorted : Increasing stringCmp (elems pages)) : ChildrenOk pages := by
  have hMem (p : Page Node) (hp : p ∈ pages) : ∃ q ∈ next, q.count = p.count := by
    have hCount : p.count ∈ next.map Page.count := by
      rw [← hCounts]
      exact List.mem_map_of_mem hp
    exact List.mem_map.mp hCount
  refine ⟨fun p hp => ?_, fun p hp => ?_, hSorted⟩
  · obtain ⟨q, hq, hEq⟩ := hMem p hp
    exact hEq ▸ hOk.filled q hq
  · obtain ⟨q, hq, hEq⟩ := hMem p hp
    exact hEq ▸ hOk.within q hq

/-- Assigning a child through a pointer to one of the same character. -/
theorem set_child {spot : Spot} {l r : List Node} {old : Node} (hOk : ChildrenOk next)
    (hSplits : Splits next spot l (old :: r)) (hGet : get next spot = some old)
    (hOld : old.character = c) (hNew : new.character = c) :
    ChildrenOk (set next spot new) ∧
      ∀ c', child (set next spot new) c' = if c' = c then some new else child next c' := by
  obtain ⟨hElems, hCounts⟩ := hSplits.set_elems hGet new
  have hSorted : Increasing stringCmp (elems (set next spot new)) := by
    have hBefore := hOk.sorted
    rw [hSplits.elems_eq] at hBefore
    rw [hElems]
    refine increasing_replace hBefore ?_
    simp only [stringCmp, compareOn, hOld, hNew, Nat.compare_eq_eq]
  have hOk' := ok_of_counts hOk hCounts hSorted
  refine ⟨hOk', fun c' => ?_⟩
  rw [child_of_between hOk' hElems hNew, child_of_between hOk hSplits.elems_eq hOld]
  split_ifs <;> rfl

/-- Inserting a node for a character: it fails for want of memory only, if the
character is new; otherwise it points to the child for the character, a fresh
one if need be, and assigning through the pointer changes that child alone. -/
theorem insert_child (hOk : ChildrenOk next) (c : Nat) (alloc : Option (Nat → Node)) :
    (insert stringCmp 5 alloc (Node.ref c) next = (none, next) ∧ alloc = none ∧
        child next c = none) ∨
      ∃ spot next', insert stringCmp 5 alloc (Node.ref c) next = (some spot, next') ∧
        get next' spot = some ((child next c).getD (Node.ref c)) ∧
        ∀ new, new.character = c → ChildrenOk (set next' spot new) ∧
          ∀ c', child (set next' spot new) c' = if c' = c then some new else child next c' := by
  have hSpec := insert_spec (show 1 ≤ 5 by omega) hOk (Node.ref c) alloc
  generalize insert stringCmp 5 alloc (Node.ref c) next = result at hSpec
  cases hSpec with
  | present _ spot l y r hSplits hGet hEq =>
      have hChild : child next c = some y := by
        have hSorted := hOk.sorted
        rw [child_eq_find hOk]
        rw [hSplits.elems_eq] at hSorted ⊢
        exact find_of_eq hSorted hEq
      refine .inr ⟨spot, next, rfl, by rw [hChild]; exact hGet, fun new hNew => ?_⟩
      exact set_child hOk hSplits hGet (stringCmp_ref.mp hEq) hNew
  | failed hNew =>
      refine .inl ⟨rfl, rfl, ?_⟩
      rw [child_eq_find hOk, find_of_ne hNew]
  | added _ spot next' l r hNew hElems hSplits hGet hOk' =>
      have hChild : child next c = none := by
        rw [child_eq_find hOk, find_of_ne hNew]
      refine .inr ⟨spot, next', rfl, by rw [hChild]; exact hGet, fun new hCharacter => ?_⟩
      have hRef : (Node.ref c).character = c := rfl
      obtain ⟨hSet, hChildren⟩ := set_child hOk' hSplits hGet hRef hCharacter
      refine ⟨hSet, fun c' => ?_⟩
      rw [hChildren c', child_of_between hOk' hSplits.elems_eq hRef, child_eq_find hOk, hElems]
      split_ifs <;> rfl

/-- The node that a path of characters leads to. -/
def lookup : List Nat → Node → Option Node
  | [], node => some node
  | c :: path, node => (child node.next c).bind (lookup path)

/-- The children of all nodes of the tree are in order. -/
def TreeOk (node : Node) : Prop := ∀ path found, lookup path node = some found → ChildrenOk found.next

/-- The result that is stored at the end of a path, zero if there is none. -/
def stored (node : Node) (path : List Nat) (method : Method) : Nat :=
  ((lookup path node).map (·.result method)).getD 0

/-- There is a node at the end of the path. -/
def Reaches (node : Node) (path : List Nat) : Prop := (lookup path node).isSome = true

instance (node : Node) (path : List Nat) : Decidable (Reaches node path) :=
  inferInstanceAs (Decidable (_ = true))

theorem treeOk_iff :
    TreeOk node ↔ ChildrenOk node.next ∧ ∀ c found, child node.next c = some found → TreeOk found := by
  constructor
  · intro hOk
    refine ⟨hOk [] node rfl, fun c found hChild path below hBelow => ?_⟩
    refine hOk (c :: path) below ?_
    rw [lookup, hChild, Option.bind_some, hBelow]
  · rintro ⟨hOk, hBelow⟩ path found hLookup
    cases path with
    | nil =>
        cases hLookup
        exact hOk
    | cons c path =>
        obtain ⟨next, hChild, hRest⟩ := Option.bind_eq_some_iff.mp hLookup
        exact hBelow c next hChild path found hRest

theorem treeOk_of_leaf (h : node.next = []) : TreeOk node := by
  refine treeOk_iff.mpr ⟨?_, fun c found hChild => ?_⟩
  · rw [h]
    exact ⟨fun p hp => (List.not_mem_nil hp).elim, fun p hp => (List.not_mem_nil hp).elim,
      List.Pairwise.nil⟩
  · rw [h] at hChild
    cases hChild

@[simp] theorem lookup_nil (node : Node) : lookup [] node = some node := rfl

theorem lookup_cons (c : Nat) (path : List Nat) (node : Node) :
    lookup (c :: path) node = (child node.next c).bind (lookup path) := rfl

/-- Below a fresh node there is nothing. -/
theorem lookup_leaf (h : node.next = []) (c : Nat) (path : List Nat) :
    lookup (c :: path) node = none := by
  rw [lookup_cons, h]
  rfl

end Peak.Strings
