import Peak.Strings.Paths

/-! What a call of `peak_string_add` changes of the tree: it makes the nodes on
the path of its pattern and stores one result at the end, or it runs out of
memory on the way. -/
namespace Peak.Strings

open PagedList

variable {node node' found found' : Node} {c : Nat} {path toks : List Nat} {method : Method}

/-- The child for a character, or the node that is inserted for it. -/
def childOrRef (node : Node) (c : Nat) : Node := (child node.next c).getD (Node.ref c)

theorem childOrRef_ok (hOk : TreeOk node) (c : Nat) : TreeOk (childOrRef node c) := by
  cases hChild : child node.next c with
  | none =>
      rw [childOrRef, hChild]
      exact treeOk_of_leaf rfl
  | some found =>
      rw [childOrRef, hChild]
      exact (treeOk_iff.mp hOk).2 c found hChild

theorem childOrRef_character (hOk : TreeOk node) (c : Nat) : (childOrRef node c).character = c := by
  cases hChild : child node.next c with
  | none =>
      rw [childOrRef, hChild]
      rfl
  | some found =>
      rw [childOrRef, hChild]
      exact character_of_child (treeOk_iff.mp hOk).1 hChild

/-- What is stored below the child is what is stored below the node. -/
theorem stored_childOrRef (node : Node) (c : Nat) (path : List Nat) (method : Method) :
    stored (childOrRef node c) path method = stored node (c :: path) method := by
  cases hChild : child node.next c with
  | none =>
      have hNone : lookup (c :: path) node = none := by rw [lookup_cons, hChild, Option.bind_none]
      rw [childOrRef, hChild, stored, stored, hNone]
      cases path with
      | nil => rfl
      | cons c' path =>
          have hLeaf := lookup_leaf (show (Node.ref c).next = [] from rfl) c' path
          rw [Option.getD_none, hLeaf]
  | some found => simp only [childOrRef, hChild, stored, lookup_cons, Option.getD_some, Option.bind_some]

/-- The child or the new node is there, and below it what was below the node. -/
theorem reaches_childOrRef (node : Node) (c : Nat) (path : List Nat) :
    Reaches (childOrRef node c) path ↔ Reaches node (c :: path) ∨ path = [] := by
  cases hChild : child node.next c with
  | none =>
      have hNone : lookup (c :: path) node = none := by rw [lookup_cons, hChild, Option.bind_none]
      cases path with
      | nil => simp [Reaches]
      | cons c' path =>
          have hLeaf := lookup_leaf (show (Node.ref c).next = [] from rfl) c' path
          simp [Reaches, childOrRef, hChild, hNone, hLeaf]
  | some found =>
      have hLookup : lookup (c :: path) node = lookup path found := by
        rw [lookup_cons, hChild, Option.bind_some]
      cases path with
      | nil => simp [Reaches]
      | cons c' path => simp [Reaches, childOrRef, hChild, hLookup]

/-- A node whose child for one character was replaced. -/
structure Replaced (node node' : Node) (c : Nat) (found' : Node) : Prop where
  character : node'.character = node.character
  result : node'.result = node.result
  children : ChildrenOk node'.next
  child (c' : Nat) : child node'.next c' = if c' = c then some found' else child node.next c'

theorem Replaced.lookup_same (h : Replaced node node' c found') (path : List Nat) :
    lookup (c :: path) node' = lookup path found' := by
  rw [lookup_cons, h.child, if_pos rfl, Option.bind_some]

theorem Replaced.lookup_other (h : Replaced node node' c found') {c' : Nat} (hNe : c' ≠ c)
    (path : List Nat) : lookup (c' :: path) node' = lookup (c' :: path) node := by
  rw [lookup_cons, lookup_cons, h.child, if_neg hNe]

theorem Replaced.treeOk (h : Replaced node node' c found') (hOk : TreeOk node)
    (hFound : TreeOk found') : TreeOk node' := by
  refine treeOk_iff.mpr ⟨h.children, fun c' below hChild => ?_⟩
  rw [h.child] at hChild
  split_ifs at hChild with hEq
  · cases hChild
    exact hFound
  · exact (treeOk_iff.mp hOk).2 c' below hChild

/-- The tree afterwards: the nodes on the path were added to it. -/
structure Grown (node node' : Node) (toks : List Nat) : Prop where
  tree : TreeOk node'
  character : node'.character = node.character
  reaches (path : List Nat) : Reaches node' path ↔ Reaches node path ∨ path <+: toks

/-- Growing a child grows the node. -/
theorem Grown.cons (h : Replaced node node' c found') (hOk : TreeOk node)
    (hGrown : Grown (childOrRef node c) found' toks) : Grown node node' (c :: toks) := by
  refine ⟨h.treeOk hOk hGrown.tree, h.character, fun path => ?_⟩
  cases path with
  | nil => simp [Reaches]
  | cons c' path =>
      by_cases hEq : c' = c
      · subst hEq
        have hSame : Reaches node' (c' :: path) ↔ Reaches found' path := by
          rw [Reaches, h.lookup_same, Reaches]
        rw [hSame, hGrown.reaches, reaches_childOrRef, List.cons_prefix_cons]
        constructor
        · rintro ((hReach | rfl) | hPrefix)
          · exact .inl hReach
          · exact .inr ⟨rfl, List.nil_prefix⟩
          · exact .inr ⟨rfl, hPrefix⟩
        · rintro (hReach | ⟨_, hPrefix⟩)
          · exact .inl (.inl hReach)
          · exact .inr hPrefix
      · rw [Reaches, h.lookup_other hEq, List.cons_prefix_cons]
        simp only [Reaches, hEq, false_and, or_false]

/-- The results afterwards: the one at the end of the path is new unless there
was one before, all others are as they were. -/
def Stores (node node' : Node) (toks : List Nat) (method : Method) (result : Nat) : Prop :=
  ∀ path m, stored node' path m =
    if path = toks ∧ m = method ∧ stored node toks method = 0 then result else stored node path m

/-- No result changed. -/
def Keeps (node node' : Node) : Prop := ∀ path m, stored node' path m = stored node path m

theorem Replaced.stored_nil (h : Replaced node node' c found') (m : Method) :
    stored node' [] m = stored node [] m := by
  simp only [stored, lookup_nil, Option.map_some, Option.getD_some, h.result]

theorem Replaced.stored_same (h : Replaced node node' c found') (path : List Nat) (m : Method) :
    stored node' (c :: path) m = stored found' path m := by
  rw [stored, h.lookup_same, stored]

theorem Replaced.stored_other (h : Replaced node node' c found') {c' : Nat} (hNe : c' ≠ c)
    (path : List Nat) (m : Method) : stored node' (c' :: path) m = stored node (c' :: path) m := by
  rw [stored, h.lookup_other hNe, stored]

/-- Results that stay below the child stay below the node. -/
theorem Keeps.cons (h : Replaced node node' c found') (hKeeps : Keeps (childOrRef node c) found') :
    Keeps node node' := by
  intro path m
  cases path with
  | nil => exact h.stored_nil m
  | cons c' path =>
      by_cases hEq : c' = c
      · subst hEq
        rw [h.stored_same, hKeeps, stored_childOrRef]
      · exact h.stored_other hEq path m

/-- A result that is stored below the child is stored below the node. -/
theorem Stores.cons {result : Nat} (h : Replaced node node' c found')
    (hStores : Stores (childOrRef node c) found' toks method result) :
    Stores node node' (c :: toks) method result := by
  intro path m
  cases path with
  | nil => simpa using h.stored_nil m
  | cons c' path =>
      by_cases hEq : c' = c
      · subst hEq
        rw [h.stored_same, hStores, stored_childOrRef, stored_childOrRef]
        simp only [List.cons.injEq, true_and]
      · rw [h.stored_other hEq]
        simp only [List.cons.injEq, hEq, false_and, if_false]

/-- The end of a pattern: the node itself gets the result. -/
theorem setResult_spec (hOk : TreeOk node) (method : Method) (result : Nat) :
    Grown node (setResult node method result).2 [] ∧
      Stores node (setResult node method result).2 [] method result ∧
      (setResult node method result).1 = stored (setResult node method result).2 [] method := by
  have hNext : (setResult node method result).2.next = node.next := by
    simp only [setResult]
    split_ifs <;> rfl
  have hBelow (c : Nat) (path : List Nat) :
      lookup (c :: path) (setResult node method result).2 = lookup (c :: path) node := by
    rw [lookup_cons, hNext, lookup_cons]
  refine ⟨⟨?_, ?_, ?_⟩, ?_, rfl⟩
  · have hTree := treeOk_iff.mp hOk
    rw [← hNext] at hTree
    exact treeOk_iff.mpr hTree
  · simp only [setResult]
    split_ifs <;> rfl
  · intro path
    cases path with
    | nil => simp [Reaches]
    | cons c path => simp [Reaches, hBelow]
  · intro path m
    cases path with
    | nil =>
        simp only [stored, lookup_nil, Option.map_some, Option.getD_some, setResult, true_and]
        by_cases hZero : node.result method = 0
        · by_cases hMethod : m = method
          · subst hMethod
            simp [hZero]
          · simp [hZero, hMethod]
        · simp [hZero]
    | cons c path => simp [stored, hBelow]

/-- The characters that the loop reads from a counter to the end of the
pattern. -/
inductive Reads (nocase : Bool) (buf : List UInt8) : Nat → List Nat → Prop where
  | done {i : Nat} (hEnd : buf.length ≤ i) : Reads nocase buf i []
  | next {i : Nat} {toks : List Nat} (hMore : i < buf.length)
      (hRest : Reads nocase buf (((nextCharacter nocase buf i).2 + 1) % 2 ^ 32) toks) :
      Reads nocase buf i ((nextCharacter nocase buf i).1 :: toks)

/-- Within the pattern there is a character to read. -/
theorem Reads.cons {nocase : Bool} {buf : List UInt8} {i : Nat} (h : Reads nocase buf i toks)
    (hMore : i < buf.length) :
    ∃ rest, toks = (nextCharacter nocase buf i).1 :: rest ∧
      Reads nocase buf (((nextCharacter nocase buf i).2 + 1) % 2 ^ 32) rest := by
  cases h with
  | done hEnd => omega
  | next _ hRest => exact ⟨_, rfl, hRest⟩

/-- One round of the loop that finds or makes a node replaces a child of the
node it came from. -/
theorem addFrom_more {alloc : Nat → Option (Nat → Node)} {result : Nat} {buf : List UInt8}
    {flags : Flags} {fuel i ret : Nat} (hOk : TreeOk node) (hMore : i < buf.length)
    (h : addFrom alloc result buf flags (fuel + 1) i node = some (ret, node')) :
    (ret = 0 ∧ node' = node ∧ alloc fuel = none ∧
        child node.next (nextCharacter flags.nocase buf i).1 = none) ∨
      ∃ found', addFrom alloc result buf flags fuel (((nextCharacter flags.nocase buf i).2 + 1) % 2 ^ 32)
          (childOrRef node (nextCharacter flags.nocase buf i).1) = some (ret, found') ∧
        (found'.character = (nextCharacter flags.nocase buf i).1 →
          Replaced node node' (nextCharacter flags.nocase buf i).1 found') := by
  simp only [addFrom, if_pos hMore] at h
  generalize nextCharacter flags.nocase buf i = read at h ⊢
  obtain ⟨c, j⟩ := read
  rcases insert_child (treeOk_iff.mp hOk).1 c (alloc fuel) with
    ⟨hInsert, hAlloc, hChild⟩ | ⟨spot, next', hInsert, hGet, hSet⟩
  · rw [hInsert] at h
    cases h
    refine .inl ⟨rfl, ?_, hAlloc, hChild⟩
    cases node
    rfl
  · simp only [hInsert, hGet, Option.map_eq_some_iff] at h
    obtain ⟨⟨ret', found'⟩, hRec, hEq⟩ := h
    cases hEq
    exact .inr ⟨found', hRec, fun hCharacter =>
      ⟨rfl, rfl, (hSet found' hCharacter).1, (hSet found' hCharacter).2⟩⟩

/-- What the loop did when it returned: it stored the result at the end of the
pattern, or it made some of the nodes and had no memory for the next one. The
latter does not happen to a pattern all of whose nodes are there. -/
theorem addFrom_spec {alloc : Nat → Option (Nat → Node)} {result : Nat} {buf : List UInt8}
    {flags : Flags} {fuel i ret : Nat} (hOk : TreeOk node)
    (h : addFrom alloc result buf flags fuel i node = some (ret, node')) :
    ∃ toks, Grown node node' toks ∧
      ((Reads flags.nocase buf i toks ∧ ret = stored node' toks flags.method ∧
          Stores node node' toks flags.method result) ∨
        (ret = 0 ∧ Keeps node node' ∧ (∃ n, alloc n = none) ∧
          ∀ toks', Reads flags.nocase buf i toks' → ¬ Reaches node toks')) := by
  induction fuel generalizing i node node' with
  | zero => cases h
  | succ fuel ih =>
      by_cases hMore : i < buf.length
      · rcases addFrom_more hOk hMore h with ⟨rfl, rfl, hAlloc, hNone⟩ | ⟨found', hRec, hReplaced⟩
        · refine ⟨[], ⟨hOk, rfl, fun path => ?_⟩,
            .inr ⟨rfl, fun _ _ => rfl, ⟨fuel, hAlloc⟩, fun toks' hReads => ?_⟩⟩
          · cases path with
            | nil => simp [Reaches]
            | cons c path => simp
          · obtain ⟨rest, rfl, _⟩ := hReads.cons hMore
            simp [Reaches, lookup_cons, hNone]
        · obtain ⟨toks, hGrown, hResult⟩ := ih (childOrRef_ok hOk _) hRec
          have hNode := hReplaced (hGrown.character.trans (childOrRef_character hOk _))
          refine ⟨_ :: toks, Grown.cons hNode hOk hGrown, ?_⟩
          rcases hResult with ⟨hReads, hRet, hStores⟩ | ⟨hRet, hKeeps, hAlloc, hNot⟩
          · refine .inl ⟨.next hMore hReads, ?_, Stores.cons hNode hStores⟩
            rw [hRet, hNode.stored_same]
          · refine .inr ⟨hRet, Keeps.cons hNode hKeeps, hAlloc, fun toks' hReads hReach => ?_⟩
            obtain ⟨rest, rfl, hRest⟩ := hReads.cons hMore
            exact hNot rest hRest ((reaches_childOrRef node _ rest).mpr (.inl hReach))
      · simp only [addFrom, if_neg hMore, Option.some.injEq] at h
        obtain ⟨hGrown, hStores, hRet⟩ := setResult_spec hOk flags.method result
        rw [h] at hGrown hStores hRet
        exact ⟨[], hGrown, .inl ⟨.done (Nat.le_of_not_lt hMore), hRet, hStores⟩⟩

/-- The loop returns after as many rounds as the pattern has characters, plus
one for the end. -/
theorem addFrom_returns {alloc : Nat → Option (Nat → Node)} {result : Nat} {buf : List UInt8}
    {flags : Flags} {fuel i : Nat} (hOk : TreeOk node) (hReads : Reads flags.nocase buf i toks)
    (hFuel : toks.length < fuel) :
    ∃ ret node', addFrom alloc result buf flags fuel i node = some (ret, node') := by
  induction hReads generalizing fuel node with
  | done hEnd =>
      obtain ⟨fuel, rfl⟩ := Nat.exists_eq_succ_of_ne_zero (show fuel ≠ 0 by omega)
      exact ⟨_, _, by rw [addFrom, if_neg (by omega)]⟩
  | @next i toks hMore hRest ih =>
      obtain ⟨fuel, rfl⟩ := Nat.exists_eq_succ_of_ne_zero (show fuel ≠ 0 by omega)
      rw [List.length_cons] at hFuel
      simp only [addFrom, if_pos hMore]
      rcases insert_child (treeOk_iff.mp hOk).1 (nextCharacter flags.nocase buf i).1 (alloc fuel) with
        ⟨hInsert, _⟩ | ⟨spot, next', hInsert, hGet, _⟩
      · rw [hInsert]
        exact ⟨_, _, rfl⟩
      · obtain ⟨ret, found', hRec⟩ := @ih _ fuel (childOrRef_ok hOk _) (by omega)
        rw [childOrRef] at hRec
        simp only [hInsert, hGet]
        rw [hRec]
        exact ⟨_, _, rfl⟩

end Peak.Strings
