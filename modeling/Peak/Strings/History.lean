import Peak.Strings.Add

/-! Patterns as the caller writes them, and what the tree holds after any
sequence of `peak_string_add` calls. -/
namespace Peak.Strings

open PagedList

variable {nocase : Bool} {buf : List UInt8} {i : Nat} {toks : List Nat}

/-- The characters of a pattern: a question mark is a wildcard, and a backslash
before a question mark or a backslash makes that one literal. -/
def tokenize (nocase : Bool) : List UInt8 → List Nat
  | [] => []
  | [byte] => if byte = 63 then [stringWildcard] else [literal nocase byte]
  | byte :: after :: rest =>
      if byte = 63 then stringWildcard :: tokenize nocase (after :: rest)
      else if byte = 92 ∧ (after = 63 ∨ after = 92) then
        literal nocase after :: tokenize nocase rest
      else literal nocase byte :: tokenize nocase (after :: rest)

theorem tokenize_length_le (nocase : Bool) (buf : List UInt8) :
    (tokenize nocase buf).length ≤ buf.length := by
  fun_induction tokenize nocase buf <;> simp only [List.length_cons, List.length_nil] at * <;> omega

/-- One character of the pattern, in the loop and in the pattern as a whole. -/
theorem tokenize_drop (nocase : Bool) (hMore : i < buf.length) (hLength : buf.length < 2 ^ 32) :
    i ≤ (nextCharacter nocase buf i).2 ∧ (nextCharacter nocase buf i).2 < buf.length ∧
      tokenize nocase (buf.drop i) = (nextCharacter nocase buf i).1 ::
        tokenize nocase (buf.drop ((nextCharacter nocase buf i).2 + 1)) := by
  have hAfter : (i + 1) % 2 ^ 32 = i + 1 := Nat.mod_eq_of_lt (by omega)
  have hByte : buf.getD i 0 = buf[i] := List.getD_eq_getElem _ _ hMore
  have hDrop : buf.drop i = buf[i] :: buf.drop (i + 1) := List.drop_eq_getElem_cons hMore
  rw [hDrop]
  simp only [nextCharacter, hAfter, hByte]
  by_cases hLast : i + 1 < buf.length
  · have hNext : buf.getD (i + 1) 0 = buf[i + 1] := List.getD_eq_getElem _ _ hLast
    have hDrop' : buf.drop (i + 1) = buf[i + 1] :: buf.drop (i + 1 + 1) :=
      List.drop_eq_getElem_cons hLast
    rw [hDrop']
    simp only [hNext, hLast, true_and, tokenize]
    split_ifs with hWild hEscape
    · exact ⟨Nat.le_refl i, hMore, by rw [hDrop']⟩
    · exact ⟨Nat.le_succ i, hLast, by rw [hNext]⟩
    · exact ⟨Nat.le_refl i, hMore, by rw [hDrop', hByte]⟩
  · have hEnd : buf.drop (i + 1) = [] := List.drop_eq_nil_of_le (by omega)
    simp only [hEnd, hLast, false_and, and_false, if_false, tokenize]
    split_ifs with hWild
    · exact ⟨Nat.le_refl i, hMore, by rw [hEnd, tokenize]⟩
    · exact ⟨Nat.le_refl i, hMore, by rw [hEnd, tokenize, hByte]⟩

/-- A loop that gets to the end of its pattern read the characters of the
pattern, which is then short enough for the counter. -/
theorem Reads.tokenize (hReads : Reads nocase buf i toks) (hCounter : i < 2 ^ 32) :
    buf.length < 2 ^ 32 ∧ toks = tokenize nocase (buf.drop i) := by
  induction hReads with
  | done hEnd =>
      rw [List.drop_eq_nil_of_le hEnd]
      exact ⟨by omega, rfl⟩
  | @next i toks hMore hRest ih =>
      obtain ⟨hLength, hToks⟩ := ih (Nat.mod_lt _ (by omega))
      obtain ⟨_, hWithin, hDrop⟩ := tokenize_drop nocase hMore hLength
      rw [Nat.mod_eq_of_lt (by omega)] at hToks
      exact ⟨hLength, by rw [hDrop, hToks]⟩

/-- The loop reads the characters of a pattern that is short enough. -/
theorem reads_tokenize (nocase : Bool) (hLength : buf.length < 2 ^ 32) (hCounter : i ≤ buf.length) :
    Reads nocase buf i (Strings.tokenize nocase (buf.drop i)) := by
  induction hLeft : buf.length - i using Nat.strongRecOn generalizing i with
  | _ left ih =>
      by_cases hMore : i < buf.length
      · obtain ⟨hFrom, hWithin, hDrop⟩ := tokenize_drop nocase hMore hLength
        rw [hDrop]
        refine .next hMore ?_
        rw [Nat.mod_eq_of_lt (by omega)]
        exact ih _ (by omega) hWithin rfl
      · rw [List.drop_eq_nil_of_le (Nat.le_of_not_lt hMore)]
        exact .done (Nat.le_of_not_lt hMore)

/-- What identifies a pattern: its characters and its method. -/
abbrev Key := List Nat × Method

/-- One call of `peak_string_add` and what it returned. -/
structure Entry where
  result : Nat
  buf : List UInt8
  flags : Flags
  ret : Nat
deriving DecidableEq, Repr

def Entry.key (e : Entry) : Key := (Strings.tokenize e.flags.nocase e.buf, e.flags.method)

/-- The first successful call for a pattern. -/
def firstAdd (log : List Entry) (key : Key) : Option Entry :=
  log.find? fun e => e.ret ≠ 0 ∧ e.key = key

/-- The result that the first successful call for a pattern was made with. -/
def firstResult (log : List Entry) (key : Key) : Nat := ((firstAdd log key).map (·.result)).getD 0

/-- Trees that sequences of calls build, with the calls that were made. Every
call has its own number of rounds and its own outcomes of allocations. -/
inductive Built : Node → List Entry → Prop where
  | init : Built stringInit []
  | null {root root' : Node} {log : List Entry} {fuel result ret : Nat}
      {alloc : Nat → Option (Nat → Node)} {flags : Flags} (prior : Built root log)
      (hAdd : stringAdd fuel alloc root result none flags = some (ret, root')) : Built root' log
  | add {root root' : Node} {log : List Entry} {fuel result ret : Nat}
      {alloc : Nat → Option (Nat → Node)} {buf : List UInt8} {flags : Flags} (prior : Built root log)
      (hAdd : stringAdd fuel alloc root result (some buf) flags = some (ret, root')) :
      Built root' (log ++ [⟨result, buf, flags, ret⟩])

variable {root root' : Node} {log : List Entry} {fuel result ret : Nat}
variable {alloc : Nat → Option (Nat → Node)} {flags : Flags} {key : Key}

/-- What one call did, in terms of the pattern. -/
theorem stringAdd_spec (hOk : TreeOk root)
    (hAdd : stringAdd fuel alloc root result (some buf) flags = some (ret, root')) :
    ∃ toks, Grown root root' toks ∧
      ((toks = Strings.tokenize flags.nocase buf ∧ ret = stored root' toks flags.method ∧
          Stores root root' toks flags.method result ∧ buf.length < 2 ^ 32) ∨
        (ret = 0 ∧ Keeps root root' ∧ (∃ n, alloc n = none) ∧
          (buf.length < 2 ^ 32 → ¬ Reaches root (Strings.tokenize flags.nocase buf)))) := by
  obtain ⟨toks, hGrown, hResult⟩ := addFrom_spec hOk hAdd
  refine ⟨toks, hGrown, ?_⟩
  rcases hResult with ⟨hReads, hRet, hStores⟩ | ⟨hRet, hKeeps, hAlloc, hNot⟩
  · obtain ⟨hLength, hToks⟩ := hReads.tokenize (by omega)
    exact .inl ⟨hToks, hRet, hStores, hLength⟩
  · refine .inr ⟨hRet, hKeeps, hAlloc, fun hLength => hNot _ ?_⟩
    exact reads_tokenize flags.nocase hLength (Nat.zero_le _)

/-- The tree holds the results of the first successful calls, and nodes for all
patterns that were added. -/
structure Mirrors (root : Node) (log : List Entry) : Prop where
  tree : TreeOk root
  stored (path : List Nat) (m : Method) : stored root path m = firstResult log (path, m)
  result {key : Key} {e : Entry} (hFirst : firstAdd log key = some e) : e.result ≠ 0
  short {key : Key} {e : Entry} (hFirst : firstAdd log key = some e) : e.buf.length < 2 ^ 32

theorem firstAdd_append (log : List Entry) (e : Entry) (key : Key) :
    firstAdd (log ++ [e]) key =
      (firstAdd log key).or (if e.ret ≠ 0 ∧ e.key = key then some e else none) := by
  simp only [firstAdd, List.find?_append]
  congr 1
  simp only [List.find?_cons, List.find?_nil]
  split_ifs with h <;> simp [h]

/-- A call without success leaves no trace in the results. -/
theorem firstAdd_append_failed {e : Entry} (h : e.ret = 0) (key : Key) :
    firstAdd (log ++ [e]) key = firstAdd log key := by
  rw [firstAdd_append, if_neg fun hBoth => hBoth.1 h, Option.or_none]

/-- A pattern that was added before has its result in the tree. -/
theorem Mirrors.stored_first (h : Mirrors root log) {e : Entry}
    (hFirst : firstAdd log key = some e) : Strings.stored root key.1 key.2 = e.result := by
  rw [h.stored, firstResult, hFirst]
  rfl

/-- A pattern without a result in the tree was not added before. -/
theorem Mirrors.not_added (h : Mirrors root log) (hZero : Strings.stored root key.1 key.2 = 0) :
    firstAdd log key = none := by
  cases hFirst : firstAdd log key with
  | none => rfl
  | some e => exact absurd ((h.stored_first hFirst).symm.trans hZero) (h.result hFirst)

/-- A pattern with a result in the tree was added before. -/
theorem Mirrors.added (h : Mirrors root log) (hSome : Strings.stored root key.1 key.2 ≠ 0) :
    ∃ e, firstAdd log key = some e := by
  cases hFirst : firstAdd log key with
  | none =>
      rw [h.stored, firstResult, hFirst] at hSome
      exact absurd rfl hSome
  | some e => exact ⟨e, rfl⟩

/-- Nothing changed, neither in the tree nor for the log. -/
theorem Mirrors.same {log' : List Entry} (h : Mirrors root log) (hTree : TreeOk root')
    (hKeeps : Keeps root root') (hFirst : ∀ key, firstAdd log' key = firstAdd log key) :
    Mirrors root' log' := by
  refine ⟨hTree, fun path m => ?_, fun hSome => ?_, fun hSome => ?_⟩
  · rw [hKeeps, h.stored, firstResult, firstResult, hFirst]
  · rw [hFirst] at hSome
    exact h.result hSome
  · rw [hFirst] at hSome
    exact h.short hSome

/-- A pattern that is new gets the result of its call. -/
theorem Mirrors.new (h : Mirrors root log) (hTree : TreeOk root') {e : Entry}
    (hZero : Strings.stored root e.key.1 e.key.2 = 0)
    (hStores : Stores root root' e.key.1 e.key.2 e.result) (hRet : e.ret ≠ 0)
    (hResult : e.result ≠ 0) (hLength : e.buf.length < 2 ^ 32) : Mirrors root' (log ++ [e]) := by
  have hFirst (key : Key) : firstAdd (log ++ [e]) key = if e.key = key then some e else firstAdd log key := by
    rw [firstAdd_append]
    by_cases hKey : e.key = key
    · rw [if_pos ⟨hRet, hKey⟩, if_pos hKey, h.not_added (hKey ▸ hZero), Option.none_or]
    · rw [if_neg fun hBoth => hKey hBoth.2, if_neg hKey, Option.or_none]
  refine ⟨hTree, fun path m => ?_, fun {key e'} hSome => ?_, fun {key e'} hSome => ?_⟩
  · rw [hStores, firstResult, hFirst]
    by_cases hKey : e.key = (path, m)
    · have hHere : path = e.key.1 ∧ m = e.key.2 ∧ Strings.stored root e.key.1 e.key.2 = 0 :=
        ⟨by rw [hKey], by rw [hKey], hZero⟩
      rw [if_pos hHere, if_pos hKey]
      rfl
    · have hOther : ¬ (path = e.key.1 ∧ m = e.key.2 ∧ Strings.stored root e.key.1 e.key.2 = 0) := by
        rintro ⟨rfl, rfl, _⟩
        exact hKey rfl
      rw [if_neg hOther, if_neg hKey, h.stored, firstResult]
  · rw [hFirst] at hSome
    split_ifs at hSome
    · cases hSome
      exact hResult
    · exact h.result hSome
  · rw [hFirst] at hSome
    split_ifs at hSome
    · cases hSome
      exact hLength
    · exact h.short hSome

/-- A call keeps the tree in step with the log. -/
theorem Mirrors.add (h : Mirrors root log)
    (hAdd : stringAdd fuel alloc root result (some buf) flags = some (ret, root')) :
    Mirrors root' (log ++ [⟨result, buf, flags, ret⟩]) := by
  obtain ⟨toks, hGrown, hResult⟩ := stringAdd_spec h.tree hAdd
  rcases hResult with ⟨hToks, hRet, hStores, hLength⟩ | ⟨hRet, hKeeps, _⟩
  · have hHere := hStores toks flags.method
    by_cases hZero : Strings.stored root toks flags.method = 0
    · rw [if_pos ⟨rfl, rfl, hZero⟩, ← hRet] at hHere
      by_cases hNone : result = 0
      · -- a result of zero is stored over a zero
        refine h.same hGrown.tree (fun path m => ?_) (firstAdd_append_failed (hHere.trans hNone))
        rw [hStores]
        split_ifs with hSame
        · rw [hNone, hSame.1, hSame.2.1, hZero]
        · rfl
      · subst hToks
        exact h.new (e := ⟨result, buf, flags, ret⟩) hGrown.tree hZero hStores (hHere ▸ hNone) hNone
          hLength
    · -- the earlier result stays
      refine h.same hGrown.tree (fun path m => ?_) fun key => ?_
      · rw [hStores, if_neg fun hSame => hZero hSame.2.2]
      · rw [firstAdd_append]
        split_ifs with hKey
        · have hEarlier : ∃ e, firstAdd log key = some e := by
            rw [← hKey.2]
            subst hToks
            exact h.added hZero
          obtain ⟨e, hFirst⟩ := hEarlier
          rw [hFirst, Option.some_or]
        · rw [Option.or_none]
  · exact h.same hGrown.tree hKeeps (firstAdd_append_failed hRet)

/-- After any sequence of calls the tree is in step with the log. -/
theorem Built.mirrors (h : Built root log) : Mirrors root log := by
  induction h with
  | init =>
      refine ⟨treeOk_of_leaf rfl, fun path m => ?_, fun hSome => ?_, fun hSome => ?_⟩
      · cases path with
        | nil => rfl
        | cons c path =>
            rw [Strings.stored, lookup_leaf rfl]
            rfl
      · cases hSome
      · cases hSome
  | null _ hAdd ih =>
      cases hAdd
      exact ih
  | add _ hAdd ih => exact ih.add hAdd

/-- The first successful call for a pattern is one of the calls. -/
theorem firstAdd_mem {e : Entry} (h : firstAdd log key = some e) :
    e ∈ log ∧ e.ret ≠ 0 ∧ e.key = key := by
  have hFound := List.find?_some h
  exact ⟨List.mem_of_find?_eq_some h, by simpa using hFound⟩

/-- A pattern that was added has a first successful call. -/
theorem firstAdd_of_mem {e : Entry} (hMem : e ∈ log) (hRet : e.ret ≠ 0) :
    ∃ e', firstAdd log e.key = some e' := by
  have hSome : (firstAdd log e.key).isSome = true := by
    rw [firstAdd, List.find?_isSome]
    exact ⟨e, hMem, by simp [hRet]⟩
  exact Option.isSome_iff_exists.mp hSome

/-- If all calls succeeded, the nodes of the tree are those on the paths of the
patterns. -/
theorem Built.reaches_iff (h : Built root log) (hAll : ∀ e ∈ log, e.ret ≠ 0) (path : List Nat) :
    Reaches root path ↔ path = [] ∨ ∃ e ∈ log, path <+: e.key.1 := by
  induction h with
  | init =>
      cases path with
      | nil => simp [Reaches]
      | cons c path => simp [Reaches, stringInit, lookup_leaf (show (Node.ref 0).next = [] from rfl)]
  | null _ hAdd ih =>
      cases hAdd
      exact ih hAll
  | @add root root' log fuel result ret alloc buf flags prior hAdd ih =>
      obtain ⟨toks, hGrown, hResult⟩ := stringAdd_spec prior.mirrors.tree hAdd
      have hLast : ret ≠ 0 := hAll ⟨result, buf, flags, ret⟩ (by simp)
      have hBefore := ih fun e hMem => hAll e (List.mem_append_left _ hMem)
      rcases hResult with ⟨rfl, _⟩ | ⟨hRet, _⟩
      · rw [hGrown.reaches, hBefore]
        simp only [List.mem_append, List.mem_singleton, or_and_right, exists_or, exists_eq_left, or_assoc]
        rfl
      · exact absurd hRet hLast

end Peak.Strings
