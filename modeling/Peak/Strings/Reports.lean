import Mathlib.Data.List.Dedup
import Mathlib.Data.List.Nodup
import Mathlib.Data.List.Perm.Subperm
import Mathlib.Data.Nat.Init
import Peak.Strings.Search

/-! `peak_string_find` on trees that calls of `peak_string_add` built: which
matches of which patterns are reported. -/
namespace Peak.Strings

open PagedList

variable {root root' : Node} {log : List Entry} {text : List UInt8} {i : Nat} {key : Key}

/-- The patterns that are reported for a start position. The root itself is
looked at once, before the first position. -/
def scanKeys (root : Node) (text : List UInt8) (i : Nat) : List Key :=
  (if i = 0 then (matchMethods root true text.isEmpty).map fun m => ([], m) else []) ++
    reported (i == 0) (text.drop i) root

/-- The start positions; an empty text has one as well. -/
def positions (text : List UInt8) : List Nat := if text.isEmpty then [0] else List.range text.length

/-- The reports for a text: start positions and patterns, in order. -/
def reports (root : Node) (text : List UInt8) : List (Nat × Key) :=
  (positions text).flatMap fun i => (scanKeys root text i).map (Prod.mk i)

/-- The values that are pushed for a start position. -/
def pushedAt (root : Node) (text : List UInt8) (i : Nat) : List Nat :=
  resultsOf root (scanKeys root text i)

theorem foldl_pushAll (f : Nat → List Nat) (is : List Nat) (stash : Stash) :
    is.foldl (fun stash i => stash.pushAll (f i)) stash = stash.pushAll (is.flatMap f) := by
  induction is generalizing stash with
  | nil => rfl
  | cons i is ih => rw [List.foldl_cons, ih, List.flatMap_cons, Stash.pushAll_append]

/-- What is pushed for the root comes before what is pushed from there on. -/
theorem pushedAt_zero (root : Node) (text : List UInt8) :
    pushedAt root text 0 = (matchMethods root true text.isEmpty).map root.result ++
      resultsOf root (reported true text root) := by
  have hRoot : (matchMethods root true text.isEmpty).map root.result =
      resultsOf root ((matchMethods root true text.isEmpty).map fun m => (([] : List Nat), m)) := by
    simp only [resultsOf, List.map_map]
    rfl
  rw [hRoot, ← resultsOf_append]
  rfl

theorem pushedAt_succ (root : Node) (text : List UInt8) (i : Nat) :
    pushedAt root text (i + 1) = resultsOf root (reported false (text.drop (i + 1)) root) := by
  simp [pushedAt, scanKeys]

/-- All positions of a text that is not empty. -/
theorem flatMap_pushedAt (root : Node) (hText : text ≠ []) :
    (positions text).flatMap (pushedAt root text) =
      (matchMethods root true false).map root.result ++
        (List.range text.length).flatMap fun i =>
          resultsOf root (reported (i == 0) (text.drop i) root) := by
  cases text with
  | nil => exact absurd rfl hText
  | cons byte rest =>
      have hRange : List.range (byte :: rest).length = 0 :: (List.range rest.length).map Nat.succ :=
        List.range_succ_eq_map
      rw [positions, if_neg (by simp), hRange, List.flatMap_cons, List.flatMap_cons, pushedAt_zero,
        List.append_assoc, List.flatMap_map, List.flatMap_map]
      simp only [Nat.succ_eq_add_one, pushedAt_succ]
      rfl

/-- `peak_string_find` pushes the values of all start positions in order. -/
theorem stringFind_pushedAt (root : Node) (text : List UInt8) (stash : Stash) :
    stringFind root text stash = stash.pushAll ((positions text).flatMap (pushedAt root text)) := by
  cases text with
  | nil =>
      have hNil : (positions []).flatMap (pushedAt root []) =
          (matchMethods root true true).map root.result := by
        rw [positions, if_pos List.isEmpty_nil, List.flatMap_singleton, pushedAt_zero]
        simp [reported, resultsOf]
      rw [hNil]
      simp only [stringFind, stringMatch_eq]
      rfl
  | cons byte rest =>
      rw [flatMap_pushedAt root (List.cons_ne_nil _ _), Stash.pushAll_append]
      simp only [stringFind, stringMatch_eq, findFrom_eq, foldl_pushAll]
      rfl

/-- `peak_string_find` pushes the results of its reports. -/
theorem stringFind_eq (root : Node) (text : List UInt8) (stash : Stash) :
    stringFind root text stash =
      stash.pushAll ((reports root text).map fun r => stored root r.2.1 r.2.2) := by
  have hReports : (reports root text).map (fun r => stored root r.2.1 r.2.2) =
      (positions text).flatMap (pushedAt root text) := by
    simp only [reports, List.map_flatMap, List.map_map]
    rfl
  rw [hReports, stringFind_pushedAt]

theorem mem_reports {r : Nat × Key} :
    r ∈ reports root text ↔ r.1 ∈ positions text ∧ r.2 ∈ scanKeys root text r.1 := by
  obtain ⟨i, key⟩ := r
  simp only [reports, List.mem_flatMap, List.mem_map, Prod.mk.injEq]
  constructor
  · rintro ⟨i', hPosition, key', hKey, rfl, rfl⟩
    exact ⟨hPosition, hKey⟩
  · rintro ⟨hPosition, hKey⟩
    exact ⟨i, hPosition, key, hKey, rfl, rfl⟩

theorem positions_nodup (text : List UInt8) : (positions text).Nodup := by
  rw [positions]
  split_ifs
  · exact List.nodup_singleton 0
  · exact List.nodup_range

theorem scanKeys_nodup (root : Node) (text : List UInt8) (i : Nat) : (scanKeys root text i).Nodup := by
  have hBelow := reported_nodup (i == 0) (text.drop i) root
  have hMethods : (matchMethods root true text.isEmpty).Nodup := List.Nodup.filter _ (by decide)
  rw [scanKeys]
  split_ifs with hFirst
  · refine List.nodup_append'.mpr ⟨hMethods.map fun m m' hEq => (Prod.mk.inj hEq).2, hBelow, ?_⟩
    intro key hHere hThere
    obtain ⟨m, _, rfl⟩ := List.mem_map.mp hHere
    exact reported_path_ne_nil hThere rfl
  · exact hBelow

/-- Lists without duplicates, each with a position of its own. -/
theorem nodup_positioned {α : Type} {is : List Nat} {f : Nat → List α} (hPositions : is.Nodup)
    (hLists : ∀ i, (f i).Nodup) : (is.flatMap fun i => (f i).map (Prod.mk i)).Nodup := by
  rw [List.nodup_flatMap]
  refine ⟨fun i _ => (hLists i).map fun _ _ hEq => (Prod.mk.inj hEq).2, ?_⟩
  refine hPositions.imp fun {i i'} hNe => ?_
  intro r hHere hThere
  obtain ⟨_, _, rfl⟩ := List.mem_map.mp hHere
  obtain ⟨_, _, hEq⟩ := List.mem_map.mp hThere
  exact hNe (Prod.mk.inj hEq).1.symm

/-- A pattern is reported at most once for each start position. -/
theorem reports_nodup (root : Node) (text : List UInt8) : (reports root text).Nodup :=
  nodup_positioned (positions_nodup text) (scanKeys_nodup root text)

/-- The pattern matches the text from a start position on. -/
def Matches (key : Key) (text : List UInt8) (i : Nat) : Prop :=
  PrefixMatches key.1 (text.drop i) ∧ key.2.admits (i == 0) (i + key.1.length == text.length) = true

instance (t : Nat) (byte : UInt8) : Decidable (TokenMatches t byte) :=
  inferInstanceAs (Decidable (_ ∨ _ ∨ (_ ∧ _)))

instance decidablePrefixMatches : (path : List Nat) → (text : List UInt8) → Decidable (PrefixMatches path text)
  | [], _ => .isTrue trivial
  | _ :: _, [] => .isFalse id
  | t :: path, byte :: rest =>
      have := decidablePrefixMatches path rest
      inferInstanceAs (Decidable (TokenMatches t byte ∧ PrefixMatches path rest))

instance (key : Key) (text : List UInt8) (i : Nat) : Decidable (Matches key text i) :=
  inferInstanceAs (Decidable (_ ∧ _))

/-- The patterns that are reported for a start position: those with a result that
match there and are not cut off. The empty one is for the first position. -/
theorem mem_scanKeys (hWithin : i ≤ text.length) :
    key ∈ scanKeys root text i ↔
      (key.1 = [] → i = 0) ∧ stored root key.1 key.2 ≠ 0 ∧ Matches key text i ∧
        ¬ Cut root key.1 (text.drop i) := by
  obtain ⟨path, m⟩ := key
  rw [scanKeys, List.mem_append, mem_reported]
  cases path with
  | nil =>
      by_cases hFirst : i = 0
      · subst hFirst
        have hEnd : (0 == text.length) = text.isEmpty := by cases text <;> simp
        have hCut : ¬ Cut root [] text := by cases text <;> simp [Cut]
        simp [Matches, PrefixMatches, hCut, hEnd, mem_matchMethods, stored]
      · simp [hFirst]
  | cons t path =>
      have hEnd : ((t :: path).length == (text.drop i).length) =
          (i + (t :: path).length == text.length) := by
        rw [List.length_drop, Bool.eq_iff_iff, beq_iff_eq, beq_iff_eq]
        omega
      rw [hEnd]
      split_ifs <;> simp [Matches, and_assoc]

theorem reaches_cons {node : Node} {t : Nat} {path : List Nat} :
    Reaches node (t :: path) ↔ ∃ found, child node.next t = some found ∧ Reaches found path := by
  cases hChild : child node.next t <;> simp [Reaches, lookup_cons, hChild]

/-- In terms of paths: a path is cut off if it ends with the text and another
path that differs in the last character leads to a node that is tried before. -/
theorem cut_iff {node : Node} {path : List Nat} {rest : List UInt8} :
    Cut node path rest ↔
      ∃ pre t front byte t', path = pre ++ [t] ∧ rest = front ++ [byte] ∧
        pre.length = front.length ∧ Before byte t' t ∧ Reaches node (pre ++ [t']) := by
  induction path generalizing node rest with
  | nil => simp [Cut]
  | cons t path ih =>
      cases rest with
      | nil => simp [Cut]
      | cons byte rest =>
          cases path with
          | nil =>
              rw [cut_singleton]
              constructor
              · rintro ⟨rfl, t', hBefore, hReach⟩
                exact ⟨[], t, [], byte, t', rfl, rfl, rfl, hBefore, hReach⟩
              · rintro ⟨pre, t₀, front, byte₀, t', hPath, hRest, hLength, hBefore, hReach⟩
                cases pre with
                | nil =>
                    obtain rfl := List.length_eq_zero_iff.mp hLength.symm
                    obtain ⟨rfl, _⟩ := List.cons.inj hPath
                    obtain ⟨rfl, rfl⟩ := List.cons.inj hRest
                    exact ⟨rfl, t', hBefore, hReach⟩
                | cons _ pre => exact absurd (List.cons.inj hPath).2.symm (by simp)
          | cons t₂ path =>
              have hCut : Cut node (t :: t₂ :: path) (byte :: rest) ↔
                  ∃ found, child node.next t = some found ∧ Cut found (t₂ :: path) rest := by
                simp only [Cut]
              rw [hCut]
              constructor
              · rintro ⟨found, hChild, hBelow⟩
                obtain ⟨pre, t₀, front, byte₀, t', hPath, hRest, hLength, hBefore, hReach⟩ :=
                  ih.mp hBelow
                refine ⟨t :: pre, t₀, byte :: front, byte₀, t', by rw [hPath]; rfl, by rw [hRest]; rfl,
                  congrArg Nat.succ hLength, hBefore, ?_⟩
                exact reaches_cons.mpr ⟨found, hChild, hReach⟩
              · rintro ⟨pre, t₀, front, byte₀, t', hPath, hRest, hLength, hBefore, hReach⟩
                cases pre with
                | nil => exact absurd (List.cons.inj hPath).2 (by simp)
                | cons _ pre =>
                    cases front with
                    | nil => cases hLength
                    | cons _ front =>
                        obtain ⟨rfl, hTail⟩ := List.cons.inj hPath
                        obtain ⟨found, hChild, hReach⟩ := reaches_cons.mp hReach
                        exact ⟨found, hChild, ih.mpr ⟨pre, t₀, front, byte₀, t', hTail,
                          (List.cons.inj hRest).2, Nat.succ.inj hLength, hBefore, hReach⟩⟩

theorem report_within {r : Nat × Key} (hMem : r ∈ reports root text) : r.1 ≤ text.length := by
  have hPosition := (mem_reports.mp hMem).1
  rw [positions] at hPosition
  split_ifs at hPosition
  · rw [List.mem_singleton.mp hPosition]
    exact Nat.zero_le _
  · exact Nat.le_of_lt (List.mem_range.mp hPosition)

/-- A report is a match of a pattern that was added. -/
theorem Built.report (h : Built root log) {r : Nat × Key} (hMem : r ∈ reports root text) :
    Matches r.2 text r.1 ∧ ∃ e, firstAdd log r.2 = some e := by
  obtain ⟨_, hStored, hMatches, _⟩ :=
    (mem_scanKeys (report_within hMem)).mp (mem_reports.mp hMem).2
  exact ⟨hMatches, h.mirrors.added hStored⟩

/-- The search pushes results of the first calls for the patterns it reports. -/
theorem Built.stringFind_eq (h : Built root log) (text : List UInt8) (stash : Stash) :
    stringFind root text stash =
      stash.pushAll ((reports root text).map fun r => firstResult log r.2) := by
  have hStored (key : Key) : stored root key.1 key.2 = firstResult log key :=
    h.mirrors.stored key.1 key.2
  rw [Strings.stringFind_eq]
  simp only [hStored]

section Adding

variable {fuel result ret : Nat} {alloc : Nat → Option (Nat → Node)} {buf : List UInt8}
variable {flags : Flags} {e : Entry}

theorem reaches_of_stored {path : List Nat} {m : Method} (h : stored root path m ≠ 0) :
    Reaches root path := by
  cases hLookup : lookup path root with
  | none => exact absurd (by rw [stored, hLookup]; rfl) h
  | some found => simp [Reaches, hLookup]

/-- Adding a pattern again returns the earlier result and changes none. -/
theorem Built.add_again (h : Built root log) (hLength : buf.length < 2 ^ 32)
    (hFirst : firstAdd log (tokenize flags.nocase buf, flags.method) = some e)
    (hFuel : buf.length < fuel) :
    ∃ root', stringAdd fuel alloc root result (some buf) flags = some (e.result, root') ∧
      Keeps root root' := by
  have hStored := h.mirrors.stored_first hFirst
  have hSome : stored root (tokenize flags.nocase buf) flags.method ≠ 0 := by
    rw [hStored]
    exact h.mirrors.result hFirst
  have hReads := reads_tokenize flags.nocase hLength (Nat.zero_le _)
  rw [List.drop_zero] at hReads
  have hRounds := tokenize_length_le flags.nocase buf
  obtain ⟨ret, root', hAdd⟩ :
      ∃ ret root', stringAdd fuel alloc root result (some buf) flags = some (ret, root') :=
    addFrom_returns h.mirrors.tree hReads (Nat.lt_of_le_of_lt hRounds hFuel)
  obtain ⟨toks, _, hResult⟩ := stringAdd_spec h.mirrors.tree hAdd
  rcases hResult with ⟨rfl, hRet, hStores, _⟩ | ⟨_, _, _, hNot⟩
  · have hKeeps : Keeps root root' := by
      intro path m
      rw [hStores, if_neg fun hSame => hSome hSame.2.2]
    refine ⟨root', ?_, hKeeps⟩
    rw [← hStored, ← hKeeps, ← hRet]
    exact hAdd
  · exact absurd (reaches_of_stored hSome) (hNot hLength)

/-- A pattern that is too long for the counter is never added. -/
theorem Built.add_overlong (h : Built root log) (hLength : 2 ^ 32 ≤ buf.length)
    (hAdd : stringAdd fuel alloc root result (some buf) flags = some (ret, root')) : ret = 0 := by
  obtain ⟨_, _, hResult⟩ := stringAdd_spec h.mirrors.tree hAdd
  rcases hResult with ⟨_, _, _, hShort⟩ | ⟨hRet, _⟩
  · omega
  · exact hRet

/-- A call that returns leaves the results of all other patterns. -/
theorem Built.add_others (h : Built root log)
    (hAdd : stringAdd fuel alloc root result (some buf) flags = some (ret, root'))
    (hOther : key ≠ (tokenize flags.nocase buf, flags.method)) :
    stored root' key.1 key.2 = stored root key.1 key.2 := by
  obtain ⟨toks, _, hResult⟩ := stringAdd_spec h.mirrors.tree hAdd
  rcases hResult with ⟨rfl, _, hStores, _⟩ | ⟨_, hKeeps, _⟩
  · rw [hStores, if_neg]
    rintro ⟨hPath, hMethod, _⟩
    exact hOther (Prod.ext hPath hMethod)
  · exact hKeeps _ _

/-- Allocations that succeed. -/
def plenty : Nat → Option (Nat → Node) := fun _ => some fun _ => Node.ref 0

/-- With enough memory a pattern that is new gets its result. -/
theorem Built.add_new (h : Built root log) (hLength : buf.length < 2 ^ 32) (hResult : result ≠ 0)
    (hNew : firstAdd log (tokenize flags.nocase buf, flags.method) = none) :
    ∃ root', Built root' (log ++ [⟨result, buf, flags, result⟩]) := by
  have hReads := reads_tokenize flags.nocase hLength (Nat.zero_le _)
  rw [List.drop_zero] at hReads
  obtain ⟨ret, root', hAdd⟩ : ∃ ret root', stringAdd ((tokenize flags.nocase buf).length + 1)
      plenty root result (some buf) flags = some (ret, root') :=
    addFrom_returns h.mirrors.tree hReads (Nat.lt_succ_self _)
  obtain ⟨toks, _, hDone⟩ := stringAdd_spec h.mirrors.tree hAdd
  rcases hDone with ⟨rfl, hRet, hStores, _⟩ | ⟨_, _, ⟨_, hAlloc⟩, _⟩
  · have hZero : stored root (tokenize flags.nocase buf) flags.method = 0 := by
      rw [h.mirrors.stored, firstResult, hNew]
      rfl
    rw [hStores, if_pos ⟨rfl, rfl, hZero⟩] at hRet
    subst hRet
    exact ⟨root', .add h hAdd⟩
  · cases hAlloc

/-- What is said about a search and about adding a pattern in some state. -/
structure NothingFalse (root : Node) (log : List Entry) (text : List UInt8) (buf : List UInt8)
    (flags : Flags) : Prop where
  /-- Every value that is pushed is the result of the first successful call for
  a pattern that matches, and no other value is for that pattern and position. -/
  find (stash : Stash) : ∃ found : List (Nat × Key), found.Nodup ∧
    stringFind root text stash = stash.pushAll (found.map fun r => firstResult log r.2) ∧
    ∀ r ∈ found, r.1 ≤ text.length ∧ Matches r.2 text r.1 ∧ ∃ e, firstAdd log r.2 = some e
  /-- A pattern that was added before is known. -/
  again (e : Entry) (hFirst : firstAdd log (tokenize flags.nocase buf, flags.method) = some e)
    (alloc : Nat → Option (Nat → Node)) (result : Nat) :
    ∃ rounds, ∀ fuel, rounds ≤ fuel → ∃ root',
      stringAdd fuel alloc root result (some buf) flags = some (e.result, root') ∧ Keeps root root'
  /-- Other patterns keep their results. -/
  others (fuel : Nat) (alloc : Nat → Option (Nat → Node)) (result ret : Nat) (root' : Node)
    (hAdd : stringAdd fuel alloc root result (some buf) flags = some (ret, root')) (key : Key)
    (hOther : key ≠ (tokenize flags.nocase buf, flags.method)) :
    stored root' key.1 key.2 = stored root key.1 key.2

/-- The search reports nothing false, and a pattern that was added before is
known exactly if its buffer is short enough for the counter of the loop. -/
theorem string_find_sound (h : Built root log) (text buf : List UInt8) (flags : Flags) :
    NothingFalse root log text buf flags ↔
      ((firstAdd log (tokenize flags.nocase buf, flags.method)).isSome = true →
        buf.length < 2 ^ 32) := by
  constructor
  · intro hNothing hSome
    obtain ⟨e, hFirst⟩ := Option.isSome_iff_exists.mp hSome
    obtain ⟨rounds, hReturns⟩ := hNothing.again e hFirst (fun _ => none) 0
    obtain ⟨root', hAdd, _⟩ := hReturns rounds (Nat.le_refl _)
    by_contra hLong
    exact h.mirrors.result hFirst (h.add_overlong (Nat.le_of_not_lt hLong) hAdd)
  · intro hShort
    refine ⟨fun stash => ⟨reports root text, reports_nodup root text, h.stringFind_eq text stash, ?_⟩,
      fun e hFirst alloc result => ?_, fun fuel alloc result ret root' hAdd key hOther => ?_⟩
    · intro r hMem
      exact ⟨report_within hMem, h.report hMem⟩
    · have hLength := hShort (by rw [hFirst]; rfl)
      exact ⟨buf.length + 1, fun fuel hFuel => h.add_again hLength hFirst hFuel⟩
    · exact h.add_others hAdd hOther

/-- A search after two calls for patterns that begin with the same letter, and the
first call again. -/
theorem oneLetter_sound :
    ∃ root, Built root [⟨7, [97, 98], ⟨false, true, true⟩, 7⟩, ⟨8, [97, 99], ⟨false, true, true⟩, 8⟩] ∧
      NothingFalse root [⟨7, [97, 98], ⟨false, true, true⟩, 7⟩, ⟨8, [97, 99], ⟨false, true, true⟩, 8⟩]
        [98, 65, 99] [97, 98] ⟨false, true, true⟩ := by
  obtain ⟨root, hBuilt⟩ : ∃ root, Built root ([] ++ [⟨7, [97, 98], ⟨false, true, true⟩, 7⟩]) :=
    Built.init.add_new (by decide) (by decide) rfl
  obtain ⟨root', hBuilt'⟩ : ∃ root', Built root'
      ([⟨7, [97, 98], ⟨false, true, true⟩, 7⟩] ++ [⟨8, [97, 99], ⟨false, true, true⟩, 8⟩]) :=
    hBuilt.add_new (by decide) (by decide) (by decide)
  exact ⟨root', hBuilt', (string_find_sound hBuilt' _ _ _).mpr fun _ => by decide⟩

/-- Two backslashes make one literal, and so does a last one. -/
theorem tokenize_backslashes (nocase : Bool) (n : Nat) :
    tokenize nocase (List.replicate n 92) = List.replicate ((n + 1) / 2) (literal nocase 92) := by
  induction n using Nat.twoStepInduction with
  | zero => rfl
  | one => rfl
  | more n ih _ =>
      have hHalf : (n + 2 + 1) / 2 = (n + 1) / 2 + 1 := by omega
      rw [hHalf, List.replicate_succ (n := (n + 1) / 2), ← ih, List.replicate_succ,
        List.replicate_succ, tokenize, if_neg (by decide), if_pos (by decide)]

/-- A pattern of 2^31 literal backslashes is not known when it is added again
with one more byte for the last of them, since the loop does not end. -/
theorem backslashes_not_known :
    ∃ root, Built root [⟨1, List.replicate (2 ^ 32 - 1) 92, ⟨false, false, false⟩, 1⟩] ∧
      ¬ NothingFalse root [⟨1, List.replicate (2 ^ 32 - 1) 92, ⟨false, false, false⟩, 1⟩] []
        (List.replicate (2 ^ 32) 92) ⟨false, false, false⟩ := by
  have hShort : (List.replicate (2 ^ 32 - 1) (92 : UInt8)).length < 2 ^ 32 := by
    rw [List.length_replicate]
    omega
  have hLong : 2 ^ 32 ≤ (List.replicate (2 ^ 32) (92 : UInt8)).length :=
    Nat.le_of_eq List.length_replicate.symm
  have hSame : tokenize false (List.replicate (2 ^ 32) 92) =
      tokenize false (List.replicate (2 ^ 32 - 1) 92) := by
    rw [tokenize_backslashes, tokenize_backslashes,
      show (2 ^ 32 + 1) / 2 = (2 ^ 32 - 1 + 1) / 2 from by decide]
  generalize List.replicate (2 ^ 32 - 1) (92 : UInt8) = short at hShort hSame ⊢
  generalize List.replicate (2 ^ 32) (92 : UInt8) = long at hLong hSame ⊢
  obtain ⟨root, hBuilt⟩ : ∃ root, Built root ([] ++ [⟨1, short, ⟨false, false, false⟩, 1⟩]) :=
    Built.init.add_new hShort Nat.one_ne_zero rfl
  refine ⟨root, hBuilt, fun hNothing => ?_⟩
  have hFirst : firstAdd [⟨1, short, ⟨false, false, false⟩, 1⟩] (tokenize false long, Method.floating) =
      some ⟨1, short, ⟨false, false, false⟩, 1⟩ := by
    rw [hSame]
    simp [firstAdd, Entry.key, Flags.method]
  obtain ⟨rounds, hReturns⟩ := hNothing.again _ hFirst (fun _ => none) 0
  obtain ⟨root', hAdd, _⟩ := hReturns rounds (Nat.le_refl _)
  exact Nat.one_ne_zero (hBuilt.add_overlong hLong hAdd)

end Adding

end Peak.Strings
