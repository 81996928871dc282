import Peak.Strings.Reports

/-! Which matches `peak_string_find` misses. At the end of the text the search
returns from the first child that it finds, so a match that ends there is lost
to another pattern that goes on with a character that is tried before. -/
namespace Peak.Strings

variable {root root' : Node} {log log' : List Entry} {text : List UInt8} {stash : Stash}
variable {r : Nat × Key}

/-- A byte without its case, for letters. -/
def lower (byte : UInt8) : Nat := if 65 ≤ byte.toNat ∧ byte.toNat ≤ 90 then byte.toNat + 32 else byte.toNat

/-- A literal matches its own byte, or the letter of either case. -/
theorem tokenMatches_literal (nocase : Bool) (byte byte' : UInt8) :
    TokenMatches (literal nocase byte) byte' ↔
      if nocase then lower byte' = lower byte else byte' = byte := by
  have hByte := byte.toNat_lt
  have hByte' := byte'.toNat_lt
  have hEq : byte' = byte ↔ byte'.toNat = byte.toNat := UInt8.toNat_inj.symm
  cases nocase with
  | false =>
      simp only [TokenMatches, literal, stringWildcard, stringNocase, hEq, Bool.false_eq_true,
        false_and, if_false]
      split_ifs <;> omega
  | true =>
      simp only [TokenMatches, literal, stringWildcard, stringNocase, lower, true_and, if_true]
      split_ifs <;> omega

/-- The matches of all patterns in a text, at the position they start at. -/
def matchesOf (log : List Entry) (text : List UInt8) : List (Nat × Key) :=
  (List.range text.length).flatMap fun i =>
    ((log.map Entry.key).dedup.filter fun key => Matches key text i).map (Prod.mk i)

/-- A pattern that ends with the text is lost: some pattern has the same
characters up to the last one, and one that is tried before in its place. -/
def Shadowed (log : List Entry) (path : List Nat) (rest : List UInt8) : Prop :=
  ∃ pre t front byte t', path = pre ++ [t] ∧ rest = front ++ [byte] ∧ pre.length = front.length ∧
    Before byte t' t ∧ ∃ e ∈ log, pre ++ [t'] <+: e.key.1

/-- The calls succeeded and the patterns are not empty. -/
def Successful (log : List Entry) : Prop := ∀ e ∈ log, e.ret ≠ 0 ∧ e.buf ≠ []

instance (log : List Entry) : Decidable (Successful log) :=
  inferInstanceAs (Decidable (∀ e ∈ log, _))

/-- Only a pattern that ends with the text is lost. -/
theorem not_shadowed {path : List Nat} {rest : List UInt8} (h : path.length ≠ rest.length) :
    ¬ Shadowed log path rest := by
  rintro ⟨pre, t, front, byte, t', rfl, rfl, hLength, _⟩
  simp [hLength] at h

theorem mem_matchesOf :
    r ∈ matchesOf log text ↔
      r.1 < text.length ∧ (∃ e ∈ log, e.key = r.2) ∧ Matches r.2 text r.1 := by
  obtain ⟨i, key⟩ := r
  simp only [matchesOf, List.mem_flatMap, List.mem_range, List.mem_map, List.mem_filter,
    List.mem_dedup, decide_eq_true_eq, Prod.mk.injEq]
  constructor
  · rintro ⟨i', hWithin, key', ⟨hAdded, hMatches⟩, rfl, rfl⟩
    exact ⟨hWithin, hAdded, hMatches⟩
  · rintro ⟨hWithin, hAdded, hMatches⟩
    exact ⟨i, hWithin, key, ⟨hAdded, hMatches⟩, rfl, rfl⟩

theorem matchesOf_nodup (log : List Entry) (text : List UInt8) : (matchesOf log text).Nodup :=
  nodup_positioned List.nodup_range fun _ => (List.nodup_dedup _).filter _

theorem tokenize_ne_nil {nocase : Bool} {buf : List UInt8} (h : buf ≠ []) :
    tokenize nocase buf ≠ [] := by
  fun_cases tokenize nocase buf <;> simp_all

theorem Successful.path_ne_nil (h : Successful log) {key : Key} (hAdded : ∃ e ∈ log, e.key = key) :
    key.1 ≠ [] := by
  obtain ⟨e, hMem, rfl⟩ := hAdded
  exact tokenize_ne_nil (h e hMem).2

/-- Paths are cut off in the tree exactly if they are shadowed. -/
theorem Built.cut_iff_shadowed (h : Built root log) (hAll : Successful log) {path : List Nat}
    {rest : List UInt8} : Cut root path rest ↔ Shadowed log path rest := by
  have hReaches (pre : List Nat) (t' : Nat) :
      Reaches root (pre ++ [t']) ↔ ∃ e ∈ log, pre ++ [t'] <+: e.key.1 := by
    rw [h.reaches_iff fun e hMem => (hAll e hMem).1]
    simp
  simp only [cut_iff, hReaches, Shadowed]

/-- The reports are the matches that are not shadowed. -/
theorem Built.mem_reports_iff (h : Built root log) (hAll : Successful log) :
    r ∈ reports root text ↔
      r ∈ matchesOf log text ∧ ¬ Shadowed log r.2.1 (text.drop r.1) := by
  rw [mem_matchesOf]
  constructor
  · intro hMem
    obtain ⟨hMatches, e, hFirst⟩ := h.report hMem
    obtain ⟨hLog, _, hKey⟩ := firstAdd_mem hFirst
    have hPath := hAll.path_ne_nil ⟨e, hLog, hKey⟩
    have hCut := ((mem_scanKeys (report_within hMem)).mp (mem_reports.mp hMem).2).2.2.2
    refine ⟨⟨?_, ⟨e, hLog, hKey⟩, hMatches⟩, fun hShadowed => hCut ((h.cut_iff_shadowed hAll).mpr hShadowed)⟩
    by_contra hPast
    have hPrefix := hMatches.1
    rw [List.drop_eq_nil_of_le (Nat.le_of_not_lt hPast)] at hPrefix
    cases hChars : r.2.1 with
    | nil => exact hPath hChars
    | cons t path =>
        rw [hChars] at hPrefix
        exact hPrefix
  · rintro ⟨⟨hWithin, ⟨e, hLog, hKey⟩, hMatches⟩, hNot⟩
    have hPath := hAll.path_ne_nil ⟨e, hLog, hKey⟩
    have hStored : stored root r.2.1 r.2.2 ≠ 0 := by
      obtain ⟨e', hFirst⟩ := firstAdd_of_mem hLog (hAll e hLog).1
      rw [hKey] at hFirst
      rw [h.mirrors.stored_first hFirst]
      exact h.mirrors.result hFirst
    have hPosition : r.1 ∈ positions text := by
      rw [positions, if_neg]
      · exact List.mem_range.mpr hWithin
      · intro hEmpty
        rw [List.isEmpty_iff.mp hEmpty] at hWithin
        exact absurd hWithin (Nat.not_lt_zero _)
    refine mem_reports.mpr ⟨hPosition, (mem_scanKeys (Nat.le_of_lt hWithin)).mpr
      ⟨fun hNil => absurd hNil hPath, hStored, hMatches, fun hCut => hNot ?_⟩⟩
    exact (h.cut_iff_shadowed hAll).mp hCut

theorem Built.reports_subperm (h : Built root log) (hAll : Successful log) (text : List UInt8) :
    (reports root text).Subperm (matchesOf log text) :=
  (reports_nodup root text).subperm fun _ hMem => ((h.mem_reports_iff hAll).mp hMem).1

/-- With enough room the values of all reports are in the stash. -/
theorem Built.stringFind_values (h : Built root log) (hAll : Successful log)
    (hRoom : stash.values.length + (matchesOf log text).length ≤ stash.size) :
    (stringFind root text stash).values =
      stash.values ++ (reports root text).map fun r => firstResult log r.2 := by
  have hFewer := (h.reports_subperm hAll text).length_le
  rw [h.stringFind_eq]
  exact Stash.pushAll_values (by rw [List.length_map]; omega)

/-- Values of some of the items are some of the values. -/
theorem subperm_map {α β : Type} {items items' : List α} (f : α → β) (h : items.Subperm items') :
    (items.map f).Subperm (items'.map f) := by
  obtain ⟨some, hPerm, hSublist⟩ := h
  exact ⟨some.map f, hPerm.map f, hSublist.map f⟩

/-- The search pushes a value for every match. -/
def MissesNothing (root : Node) (log : List Entry) (text : List UInt8) (stash : Stash) : Prop :=
  ∃ pushed, (stringFind root text stash).values = stash.values ++ pushed ∧
    ((matchesOf log text).map fun r => firstResult log r.2).Subperm pushed

/-- A value for every match means that every match is reported. -/
theorem Built.missesNothing_iff (h : Built root log) (hAll : Successful log)
    (hRoom : stash.values.length + (matchesOf log text).length ≤ stash.size) :
    MissesNothing root log text stash ↔ matchesOf log text ⊆ reports root text := by
  have hValues := h.stringFind_values hAll hRoom
  constructor
  · rintro ⟨pushed, hPushed, hMatches⟩
    rw [hPushed] at hValues
    have hEq := List.append_cancel_left hValues
    subst hEq
    have hLength := hMatches.length_le
    rw [List.length_map, List.length_map] at hLength
    exact ((h.reports_subperm hAll text).perm_of_length_le hLength).symm.subset
  · intro hSubset
    exact ⟨_, hValues, subperm_map _ ((matchesOf_nodup log text).subperm hSubset)⟩

/-- A pattern has the same result after more calls. -/
theorem firstResult_append {more : List Entry} {key : Key} {e : Entry}
    (hFirst : firstAdd log key = some e) : firstResult (log ++ more) key = firstResult log key := by
  have hSame : firstAdd (log ++ more) key = some e := by
    rw [firstAdd, List.find?_append]
    rw [firstAdd] at hFirst
    rw [hFirst, Option.some_or]
  rw [firstResult, firstResult, hSame, hFirst]

theorem matchesOf_append (log more : List Entry) (text : List UInt8) :
    matchesOf log text ⊆ matchesOf (log ++ more) text := by
  intro r hMem
  obtain ⟨hWithin, ⟨e, hLog, hKey⟩, hMatches⟩ := mem_matchesOf.mp hMem
  exact mem_matchesOf.mpr ⟨hWithin, ⟨e, List.mem_append_left _ hLog, hKey⟩, hMatches⟩

/-- The search misses nothing exactly if no match is shadowed, and then nothing
that was reported before the last calls is missing. -/
theorem string_find_complete {more : List Entry} (hBefore : Built root log)
    (h : Built root' (log ++ more)) (hAll : Successful (log ++ more))
    (hRoom : stash.values.length + (matchesOf (log ++ more) text).length ≤ stash.size) :
    (MissesNothing root' (log ++ more) text stash ↔
        ∀ r ∈ matchesOf (log ++ more) text, ¬ Shadowed (log ++ more) r.2.1 (text.drop r.1)) ∧
      ((∀ r ∈ matchesOf (log ++ more) text, ¬ Shadowed (log ++ more) r.2.1 (text.drop r.1)) →
        (stringFind root text stash).values.Subperm (stringFind root' text stash).values) := by
  have hReports (hNone : ∀ r ∈ matchesOf (log ++ more) text,
      ¬ Shadowed (log ++ more) r.2.1 (text.drop r.1)) :
      matchesOf (log ++ more) text ⊆ reports root' text := by
    intro r hMem
    exact (h.mem_reports_iff hAll).mpr ⟨hMem, hNone r hMem⟩
  refine ⟨?_, fun hNone => ?_⟩
  · rw [h.missesNothing_iff hAll hRoom]
    exact ⟨fun hSubset r hMem => ((h.mem_reports_iff hAll).mp (hSubset hMem)).2, hReports⟩
  · have hAllBefore : Successful log := fun e hMem => hAll e (List.mem_append_left _ hMem)
    have hFewer := ((matchesOf_nodup log text).subperm (matchesOf_append log more text)).length_le
    have hSame : (reports root text).map (fun r => firstResult log r.2) =
        (reports root text).map fun r => firstResult (log ++ more) r.2 := by
      refine List.map_congr_left fun r hMem => ?_
      obtain ⟨_, e, hFirst⟩ := hBefore.report hMem
      exact (firstResult_append hFirst).symm
    have hKept : reports root text ⊆ reports root' text := fun r hMem =>
      hReports hNone (matchesOf_append log more text ((hBefore.mem_reports_iff hAllBefore).mp hMem).1)
    rw [hBefore.stringFind_values hAllBefore (by omega), h.stringFind_values hAll hRoom, hSame]
    exact (List.subperm_append_left _).mpr (subperm_map _ ((reports_nodup root text).subperm hKept))

/-- Two patterns that match a text before its end. -/
theorem twoPatterns_complete :
    ∃ root root', Built root [⟨1, [97], ⟨false, false, false⟩, 1⟩] ∧
      Built root' [⟨1, [97], ⟨false, false, false⟩, 1⟩, ⟨2, [63, 98], ⟨true, false, true⟩, 2⟩] ∧
      MissesNothing root'
        ([⟨1, [97], ⟨false, false, false⟩, 1⟩] ++ [⟨2, [63, 98], ⟨true, false, true⟩, 2⟩])
        [97, 66, 99] ⟨8, []⟩ := by
  obtain ⟨root, hBefore⟩ : ∃ root, Built root ([] ++ [⟨1, [97], ⟨false, false, false⟩, 1⟩]) :=
    Built.init.add_new (by decide) (by decide) rfl
  obtain ⟨root', h⟩ : ∃ root', Built root' (([] ++ [⟨1, [97], ⟨false, false, false⟩, 1⟩]) ++
      [⟨2, [63, 98], ⟨true, false, true⟩, 2⟩]) :=
    hBefore.add_new (by decide) (by decide) (by decide)
  refine ⟨root, root', hBefore, h, (string_find_complete hBefore h (by decide) (by decide)).1.mpr ?_⟩
  intro r hMem
  refine not_shadowed ?_
  revert r
  decide

/-- The tree after a call for a pattern of one byte, with enough memory. -/
def withByte (root : Node) (result : Nat) (byte : UInt8) : Node :=
  ((stringAdd 2 plenty root result (some [byte]) ⟨false, false, false⟩).getD (0, root)).2

/-- A pattern of one wildcard is lost as soon as there is one for the letter. -/
theorem wildcard_shadowed :
    Built (withByte stringInit 2 63) [⟨2, [63], ⟨false, false, false⟩, 2⟩] ∧
      Built (withByte (withByte stringInit 2 63) 1 97)
        [⟨2, [63], ⟨false, false, false⟩, 2⟩, ⟨1, [97], ⟨false, false, false⟩, 1⟩] ∧
      (stringFind (withByte stringInit 2 63) [97] ⟨8, []⟩).values = [2] ∧
      (stringFind (withByte (withByte stringInit 2 63) 1 97) [97] ⟨8, []⟩).values = [1] ∧
      ¬ MissesNothing (withByte (withByte stringInit 2 63) 1 97)
        [⟨2, [63], ⟨false, false, false⟩, 2⟩, ⟨1, [97], ⟨false, false, false⟩, 1⟩] [97] ⟨8, []⟩ := by
  have hFirst : stringAdd 2 plenty stringInit 2 (some [63]) ⟨false, false, false⟩ =
      some (2, withByte stringInit 2 63) := rfl
  have hSecond : stringAdd 2 plenty (withByte stringInit 2 63) 1 (some [97]) ⟨false, false, false⟩ =
      some (1, withByte (withByte stringInit 2 63) 1 97) := rfl
  have hFound : (stringFind (withByte (withByte stringInit 2 63) 1 97) [97] ⟨8, []⟩).values = [1] := rfl
  refine ⟨.add .init hFirst, .add (.add .init hFirst) hSecond, rfl, hFound, ?_⟩
  rintro ⟨pushed, hPushed, hMatches⟩
  rw [hFound, List.nil_append] at hPushed
  subst hPushed
  exact absurd hMatches.length_le (by decide)

end Peak.Strings
