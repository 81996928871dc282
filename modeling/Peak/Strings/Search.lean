import Mathlib.Data.List.Nodup
import Peak.Strings.History

/-! What `peak_string_find` pushes: for every position of the text a list of
patterns, each of them once, with the results that are stored for them. -/
namespace Peak.Strings

open PagedList

variable {node found : Node} {start : Bool} {byte : UInt8} {text rest : List UInt8}
variable {path : List Nat} {method : Method} {t t' : Nat}

/-- Where a method lets a pattern match: at the start of the text, at its end,
at both or anywhere. -/
def Method.admits (start ended : Bool) : Method → Bool
  | .floating => true
  | .left => start
  | .right => ended
  | .exact => start && ended

/-- The methods for which a node pushes its result, in order. -/
def matchMethods (node : Node) (start ended : Bool) : List Method :=
  [Method.floating, .left, .right, .exact].filter fun m =>
    node.result m ≠ 0 ∧ m.admits start ended = true

/-- The characters that are tried for a byte of the text, in order. -/
def candidates (byte : UInt8) : List Nat :=
  [byte.toNat, stringWildcard] ++ if stringNocase byte = 0 then [] else [stringNocase byte]

/-- The children that are visited among some candidates: all that are there, but
only the first one of them at the end of the text. -/
def visitedOf (node : Node) (rest : List UInt8) (ts : List Nat) : List Nat :=
  let there := ts.filter fun t => (child node.next t).isSome
  if rest.isEmpty then there.take 1 else there

/-- The patterns whose results are pushed from a node on. -/
def reported (start : Bool) : List UInt8 → Node → List Key
  | [], _ => []
  | byte :: rest, node =>
      (visitedOf node rest (candidates byte)).flatMap fun t =>
        match child node.next t with
        | none => []
        | some found =>
            (matchMethods found start rest.isEmpty).map (fun m => ([t], m)) ++
              (reported start rest found).map fun key => (t :: key.1, key.2)

/-- Pushing values one after another. -/
def Stash.pushAll (stash : Stash) (values : List Nat) : Stash := values.foldl Stash.push stash

theorem Stash.pushAll_append (stash : Stash) (values values' : List Nat) :
    stash.pushAll (values ++ values') = (stash.pushAll values).pushAll values' := by
  simp [Stash.pushAll]

/-- A stash that is large enough takes all values. -/
theorem Stash.pushAll_values {stash : Stash} {values : List Nat}
    (h : stash.values.length + values.length ≤ stash.size) :
    (stash.pushAll values).values = stash.values ++ values := by
  induction values generalizing stash with
  | nil => simp [Stash.pushAll]
  | cons value values ih =>
      rw [List.length_cons] at h
      have hPush : stash.push value = { stash with values := stash.values ++ [value] } :=
        if_pos (by omega)
      have hRest : (stash.push value).values.length + values.length ≤ (stash.push value).size := by
        simp only [hPush, List.length_append, List.length_singleton]
        omega
      have hAll := ih hRest
      simp only [Stash.pushAll, List.foldl_cons] at hAll ⊢
      rw [hAll, hPush, List.append_assoc, List.singleton_append]

/-- The results of a list of patterns. -/
def resultsOf (node : Node) (keys : List Key) : List Nat := keys.map fun key => stored node key.1 key.2

/-- One result is pushed if there is one and its method applies. -/
theorem pushResult_eq (node : Node) (m : Method) (start ended : Bool) (stash : Stash) :
    pushResult node m (m.admits start ended) stash =
      stash.pushAll (([m].filter fun m => node.result m ≠ 0 ∧ m.admits start ended = true).map
        node.result) := by
  by_cases hWanted : node.result m ≠ 0 ∧ m.admits start ended = true
  · rw [pushResult, if_pos hWanted, List.filter_cons_of_pos (by simpa using hWanted)]
    rfl
  · rw [pushResult, if_neg hWanted, List.filter_cons_of_neg (by simpa using hWanted)]
    rfl

/-- `peak_string_match` pushes the results of the methods that apply. -/
theorem stringMatch_eq (node : Node) (len : Nat) (start : Bool) (stash : Stash) :
    stringMatch node len start stash =
      (len == 0, stash.pushAll ((matchMethods node start (len == 0)).map node.result)) := by
  have hOrder : [Method.floating, .left, .right, .exact] =
      [.floating] ++ ([.left] ++ ([.right] ++ [.exact])) := rfl
  rw [matchMethods, hOrder]
  simp only [List.filter_append, List.map_append, Stash.pushAll_append, ← pushResult_eq]
  rfl

/-- What is pushed for one candidate. -/
def visitKeys (start : Bool) (rest : List UInt8) (node : Node) (t : Nat) : List Key :=
  match child node.next t with
  | none => []
  | some found =>
      (matchMethods found start rest.isEmpty).map (fun m => ([t], m)) ++
        (reported start rest found).map fun key => (t :: key.1, key.2)

theorem reported_cons (start : Bool) (byte : UInt8) (rest : List UInt8) (node : Node) :
    reported start (byte :: rest) node = (visitedOf node rest (candidates byte)).flatMap (visitKeys start rest node) :=
  rfl

theorem resultsOf_append (node : Node) (keys keys' : List Key) :
    resultsOf node (keys ++ keys') = resultsOf node keys ++ resultsOf node keys' := by
  simp [resultsOf]

theorem stored_cons_of_child (h : child node.next t = some found) (path : List Nat) (m : Method) :
    stored node (t :: path) m = stored found path m := by
  rw [stored, lookup_cons, h, Option.bind_some, stored]

/-- Below a child the results are those of the child. -/
theorem resultsOf_visitKeys (h : child node.next t = some found) :
    resultsOf node (visitKeys start rest node t) =
      (matchMethods found start rest.isEmpty).map found.result ++
        resultsOf found (reported start rest found) := by
  simp only [visitKeys, h, resultsOf_append]
  simp only [resultsOf, List.map_map, Function.comp_def, stored_cons_of_child h]
  rfl

theorem visitKeys_none (h : child node.next t = none) : visitKeys start rest node t = [] := by
  simp only [visitKeys, h]

/-- One of the three parts of `_peak_string_find`: whether it returns, and the
stash. -/
def visit (start : Bool) (rest : List UInt8) (node : Node) (t : Nat) (stash : Stash) : Bool × Stash :=
  match child node.next t with
  | none => (false, stash)
  | some found =>
      let (ended, stash) := stringMatch found rest.length start stash
      if ended then (true, stash) else (false, findFrom start rest found stash)

/-- The parts one after another, until one returns. -/
def visitAll (start : Bool) (rest : List UInt8) (node : Node) : List Nat → Stash → Stash
  | [], stash => stash
  | t :: ts, stash =>
      let (returned, stash) := visit start rest node t stash
      if returned then stash else visitAll start rest node ts stash

/-- `_peak_string_find` goes through the candidates for the byte. -/
theorem findFrom_cons (start : Bool) (byte : UInt8) (rest : List UInt8) (node : Node) (stash : Stash) :
    findFrom start (byte :: rest) node stash = visitAll start rest node (candidates byte) stash := by
  have hParts : findFrom start (byte :: rest) node stash =
      let (returned, stash) := visit start rest node byte.toNat stash
      if returned then stash
      else
        let (returned, stash) := visit start rest node stringWildcard stash
        if returned then stash
        else if stringNocase byte = 0 then stash
        else (visit start rest node (stringNocase byte) stash).2 := rfl
  rw [hParts]
  by_cases hFold : stringNocase byte = 0
  · have hTwo : candidates byte = [byte.toNat, stringWildcard] := by simp [candidates, hFold]
    simp only [hTwo, visitAll, hFold, if_true]
  · have hThree : candidates byte = [byte.toNat, stringWildcard, stringNocase byte] := by
      simp [candidates, hFold]
    simp only [hThree, visitAll, hFold, if_false, ite_self]

/-- A part returns at the end of the text if it found a child. -/
theorem visit_eq (t : Nat) (stash : Stash)
    (hRest : ∀ found stash, findFrom start rest found stash =
      stash.pushAll (resultsOf found (reported start rest found))) :
    visit start rest node t stash =
      ((child node.next t).isSome && rest.isEmpty,
        stash.pushAll (resultsOf node (visitKeys start rest node t))) := by
  cases hChild : child node.next t with
  | none =>
      simp only [visit, hChild, visitKeys_none hChild]
      rfl
  | some found =>
      have hEnded : (rest.length == 0) = rest.isEmpty := by cases rest <;> rfl
      simp only [visit, hChild, stringMatch_eq, hEnded, resultsOf_visitKeys hChild,
        Stash.pushAll_append, ← hRest, Option.isSome_some, Bool.true_and]
      cases rest with
      | nil => rfl
      | cons => rfl

/-- The parts push the results of the patterns below the children they visit. -/
theorem visitAll_eq (ts : List Nat) (stash : Stash)
    (hRest : ∀ found stash, findFrom start rest found stash =
      stash.pushAll (resultsOf found (reported start rest found))) :
    visitAll start rest node ts stash =
      stash.pushAll (resultsOf node ((visitedOf node rest ts).flatMap (visitKeys start rest node))) := by
  induction ts generalizing stash with
  | nil =>
      have hNone : visitedOf node rest [] = [] := by simp [visitedOf]
      rw [hNone]
      rfl
  | cons t ts ih =>
      simp only [visitAll, visit_eq t stash hRest]
      cases hChild : child node.next t with
      | none =>
          have hSkip : visitedOf node rest (t :: ts) = visitedOf node rest ts := by
            simp [visitedOf, hChild]
          rw [hSkip, visitKeys_none hChild]
          exact ih stash
      | some found =>
          cases hEnd : rest.isEmpty with
          | true =>
              have hFirst : visitedOf node rest (t :: ts) = [t] := by simp [visitedOf, hChild, hEnd]
              rw [hFirst, List.flatMap_singleton]
              rfl
          | false =>
              have hMore : visitedOf node rest (t :: ts) = t :: visitedOf node rest ts := by
                simp [visitedOf, hChild, hEnd]
              rw [hMore, List.flatMap_cons, resultsOf_append, Stash.pushAll_append]
              exact ih _

/-- `_peak_string_find` pushes the results of the patterns it reports. -/
theorem findFrom_eq (start : Bool) (text : List UInt8) (node : Node) (stash : Stash) :
    findFrom start text node stash =
      stash.pushAll (resultsOf node (reported start text node)) := by
  induction text generalizing node stash with
  | nil => rfl
  | cons byte rest ih =>
      rw [findFrom_cons, reported_cons]
      exact visitAll_eq (candidates byte) stash ih

/-- A character of a pattern matches a byte of the text: it is the byte, the
wildcard, or the number of the letter. -/
def TokenMatches (t : Nat) (byte : UInt8) : Prop :=
  t = byte.toNat ∨ t = stringWildcard ∨ (t = stringNocase byte ∧ t ≠ 0)

/-- The first character is tried before the second one, both of which match the
byte: literals come first, then the wildcard, then the letter of either case. -/
def Before (byte : UInt8) (t' t : Nat) : Prop :=
  (t = stringWildcard ∧ t' = byte.toNat) ∨
    (t = stringNocase byte ∧ t ≠ 0 ∧ (t' = byte.toNat ∨ t' = stringWildcard))

theorem stringNocase_cases (byte : UInt8) : stringNocase byte = 0 ∨ 256 < stringNocase byte := by
  simp only [stringNocase]
  split_ifs <;> omega

theorem mem_candidates : t ∈ candidates byte ↔ TokenMatches t byte := by
  simp only [candidates, TokenMatches]
  split_ifs with hFold
  · simp [hFold]
  · simp
    grind

/-- The first candidate with a property is one with none before it. -/
theorem find_candidates (p : Nat → Bool) :
    (candidates byte).find? p = some t ↔
      TokenMatches t byte ∧ p t = true ∧ ∀ t', Before byte t' t → p t' = false := by
  have hByte := byte.toNat_lt
  have hWild : stringWildcard = 256 := rfl
  have hFold := stringNocase_cases byte
  simp only [candidates, TokenMatches, Before]
  grind

/-- A child is visited if it matches the byte and, at the end of the text, none
that is tried before it is there. -/
theorem mem_visitedOf :
    t ∈ visitedOf node rest (candidates byte) ↔
      TokenMatches t byte ∧ Reaches node [t] ∧
        (rest = [] → ∀ t', Before byte t' t → ¬ Reaches node [t']) := by
  have hReach (t : Nat) : Reaches node [t] ↔ (child node.next t).isSome = true := by
    cases hChild : child node.next t <;> simp [Reaches, lookup_cons, hChild]
  cases rest with
  | nil =>
      have hTake : t ∈ visitedOf node [] (candidates byte) ↔
          (candidates byte).find? (fun t => (child node.next t).isSome) = some t := by
        rw [visitedOf, if_pos List.isEmpty_nil, ← List.head?_filter]
        generalize (candidates byte).filter (fun t => (child node.next t).isSome) = there
        cases there with
        | nil => simp
        | cons first there => simp [eq_comm]
      rw [hTake, find_candidates]
      simp only [hReach, forall_const, Bool.not_eq_true]
  | cons byte' rest =>
      simp only [visitedOf, List.isEmpty_cons, Bool.false_eq_true, if_false, List.mem_filter,
        mem_candidates, hReach, reduceCtorEq, false_implies, and_true]

/-- The characters match the front of the text, one after another. -/
def PrefixMatches : List Nat → List UInt8 → Prop
  | [], _ => True
  | _ :: _, [] => False
  | t :: path, byte :: rest => TokenMatches t byte ∧ PrefixMatches path rest

/-- The path ends with the text, and for its last character there is another
node that is tried before. The search returns from there. -/
def Cut (node : Node) : List Nat → List UInt8 → Prop
  | [t], [byte] => ∃ t', Before byte t' t ∧ Reaches node [t']
  | t :: path, _ :: rest => ∃ found, child node.next t = some found ∧ Cut found path rest
  | _, _ => False

theorem mem_matchMethods {ended : Bool} :
    method ∈ matchMethods node start ended ↔
      node.result method ≠ 0 ∧ method.admits start ended = true := by
  simp only [matchMethods, List.mem_filter, decide_eq_true_eq, and_iff_right_iff_imp]
  intro _
  cases method <;> simp

/-- What is pushed below a child: its own results and those further down. -/
theorem mem_visitKeys {path' : List Nat} (hChild : child node.next t = some found) :
    (t' :: path', method) ∈ visitKeys start rest node t ↔
      t' = t ∧ ((path' = [] ∧ method ∈ matchMethods found start rest.isEmpty) ∨
        (path', method) ∈ reported start rest found) := by
  simp only [visitKeys, hChild, List.mem_append, List.mem_map, Prod.mk.injEq, List.cons.injEq,
    Prod.exists]
  constructor
  · rintro (⟨m, hMem, ⟨rfl, rfl⟩, rfl⟩ | ⟨path, m, hMem, ⟨rfl, rfl⟩, rfl⟩)
    · exact ⟨rfl, .inl ⟨rfl, hMem⟩⟩
    · exact ⟨rfl, .inr hMem⟩
  · rintro ⟨rfl, ⟨rfl, hMem⟩ | hMem⟩
    · exact .inl ⟨method, hMem, ⟨rfl, rfl⟩, rfl⟩
    · exact .inr ⟨path', method, hMem, ⟨rfl, rfl⟩, rfl⟩

/-- A key of more than one character, one step down the tree. -/
theorem mem_reported_cons {path' : List Nat} :
    (t :: path', method) ∈ reported start (byte :: rest) node ↔
      t ∈ visitedOf node rest (candidates byte) ∧ ∃ found, child node.next t = some found ∧
        ((path' = [] ∧ method ∈ matchMethods found start rest.isEmpty) ∨
          (path', method) ∈ reported start rest found) := by
  rw [reported_cons, List.mem_flatMap]
  constructor
  · rintro ⟨t₀, hVisited, hKey⟩
    cases hChild : child node.next t₀ with
    | none =>
        rw [visitKeys_none hChild] at hKey
        cases hKey
    | some found =>
        obtain ⟨rfl, hBelow⟩ := (mem_visitKeys hChild).mp hKey
        exact ⟨hVisited, found, hChild, hBelow⟩
  · rintro ⟨hVisited, found, hChild, hBelow⟩
    exact ⟨t, hVisited, (mem_visitKeys hChild).mpr ⟨rfl, hBelow⟩⟩

/-- All keys below a child start with its character. -/
theorem visitKeys_head {key : Key} (h : key ∈ visitKeys start rest node t) :
    ∃ path, key.1 = t :: path := by
  simp only [visitKeys] at h
  cases hChild : child node.next t with
  | none =>
      rw [hChild] at h
      cases h
  | some found =>
      rw [hChild] at h
      simp only [List.mem_append, List.mem_map] at h
      rcases h with ⟨m, _, rfl⟩ | ⟨key', _, rfl⟩
      · exact ⟨[], rfl⟩
      · exact ⟨key'.1, rfl⟩

/-- No key is empty. -/
theorem reported_path_ne_nil {key : Key} (h : key ∈ reported start text node) : key.1 ≠ [] := by
  cases text with
  | nil => cases h
  | cons byte rest =>
      rw [reported_cons, List.mem_flatMap] at h
      obtain ⟨t, _, hKey⟩ := h
      obtain ⟨path, hPath⟩ := visitKeys_head hKey
      rw [hPath]
      exact List.cons_ne_nil _ _

/-- Whether a path of one character is cut off. -/
theorem cut_singleton :
    Cut node [t] (byte :: rest) ↔ rest = [] ∧ ∃ t', Before byte t' t ∧ Reaches node [t'] := by
  cases rest with
  | nil => simp [Cut]
  | cons byte' rest => simp [Cut]

/-- Whether a longer path is cut off is decided below the child. -/
theorem cut_cons (hChild : child node.next t = some found) :
    Cut node (t :: t' :: path) (byte :: rest) ↔ Cut found (t' :: path) rest := by
  simp [Cut, hChild]

/-- The patterns of one character. -/
theorem mem_reported_single :
    ([t], method) ∈ reported start (byte :: rest) node ↔
      stored node [t] method ≠ 0 ∧ TokenMatches t byte ∧
        method.admits start rest.isEmpty = true ∧ ¬ Cut node [t] (byte :: rest) := by
  rw [mem_reported_cons, mem_visitedOf, cut_singleton]
  cases hChild : child node.next t with
  | none => simp [stored, lookup_cons, hChild]
  | some found =>
      have hReach : Reaches node [t] := by simp [Reaches, lookup_cons, hChild]
      rw [stored_cons_of_child hChild]
      constructor
      · rintro ⟨⟨hToken, _, hFirst⟩, _, ⟨⟩, ⟨_, hMethod⟩ | hBelow⟩
        · obtain ⟨hResult, hAdmits⟩ := mem_matchMethods.mp hMethod
          refine ⟨hResult, hToken, hAdmits, ?_⟩
          rintro ⟨hEnd, t', hBefore, hThere⟩
          exact hFirst hEnd t' hBefore hThere
        · exact absurd rfl (reported_path_ne_nil hBelow)
      · rintro ⟨hResult, hToken, hAdmits, hCut⟩
        refine ⟨⟨hToken, hReach, fun hEnd t' hBefore hThere => ?_⟩, found, rfl,
          .inl ⟨rfl, mem_matchMethods.mpr ⟨hResult, hAdmits⟩⟩⟩
        exact hCut ⟨hEnd, t', hBefore, hThere⟩

/-- A longer pattern is reported if its rest is reported below the child. -/
theorem mem_reported_longer (hChild : child node.next t = some found) :
    (t :: t' :: path, method) ∈ reported start (byte :: rest) node ↔
      TokenMatches t byte ∧ (t' :: path, method) ∈ reported start rest found := by
  rw [mem_reported_cons, mem_visitedOf]
  constructor
  · rintro ⟨⟨hToken, _, _⟩, found', hFound, ⟨⟨⟩, _⟩ | hBelow⟩
    rw [hChild] at hFound
    cases hFound
    exact ⟨hToken, hBelow⟩
  · rintro ⟨hToken, hBelow⟩
    have hReach : Reaches node [t] := by simp [Reaches, lookup_cons, hChild]
    refine ⟨⟨hToken, hReach, fun hEnd => ?_⟩, found, hChild, .inr hBelow⟩
    rw [hEnd] at hBelow
    cases hBelow

/-- The patterns that are reported from a node on: those with a result there
that match the text as their method wants it and are not cut off. -/
theorem mem_reported {key : Key} :
    key ∈ reported start text node ↔
      key.1 ≠ [] ∧ stored node key.1 key.2 ≠ 0 ∧ PrefixMatches key.1 text ∧
        key.2.admits start (key.1.length == text.length) = true ∧ ¬ Cut node key.1 text := by
  obtain ⟨path, m⟩ := key
  induction text generalizing node path with
  | nil =>
      cases path with
      | nil => simp [reported]
      | cons t path => simp [reported, PrefixMatches]
  | cons byte rest ih =>
      cases path with
      | nil =>
          simp only [ne_eq, not_true_eq_false, false_and, iff_false]
          exact fun h => reported_path_ne_nil h rfl
      | cons t path =>
          cases path with
          | nil =>
              have hLength : ([t].length == (byte :: rest).length) = rest.isEmpty := by
                cases rest <;> rfl
              rw [mem_reported_single, hLength]
              simp only [ne_eq, List.cons_ne_nil, not_false_eq_true, true_and, PrefixMatches,
                and_true]
          | cons t' path =>
              have hLength : ((t :: t' :: path).length == (byte :: rest).length) =
                  ((t' :: path).length == rest.length) := by simp
              cases hChild : child node.next t with
              | none => simp [mem_reported_cons, stored, lookup_cons, hChild]
              | some found =>
                  rw [mem_reported_longer hChild, ih, hLength, stored_cons_of_child hChild,
                    cut_cons hChild]
                  simp only [ne_eq, List.cons_ne_nil, not_false_eq_true, true_and, PrefixMatches]
                  constructor
                  · rintro ⟨hToken, hResult, hPrefix, hRest⟩
                    exact ⟨hResult, ⟨hToken, hPrefix⟩, hRest⟩
                  · rintro ⟨hResult, ⟨hToken, hPrefix⟩, hRest⟩
                    exact ⟨hToken, hResult, hPrefix, hRest⟩

theorem candidates_nodup (byte : UInt8) : (candidates byte).Nodup := by
  have hByte := byte.toNat_lt
  have hWild : stringWildcard = 256 := rfl
  simp only [candidates]
  rcases stringNocase_cases byte with hFold | hFold
  · simp [hFold]
    omega
  · rw [if_neg (by omega)]
    simp
    omega

theorem visitedOf_nodup {ts : List Nat} (h : ts.Nodup) : (visitedOf node rest ts).Nodup := by
  simp only [visitedOf]
  split_ifs
  · exact (h.filter _).sublist (List.take_sublist 1 _)
  · exact h.filter _

/-- Below a child every pattern is reported at most once. -/
theorem visitKeys_nodup (hRest : ∀ found, (reported start rest found).Nodup) (t : Nat) :
    (visitKeys start rest node t).Nodup := by
  cases hChild : child node.next t with
  | none =>
      rw [visitKeys_none hChild]
      exact List.nodup_nil
  | some found =>
      simp only [visitKeys, hChild]
      have hMethods : (matchMethods found start rest.isEmpty).Nodup :=
        List.Nodup.filter _ (by decide)
      refine List.nodup_append'.mpr ⟨hMethods.map ?_, (hRest found).map ?_, ?_⟩
      · intro m m' hEq
        exact (Prod.mk.inj hEq).2
      · intro key key' hEq
        obtain ⟨hPath, hMethod⟩ := Prod.mk.inj hEq
        exact Prod.ext (List.cons.inj hPath).2 hMethod
      · intro key hHere hBelow
        obtain ⟨m, _, rfl⟩ := List.mem_map.mp hHere
        obtain ⟨key', hMem, hEq⟩ := List.mem_map.mp hBelow
        exact reported_path_ne_nil hMem (List.cons.inj (Prod.mk.inj hEq).1).2

/-- Every pattern is reported at most once. -/
theorem reported_nodup (start : Bool) (text : List UInt8) (node : Node) :
    (reported start text node).Nodup := by
  induction text generalizing node with
  | nil => exact List.nodup_nil
  | cons byte rest ih =>
      rw [reported_cons, List.nodup_flatMap]
      refine ⟨fun t _ => visitKeys_nodup ih t, ?_⟩
      refine (visitedOf_nodup (candidates_nodup byte)).imp fun {t t'} hNe => ?_
      intro key hHere hThere
      obtain ⟨path, hPath⟩ := visitKeys_head hHere
      obtain ⟨path', hPath'⟩ := visitKeys_head hThere
      exact hNe (List.cons.inj (hPath.symm.trans hPath')).1

end Peak.Strings
