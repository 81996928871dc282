import Mathlib.Data.List.Induction
import Peak.Base.Decimal
import Peak.Strings.Search

/-! `lib/peak_number.c`: rules that compare the number at the start of a text, or
the length of a text, with numbers that were given as text themselves. What a
search reports is told from the calls of `peak_number_add` before it. -/
namespace Peak.Number

open Decimal Strings

/-- The operators. -/
inductive Operator where
  | eq
  | ne
  | gt
  | lt
  | le
  | ge
deriving DecidableEq, Repr

/-- The numbers of the operators below `NUMBER_MAX`. -/
def Operator.decode : Nat → Option Operator
  | 0 => some .eq
  | 1 => some .ne
  | 2 => some .gt
  | 3 => some .lt
  | 4 => some .le
  | 5 => some .ge
  | _ => none

/-- The comparisons of `peak_number_match`. -/
def Operator.holds : Operator → Int → Int → Bool
  | gt, number, bound => decide (number > bound)
  | lt, number, bound => decide (number < bound)
  | eq, number, bound => decide (number = bound)
  | ne, number, bound => decide (number ≠ bound)
  | le, number, bound => decide (number ≤ bound)
  | ge, number, bound => decide (number ≥ bound)

/-- What a rule looks at: `NUMBER_STRING` or `NUMBER_LENGTH`. -/
inductive Kind where
  | string
  | length
deriving DecidableEq, Repr

/-- `struct peak_number` without its link. -/
structure Rule where
  operator : Operator
  result : Nat
  number : Int
deriving DecidableEq, Repr

/-- `struct peak_numbers`. The lists start with the rule that was added last. -/
structure Numbers where
  string : List Rule
  length : List Rule
deriving DecidableEq, Repr

/-- The list of a kind. -/
def Numbers.rules (self : Numbers) : Kind → List Rule
  | .string => self.string
  | .length => self.length

/-- A rule in front of the list of a kind. -/
def Numbers.push (self : Numbers) (node : Rule) : Kind → Numbers
  | .string => { self with string := node :: self.string }
  | .length => { self with length := node :: self.length }

/-- `peak_number_init`. -/
def numberInit : Numbers := ⟨[], []⟩

/-- `peak_number_get`. -/
def numberGet (buf : List UInt8) : Option Int :=
  let read := strtoll buf
  if buf = [] ∨ read.stop = 0 then none
  else if read.outOfRange = true ∧ (read.number = 2 ^ 63 - 1 ∨ read.number = -2 ^ 63) then none
  else some read.number

/-- `strlcpy(3)` of a text that ends at its first zero byte. -/
def strlcpy (text : List UInt8) (size : Nat) : List UInt8 := (text.takeWhile (· ≠ 0)).take (size - 1)

/-- `peak_number_match`. -/
def numberMatch : List Rule → Int → Stash → Stash
  | [], _, stash => stash
  | node :: next, number, stash =>
      numberMatch next number
        (if node.operator.holds number node.number then stash.push node.result else stash)

/-- A `size_t` passed as a `long long`. -/
def longLong (len : Nat) : Int := (BitVec.ofNat 64 len).toInt

/-- `peak_number_find`. -/
def numberFind (self : Numbers) (buf : List UInt8) (len : Nat) (stash : Stash) : Stash :=
  let stash := numberMatch self.length (longLong len) stash
  if len = 0 then stash
  else
    match numberGet (strlcpy buf (len + 1)) with
    | none => stash
    | some number => numberMatch self.string number stash

/-- A call of `peak_number_add`, with `none` for the null pointer and whether
`malloc` grants a rule. -/
structure Call where
  result : Nat
  buf : Option (List UInt8)
  len : Nat
  flags : Nat
  granted : Bool
deriving DecidableEq, Repr

/-- The kind that `NUMBER_TYPE_MASK` leaves of the flags. -/
def Call.kind (c : Call) : Kind := if c.flags &&& 0xFF00 = 0x0100 then .length else .string

/-- The operator that `NUMBER_OP_MASK` leaves of the flags. -/
def Call.operator (c : Call) : Option Operator := Operator.decode (c.flags &&& 0x00FF)

/-- The end of `peak_number_add`: the rule that is there already, or a new
one. -/
def Numbers.place (self : Numbers) (c : Call) (op : Operator) (number : Int) : Nat × Numbers :=
  match (self.rules c.kind).find? fun temp => temp.number = number ∧ temp.operator = op with
  | some temp => (temp.result, self)
  | none => if c.granted then (c.result, self.push ⟨op, c.result, number⟩ c.kind) else (0, self)

/-- `peak_number_add`. -/
def numberAdd (self : Numbers) (c : Call) : Nat × Numbers :=
  match c.buf with
  | none => (0, self)
  | some buf =>
      if c.len = 0 then (0, self)
      else
        match c.operator with
        | none => (0, self)
        | some op =>
            match numberGet (strlcpy buf (c.len + 1)) with
            | none => (0, self)
            | some number => self.place c op number

/-- `peak_number_parse`: the complaint, if there is one. A null pointer is read
all the same, which is `none`. -/
def numberParse (buf : Option (List UInt8)) (len : Nat) : Option (Option String) :=
  buf.map fun buf =>
    let ret := if len = 0 then some "need a number" else none
    if numberGet (strlcpy buf (len + 1)) = none then some "number conversion failed" else ret

/-- The rules after calls of `peak_number_add`. -/
def run (calls : List Call) : Numbers := calls.foldl (fun self c => (numberAdd self c).2) numberInit

/-- What a rule is about. -/
@[ext] structure Key where
  kind : Kind
  operator : Operator
  number : Int
deriving DecidableEq, Repr

/-- The rule that a call asks for, if its arguments make sense. -/
def Call.key (c : Call) : Option Key :=
  c.buf.bind fun buf =>
    if c.len = 0 then none
    else
      c.operator.bind fun op =>
        (numberGet (strlcpy buf (c.len + 1))).map fun number => ⟨c.kind, op, number⟩

/-- The rule that a call makes: nobody was granted the same rule before. -/
def made (before : List Call) (c : Call) : Option (Key × Nat) :=
  c.key.bind fun k =>
    if c.granted = true ∧ ∀ b ∈ before, b.granted = true → b.key ≠ some k then some (k, c.result)
    else none

/-- The rules that were made, in the order of the calls. -/
def stored (calls : List Call) : List (Key × Nat) :=
  (List.range calls.length).filterMap fun i => calls[i]?.bind (made (calls.take i))

/-- The results of the rules of a kind that hold of a number, the latest rule
first. -/
def hits (calls : List Call) (kind : Kind) (number : Int) : List Nat :=
  ((stored calls).reverse.filter fun r =>
    r.1.kind = kind ∧ r.1.operator.holds number r.1.number).map Prod.snd

/-- The text starts with this number, which fits into 64 bits. -/
def Reads (text : List UInt8) (number : Int) : Prop :=
  ∃ n : Numeral, n.text = text ∧ n.number = number ∧ -2 ^ 63 ≤ number ∧ number < 2 ^ 63

variable {calls : List Call}

/-- `peak_number_get` takes the number that the text starts with, and no
other. -/
theorem numberGet_iff (text : List UInt8) (number : Int) :
    numberGet text = some number ↔ Reads text number := by
  rw [Reads, ← strtoll_iff]
  by_cases hStop : (strtoll text).stop = 0
  · simp only [numberGet, hStop, or_true, if_true, ne_eq, not_true_eq_false, false_and]
    exact iff_of_false nofun id
  · have hText : text ≠ [] := by
      rintro rfl
      exact hStop (by decide)
    by_cases hRange : (strtoll text).outOfRange = true
    · simp only [numberGet, hText, hStop, or_self, if_false, hRange, strtoll_outOfRange hRange, and_self,
        if_true, Bool.true_eq_false, false_and, and_false]
      exact iff_of_false nofun id
    · have hFits := Bool.eq_false_iff.mpr hRange
      simp only [numberGet, hText, hStop, or_self, if_false, hFits, Bool.false_eq_true, false_and,
        Option.some.injEq, ne_eq, not_false_eq_true, true_and]

/-- An empty text starts with no number. -/
theorem reads_len {buf : List UInt8} {len : Nat} {number : Int}
    (h : Reads (strlcpy buf (len + 1)) number) : len ≠ 0 := by
  rintro rfl
  obtain ⟨n, hText, _⟩ := h
  have hDigits := n.some_digit
  simp [strlcpy, Numeral.text, hDigits] at hText

/-- Pushing fills the room that the stash has. -/
theorem pushAll_values (stash : Stash) (values : List Nat) :
    (stash.pushAll values).values =
      stash.values ++ values.take (stash.size - stash.values.length) := by
  induction values generalizing stash with
  | nil => simp [Stash.pushAll]
  | cons value values ih =>
      have hRest : (stash.pushAll (value :: values)).values = ((stash.push value).pushAll values).values :=
        rfl
      rw [hRest, ih]
      by_cases hRoom : stash.values.length < stash.size
      · have hPush : stash.push value = { stash with values := stash.values ++ [value] } := if_pos hRoom
        obtain ⟨room, hSize⟩ := Nat.exists_eq_add_of_lt hRoom
        have hLeft : stash.size - stash.values.length = room + 1 := by omega
        have hLess : stash.size - (stash.values ++ [value]).length = room := by
          rw [List.length_append, List.length_singleton]
          omega
        rw [hPush]
        dsimp only
        rw [hLess, hLeft, List.take_succ_cons, List.append_assoc, List.singleton_append]
      · have hPush : stash.push value = stash := if_neg hRoom
        have hLeft : stash.size - stash.values.length = 0 := by omega
        rw [hPush, hLeft, List.take_zero, List.take_zero]

/-- Matching pushes the results of the rules that hold. -/
theorem numberMatch_eq (nodes : List Rule) (number : Int) (stash : Stash) :
    numberMatch nodes number stash = stash.pushAll
      ((nodes.filter fun node => node.operator.holds number node.number).map Rule.result) := by
  induction nodes generalizing stash with
  | nil => rfl
  | cons node next ih =>
      rw [numberMatch, ih]
      by_cases hHolds : node.operator.holds number node.number = true
      · simp only [List.filter_cons, hHolds, if_true, List.map_cons]
        rfl
      · simp only [List.filter_cons, hHolds, Bool.false_eq_true, if_false]

/-- The rules that a longer run makes. -/
theorem stored_snoc (calls : List Call) (c : Call) :
    stored (calls ++ [c]) = stored calls ++ (made calls c).toList := by
  have hFront : (List.range calls.length).filterMap
      (fun i => (calls ++ [c])[i]?.bind (made ((calls ++ [c]).take i))) = stored calls := by
    refine List.filterMap_congr fun i hMem => ?_
    have hIndex := List.mem_range.mp hMem
    rw [List.getElem?_append_left hIndex, List.take_append_of_le_length (Nat.le_of_lt hIndex)]
  have hLast : (calls ++ [c])[calls.length]?.bind (made ((calls ++ [c]).take calls.length)) =
      made calls c := by
    rw [List.getElem?_concat_length, List.take_left' rfl, Option.bind_some]
  rw [stored, List.length_append, List.length_singleton, List.range_succ, List.filterMap_append, hFront]
  congr 1
  rw [List.filterMap_cons, hLast, List.filterMap_nil]
  cases made calls c <;> rfl

/-- A stored rule as it stands in its list. -/
def asRule (r : Key × Nat) : Rule := ⟨r.1.operator, r.2, r.1.number⟩

/-- The lists of the rules show what was stored. -/
def Shows (self : Numbers) (rs : List (Key × Nat)) : Prop :=
  ∀ kind, self.rules kind = (rs.reverse.filter fun r => r.1.kind = kind).map asRule

variable {self : Numbers} {rs : List (Key × Nat)} {c : Call} {k : Key}

/-- The search for a rule finds it if and only if it was stored. -/
theorem Shows.find (h : Shows self rs) (k : Key) :
    (∃ r ∈ rs, r.1 = k ∧ ((self.rules k.kind).find? fun temp =>
        temp.number = k.number ∧ temp.operator = k.operator) = some (asRule r)) ∨
      (∀ r ∈ rs, r.1 ≠ k) ∧ ((self.rules k.kind).find? fun temp =>
        temp.number = k.number ∧ temp.operator = k.operator) = none := by
  rw [h k.kind]
  cases hFind : ((rs.reverse.filter fun r => r.1.kind = k.kind).map asRule).find? fun temp =>
      temp.number = k.number ∧ temp.operator = k.operator with
  | none =>
      refine .inr ⟨fun r hMem hKey => ?_, rfl⟩
      rw [List.find?_eq_none] at hFind
      refine hFind (asRule r) (List.mem_map_of_mem (List.mem_filter.mpr ⟨List.mem_reverse.mpr hMem, ?_⟩)) ?_
      · simp [hKey]
      · simp [asRule, hKey]
  | some temp =>
      have hTemp : temp.number = k.number ∧ temp.operator = k.operator := by
        simpa using List.find?_some hFind
      obtain ⟨r, hMem, rfl⟩ := List.mem_map.mp (List.mem_of_find?_eq_some hFind)
      obtain ⟨hStored, hKind⟩ := List.mem_filter.mp hMem
      exact .inl ⟨r, List.mem_reverse.mp hStored,
        Key.ext (of_decide_eq_true hKind) hTemp.2 hTemp.1, rfl⟩

/-- Arguments that make no sense change nothing. -/
theorem numberAdd_none (self : Numbers) (h : c.key = none) : numberAdd self c = (0, self) := by
  rw [numberAdd]
  cases hBuf : c.buf with
  | none => rfl
  | some buf =>
      dsimp only
      split_ifs with hLen
      · rfl
      · cases hOp : c.operator with
        | none => rfl
        | some op =>
            cases hNumber : numberGet (strlcpy buf (c.len + 1)) with
            | none => rfl
            | some number => simp [Call.key, hBuf, hLen, hOp, hNumber] at h

/-- Any other call ends at the list of its kind. -/
theorem numberAdd_some (self : Numbers) (h : c.key = some k) :
    numberAdd self c = self.place c k.operator k.number ∧ k.kind = c.kind := by
  simp only [Call.key, Option.bind_eq_some_iff, Option.ite_none_left_eq_some, Option.map_eq_some_iff] at h
  obtain ⟨buf, hBuf, hLen, op, hOp, number, hNumber, rfl⟩ := h
  simp only [numberAdd, hBuf, if_neg hLen, hOp, hNumber, and_self]

/-- What a call makes is the rule that it asks for, and nobody was granted the
same one before. -/
theorem made_eq_some {r : Key × Nat} :
    made calls c = some r ↔ c.key = some r.1 ∧ r.2 = c.result ∧ c.granted = true ∧
      ∀ b ∈ calls, b.granted = true → b.key ≠ some r.1 := by
  simp only [made, Option.bind_eq_some_iff, Option.ite_none_right_eq_some, Option.some.injEq]
  constructor
  · rintro ⟨k, hKey, ⟨hGranted, hFirst⟩, rfl⟩
    exact ⟨hKey, rfl, hGranted, hFirst⟩
  · rintro ⟨hKey, hResult, hGranted, hFirst⟩
    exact ⟨r.1, hKey, ⟨hGranted, hFirst⟩, Prod.ext rfl hResult.symm⟩

/-- A rule is stored if and only if a call for it was granted. -/
theorem mem_stored (calls : List Call) (k : Key) :
    (∃ r ∈ stored calls, r.1 = k) ↔ ∃ b ∈ calls, b.granted = true ∧ b.key = some k := by
  induction calls using List.reverseRecOn with
  | nil => simp [stored]
  | append_singleton calls c ih =>
      simp only [stored_snoc, List.mem_append, or_and_right, exists_or, ih, Option.mem_toList,
        List.mem_singleton, exists_eq_left]
      constructor
      · rintro (hBefore | ⟨r, hMade, rfl⟩)
        · exact .inl hBefore
        · obtain ⟨hKey, _, hGranted, _⟩ := made_eq_some.mp hMade
          exact .inr ⟨hGranted, hKey⟩
      · rintro (hBefore | ⟨hGranted, hKey⟩)
        · exact .inl hBefore
        · by_cases hBefore : ∃ b ∈ calls, b.granted = true ∧ b.key = some k
          · exact .inl hBefore
          · refine .inr ⟨(k, c.result), made_eq_some.mpr ⟨hKey, rfl, hGranted, ?_⟩, rfl⟩
            exact fun b hMem hGiven hSame => hBefore ⟨b, hMem, hGiven, hSame⟩

/-- No rule is stored twice. -/
theorem stored_nodup (calls : List Call) : ((stored calls).map Prod.fst).Nodup := by
  induction calls using List.reverseRecOn with
  | nil => exact .nil
  | append_singleton calls c ih =>
      rw [stored_snoc, List.map_append]
      cases hMade : made calls c with
      | none => simpa using ih
      | some r =>
          obtain ⟨_, _, _, hFirst⟩ := made_eq_some.mp hMade
          refine List.Nodup.append ih (List.nodup_singleton _) ?_
          intro k hMem hLast
          obtain rfl : k = r.1 := by simpa using hLast
          obtain ⟨b, hBefore, hGranted, hKey⟩ := (mem_stored calls r.1).mp (by simpa using hMem)
          exact hFirst b hBefore hGranted hKey

theorem run_snoc (calls : List Call) (c : Call) :
    run (calls ++ [c]) = (numberAdd (run calls) c).2 := by
  simp only [run, List.foldl_append, List.foldl_cons, List.foldl_nil]

/-- A new rule in front of its list. -/
theorem Shows.push (h : Shows self rs) (r : Key × Nat) :
    Shows (self.push (asRule r) r.1.kind) (rs ++ [r]) := by
  intro kind
  have hRules := h kind
  rw [List.reverse_append, List.reverse_singleton, List.singleton_append, List.filter_cons]
  cases hOwn : r.1.kind <;> cases kind <;>
    simpa [Numbers.push, Numbers.rules] using hRules

/-- What `peak_number_add` returns for a rule, given the rules that are stored
after the call: the result that is stored, or zero. -/
def Returns (rs : List (Key × Nat)) (key : Option Key) (ret : Nat) : Prop :=
  (∀ r ∈ rs, key = some r.1 → ret = r.2) ∧ ((∀ r ∈ rs, key ≠ some r.1) → ret = 0)

/-- A rule that is stored already is not made again. -/
theorem made_stored {r : Key × Nat} (hMem : r ∈ stored calls) (hKey : c.key = some r.1) :
    made calls c = none := by
  obtain ⟨b, hBefore, hGranted, hSame⟩ := (mem_stored calls r.1).mp ⟨r, hMem, rfl⟩
  refine Option.eq_none_iff_forall_ne_some.mpr fun r' hMade => ?_
  obtain ⟨hOwn, _, _, hFirst⟩ := made_eq_some.mp hMade
  exact hFirst b hBefore hGranted (hSame.trans (hKey.symm.trans hOwn))

/-- A rule that is not stored yet is made, if there is memory for it. -/
theorem made_new (hKey : c.key = some k) (hNew : ∀ r ∈ stored calls, r.1 ≠ k) :
    made calls c = if c.granted = true then some (k, c.result) else none := by
  split_ifs with hGranted
  · refine made_eq_some.mpr ⟨hKey, rfl, hGranted, fun b hMem hGiven hSame => ?_⟩
    obtain ⟨r, hStored, hOwn⟩ := (mem_stored calls k).mpr ⟨b, hMem, hGiven, hSame⟩
    exact hNew r hStored hOwn
  · refine Option.eq_none_iff_forall_ne_some.mpr fun r hMade => ?_
    exact hGranted (made_eq_some.mp hMade).2.2.1

/-- One call: the lists show what is stored afterwards, and the stored result is
returned. -/
theorem Shows.add (h : Shows self (stored calls)) (c : Call) :
    Shows (numberAdd self c).2 (stored (calls ++ [c])) ∧
      (c.key ≠ none → Returns (stored (calls ++ [c])) c.key (numberAdd self c).1) := by
  rw [stored_snoc]
  cases hKey : c.key with
  | none =>
      have hMade : made calls c = none := by simp [made, hKey]
      rw [numberAdd_none _ hKey, hMade, Option.toList_none, List.append_nil]
      exact ⟨h, fun hSome => absurd rfl hSome⟩
  | some k =>
      obtain ⟨hAdd, hKind⟩ := numberAdd_some self hKey
      rw [hAdd, Numbers.place, ← hKind]
      rcases h.find k with ⟨r, hMem, rfl, hFind⟩ | ⟨hNew, hFind⟩
      · rw [hFind, made_stored hMem hKey, Option.toList_none, List.append_nil]
        refine ⟨h, fun _ => ⟨fun r' hMem' hSame => ?_, fun hNone => absurd rfl (hNone r hMem)⟩⟩
        rw [← List.inj_on_of_nodup_map (stored_nodup calls) hMem hMem' (Option.some.inj hSame)]
        rfl
      · have hOld : ∀ r ∈ stored calls, some k ≠ some r.1 := fun r hMem hSame =>
          hNew r hMem (Option.some.inj hSame).symm
        rw [hFind, made_new hKey hNew]
        by_cases hGranted : c.granted = true
        · rw [if_pos hGranted, if_pos hGranted, Option.toList_some]
          refine ⟨h.push (k, c.result), fun _ => ⟨fun r hMem hSame => ?_, fun hNone => ?_⟩⟩
          · rcases List.mem_append.mp hMem with hBefore | hLast
            · exact absurd hSame (hOld r hBefore)
            · rw [List.mem_singleton.mp hLast]
          · exact absurd rfl (hNone (k, c.result) (by simp))
        · rw [if_neg hGranted, if_neg hGranted, Option.toList_none, List.append_nil]
          exact ⟨h, fun _ => ⟨fun r hMem hSame => absurd hSame (hOld r hMem), fun _ => rfl⟩⟩

/-- After any calls the lists show the rules that were made. -/
theorem run_shows (calls : List Call) : Shows (run calls) (stored calls) := by
  induction calls using List.reverseRecOn with
  | nil =>
      intro kind
      cases kind <;> rfl
  | append_singleton calls c ih =>
      rw [run_snoc]
      exact (ih.add c).1

/-- Matching a list of rules after calls of `peak_number_add`. -/
theorem numberMatch_run (calls : List Call) (kind : Kind) (number : Int) (stash : Stash) :
    numberMatch ((run calls).rules kind) number stash = stash.pushAll (hits calls kind number) := by
  rw [numberMatch_eq, run_shows calls kind, hits, List.filter_map, List.map_map, List.filter_filter]
  congr 2
  refine List.filter_congr fun r _ => ?_
  rw [Bool.decide_and, Bool.and_comm]
  simp only [asRule, Function.comp_apply, Bool.decide_eq_true]

/-- A call asks for a rule if it has a text, an operator, and the text starts with
the number of the rule. -/
theorem key_iff (c : Call) (k : Key) :
    c.key = some k ↔ ∃ buf, c.buf = some buf ∧ c.kind = k.kind ∧ c.operator = some k.operator ∧
      Reads (strlcpy buf (c.len + 1)) k.number := by
  simp only [Call.key, Option.bind_eq_some_iff, Option.ite_none_left_eq_some, Option.map_eq_some_iff,
    numberGet_iff]
  constructor
  · rintro ⟨buf, hBuf, _, op, hOp, number, hNumber, rfl⟩
    exact ⟨buf, hBuf, rfl, hOp, hNumber⟩
  · rintro ⟨buf, hBuf, hKind, hOp, hNumber⟩
    exact ⟨buf, hBuf, reads_len hNumber, k.operator, hOp, k.number, hNumber, by rw [hKind]⟩

/-- What `peak_number_parse` accepts is what a call asks for a rule with, given
an operator. It never says that it needs a number. -/
theorem numberParse_iff (buf : List UInt8) (len : Nat) :
    (numberParse (some buf) len = some none ↔ ∃ number, Reads (strlcpy buf (len + 1)) number) ∧
      numberParse (some buf) len ≠ some (some "need a number") := by
  simp only [numberParse, Option.map_some, ← numberGet_iff, ← Option.ne_none_iff_exists']
  by_cases hGet : numberGet (strlcpy buf (len + 1)) = none
  · simp [hGet]
  · obtain ⟨number, hNumber⟩ := Option.ne_none_iff_exists'.mp hGet
    have hLen := reads_len ((numberGet_iff _ _).mp hNumber)
    simp [hGet, hLen]

/-- The rules of `peak_number_add` and `peak_number_find` over any calls. No rule
is stored twice, a call returns the result that was stored first for what it asks
for, and a search reports the rules that hold of the length and then those that
hold of the number that the text starts with, each time the latest rule first, as
far as the stash has room. -/
theorem numbers_report (calls : List Call) :
    ((stored calls).map Prod.fst).Nodup ∧
      (∀ c, c.key ≠ none → Returns (stored (calls ++ [c])) c.key (numberAdd (run calls) c).1) ∧
      ∀ buf len stash,
        (∀ number, Reads (strlcpy buf (len + 1)) number →
          (numberFind (run calls) buf len stash).values = stash.values ++
            (hits calls .length (longLong len) ++ hits calls .string number).take
              (stash.size - stash.values.length)) ∧
        ((∀ number, ¬ Reads (strlcpy buf (len + 1)) number) →
          (numberFind (run calls) buf len stash).values = stash.values ++
            (hits calls .length (longLong len)).take (stash.size - stash.values.length)) := by
  refine ⟨stored_nodup calls, fun c => ((run_shows calls).add c).2, fun buf len stash => ⟨?_, ?_⟩⟩
  · intro number hReads
    have hLength := numberMatch_run calls .length (longLong len) stash
    have hString := numberMatch_run calls .string number
      (stash.pushAll (hits calls .length (longLong len)))
    rw [numberFind, if_neg (reads_len hReads), (numberGet_iff _ _).mpr hReads]
    simp only [Numbers.rules] at hLength hString
    simp only [hLength, hString]
    rw [← Stash.pushAll_append, pushAll_values]
  · intro hNone
    have hLength := numberMatch_run calls .length (longLong len) stash
    have hGet : numberGet (strlcpy buf (len + 1)) = none :=
      Option.eq_none_iff_forall_ne_some.mpr fun number hSome => hNone number ((numberGet_iff _ _).mp hSome)
    simp only [Numbers.rules] at hLength
    rw [numberFind, hGet]
    simp only [hLength, ite_self, pushAll_values]

/-- Rules for numbers below `40`, of at least `-5`, below `40` again, and for
lengths of at most `4`. -/
def fourCalls : List Call :=
  [⟨1, some [52, 48, 52], 2, 3, true⟩, ⟨2, some [32, 45, 53], 3, 5, true⟩,
    ⟨3, some [52, 48], 2, 3, true⟩, ⟨4, some [52], 1, 0x0104, true⟩]

/-- The text is `30 9`, read to a length of four. -/
theorem fourCalls_report :
    (numberFind (run fourCalls) [51, 48, 32, 57] 4 ⟨2, []⟩).values = [4, 2] ∧
      (numberFind (run fourCalls) [51, 48, 32, 57] 4 ⟨10, []⟩).values = [4, 2, 1] := by
  have hReads : Reads (strlcpy [51, 48, 32, 57] (4 + 1)) 30 :=
    ⟨⟨[], none, [51, 48], [32, 57], by decide +kernel, by decide, by decide +kernel,
      by decide +kernel⟩, by decide +kernel⟩
  have hShort := ((numbers_report fourCalls).2.2 [51, 48, 32, 57] 4 ⟨2, []⟩).1 30 hReads
  have hLong := ((numbers_report fourCalls).2.2 [51, 48, 32, 57] 4 ⟨10, []⟩).1 30 hReads
  exact ⟨hShort.trans (by decide +kernel), hLong.trans (by decide +kernel)⟩

end Peak.Number
