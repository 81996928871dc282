import Mathlib.Data.List.Nodup
import Mathlib.Tactic.Common

/-! Maps of bounded size that drop the entry that was used least recently. The
entries are in the order of their last use. -/
namespace Lru

variable {κ υ : Type*} [DecidableEq κ] {cap : Nat}

/-- What a map answers when it is asked for a key. -/
inductive Answer (υ : Type*) where
  | known (value : υ)
  | made (value : υ)
  | refused

/-- The value in an answer. -/
def Answer.value : Answer υ → Option υ
  | .known value => some value
  | .made value => some value
  | .refused => none

/-- Whether the value in an answer is a new one. -/
def Answer.isMade : Answer υ → Bool
  | .made _ => true
  | _ => false

/-- The answer with another value. -/
def Answer.map {υ' : Type*} (f : υ → υ') : Answer υ → Answer υ'
  | .known value => .known (f value)
  | .made value => .made (f value)
  | .refused => .refused

/-- The entries of a map of some capacity, the one that was used last at the
end. -/
@[ext] structure Cache (κ υ : Type*) (cap : Nat) where
  entries : List (κ × υ)
  keys : (entries.map Prod.fst).Nodup
  within : entries.length ≤ cap

namespace Cache

omit [DecidableEq κ] in
/-- Entries with the same key are the same. -/
theorem entry_unique (c : Cache κ υ cap) {e e' : κ × υ} (h : e ∈ c.entries) (h' : e' ∈ c.entries)
    (hKey : e.1 = e'.1) : e = e' :=
  List.inj_on_of_nodup_map c.keys h h' hKey

/-- The entries with one of them moved to the end. -/
def moveToEnd (entries : List (κ × υ)) (e : κ × υ) : List (κ × υ) :=
  entries.filter (fun e' => e'.1 ≠ e.1) ++ [e]

/-- A key is not among the entries without it. -/
theorem not_mem_others (entries : List (κ × υ)) (key : κ) :
    key ∉ (entries.filter fun e => e.1 ≠ key).map Prod.fst := by
  simp

omit [DecidableEq κ] in
/-- Adding an entry with a new key to some of the entries. -/
theorem nodup_snoc {entries : List (κ × υ)} {e : κ × υ} (hKeys : (entries.map Prod.fst).Nodup)
    (hNew : e.1 ∉ entries.map Prod.fst) : ((entries ++ [e]).map Prod.fst).Nodup := by
  rw [List.map_append]
  refine List.nodup_append'.mpr ⟨hKeys, List.nodup_singleton _, ?_⟩
  intro key hOld hLast
  rw [List.map_singleton, List.mem_singleton] at hLast
  exact hNew (hLast ▸ hOld)

/-- A map without entries. -/
def empty : Cache κ υ cap := ⟨[], List.nodup_nil, Nat.zero_le _⟩

/-- The entry of a key. -/
def find (c : Cache κ υ cap) (key : κ) : Option (κ × υ) := c.entries.find? fun e => e.1 = key

theorem find_eq_some_iff (c : Cache κ υ cap) {key : κ} {e : κ × υ} :
    c.find key = some e ↔ e ∈ c.entries ∧ e.1 = key := by
  constructor
  · intro hFind
    exact ⟨List.mem_of_find?_eq_some hFind, by simpa using List.find?_some hFind⟩
  · rintro ⟨hMem, hKey⟩
    have hSome : (c.find key).isSome = true := by
      rw [find, List.find?_isSome]
      exact ⟨e, hMem, by simpa using hKey⟩
    obtain ⟨e', hFind⟩ := Option.isSome_iff_exists.mp hSome
    have hMem' := List.mem_of_find?_eq_some hFind
    have hKey' : e'.1 = key := by simpa using List.find?_some hFind
    rw [hFind, c.entry_unique hMem hMem' (hKey.trans hKey'.symm)]

theorem find_eq_none_iff (c : Cache κ υ cap) {key : κ} :
    c.find key = none ↔ key ∉ c.entries.map Prod.fst := by
  rw [find, List.find?_eq_none]
  constructor
  · intro hNone hMem
    obtain ⟨e, hEntry, hKey⟩ := List.mem_map.mp hMem
    exact hNone e hEntry (by simpa using hKey)
  · intro hNew e hEntry hKey
    exact hNew (List.mem_map.mpr ⟨e, hEntry, by simpa using hKey⟩)

/-- The entry was used. -/
def use (c : Cache κ υ cap) (e : κ × υ) (h : e ∈ c.entries) : Cache κ υ cap where
  entries := moveToEnd c.entries e
  keys := nodup_snoc (c.keys.sublist ((List.filter_sublist).map _)) (not_mem_others _ _)
  within := by
    have hFewer : (c.entries.filter fun e' => e'.1 ≠ e.1).length < c.entries.length :=
      List.length_filter_lt_length_iff_exists.mpr ⟨e, h, by simp⟩
    rw [moveToEnd, List.length_append, List.length_singleton]
    exact Nat.lt_of_lt_of_le hFewer c.within

/-- An entry was added while there is room. -/
def add (c : Cache κ υ cap) (e : κ × υ) (hNew : e.1 ∉ c.entries.map Prod.fst)
    (hRoom : c.entries.length < cap) : Cache κ υ cap where
  entries := c.entries ++ [e]
  keys := nodup_snoc c.keys hNew
  within := by
    rw [List.length_append, List.length_singleton]
    exact hRoom

/-- An entry took the place of the one that was used least recently. -/
def replaceFirst (c : Cache κ υ cap) (e : κ × υ) (hNew : e.1 ∉ c.entries.map Prod.fst)
    (hCap : 0 < cap) : Cache κ υ cap where
  entries := c.entries.tail ++ [e]
  keys := by
    refine nodup_snoc (c.keys.sublist ((List.tail_sublist _).map _)) fun hMem => hNew ?_
    exact ((List.tail_sublist _).map Prod.fst).subset hMem
  within := by
    have hWithin := c.within
    rw [List.length_append, List.length_singleton, List.length_tail]
    omega

/-- Asking for a key. A key without an entry gets one with a fresh value, in
the place of the entry that was used least recently if the map is full, unless
the map is to `keep` its entries. -/
def acquire (c : Cache κ υ cap) (keep : Bool) (hCap : 0 < cap) (fresh : υ) (key : κ) :
    Answer υ × Cache κ υ cap :=
  match hFind : c.find key with
  | some e => (.known e.2, c.use e (c.find_eq_some_iff.mp hFind).1)
  | none =>
      if hRoom : c.entries.length < cap then
        (.made fresh, c.add (key, fresh) (c.find_eq_none_iff.mp hFind) hRoom)
      else if keep then (.refused, c)
      else (.made fresh, c.replaceFirst (key, fresh) (c.find_eq_none_iff.mp hFind) hCap)

/-- The value of a key changed. -/
def modify (c : Cache κ υ cap) (key : κ) (f : υ → υ) : Cache κ υ cap where
  entries := c.entries.map fun e => if e.1 = key then (e.1, f e.2) else e
  keys := by
    have hSame : (c.entries.map fun e => if e.1 = key then (e.1, f e.2) else e).map Prod.fst =
        c.entries.map Prod.fst := by
      rw [List.map_map]
      refine List.map_congr_left fun e _ => ?_
      simp only [Function.comp_apply]
      split_ifs <;> rfl
    rw [hSame]
    exact c.keys
  within := by
    rw [List.length_map]
    exact c.within

variable {c : Cache κ υ cap} {keep : Bool} {hCap : 0 < cap} {fresh : υ} {key : κ} {e : κ × υ}

/-- A known key keeps its value and becomes the one that was used last. -/
theorem acquire_known (hMem : e ∈ c.entries) (hKey : e.1 = key) :
    c.acquire keep hCap fresh key = (.known e.2, c.use e hMem) := by
  have hFind := c.find_eq_some_iff.mpr ⟨hMem, hKey⟩
  rw [acquire]
  split
  · next e' hFind' =>
      rw [hFind] at hFind'
      cases hFind'
      rfl
  · next hNone =>
      rw [hFind] at hNone
      cases hNone

/-- A new key gets a fresh value while there is room. -/
theorem acquire_room (hNew : key ∉ c.entries.map Prod.fst) (hRoom : c.entries.length < cap) :
    c.acquire keep hCap fresh key = (.made fresh, c.add (key, fresh) hNew hRoom) := by
  have hFind := c.find_eq_none_iff.mpr hNew
  rw [acquire]
  split
  · next e hSome =>
      rw [hFind] at hSome
      cases hSome
  · rw [dif_pos hRoom]

/-- A new key is refused by a map that is full and keeps its entries. -/
theorem acquire_refused (hNew : key ∉ c.entries.map Prod.fst) (hFull : ¬ c.entries.length < cap)
    (hKeep : keep = true) : c.acquire keep hCap fresh key = (.refused, c) := by
  have hFind := c.find_eq_none_iff.mpr hNew
  rw [acquire]
  split
  · next e hSome =>
      rw [hFind] at hSome
      cases hSome
  · rw [dif_neg hFull, if_pos hKeep]

/-- A new key takes the place of the one that was used least recently. -/
theorem acquire_full (hNew : key ∉ c.entries.map Prod.fst) (hFull : ¬ c.entries.length < cap)
    (hKeep : keep = false) :
    c.acquire keep hCap fresh key = (.made fresh, c.replaceFirst (key, fresh) hNew hCap) := by
  have hFind := c.find_eq_none_iff.mpr hNew
  rw [acquire]
  split
  · next e hSome =>
      rw [hFind] at hSome
      cases hSome
  · rw [dif_neg hFull, if_neg (by simp [hKeep])]

end Cache

end Lru
