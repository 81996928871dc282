import Mathlib.Data.List.Basic
import Mathlib.Tactic.Common

/-! Strings that end at the first terminator. -/
namespace Terminated

variable {α : Type*} [DecidableEq α]

/-- The distance to the first terminator from a place that is `ahead` symbols in
front of the text, zero where there is no terminator. -/
def spanFrom (stop : α) (ahead : Nat) (text : List α) : Nat :=
  if stop ∈ text then ahead + text.idxOf stop else 0

/-- The distance to the first terminator. -/
def span (stop : α) (text : List α) : Nat := spanFrom stop 0 text

variable {stop a : α} {text word rest : List α} {ahead : Nat}

@[simp] theorem spanFrom_nil : spanFrom stop ahead [] = 0 := if_neg List.not_mem_nil

@[simp] theorem spanFrom_cons_self : spanFrom stop ahead (stop :: rest) = ahead := by
  rw [spanFrom, if_pos List.mem_cons_self, List.idxOf_cons_self, Nat.add_zero]

theorem spanFrom_cons_of_ne (h : a ≠ stop) :
    spanFrom stop ahead (a :: rest) = spanFrom stop (ahead + 1) rest := by
  rw [spanFrom, spanFrom, List.idxOf_cons_ne rest h]
  exact if_congr (by rw [List.mem_cons, or_iff_right h.symm]) (by omega) rfl

theorem span_append (hWord : stop ∉ word) : span stop (word ++ stop :: rest) = word.length := by
  rw [span, spanFrom, if_pos (by simp), List.idxOf_append_of_notMem hWord, List.idxOf_cons_self,
    Nat.add_zero, Nat.zero_add]

/-- A text with a length is a word that is not empty, a terminator and more. -/
theorem exists_of_span_ne_zero (h : span stop text ≠ 0) :
    ∃ word rest, text = word ++ stop :: rest ∧ stop ∉ word ∧ word ≠ [] ∧
      span stop text = word.length := by
  by_cases hStop : stop ∈ text
  · obtain ⟨word, rest, rfl, hWord⟩ := List.eq_append_cons_of_mem hStop
    rw [span_append hWord] at h ⊢
    exact ⟨word, rest, rfl, hWord, fun hNil => h (by rw [hNil, List.length_nil]), rfl⟩
  · exact absurd (if_neg hStop) h

end Terminated
