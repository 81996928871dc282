import Mathlib.Data.Nat.Digits.Defs
import Mathlib.Data.List.TakeWhile
import Mathlib.Tactic.Common

/-! Numbers in decimal text, as `strtoll(3)` reads them: white space, a sign or
none, and digits, with anything behind them. -/
namespace Decimal

/-- `isspace(3)`. -/
def isSpace (byte : UInt8) : Bool := decide (byte = 32 ∨ (9 ≤ byte ∧ byte ≤ 13))

/-- `isdigit(3)`. -/
def isDigit (byte : UInt8) : Bool := decide (48 ≤ byte ∧ byte ≤ 57)

/-- The number that digits stand for, the most significant one first. -/
def value (digits : List UInt8) : Nat :=
  Nat.ofDigits 10 (digits.reverse.map fun byte => byte.toNat - 48)

/-- A sign in front of a text: `some true` for minus. -/
def sign : List UInt8 → Option Bool
  | [] => none
  | byte :: _ => if byte = 45 then some true else if byte = 43 then some false else none

/-- A sign as it is written. -/
def signText : Option Bool → List UInt8
  | none => []
  | some true => [45]
  | some false => [43]

/-- A number with its sign. -/
def signed (minus : Option Bool) (n : Nat) : Int := if minus = some true then -n else n

/-- What `strtoll(3)` hands back: the number, where in the text it stopped, and
whether it reports `ERANGE`. -/
structure Scanned where
  number : Int
  stop : Nat
  outOfRange : Bool
deriving DecidableEq, Repr

/-- `strtoll(3)` in base ten. A text without digits is not read at all, and a
number that does not fit is cut to the nearest one that does. -/
def strtoll (text : List UInt8) : Scanned :=
  let behind := text.dropWhile isSpace
  let minus := sign behind
  let digits := (behind.drop (signText minus).length).takeWhile isDigit
  let stop := (text.takeWhile isSpace).length + (signText minus).length + digits.length
  let exact := signed minus (value digits)
  if digits = [] then ⟨0, 0, false⟩
  else if exact < -2 ^ 63 then ⟨-2 ^ 63, stop, true⟩
  else if 2 ^ 63 ≤ exact then ⟨2 ^ 63 - 1, stop, true⟩
  else ⟨exact, stop, false⟩

/-- A text that starts with a number. -/
structure Numeral where
  spaces : List UInt8
  minus : Option Bool
  digits : List UInt8
  rest : List UInt8
  all_spaces : ∀ byte ∈ spaces, isSpace byte = true
  some_digit : digits ≠ []
  all_digits : ∀ byte ∈ digits, isDigit byte = true
  ends : ∀ byte ∈ rest.head?, isDigit byte = false

namespace Numeral

variable (n : Numeral)

/-- The text. -/
def text : List UInt8 := n.spaces ++ (signText n.minus ++ (n.digits ++ n.rest))

/-- The number. -/
def number : Int := signed n.minus (value n.digits)

end Numeral

theorem isSpace_of_isDigit {byte : UInt8} (h : isDigit byte = true) : isSpace byte = false := by
  simp only [isDigit, isSpace, decide_eq_true_eq, decide_eq_false_iff_not, UInt8.le_iff_toNat_le,
    ← UInt8.toNat_inj] at h ⊢
  simp at h ⊢
  omega

theorem sign_of_isDigit {byte : UInt8} (rest : List UInt8) (h : isDigit byte = true) :
    sign (byte :: rest) = none := by
  simp only [isDigit, decide_eq_true_eq, UInt8.le_iff_toNat_le] at h
  have hMinus : byte ≠ 45 := by
    rintro rfl
    simp at h
  have hPlus : byte ≠ 43 := by
    rintro rfl
    simp at h
  simp only [sign, hMinus, hPlus, if_false]

/-- The longest front whose elements all pass a test, if the first element
behind it does not. -/
theorem takeWhile_front {α : Type*} {p : α → Bool} {front rest : List α} (hFront : ∀ a ∈ front, p a = true)
    (hRest : ∀ a ∈ rest.head?, p a = false) :
    (front ++ rest).takeWhile p = front ∧ (front ++ rest).dropWhile p = rest := by
  rw [List.takeWhile_append_of_pos hFront, List.dropWhile_append_of_pos hFront]
  cases rest with
  | nil => simp
  | cons a rest =>
      have hStop := hRest a rfl
      simp [hStop]

/-- A sign that is written in front of a digit is found again. -/
theorem sign_signText {minus : Option Bool} {digits : List UInt8} (rest : List UInt8)
    (hSome : digits ≠ []) (hDigits : ∀ byte ∈ digits, isDigit byte = true) :
    sign (signText minus ++ (digits ++ rest)) = minus := by
  cases minus with
  | none =>
      obtain ⟨digit, digits, rfl⟩ := List.exists_cons_of_ne_nil hSome
      exact sign_of_isDigit _ (hDigits digit List.mem_cons_self)
  | some minus => cases minus <;> rfl

/-- What was taken for a sign is in front of the text. -/
theorem signText_sign (text : List UInt8) :
    signText (sign text) ++ text.drop (signText (sign text)).length = text := by
  cases text with
  | nil => rfl
  | cons byte rest =>
      by_cases hMinus : byte = 45
      · subst hMinus
        rfl
      · by_cases hPlus : byte = 43
        · subst hPlus
          rfl
        · simp only [sign, hMinus, hPlus, if_false, signText, List.nil_append, List.length_nil,
            List.drop_zero]

theorem head_dropWhile {α : Type*} {p : α → Bool} {xs : List α} :
    ∀ a ∈ (xs.dropWhile p).head?, p a = false := by
  intro a hHead
  have hNot := List.head?_dropWhile_not p xs
  rw [Option.mem_def.mp hHead] at hNot
  exact hNot

namespace Numeral

variable (n : Numeral)

/-- The three parts of the text, as they are found by `strtoll(3)`. -/
theorem parts :
    n.text.takeWhile isSpace = n.spaces ∧
      n.text.dropWhile isSpace = signText n.minus ++ (n.digits ++ n.rest) ∧
      (n.digits ++ n.rest).takeWhile isDigit = n.digits := by
  have hHead : ∀ byte ∈ (signText n.minus ++ (n.digits ++ n.rest)).head?, isSpace byte = false := by
    intro byte hByte
    cases hMinus : n.minus with
    | none =>
        obtain ⟨digit, digits, hDigits⟩ := List.exists_cons_of_ne_nil n.some_digit
        rw [hMinus, hDigits] at hByte
        cases hByte
        exact isSpace_of_isDigit (n.all_digits _ (by rw [hDigits]; exact List.mem_cons_self))
    | some minus =>
        rw [hMinus] at hByte
        cases minus <;> (cases hByte; decide)
  obtain ⟨hTake, hDrop⟩ := takeWhile_front n.all_spaces hHead
  exact ⟨hTake, hDrop, (takeWhile_front n.all_digits n.ends).1⟩

/-- A text that starts with a number is read up to the end of that number. -/
theorem strtoll_text :
    strtoll n.text =
      let stop := n.spaces.length + (signText n.minus).length + n.digits.length
      if n.number < -2 ^ 63 then ⟨-2 ^ 63, stop, true⟩
      else if 2 ^ 63 ≤ n.number then ⟨2 ^ 63 - 1, stop, true⟩
      else ⟨n.number, stop, false⟩ := by
  obtain ⟨hSpaces, hBehind, hDigits⟩ := n.parts
  have hSign : sign (signText n.minus ++ (n.digits ++ n.rest)) = n.minus :=
    sign_signText n.rest n.some_digit n.all_digits
  simp only [strtoll, hSpaces, hBehind, hSign, List.drop_left' rfl, hDigits, if_neg n.some_digit]
  rfl

end Numeral

/-- A text is a numeral or is not read at all. -/
theorem numeral_or_unread (text : List UInt8) : (∃ n : Numeral, n.text = text) ∨ strtoll text = ⟨0, 0, false⟩ := by
  let behind := (text.dropWhile isSpace).drop (signText (sign (text.dropWhile isSpace))).length
  by_cases hDigits : behind.takeWhile isDigit = []
  · exact .inr (if_pos hDigits)
  · left
    refine ⟨⟨text.takeWhile isSpace, sign (text.dropWhile isSpace), behind.takeWhile isDigit,
      behind.dropWhile isDigit, fun _ => List.mem_takeWhile_imp, hDigits, fun _ => List.mem_takeWhile_imp,
      head_dropWhile⟩, ?_⟩
    have hSign : signText (sign (text.dropWhile isSpace)) ++ behind = text.dropWhile isSpace :=
      signText_sign _
    simp only [Numeral.text, List.takeWhile_append_dropWhile, hSign]

/-- What is read without an error is the number that the text starts with, and
each number that fits is read without an error. -/
theorem strtoll_iff (text : List UInt8) (number : Int) :
    ((strtoll text).stop ≠ 0 ∧ (strtoll text).outOfRange = false ∧ (strtoll text).number = number) ↔
      ∃ n : Numeral, n.text = text ∧ n.number = number ∧ -2 ^ 63 ≤ number ∧ number < 2 ^ 63 := by
  constructor
  · rintro ⟨hStop, hRange, hNumber⟩
    rcases numeral_or_unread text with ⟨n, rfl⟩ | hUnread
    · rw [n.strtoll_text] at hRange hNumber
      refine ⟨n, rfl, ?_⟩
      dsimp only at hRange hNumber
      split_ifs at hRange hNumber with hLow hHigh
      simp only at hNumber
      omega
    · rw [hUnread] at hStop
      exact absurd rfl hStop
  · rintro ⟨n, rfl, rfl, hLow, hHigh⟩
    have hDigits := List.length_pos_iff.mpr n.some_digit
    rw [n.strtoll_text]
    dsimp only
    rw [if_neg (by omega), if_neg (by omega)]
    refine ⟨?_, rfl, rfl⟩
    dsimp only
    omega

/-- A number that does not fit is one of the two ends of the range. -/
theorem strtoll_outOfRange {text : List UInt8} (h : (strtoll text).outOfRange = true) :
    (strtoll text).number = 2 ^ 63 - 1 ∨ (strtoll text).number = -2 ^ 63 := by
  simp only [strtoll] at h ⊢
  split_ifs at h ⊢ with hNone hLow hHigh
  · exact .inr rfl
  · exact .inl rfl

end Decimal
