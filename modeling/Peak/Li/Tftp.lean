import Peak.Base.Terminated
import Peak.Li.Detect

/-! The requests that `peak_li_tftp` recognises, as a grammar of the payload. -/
namespace Peak.Li

open ByteImage Terminated

variable {s : Seen}

/-- The bytes of the payload. -/
def payload (s : Seen) : List UInt8 := bytes s.app 0 s.appLen

/-- `LI_STRLEN` of a pointer that is `off` bytes behind the start of the payload,
or in front of it. -/
def liStrlen (s : Seen) (off : Int) : Nat :=
  if 0 ≤ off ∧ off < s.appLen then strlenFrom s off.toNat (s.appLen - off.toNat) 0 else 0

theorem liStrlen_natCast (s : Seen) (off : Nat) : liStrlen s off = strlen s off := by
  rw [liStrlen, strlen, Int.toNat_natCast]
  exact if_congr (by omega) rfl rfl

@[simp] theorem length_payload (s : Seen) : (payload s).length = s.appLen := bytes_length _ _ _

theorem drop_payload {i : Nat} (h : i < s.appLen) :
    (payload s).drop i = s.app i :: (payload s).drop (i + 1) := by
  rw [List.drop_eq_getElem_cons (by rw [length_payload]; exact h)]
  simp only [payload, bytes, List.getElem_map, List.getElem_range, Nat.zero_add]

/-- The scan counts up to the first terminator that is left of the payload. -/
theorem strlenFrom_eq {off fuel ret : Nat} (hFuel : off + ret + fuel = s.appLen) (hLeft : 0 < fuel) :
    strlenFrom s off fuel ret = spanFrom 0 ret ((payload s).drop (off + ret)) := by
  induction fuel generalizing ret with
  | zero => exact absurd hLeft (Nat.lt_irrefl 0)
  | succ fuel ih =>
      rw [strlenFrom, drop_payload (by omega)]
      by_cases hStop : s.app (off + ret) = 0
      · rw [byte, hStop, if_pos (by rfl), spanFrom_cons_self]
      · have hByte : byte s.app (off + ret) ≠ 0 := fun hZero => hStop (UInt8.toNat_inj.mp hZero)
        rw [if_neg hByte, spanFrom_cons_of_ne hStop]
        split_ifs with hEnd
        · rw [List.drop_of_length_le (by rw [length_payload]; omega), spanFrom_nil]
        · exact ih (by omega) (by omega)

/-- `LI_STRLEN` is the distance to the first terminator within the payload. -/
theorem strlen_eq_span (s : Seen) (off : Nat) : strlen s off = span 0 ((payload s).drop off) := by
  rw [strlen]
  split_ifs with hInside
  · exact strlenFrom_eq (by omega) (by omega)
  · rw [List.drop_of_length_le (by rw [length_payload]; omega), span, spanFrom_nil]

/-- The letters that a mode may start with. -/
def modeLetters : List Char := ['O', 'o', 'N', 'n', 'M', 'm']

theorem isModeLetter_iff {x : Nat} :
    isModeLetter x ↔ ∃ letter ∈ modeLetters, x = letter.toNat := by
  rw [isModeLetter, List.contains_iff_mem]
  simp only [modeLetters, List.mem_cons, List.not_mem_nil, or_false, exists_eq_or_imp,
    exists_eq_left]
  exact Iff.rfl

/-- The grammar of a read or write request: the opcode, the name of a file and a
mode, both ended by a terminator, and anything after that. -/
structure IsRequest (text : List UInt8) (opcode : UInt8) (file mode rest : List UInt8) : Prop where
  hText : text = 0 :: opcode :: (file ++ 0 :: (mode ++ 0 :: rest))
  hOpcode : opcode = 1 ∨ opcode = 2
  hFile : file ≠ [] ∧ 0 ∉ file
  hMode : mode ≠ [] ∧ 0 ∉ mode
  hLetter : ∃ letter ∈ modeLetters, (mode.head?.map UInt8.toNat) = some letter.toNat

theorem byte_of_drop {off : Nat} {a : UInt8} {rest : List UInt8}
    (h : (payload s).drop off = a :: rest) : s.app off = a := by
  have hInside : off < s.appLen := by
    by_contra hOutside
    rw [List.drop_of_length_le (by rw [length_payload]; omega)] at h
    exact List.cons_ne_nil _ _ h.symm
  rw [drop_payload hInside] at h
  exact (List.cons.inj h).1

/-- What is behind a string and its terminator. -/
theorem drop_of_append {off : Nat} {word rest : List UInt8}
    (h : (payload s).drop off = word ++ 0 :: rest) :
    (payload s).drop (off + word.length + 1) = rest := by
  rw [Nat.add_assoc, ← List.drop_drop, h, ← List.drop_drop, List.drop_left, List.drop_one,
    List.tail_cons]

/-- The two scans and the letter, for a payload that starts with a request's
opcode. -/
theorem tftp_of_opcode (hOpcode : be16 s.app 0 = 1 ∨ be16 s.app 0 = 2) :
    tftp s ↔ 4 ≤ s.appLen ∧ strlen s 2 ≠ 0 ∧ strlen s (2 + strlen s 2 + 1) ≠ 0 ∧
      isModeLetter (byte s.app (2 + strlen s 2 + 1)) := by
  rw [tftp, if_pos hOpcode]
  simp only [Bool.and_eq_true, decide_eq_true_eq, bne_iff_ne, and_assoc]

theorem be16_opcode {opcode : UInt8} (hHigh : s.app 0 = 0) (hLow : s.app 1 = opcode) :
    be16 s.app 0 = opcode.toNat := by
  rw [be16, byte, byte, hHigh, hLow]
  exact Nat.zero_add _

theorem opcode_of_be16 (hOpcode : be16 s.app 0 = 1 ∨ be16 s.app 0 = 2) :
    s.app 0 = 0 ∧ (s.app 1 = 1 ∨ s.app 1 = 2) := by
  have hHigh := byte_lt s.app 0
  have hLow := byte_lt s.app 1
  change byte s.app 0 * 256 + byte s.app 1 = 1 ∨ byte s.app 0 * 256 + byte s.app 1 = 2 at hOpcode
  simp only [← UInt8.toNat_inj]
  change byte s.app 0 = 0 ∧ (byte s.app 1 = 1 ∨ byte s.app 1 = 2)
  omega

theorem isRequest_of_tftp (hOpcode : be16 s.app 0 = 1 ∨ be16 s.app 0 = 2) (hTftp : tftp s) :
    ∃ opcode file mode rest, IsRequest (payload s) opcode file mode rest := by
  obtain ⟨hLength, hFile, hMode, hLetter⟩ := (tftp_of_opcode hOpcode).mp hTftp
  obtain ⟨hHigh, hLow⟩ := opcode_of_be16 hOpcode
  rw [strlen_eq_span] at hFile
  obtain ⟨file, behind, hText, hFileFree, hFileNil, hFileLength⟩ := exists_of_span_ne_zero hFile
  rw [strlen_eq_span s 2, hFileLength, strlen_eq_span, drop_of_append hText] at hMode
  rw [strlen_eq_span s 2, hFileLength, isModeLetter_iff] at hLetter
  obtain ⟨mode, rest, hBehind, hModeFree, hModeNil, _⟩ := exists_of_span_ne_zero hMode
  obtain ⟨first, others, rfl⟩ := List.exists_cons_of_ne_nil hModeNil
  obtain ⟨letter, hMem, hFirst⟩ := hLetter
  have hHead : s.app (2 + file.length + 1) = first :=
    byte_of_drop ((drop_of_append hText).trans (hBehind.trans (List.cons_append ..)))
  have hRequest : IsRequest (payload s) (s.app 1) file (first :: others) rest :=
    { hText := by
        rw [← hBehind, ← hText, ← drop_payload (by omega), ← hHigh, ← drop_payload (by omega),
          List.drop_zero]
      hOpcode := hLow
      hFile := ⟨hFileNil, hFileFree⟩
      hMode := ⟨hModeNil, hModeFree⟩
      hLetter := ⟨letter, hMem, by
        rw [List.head?_cons, Option.map_some, ← hHead, ← hFirst]
        rfl⟩ }
  exact ⟨_, _, _, _, hRequest⟩

theorem tftp_of_isRequest {opcode : UInt8} {file mode rest : List UInt8}
    (h : IsRequest (payload s) opcode file mode rest) :
    (be16 s.app 0 = 1 ∨ be16 s.app 0 = 2) ∧ tftp s := by
  have hHigh : s.app 0 = 0 := byte_of_drop h.hText
  have hBehind : (payload s).drop 1 = opcode :: (file ++ 0 :: (mode ++ 0 :: rest)) := by
    rw [h.hText]
    rfl
  have hFile : (payload s).drop 2 = file ++ 0 :: (mode ++ 0 :: rest) := by
    rw [h.hText]
    rfl
  have hMode := drop_of_append hFile
  have hOpcode : be16 s.app 0 = 1 ∨ be16 s.app 0 = 2 := by
    rw [be16_opcode hHigh (byte_of_drop hBehind)]
    exact h.hOpcode.imp (congrArg UInt8.toNat) (congrArg UInt8.toNat)
  have hLength : (payload s).length = file.length + mode.length + rest.length + 4 := by
    rw [h.hText]
    simp only [List.length_cons, List.length_append]
    omega
  obtain ⟨first, others, hCons⟩ := List.exists_cons_of_ne_nil h.hMode.1
  have hStrlen : strlen s 2 = file.length := by
    rw [strlen_eq_span, hFile, span_append h.hFile.2]
  have hFileLength := List.length_pos_iff.mpr h.hFile.1
  have hModeLength := List.length_pos_iff.mpr h.hMode.1
  apply And.intro hOpcode
  rw [tftp_of_opcode hOpcode, hStrlen]
  refine ⟨?_, ?_, ?_, ?_⟩
  · rw [length_payload] at hLength
    omega
  · omega
  · rw [strlen_eq_span, hMode, span_append h.hMode.2]
    omega
  · obtain ⟨letter, hMem, hFirst⟩ := h.hLetter
    rw [hCons] at hMode hFirst
    rw [byte, byte_of_drop hMode, isModeLetter_iff]
    exact ⟨letter, hMem, Option.some.inj hFirst⟩

/-- A request is recognised exactly if it is one of the grammar, and `LI_STRLEN`
of any pointer is the distance to the first terminator inside the payload, zero
where there is none. -/
theorem tftp_request_iff (s : Seen) :
    ((be16 s.app 0 = 1 ∨ be16 s.app 0 = 2) ∧ tftp s ↔
      ∃ opcode file mode rest, IsRequest (payload s) opcode file mode rest) ∧
    ∀ off : Int, liStrlen s off =
      if 0 ≤ off ∧ 0 ∈ (payload s).drop off.toNat then ((payload s).drop off.toNat).idxOf 0
      else 0 := by
  constructor
  · constructor
    · intro h
      exact isRequest_of_tftp h.1 h.2
    · intro h
      obtain ⟨opcode, file, mode, rest, hRequest⟩ := h
      exact tftp_of_isRequest hRequest
  · intro off
    by_cases hFront : 0 ≤ off
    · obtain ⟨off, rfl⟩ := Int.eq_ofNat_of_zero_le hFront
      rw [liStrlen_natCast, strlen_eq_span, span, spanFrom, Int.toNat_natCast, Nat.zero_add]
      exact if_congr (by rw [and_iff_right hFront]) rfl rfl
    · rw [liStrlen, if_neg fun h => hFront h.1, if_neg fun h => hFront h.1]

end Peak.Li
