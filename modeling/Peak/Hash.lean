import Mathlib.Algebra.Group.Nat.Defs
import Mathlib.Order.Basic
import Peak.Base.Rolling
import Peak.Base.Run

/-! The rolling hash of `peak_hash.h`: a head that stands at the two ends of a
window in a buffer, and the macros that move it. -/
namespace Peak.Hash

/-- The words of `hash_roll_values`. -/
def hashRollValues : List (BitVec 32) := [
  0xC3113E7F, 0x4C353C5F, 0x7423810B, 0x258D264E, 0xDAD39DED, 0x75D0B694, 0x98CE1216, 0x93334482,
  0xC5C48EA5, 0xF57E0E8B, 0x5D7F3723, 0x396B1B24, 0xA8883D9F, 0xB2A74A00, 0xF8E171AE, 0x3F01FBAB,
  0x5C1840CB, 0xDDD833C4, 0x8D8CCA34, 0x32EF223A, 0x1A05B871, 0x9A9B6BFC, 0x50406A0C, 0xE7E1FC04,
  0x5E07D7F6, 0x80B83660, 0x20892A62, 0xB2C6FEA6, 0x6CEC7CAA, 0x182F764B, 0x3B0353E7, 0x57FC2520,
  0x4B6812D4, 0xACB654E4, 0x23C75C04, 0xB1DCD731, 0xE3AF0733, 0xF2366D39, 0xC729671B, 0xFF3BE6F2,
  0xABA37E34, 0x3CDAFA38, 0xAAD18D03, 0xA8D35345, 0x08E9A92C, 0xF9324059, 0x42D821BE, 0x1BC152DD,
  0x5588811C, 0x874A1F9A, 0x6E83E9CD, 0xDA6F3AF8, 0x965D4670, 0xA7A565C0, 0x68D8A9AF, 0xFC8FD8FD,
  0x8FF99FF9, 0x4C9B42AE, 0x2D066A8D, 0x4D1802F7, 0x557032B2, 0x12BCF371, 0xDC29D5AE, 0x72EA361F,
  0xE2835B0B, 0xDFC58966, 0x13B0F34D, 0x3FA02BCD, 0xBF282E3D, 0x7DC877F5, 0xF4848A32, 0x861E35F5,
  0x7FFA0D7F, 0x515F2E4E, 0x6B235D5C, 0x55F46E24, 0x35AD2C99, 0x072654A8, 0x05163F0F, 0x9317B11A,
  0xAED1FC10, 0x989444F0, 0xDB3E1814, 0x446C0CF1, 0x660BF511, 0x2F227D3A, 0xFDBA0539, 0xC649E621,
  0x5204D7CE, 0x5FA386D0, 0xE5F22005, 0x97B6C8A1, 0x4AB69EC2, 0x5C7CA70D, 0x39A48EC6, 0x7BACF378,
  0x8D0ED3D1, 0xE39DE582, 0xC5FBE2AB, 0x37E3D2D0, 0x06F44724, 0x73144144, 0xBA57E905, 0xB05B4307,
  0xAEED8D97, 0xA68CCAC4, 0xE30DA57E, 0xED0F194B, 0x8C2B9B7A, 0x814575D5, 0x79588493, 0x81D3712A,
  0x3FA892F2, 0x80F0BB94, 0x44EAF51A, 0x4E05F1D4, 0xFC69F858, 0x775E8D60, 0x22B20DD7, 0x170A87EA,
  0x1077DE52, 0x3D5EC9FB, 0x0B6EB1E5, 0xF2F9CCAF, 0xA76C7DEB, 0xD8C2D873, 0xF438C592, 0x6239FEEC,
  0x26D3D2A9, 0x30F6FADF, 0x4B2984CC, 0x6257F3DA, 0x0E0583E2, 0x143E5E61, 0xBB2732BF, 0x9653217A,
  0x027A84EA, 0x95C9AE8B, 0x89B8B82B, 0x9F286485, 0x29F622FE, 0x52A3196B, 0x8392D95F, 0x33A79167,
  0xF5DEE92A, 0x6E397DB9, 0x11931C01, 0x8DD2CD3B, 0xF9E6003D, 0xAB955AF4, 0xD38725F9, 0xDCF6F8AE,
  0x7667A958, 0xE67AD995, 0xB7CF979A, 0xD88EBE5B, 0x5BA889F0, 0x078BDD90, 0x447238F9, 0x3135F672,
  0x187B95A8, 0x0B7D5751, 0xACD59D2A, 0x9C5D1929, 0x579E5022, 0xEA90499B, 0x59901800, 0x82237DB5,
  0x7A375509, 0xACA9A22A, 0xEC96E649, 0x69339DB0, 0x081D0D9B, 0xD72FB8B9, 0xA4184653, 0xC057321D,
  0xED19CAB9, 0xB48F1E3E, 0xB9DAC51E, 0xDAED2FC7, 0x7598CBBD, 0x208DF346, 0x044BE6EC, 0x1C63E6EB,
  0xA15F64C1, 0xE024A061, 0x68309584, 0x0758A68D, 0xF274E9AE, 0x0ABEA0CC, 0xED4FB267, 0x63D6EC46,
  0x9F28E026, 0xF0694A17, 0x9D6E9115, 0xC4600FAD, 0x5B121E99, 0xD6B4A13B, 0xF5364B8A, 0x8514B254,
  0x0182F8DD, 0xDB09F90B, 0x78C70B32, 0xD8EC3B02, 0x8CD7084D, 0xA4439838, 0x72F35A3D, 0x200B48A5,
  0xE2351444, 0xA5552F5F, 0xD8C1E746, 0x0FE5EF3C, 0xB6A47063, 0x61F4E68B, 0x08FED99B, 0x7E461445,
  0x43CB8380, 0x28BA03C8, 0x21A7A2E2, 0x43437ED6, 0x2A9E6670, 0x89B4A106, 0xC6C2F4EE, 0x9C4063CC,
  0x2FA0DF6C, 0xB54DC409, 0xCF01538F, 0x616431D7, 0x02CB0E4D, 0x44FFF425, 0xAAD5188E, 0x0742E9BC,
  0xFFF41353, 0x130F0A15, 0x787BDC10, 0x4A327B72, 0x702989F7, 0x5F704798, 0x8156A1BB, 0x2BCA3E74,
  0x1911A8C4, 0x5E1F27D3, 0x07949DC7, 0xF24C2056, 0xB4299EE6, 0x9C7045D9, 0xA8BF6307, 0x7454AAD2,
  0x256425E5, 0xD87DEF67, 0xCFE95452, 0xE7548DF7, 0xA84956C7, 0xD8402C60, 0xCFBD0373, 0x6B6CDAFE]

set_option maxRecDepth 2000 in
theorem length_hashRollValues : hashRollValues.length = 256 := rfl

/-- `hash_roll_values[b]` of a byte `b`. -/
def rollValue (b : UInt8) : BitVec 32 :=
  hashRollValues.get ⟨b.toNat, Nat.lt_of_lt_of_eq b.toNat_lt length_hashRollValues.symm⟩

/-- What keeps a macro from having a result: a byte outside of the buffer, or an
operation that C gives no meaning. -/
inductive Fault where
  | outside
  | undefined
deriving DecidableEq, Repr

/-- `x >> y` for a count up to the width. C gives a shift by the whole width no
meaning; `past` says what becomes of it. -/
def shiftRight (past : BitVec 32 → Except Fault (BitVec 32)) (x : BitVec 32) (y : Nat) :
    Except Fault (BitVec 32) :=
  if y < 32 then .ok (x >>> y) else past x

/-- The shift by the whole width as C has it. -/
def noMeaning (_ : BitVec 32) : Except Fault (BitVec 32) := .error .undefined

/-- The shift by the whole width on a machine that reads counts modulo 32. -/
def wrapped (x : BitVec 32) : Except Fault (BitVec 32) := .ok x

/-- `_ROLL_SHIFTN(x, y)`. -/
def shiftNWord (past : BitVec 32 → Except Fault (BitVec 32)) (x : BitVec 32) (y : Nat) :
    Except Fault (BitVec 32) := do
  let low ← shiftRight past x (32 - y)
  return x <<< y ||| low

/-- `_ROLL_SHIFT(x)`. -/
def shiftWord (x : BitVec 32) : BitVec 32 := x <<< 1 ||| x >>> (32 - 1)

/-- A head that `ROLL_HEAD` declares, its pointers as positions in the buffer. -/
structure RollHead where
  rhhFirst : Nat
  rhhNext : Nat
  rhhHash : BitVec 32
deriving DecidableEq, Repr

/-- The byte at a position of the buffer. -/
def byteAt (buf : List UInt8) (i : Nat) : Except Fault UInt8 :=
  match buf[i]? with
  | some b => .ok b
  | none => .error .outside

/-- `ROLL_INIT`. -/
def rollInit : RollHead := { rhhFirst := 0, rhhNext := 0, rhhHash := 0 }

/-- `ROLL_NEXT`. -/
def rollNext (buf : List UInt8) (head : RollHead) : Except Fault RollHead := do
  let b ← byteAt buf head.rhhNext
  return { head with
    rhhNext := head.rhhNext + 1
    rhhHash := shiftWord head.rhhHash ^^^ rollValue b }

/-- `ROLL_SHIFT`. -/
def rollShift (past : BitVec 32 → Except Fault (BitVec 32)) (buf : List UInt8) (head : RollHead) :
    Except Fault RollHead := do
  let len := (head.rhhNext - head.rhhFirst) % 32
  let oldest ← byteAt buf head.rhhFirst
  let val ← shiftNWord past (rollValue oldest) len
  let b ← byteAt buf head.rhhNext
  return {
    rhhFirst := head.rhhFirst + 1
    rhhNext := head.rhhNext + 1
    rhhHash := shiftWord head.rhhHash ^^^ val ^^^ rollValue b }

/-- `left` rounds of a loop that does `body` in each. -/
def rounds (body : RollHead → Except Fault RollHead) : Nat → RollHead → Except Fault RollHead
  | 0, head => .ok head
  | left + 1, head => do
      let head ← body head
      rounds body left head

/-- `ROLL_NEXTN`. -/
def rollNextN (buf : List UInt8) (len : UInt32) (head : RollHead) : Except Fault RollHead :=
  rounds (rollNext buf) len.toNat head

/-- `ROLL_SHIFTN`. -/
def rollShiftN (past : BitVec 32 → Except Fault (BitVec 32)) (buf : List UInt8) (len : UInt32)
    (head : RollHead) : Except Fault RollHead :=
  rounds (rollShift past buf) len.toNat head

/-- `hash_roll` of the first `len` bytes of a buffer. -/
def hashRoll (buf : List UInt8) (len : UInt32) : Except Fault (BitVec 32) := do
  let head ← rollNextN buf len rollInit
  return head.rhhHash

/-- The macros that move a head. -/
inductive Op where
  | next
  | nextN (len : UInt32)
  | shift
  | shiftN (len : UInt32)
deriving DecidableEq, Repr

/-- One macro on a head in a buffer. -/
def Op.run (past : BitVec 32 → Except Fault (BitVec 32)) (buf : List UInt8) :
    Op → RollHead → Except Fault RollHead
  | .next => rollNext buf
  | .nextN len => rollNextN buf len
  | .shift => rollShift past buf
  | .shiftN len => rollShiftN past buf len

/-- One macro after another. -/
def runOps (past : BitVec 32 → Except Fault (BitVec 32)) (buf : List UInt8) :
    List Op → RollHead → Except Fault RollHead
  | [], head => .ok head
  | op :: rest, head => do
      let head ← op.run past buf head
      runOps past buf rest head

section Moves

/-- The moves by one byte that the macros are made of. -/
inductive Move where
  | next
  | shift
deriving DecidableEq, Repr

def Op.moves : Op → List Move
  | .next => [.next]
  | .nextN len => List.replicate len.toNat .next
  | .shift => [.shift]
  | .shiftN len => List.replicate len.toNat .shift

/-- One move of a head. -/
def Move.run (past : BitVec 32 → Except Fault (BitVec 32)) (buf : List UInt8) :
    Move → RollHead → Except Fault RollHead
  | .next => rollNext buf
  | .shift => rollShift past buf

/-- One move after another. -/
def runMoves (past : BitVec 32 → Except Fault (BitVec 32)) (buf : List UInt8) :
    List Move → RollHead → Except Fault RollHead
  | [], head => .ok head
  | m :: rest, head => do
      let head ← m.run past buf head
      runMoves past buf rest head

variable (past : BitVec 32 → Except Fault (BitVec 32)) (buf : List UInt8)

theorem runMoves_append (before after : List Move) (head : RollHead) :
    runMoves past buf (before ++ after) head =
      (runMoves past buf before head >>= runMoves past buf after) := by
  induction before generalizing head with
  | nil => rfl
  | cons m rest ih =>
      simp only [List.cons_append, runMoves, bind_assoc]
      congr 1
      funext head'
      exact ih head'

theorem rounds_eq_runMoves (m : Move) (left : Nat) (head : RollHead) :
    rounds (m.run past buf) left head = runMoves past buf (List.replicate left m) head := by
  induction left generalizing head with
  | zero => rfl
  | succ left ih =>
      simp only [rounds, List.replicate_succ, runMoves]
      congr 1
      funext head'
      exact ih head'

/-- A macro does its moves. -/
theorem Op.run_eq_runMoves (op : Op) (head : RollHead) :
    op.run past buf head = runMoves past buf op.moves head := by
  cases op with
  | next => exact (bind_pure _).symm
  | nextN len => exact rounds_eq_runMoves past buf .next len.toNat head
  | shift => exact (bind_pure _).symm
  | shiftN len => exact rounds_eq_runMoves past buf .shift len.toNat head

theorem runOps_eq_runMoves (ops : List Op) (head : RollHead) :
    runOps past buf ops head = runMoves past buf (ops.flatMap Op.moves) head := by
  induction ops generalizing head with
  | nil => rfl
  | cons op rest ih =>
      rw [runOps, List.flatMap_cons, runMoves_append, op.run_eq_runMoves]
      congr 1
      funext head'
      exact ih head'

end Moves

section Words

variable {past : BitVec 32 → Except Fault (BitVec 32)}

theorem shiftWord_eq (x : BitVec 32) : shiftWord x = x.rotateLeft 1 := by
  rw [BitVec.rotateLeft_eq_rotateLeftAux_of_lt (by decide)]
  rfl

/-- A shift by the whole width that leaves alone what it is joined to. -/
def Harmless (past : BitVec 32 → Except Fault (BitVec 32)) : Prop :=
  ∀ x, ∃ low, past x = .ok low ∧ x ||| low = x

theorem harmless_wrapped : Harmless wrapped := fun x => ⟨x, rfl, BitVec.or_self⟩

/-- `_ROLL_SHIFTN` rotates, but for a count of zero that no machine need get
right. -/
theorem shiftNWord_eq {y : Nat} (x : BitVec 32) (hCount : y < 32)
    (hPast : y ≠ 0 ∨ Harmless past) : shiftNWord past x y = .ok (x.rotateLeft y) := by
  by_cases hZero : y = 0
  · obtain ⟨low, hLow, hOr⟩ := hPast.resolve_left (not_not_intro hZero) x
    simp only [shiftNWord, shiftRight, hZero, Nat.sub_zero, Nat.lt_irrefl, if_false, hLow,
      BitVec.shiftLeft_zero, Rolling.rotateLeft_zero]
    exact congrArg Except.ok hOr
  · rw [shiftNWord, shiftRight, if_pos (by omega), BitVec.rotateLeft_eq_rotateLeftAux_of_lt hCount]
    rfl

theorem shiftNWord_noMeaning (x : BitVec 32) : shiftNWord noMeaning x 0 = .error .undefined := rfl

end Words

section Window

variable {past : BitVec 32 → Except Fault (BitVec 32)} {buf : List UInt8} {head head' : RollHead}

/-- The bytes from `rhh_first` up to `rhh_next`. -/
def window (buf : List UInt8) (head : RollHead) : List UInt8 :=
  (buf.drop head.rhhFirst).take (head.rhhNext - head.rhhFirst)

/-- A head that stands in the buffer with the hash of its window. -/
structure Keeps (buf : List UInt8) (head : RollHead) : Prop where
  ordered : head.rhhFirst ≤ head.rhhNext
  inside : head.rhhNext ≤ buf.length
  hash : head.rhhHash = Rolling.hash rollValue (window buf head)

theorem keeps_rollInit : Keeps buf rollInit where
  ordered := Nat.le_refl 0
  inside := Nat.zero_le _
  hash := rfl

theorem length_window (hKeeps : Keeps buf head) :
    (window buf head).length = head.rhhNext - head.rhhFirst := by
  have hInside := hKeeps.inside
  rw [window, List.length_take, List.length_drop]
  omega

theorem byteAt_inside {i : Nat} (h : i < buf.length) : byteAt buf i = .ok buf[i] := by
  rw [byteAt, List.getElem?_eq_getElem h]

/-- The byte behind the window, joined to it. -/
theorem window_concat (hKeeps : Keeps buf head) (hRoom : head.rhhNext < buf.length) :
    window buf head ++ [buf[head.rhhNext]] =
      (buf.drop head.rhhFirst).take (head.rhhNext + 1 - head.rhhFirst) := by
  have hOrdered := hKeeps.ordered
  have hPlace : head.rhhFirst + (head.rhhNext - head.rhhFirst) = head.rhhNext := by omega
  rw [window, Nat.sub_add_comm hOrdered, List.take_succ_eq_append_getElem
    (by rw [List.length_drop]; omega), List.getElem_drop]
  simp only [hPlace]

/-- What the macros compute on a byte that is there. -/
theorem rollNext_inside (hRoom : head.rhhNext < buf.length) :
    rollNext buf head = .ok { head with
      rhhNext := head.rhhNext + 1
      rhhHash := head.rhhHash.rotateLeft 1 ^^^ rollValue buf[head.rhhNext] } := by
  rw [rollNext, byteAt_inside hRoom, shiftWord_eq]
  rfl

theorem rollShift_inside {val : BitVec 32} (hFirst : head.rhhFirst < buf.length)
    (hRoom : head.rhhNext < buf.length)
    (hVal : shiftNWord past (rollValue buf[head.rhhFirst])
      ((head.rhhNext - head.rhhFirst) % 32) = .ok val) :
    rollShift past buf head = .ok {
      rhhFirst := head.rhhFirst + 1
      rhhNext := head.rhhNext + 1
      rhhHash := head.rhhHash.rotateLeft 1 ^^^ val ^^^ rollValue buf[head.rhhNext] } := by
  simp only [rollShift, byteAt_inside hFirst, byteAt_inside hRoom, shiftWord_eq, bind, Except.bind,
    hVal]
  rfl

/-- C gives the macro no meaning on a window whose length the count is zero for. -/
theorem rollShift_undefined (hFirst : head.rhhFirst < buf.length)
    (hCount : (head.rhhNext - head.rhhFirst) % 32 = 0) :
    rollShift noMeaning buf head = .error .undefined := by
  simp only [rollShift, byteAt_inside hFirst, hCount, shiftNWord_noMeaning, bind, Except.bind]

/-- One byte comes into the window. -/
theorem keeps_rollNext (hKeeps : Keeps buf head) (hRoom : head.rhhNext < buf.length) :
    ∃ head', rollNext buf head = .ok head' ∧ Keeps buf head' ∧
      head'.rhhFirst = head.rhhFirst ∧ head'.rhhNext = head.rhhNext + 1 := by
  refine ⟨_, rollNext_inside hRoom, ⟨?_, hRoom, ?_⟩, rfl, rfl⟩
  · exact Nat.le_succ_of_le hKeeps.ordered
  · have hWindow := window_concat hKeeps hRoom
    simp only [window] at hWindow ⊢
    rw [← hWindow, Rolling.hash_concat, hKeeps.hash, window]

/-- One byte comes into the window and the oldest one goes out of it. -/
theorem keeps_rollShift (past : BitVec 32 → Except Fault (BitVec 32)) (hKeeps : Keeps buf head) (hRoom : head.rhhNext < buf.length)
    (hTurn : (head.rhhNext - head.rhhFirst) % 32 ≠ 0 ∨ Harmless past) :
    ∃ head', rollShift past buf head = .ok head' ∧ Keeps buf head' ∧
      head'.rhhFirst = head.rhhFirst + 1 ∧ head'.rhhNext = head.rhhNext + 1 := by
  have hFirst : head.rhhFirst < buf.length := Nat.lt_of_le_of_lt hKeeps.ordered hRoom
  have hVal := shiftNWord_eq (rollValue buf[head.rhhFirst]) (Nat.mod_lt _ (by decide)) hTurn
  refine ⟨_, rollShift_inside hFirst hRoom hVal, ⟨?_, hRoom, ?_⟩, rfl, rfl⟩
  · exact Nat.succ_le_succ hKeeps.ordered
  · have hSlide : window buf head ++ [buf[head.rhhNext]] = buf[head.rhhFirst] ::
        (buf.drop (head.rhhFirst + 1)).take (head.rhhNext + 1 - (head.rhhFirst + 1)) := by
      rw [window_concat hKeeps hRoom, List.drop_eq_getElem_cons hFirst,
        Nat.sub_add_comm hKeeps.ordered, List.take_succ_cons, Nat.add_sub_add_right]
    show _ = Rolling.hash rollValue (window buf ⟨head.rhhFirst + 1, head.rhhNext + 1, _⟩)
    rw [window, Rolling.hash_slide rollValue hSlide, hKeeps.hash, length_window hKeeps,
      BitVec.rotateLeft_mod_eq_rotateLeft]

end Window

section Moves

variable {past : BitVec 32 → Except Fault (BitVec 32)} {buf : List UInt8} {head head' : RollHead}

/-- No byte is shifted out of a window whose length is a multiple of 32, when
the moves start with a window of `held` bytes. -/
def Sound : Nat → List Move → Prop
  | _, [] => True
  | held, .next :: rest => Sound (held + 1) rest
  | held, .shift :: rest => held % 32 ≠ 0 ∧ Sound held rest

instance decidableSound : (held : Nat) → (moves : List Move) → Decidable (Sound held moves)
  | _, [] => .isTrue trivial
  | held, .next :: rest => decidableSound (held + 1) rest
  | held, .shift :: rest =>
      have := decidableSound held rest
      inferInstanceAs (Decidable (_ ∧ _))

/-- Moves that stay in the buffer keep the hash that of the window. -/
theorem keeps_runMoves (past : BitVec 32 → Except Fault (BitVec 32)) (moves : List Move)
    (hKeeps : Keeps buf head)
    (hRoom : head.rhhNext + moves.length ≤ buf.length)
    (hTurn : Sound (head.rhhNext - head.rhhFirst) moves ∨ Harmless past) :
    ∃ head', runMoves past buf moves head = .ok head' ∧ Keeps buf head' ∧
      head'.rhhFirst = head.rhhFirst + moves.count .shift ∧
      head'.rhhNext = head.rhhNext + moves.length := by
  induction moves generalizing head with
  | nil => exact ⟨head, rfl, hKeeps, rfl, rfl⟩
  | cons m rest ih =>
      have hOrdered := hKeeps.ordered
      rw [List.length_cons] at hRoom
      cases m with
      | next =>
          obtain ⟨head₁, hMove, hKeeps₁, hFirst, hNext⟩ := keeps_rollNext hKeeps (by omega)
          obtain ⟨head', hRest, hKeeps', hFirst', hNext'⟩ := ih hKeeps₁ (by omega)
            (hTurn.imp_left fun hSound => by
              rw [hFirst, hNext, Nat.sub_add_comm hOrdered]
              exact hSound)
          refine ⟨head', ?_, hKeeps', ?_, by rw [List.length_cons]; omega⟩
          · rw [runMoves, Move.run, hMove]
            exact hRest
          · rw [hFirst', hFirst, List.count_cons_of_ne (by decide)]
      | shift =>
          obtain ⟨head₁, hMove, hKeeps₁, hFirst, hNext⟩ :=
            keeps_rollShift past hKeeps (by omega) (hTurn.imp_left And.left)
          obtain ⟨head', hRest, hKeeps', hFirst', hNext'⟩ := ih hKeeps₁ (by omega)
            (hTurn.imp_left fun hSound => by
              rw [hFirst, hNext, Nat.add_sub_add_right]
              exact hSound.2)
          refine ⟨head', ?_, hKeeps', ?_, by rw [List.length_cons]; omega⟩
          · rw [runMoves, Move.run, hMove]
            exact hRest
          · rw [hFirst', hFirst, List.count_cons_self]
            omega

/-- Moves that come to an end by the rules of C were sound. -/
theorem sound_of_runMoves (moves : List Move) (hKeeps : Keeps buf head)
    (hRoom : head.rhhNext + moves.length ≤ buf.length)
    (hRun : runMoves noMeaning buf moves head = .ok head') :
    Sound (head.rhhNext - head.rhhFirst) moves := by
  induction moves generalizing head with
  | nil => trivial
  | cons m rest ih =>
      have hOrdered := hKeeps.ordered
      rw [List.length_cons] at hRoom
      cases m with
      | next =>
          obtain ⟨head₁, hMove, hKeeps₁, hFirst, hNext⟩ := keeps_rollNext hKeeps (by omega)
          rw [runMoves, Move.run, hMove] at hRun
          have hRest := ih hKeeps₁ (by omega) hRun
          rw [hFirst, hNext, Nat.sub_add_comm hOrdered] at hRest
          exact hRest
      | shift =>
          by_cases hCount : (head.rhhNext - head.rhhFirst) % 32 = 0
          · rw [runMoves, Move.run, rollShift_undefined (by omega) hCount] at hRun
            cases hRun
          · obtain ⟨head₁, hMove, hKeeps₁, hFirst, hNext⟩ :=
              keeps_rollShift noMeaning hKeeps (by omega) (Or.inl hCount)
            rw [runMoves, Move.run, hMove] at hRun
            have hRest := ih hKeeps₁ (by omega) hRun
            rw [hFirst, hNext, Nat.add_sub_add_right] at hRest
            exact ⟨hCount, hRest⟩

end Moves

section Direct

variable {past : BitVec 32 → Except Fault (BitVec 32)} {buf : List UInt8} {head : RollHead}

theorem sound_replicate_next (held n : Nat) : Sound held (List.replicate n .next) := by
  induction n generalizing held with
  | zero => trivial
  | succ n ih =>
      rw [List.replicate_succ]
      exact ih (held + 1)

/-- The direct hash is that of the bytes it is given. -/
theorem hashRoll_eq {len : UInt32} (hLen : len.toNat ≤ buf.length) :
    hashRoll buf len = .ok (Rolling.hash rollValue (buf.take len.toNat)) := by
  have hMoves := rounds_eq_runMoves noMeaning buf .next len.toNat rollInit
  obtain ⟨head, hRun, hKeeps, hFirst, hNext⟩ :=
    keeps_runMoves noMeaning (List.replicate len.toNat .next) keeps_rollInit
      (by rw [List.length_replicate]; exact (Nat.zero_add _).trans_le hLen)
      (Or.inl (sound_replicate_next _ _))
  rw [List.count_replicate] at hFirst
  rw [List.length_replicate] at hNext
  rw [hashRoll, rollNextN]
  have hRounds : rounds (rollNext buf) len.toNat rollInit = .ok head := hMoves.trans hRun
  rw [hRounds]
  show Except.ok head.rhhHash = _
  rw [hKeeps.hash, window, hFirst, hNext]
  simp [rollInit]

/-- The macros come to an end, and the hash is then that of `hash_roll` on the
window. -/
def HashesWindow (past : BitVec 32 → Except Fault (BitVec 32)) (buf : List UInt8)
    (ops : List Op) : Prop :=
  ∃ head, runOps past buf ops rollInit = .ok head ∧
    ∀ len : UInt32, head.rhhFirst + len.toNat = head.rhhNext →
      hashRoll (buf.drop head.rhhFirst) len = .ok head.rhhHash

/-- On a machine whose shift by the whole width does no harm, the macros keep
the hash of the window whatever its length is. -/
theorem hashesWindow_of_turn (ops : List Op)
    (hInside : (ops.flatMap Op.moves).length ≤ buf.length)
    (hTurn : Sound 0 (ops.flatMap Op.moves) ∨ Harmless past) : HashesWindow past buf ops := by
  obtain ⟨head, hRun, hKeeps, -, -⟩ := keeps_runMoves past (ops.flatMap Op.moves) keeps_rollInit
    ((Nat.zero_add _).trans_le hInside) hTurn
  refine ⟨head, (runOps_eq_runMoves past buf ops rollInit).trans hRun, ?_⟩
  intro len hLen
  have hIn := hKeeps.inside
  rw [hashRoll_eq (by rw [List.length_drop]; omega), hKeeps.hash, window, ← hLen,
    Nat.add_sub_cancel_left]

/-- By the rules of C the macros keep the hash of the window exactly as long as
nothing is shifted out of a window whose length is a multiple of 32. -/
theorem hashesWindow_iff_sound (buf : List UInt8) (ops : List Op)
    (hInside : (ops.flatMap Op.moves).length ≤ buf.length) :
    HashesWindow noMeaning buf ops ↔ Sound 0 (ops.flatMap Op.moves) := by
  constructor
  · intro hWindow
    obtain ⟨head, hRun, -⟩ := hWindow
    rw [runOps_eq_runMoves] at hRun
    exact sound_of_runMoves _ keeps_rollInit ((Nat.zero_add _).trans_le hInside) hRun
  · intro hSound
    exact hashesWindow_of_turn ops hInside (Or.inl hSound)

theorem hashesWindow_testest : HashesWindow noMeaning [116, 101, 115, 116, 101, 115, 116]
    [.nextN 4, .shift, .shiftN 2] :=
  (hashesWindow_iff_sound _ _ (by decide)).mpr (by decide)

/-- A window of 32 bytes cannot be shifted. -/
theorem hashesWindow_not_of_32 : ¬ ∀ buf ops, (ops.flatMap Op.moves).length ≤ buf.length →
    HashesWindow noMeaning buf ops := by
  intro h
  obtain ⟨head, hRun, -⟩ := h (List.replicate 33 0) [.nextN 32, .shift] (by decide)
  cases hRun

/-- Machines that read the count modulo 32 keep the hash in every run. -/
theorem hashesWindow_wrapped (ops : List Op)
    (hInside : (ops.flatMap Op.moves).length ≤ buf.length) : HashesWindow wrapped buf ops :=
  hashesWindow_of_turn ops hInside (Or.inr harmless_wrapped)

end Direct

end Peak.Hash
