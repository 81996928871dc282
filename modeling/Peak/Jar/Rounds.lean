import Peak.Base.Loop
import Peak.Jar.Snug

/-! Whether `peak_jar_pack` comes to an end. While there are serial headers every
round but one reclaims the oldest; after that the jar is empty, and each further
header moves reader and writer on by its own 32 bytes, until the item fits or the
positions repeat. -/
namespace Peak.Jar

open Ring Run

section Empty

variable {jars : Jars} {size room p q : Nat}

/-- The item goes behind the writer, before the end of the buffer. -/
theorem write_ahead (hAhead : jars.read ≤ jars.write) (hEnd : jars.write + room < jars.size)
    (hLimit : jars.size ≤ malignLimit) :
    write jars room = some (jars.write, { jars with write := jars.write + room }) := by
  simp only [malignLimit] at hLimit
  have hNew : (jars.write + room) % 2 ^ 64 = jars.write + room := by omega
  simp only [write, hNew, if_neg (Nat.not_le.mpr hEnd), if_pos hAhead]
  rw [if_neg (by omega)]

/-- The writer that is behind the reader must stay so. -/
theorem write_behind (hBehind : jars.write < jars.read) (hEnd : jars.write + room < jars.size)
    (hLimit : jars.size ≤ malignLimit) :
    (write jars room).isSome ↔ jars.write + room < jars.read := by
  simp only [malignLimit] at hLimit
  have hNew : (jars.write + room) % 2 ^ 64 = jars.write + room := by omega
  simp only [write, hNew, if_neg (Nat.not_le.mpr hEnd), if_neg (Nat.not_le.mpr hBehind)]
  split_ifs <;> simp <;> omega

/-- At the end of the buffer the item goes before the reader. -/
theorem write_wrap (hEnd : jars.size ≤ jars.write + room) (hMax : jars.write + room < 2 ^ 64) :
    write jars room =
      if jars.read ≤ room then none else some (0, { jars with write := room }) := by
  simp only [write, Nat.mod_eq_of_lt hMax, if_pos hEnd]

/-- A sum that is no `size_t` any more passes for a small one. -/
theorem write_beyond (hAhead : jars.read ≤ jars.write) (hLt : jars.write < jars.size)
    (hMax : 2 ^ 64 ≤ jars.write + room) (hFree : jars.write + room < jars.size + jars.read)
    (hLimit : jars.size ≤ malignLimit) : (write jars room).isSome = true := by
  simp only [malignLimit] at hLimit
  have hNew : (jars.write + room) % 2 ^ 64 = jars.write + room - 2 ^ 64 := by omega
  simp only [write, hNew, if_pos hAhead]
  rw [if_neg (by omega), if_neg (by omega)]
  rfl

/-- Where a serial header puts the writer of an empty jar. -/
def hop (size p : Nat) : Nat := if p + 32 < size then p + 32 else 32

/-- An item of this room is accepted behind a serial header that was made when
the jar was empty and its writer at `p`. -/
def Takes (size room p : Nat) : Prop :=
  if p + 32 < size then
    p + 32 + room < size ∨ room < p ∨ 2 ^ 64 ≤ p + 32 + room
  else room + 32 < p

theorem write_hop (hEmpty : jars.read = jars.write) (hLt : jars.write < jars.size)
    (hSmall : 128 ≤ jars.size) (hLimit : jars.size ≤ malignLimit) :
    ∃ off, write jars 32 = some (off, { jars with write := hop jars.size jars.write }) := by
  by_cases hEnd : jars.write + 32 < jars.size
  · refine ⟨jars.write, ?_⟩
    rw [write_ahead (Nat.le_of_eq hEmpty) hEnd hLimit, hop, if_pos hEnd]
  · simp only [malignLimit] at hLimit
    refine ⟨0, ?_⟩
    rw [write_wrap (by omega) (by omega), if_neg (by omega), hop, if_neg hEnd]

theorem write_takes (hRead : jars.read = p) (hWrite : jars.write = hop jars.size p)
    (hLt : p < jars.size) (hSmall : 128 ≤ jars.size) (hLimit : jars.size ≤ malignLimit)
    (hRoom : 32 + room < jars.size) : (write jars room).isSome ↔ Takes jars.size room p := by
  by_cases hHeader : p + 32 < jars.size
  · rw [hop, if_pos hHeader] at hWrite
    rw [Takes, if_pos hHeader]
    by_cases hMax : jars.write + room < 2 ^ 64
    · by_cases hEnd : jars.write + room < jars.size
      · rw [write_ahead (by omega) hEnd hLimit, Option.isSome_some]
        simp only [true_iff]
        omega
      · rw [write_wrap (by omega) hMax]
        split_ifs <;> simp <;> omega
    · rw [write_beyond (by omega) (by omega) (by omega) (by omega) hLimit]
      simp only [true_iff]
      omega
  · rw [hop, if_neg hHeader] at hWrite
    rw [Takes, if_neg hHeader, write_behind (by omega) (by omega) hLimit]
    omega

/-- How far the writer of an empty jar has to go to get to `q`, after it has
wrapped around if need be. -/
def distance (size q p : Nat) : Nat := if p % 32 = 0 ∧ p ≤ q then q - p else 2 * size - p

theorem distance_le (hq : q < size) : distance size q p ≤ 2 * size := by
  simp only [distance]
  split_ifs <;> omega

/-- An item that is accepted in an empty jar with its writer at `q` is accepted
there or before. -/
theorem distance_hop (hq : q % 32 = 0) (hEnd : q + 32 < size)
    (hGoal : room < q ∨ 2 ^ 64 ≤ q + 32 + room) (hRoom : 32 + room < 2 ^ 64) (hLt : p < size)
    (hTakes : ¬Takes size room p) : distance size q (hop size p) < distance size q p := by
  simp only [Takes] at hTakes
  simp only [distance, hop]
  split_ifs at hTakes ⊢ <;> omega

/-- A header's room from the start of the buffer, or a multiple of it. -/
def Aligned (size p : Nat) : Prop := p % 32 = 0 ∧ 32 ≤ p ∧ p < size

/-- There is a place for a header from which the item fits before it, or is taken
to fit behind it because the sum is no `size_t`. -/
def Roomy (size room : Nat) : Prop :=
  ∃ k, 32 * k + 32 < size ∧ (room < 32 * k ∨ 2 ^ 64 ≤ 32 * k + 32 + room)

theorem large_of_not_roomy (hNone : ¬Roomy size room) : size ≤ room + 64 := by
  by_contra hLess
  exact hNone ⟨room / 32 + 1, by omega, by omega⟩

/-- Otherwise no header that was made at a multiple of its room lets the item in,
and the next one is made at such a place again. -/
theorem aligned_hop (hNone : ¬Roomy size room) (hSmall : 128 ≤ size) (hAligned : Aligned size p) :
    ¬Takes size room p ∧ Aligned size (hop size p) := by
  have hLarge := large_of_not_roomy hNone
  have hHere : p + 32 < size → p ≤ room ∧ p + 32 + room < 2 ^ 64 := by
    intro hEnd
    by_contra hFits
    exact hNone ⟨p / 32, by have := hAligned.1; omega, by have := hAligned.1; omega⟩
  have hBefore : p ≤ room + 32 := by
    by_contra hFits
    refine hNone ⟨(p - 32) / 32, ?_, ?_⟩ <;> simp only [Aligned] at hAligned <;> omega
  simp only [Aligned] at hAligned
  simp only [Takes, hop, Aligned]
  split_ifs <;> omega

end Empty

namespace World

variable {w w' : World} {size len q c head : Nat} {data : List UInt8}

/-- One round of `peak_jar_pack`: the call returns, or it goes on, behind the
serial header or back to its label. It is not followed further where the memory
is not what the code takes it for. -/
def round (w : World) : Loop.Step World :=
  match w.advance with
  | .ok w' => if w'.phase = .idle then .done w' else .again w'
  | .error _ => .done w

/-- The call that packs the item comes to an end. -/
def PackEnds (w : World) (c : Nat) (data : List UInt8) : Prop :=
  Loop.Ends round { w with phase := .wantsHeader c data }

/-- No reservation of a serial header in these or later rounds overruns. -/
def HeadersFit (w : World) : Prop :=
  ∀ w', Relation.ReflTransGen (Loop.Again round) w w' →
    ∀ c data, w'.phase = .wantsHeader c data → w'.Fits

/-- No serial header that the call asks for overruns. -/
def PackFits (w : World) (c : Nat) (data : List UInt8) : Prop :=
  HeadersFit { w with phase := .wantsHeader c data }

/-- The length that a call is about. -/
def Phase.Packs (len : Nat) : Phase → Prop
  | .idle => True
  | .wantsHeader _ data => data.length = len
  | .wantsItem _ data _ => data.length = len

/-- What holds all through a call. -/
structure Packing (size len : Nat) (w : World) : Prop where
  ok : w.Ok
  snug : Snug size w.shelf w.history
  packs : Phase.Packs len w.phase

theorem round_again (hAdvance : w.advance = .ok w') (hBusy : w'.phase ≠ .idle) :
    round w = .again w' := by
  simp only [round, hAdvance, if_neg hBusy]

theorem advance_of_again (h : round w = .again w') : w.advance = .ok w' ∧ w'.phase ≠ .idle := by
  simp only [round] at h
  split at h
  · next later hAdvance =>
      split_ifs at h with hIdle
      cases h
      exact ⟨hAdvance, hIdle⟩
  · cases h

theorem HeadersFit.again (h : HeadersFit w) (hAgain : round w = .again w') : HeadersFit w' :=
  fun later hReach => h later (.head hAgain hReach)

/-- A reservation for an item that is refused is safe. -/
theorem safe_refused (hPhase : w.phase = .wantsItem c data head)
    (hWrite : write w.shelf.jars (headRoom data.length) = none) : w.Safe .advance := by
  constructor
  · intro _
    simp [Fits, hPhase, Overruns, hWrite]
  · simp [repairs, hPhase, hWrite]

/-- So every round that goes again is safe if its serial header fits. -/
theorem HeadersFit.safe (h : HeadersFit w) (hAgain : round w = .again w') : w.Safe .advance := by
  obtain ⟨hAdvance, hBusy⟩ := advance_of_again hAgain
  rcases advance_cases hAdvance with ⟨c, data, out, s', hPhase, -, -⟩ |
    ⟨c, data, head, out, s', hPhase, hPack, rfl⟩
  · exact ⟨fun _ => h w .refl c data hPhase, by simp [repairs, hPhase]⟩
  · rcases packItem_still hPack with ⟨off, jars, rfl, -, -⟩ | ⟨-, hWrite, -⟩
    · exact absurd rfl hBusy
    · exact safe_refused hPhase hWrite

/-- A search for a serial header, when it is safe. -/
theorem advance_header (hOk : w.Ok) (hSafe : w.Safe .advance)
    (hPhase : w.phase = .wantsHeader c data) :
    ∃ out s', packHeader w.shelf = some (out, s') ∧
      w.advance = .ok ⟨s', w.history.header out, behindHeader c data out.head?⟩ := by
  have hFits := hSafe.1 rfl
  simp only [Fits, hPhase] at hFits
  obtain ⟨out, s', hPack, -⟩ := packHeader_spec hOk.reflects hFits
  exact ⟨out, s', hPack, by simp only [advance, hPhase, hPack]⟩

/-- A reservation for an item, when it is safe. -/
theorem advance_item (hOk : w.Ok) (hSafe : w.Safe .advance)
    (hPhase : w.phase = .wantsItem c data head) :
    ∃ out s', packItem w.shelf c data head = some (out, s') ∧
      w.advance = .ok ⟨s', w.history.settle c data out, behindItem c data out⟩ := by
  obtain ⟨hFits, hRepairs⟩ := hSafe
  have hFits := hFits rfl
  simp only [Fits, hPhase] at hFits
  simp only [repairs, hPhase] at hRepairs
  obtain ⟨out, s', hPack, -⟩ := packItem_spec (c := c) hOk.reflects
    (hOk.ready c data head hPhase) hFits.1 fun hSome =>
      ⟨hFits.2 hSome, hRepairs c (by simp [hSome])⟩
  exact ⟨out, s', hPack, by simp only [advance, hPhase, hPack]⟩

/-- A round that goes again keeps what holds all through the call. -/
theorem Packing.again (hPacking : Packing size len w) (hSafe : w.Safe .advance)
    (hAgain : round w = .again w') : Packing size len w' := by
  obtain ⟨hAdvance, -⟩ := advance_of_again hAgain
  refine ⟨advance_ok hPacking.ok hSafe hAdvance,
    advance_snug hPacking.ok hPacking.snug hSafe hAdvance, ?_⟩
  have hPacks := hPacking.packs
  rcases advance_cases hAdvance with ⟨c, data, out, s', hPhase, -, rfl⟩ |
    ⟨c, data, head, out, s', hPhase, -, rfl⟩
  · rw [hPhase] at hPacks
    cases out <;> exact hPacks
  · rw [hPhase] at hPacks
    cases out with
    | none => exact hPacks
    | some off => trivial

/-- An empty jar has its reader where its writer is. -/
theorem Packing.empty (hPacking : Packing size len w) (hBlocks : w.history.blocks = []) :
    w.shelf.jars.read = w.shelf.jars.write := by
  have hWriter := hPacking.snug.writer
  simpa only [History.ranges, hBlocks, List.flatMap_nil, stopOf] using hWriter

theorem Packing.write_lt (hPacking : Packing size len w) : w.shelf.jars.write < size := by
  have hLt := hPacking.ok.reflects.layout.lt_size.1
  rwa [hPacking.snug.size] at hLt

/-- A header is made in an empty jar. -/
theorem Packing.hop_header (hPacking : Packing size len w) (hBlocks : w.history.blocks = [])
    (hSmall : 128 ≤ size) {out : Header} {s' : Shelf}
    (hPack : packHeader w.shelf = some (out, s')) :
    ∃ head, out = .made head ∧ s'.jars.read = w.shelf.jars.write ∧
      s'.jars.write = hop size w.shelf.jars.write ∧ s'.jars.size = size := by
  have hSize := hPacking.snug.size
  have hEmpty := hPacking.empty hBlocks
  have hLt := hPacking.write_lt
  have hLimit := hPacking.ok.reflects.size
  obtain ⟨off, hHop⟩ := write_hop hEmpty (by omega) (by omega) hLimit
  have hReflects := hPacking.ok.reflects
  rcases packHeader_still hReflects hPack with ⟨head, rfl, -, hKept⟩ | ⟨-, hMade⟩
  · exact absurd (by simp [History.needsHeader, hBlocks]) hKept
  · rcases hMade with ⟨head, jars, rfl, hWrite, hStill⟩ | ⟨-, hWrite, -⟩
    · rw [hHop] at hWrite
      cases hWrite
      refine ⟨off, rfl, ?_, ?_, ?_⟩
      · rw [hStill.read, hEmpty]
      · rw [hStill.write, hSize]
      · rw [hStill.size, hSize]
    · rw [hHop] at hWrite
      cases hWrite

/-- Behind that header the item is accepted or not as the writer's place says. -/
theorem Packing.hop_takes (hPacking : Packing size len w) (hBlocks : w.history.blocks = [])
    (hSmall : 128 ≤ size) (hRoom : 32 + headRoom len < size) {s' : Shelf}
    (hPack : packHeader w.shelf = some (.made head, s')) :
    (write s'.jars (headRoom len)).isSome ↔ Takes size (headRoom len) w.shelf.jars.write := by
  obtain ⟨-, -, hRead, hWrite, hSize⟩ := hPacking.hop_header hBlocks hSmall hPack
  have hLimit := hPacking.ok.reflects.size
  have hLt := hPacking.write_lt
  rw [hPacking.snug.size] at hLimit
  rw [← hSize] at hSmall hRoom hWrite hLt hLimit ⊢
  exact write_takes hRead hWrite hLt hSmall hLimit hRoom

/-- What lies ahead of a call: the headers to reclaim, with the rounds that each
takes, and then the way of the writer to `q`. A header that must be made first
leaves the writer wherever it is. -/
def weight (size q : Nat) (w : World) : Nat :=
  match w.phase with
  | .idle => 0
  | .wantsHeader _ _ =>
      if w.history.needsHeader ∧ w.history.blocks ≠ [] then
        2 * w.history.blocks.length + 4 * size + 3
      else 2 * w.history.blocks.length + 2 * distance size q w.shelf.jars.write + 1
  | .wantsItem _ data _ =>
      if (write w.shelf.jars (headRoom data.length)).isSome then 0
      else 2 * w.history.blocks.length + 2 * distance size q w.shelf.jars.write

theorem weight_item_le (hPhase : w.phase = .wantsItem c data head) :
    weight size q w ≤
      2 * w.history.blocks.length + 2 * distance size q w.shelf.jars.write := by
  simp only [weight, hPhase]
  split_ifs <;> omega

theorem weight_header_eq (hPhase : w.phase = .wantsHeader c data)
    (hKeeps : ¬(w.history.needsHeader = true ∧ w.history.blocks ≠ [])) :
    weight size q w =
      2 * w.history.blocks.length + 2 * distance size q w.shelf.jars.write + 1 := by
  simp only [weight, hPhase]
  rw [if_neg hKeeps]

theorem weight_header_le (hq : q < size) (hPhase : w.phase = .wantsHeader c data) :
    weight size q w ≤ 2 * w.history.blocks.length + 4 * size + 3 := by
  have hDistance := distance_le (p := w.shelf.jars.write) hq
  simp only [weight, hPhase]
  split_ifs <;> omega

/-- The search for a serial header lowers the weight. -/
theorem weight_header {out : Header} {s' : Shelf} (hPacking : Packing size len w)
    (hSmall : 128 ≤ size) (hRoom : 32 + headRoom len < size) (hq : q % 32 = 0)
    (hEnd : q + 32 < size) (hGoal : headRoom len < q ∨ 2 ^ 64 ≤ q + 32 + headRoom len)
    (hPhase : w.phase = .wantsHeader c data) (hPack : packHeader w.shelf = some (out, s')) :
    weight size q ⟨s', w.history.header out, behindHeader c data out.head?⟩ <
      weight size q w := by
  have hLen : data.length = len := by
    have hPacks := hPacking.packs
    rwa [hPhase] at hPacks
  have hReflects := hPacking.ok.reflects
  have hLimit := hReflects.size
  rw [hPacking.snug.size, malignLimit] at hLimit
  by_cases hBlocks : w.history.blocks = []
  · obtain ⟨head, rfl, -, hWrite, -⟩ := hPacking.hop_header hBlocks hSmall hPack
    have hTakes := hPacking.hop_takes hBlocks hSmall hRoom hPack
    have hOne : (w.history.openBlock head).blocks.length = 1 := by
      simp [History.openBlock, hBlocks]
    rw [weight_header_eq hPhase fun hNeeds => hNeeds.2 hBlocks, hBlocks]
    simp only [weight, behindHeader, Header.head?, History.header, hLen, hOne]
    split_ifs with hSome
    · omega
    · have hLess := distance_hop hq hEnd hGoal (by omega) hPacking.write_lt (hTakes.not.mp hSome)
      rw [hWrite, List.length_nil]
      omega
  · rcases packHeader_still hReflects hPack with ⟨head, rfl, rfl, hKept⟩ | ⟨hNeeds, hMade⟩
    · rw [weight_header_eq hPhase fun hNeeds => hKept hNeeds.1]
      exact Nat.lt_succ_of_le (weight_item_le rfl)
    · have hFull : weight size q w = 2 * w.history.blocks.length + 4 * size + 3 := by
        simp only [weight, hPhase]
        rw [if_pos ⟨hNeeds, hBlocks⟩]
      rw [hFull]
      rcases hMade with ⟨head, jars, rfl, -, -⟩ | ⟨rfl, -, -⟩
      · refine Nat.lt_of_le_of_lt (weight_item_le rfl) ?_
        have hDistance := distance_le (p := s'.jars.write) (show q < size by omega)
        simp only [History.header, History.openBlock, List.length_append, List.length_singleton]
        omega
      · refine Nat.lt_of_le_of_lt (weight_header_le (by omega) rfl) ?_
        have hPos := List.length_pos_of_ne_nil hBlocks
        simp only [History.header, History.reclaim_blocks, List.length_tail]
        omega

/-- So does a reservation for the item that is refused. -/
theorem weight_item {out : Option Nat} {s' : Shelf} (hPacking : Packing size len w)
    (hPhase : w.phase = .wantsItem c data head)
    (hPack : packItem w.shelf c data head = some (out, s'))
    (hBusy : behindItem c data out ≠ .idle) :
    weight size q ⟨s', w.history.settle c data out, behindItem c data out⟩ <
      weight size q w := by
  have hReady := hPacking.ok.ready c data head hPhase
  rcases packItem_still hPack with ⟨off, jars, rfl, -, -⟩ | ⟨rfl, hWrite, hRead⟩
  · exact absurd rfl hBusy
  · obtain ⟨hStay, -⟩ := hPacking.snug.reclaim hPacking.ok.reflects hRead
    have hPos : 0 < w.history.blocks.length := by
      obtain ⟨front, b, hBlocks, -⟩ := hReady
      simp [hBlocks]
    have hRest : ¬(w.history.reclaim.needsHeader = true ∧ w.history.reclaim.blocks ≠ []) := by
      rintro ⟨hNeeds, hRest⟩
      rw [History.reclaim_blocks] at hRest
      rw [History.needsHeader_reclaim hRest] at hNeeds
      exact History.not_needsHeader_of_ready hReady hNeeds
    have hFull : weight size q w =
        2 * w.history.blocks.length + 2 * distance size q w.shelf.jars.write := by
      simp only [weight, hPhase, hWrite, Option.isSome_none, Bool.false_eq_true, if_false]
    rw [hFull, weight_header_eq rfl hRest]
    simp only [History.settle, hStay, History.reclaim_blocks, List.length_tail]
    omega

theorem Packing.reach (hPacking : Packing size len w) (hFit : HeadersFit w)
    (hReach : Relation.ReflTransGen (Loop.Again round) w w') :
    Packing size len w' ∧ HeadersFit w' := by
  induction hReach with
  | refl => exact ⟨hPacking, hFit⟩
  | tail _ hStep ih => exact ⟨ih.1.again (ih.2.safe hStep) hStep, ih.2.again hStep⟩

/-- With a place for a header that lets the item in every call comes to an end
whose serial headers fit. -/
theorem ends_of_roomy (hPacking : Packing size len w) (hFit : HeadersFit w) (hSmall : 128 ≤ size)
    (hRoom : 32 + headRoom len < size) (hRoomy : Roomy size (headRoom len)) :
    Loop.Ends round w := by
  obtain ⟨k, hEnd, hGoal⟩ := hRoomy
  apply Loop.ends_of_measure (weight size (32 * k))
  intro w₁ w₂ hReach hAgain
  have hPacking₁ := (hPacking.reach hFit hReach).1
  obtain ⟨hAdvance, hBusy⟩ := advance_of_again hAgain
  rcases advance_cases hAdvance with ⟨c, data, out, s', hPhase, hPack, rfl⟩ |
    ⟨c, data, head, out, s', hPhase, hPack, rfl⟩
  · exact weight_header hPacking₁ hSmall hRoom (by omega) hEnd hGoal hPhase hPack
  · exact weight_item hPacking₁ hPhase hPack hBusy

/-- A call in an empty jar with its writer at a multiple of a header's room, or
behind the one header that was made there. -/
def Turning (size room : Nat) (w : World) : Prop :=
  match w.phase with
  | .idle => False
  | .wantsHeader _ _ => w.history.blocks = [] ∧ Aligned size w.shelf.jars.write
  | .wantsItem _ _ _ =>
      w.history.blocks.length = 1 ∧ write w.shelf.jars room = none ∧
        Aligned size w.shelf.jars.write

/-- In an empty jar the search for a header is safe. -/
theorem Packing.safe_header (hPacking : Packing size len w) (hBlocks : w.history.blocks = [])
    (hPhase : w.phase = .wantsHeader c data) : w.Safe .advance := by
  have hEmpty := hPacking.empty hBlocks
  have hLt := hPacking.write_lt
  have hLimit := hPacking.ok.reflects.size
  rw [hPacking.snug.size, malignLimit] at hLimit
  constructor
  · intro _
    simp only [Fits, hPhase, Overruns]
    rintro - ⟨-, hBehind | hMax⟩ <;> omega
  · simp [repairs, hPhase]

/-- Such a call goes on to such a state. -/
theorem turning_round (hNone : ¬Roomy size (headRoom len)) (hSmall : 128 ≤ size)
    (hRoom : 32 + headRoom len < size) (hPacking : Packing size len w)
    (hTurning : Turning size (headRoom len) w) :
    w.Safe .advance ∧ ∃ w', round w = .again w' ∧ Turning size (headRoom len) w' := by
  have hPacks := hPacking.packs
  have hReflects := hPacking.ok.reflects
  cases hPhase : w.phase with
  | idle =>
      simp only [Turning, hPhase] at hTurning
  | wantsHeader c data =>
      simp only [Turning, hPhase] at hTurning
      obtain ⟨hBlocks, hAligned⟩ := hTurning
      have hSafe := hPacking.safe_header hBlocks hPhase
      obtain ⟨out, s', hPack, hNext⟩ := advance_header hPacking.ok hSafe hPhase
      obtain ⟨head, rfl, -, hWrite, -⟩ := hPacking.hop_header hBlocks hSmall hPack
      have hTakes := hPacking.hop_takes hBlocks hSmall hRoom hPack
      obtain ⟨hRefused, hAligned'⟩ := aligned_hop hNone hSmall hAligned
      refine ⟨hSafe, _, round_again hNext (by simp [behindHeader, Header.head?]), ?_⟩
      refine ⟨by simp [History.header, History.openBlock, hBlocks], ?_, ?_⟩
      · exact Option.not_isSome_iff_eq_none.mp (hTakes.not.mpr hRefused)
      · rw [hWrite]
        exact hAligned'
  | wantsItem c data head =>
      simp only [Turning, hPhase] at hTurning
      obtain ⟨hOne, hWrite, hAligned⟩ := hTurning
      rw [hPhase] at hPacks
      have hWrite' : write w.shelf.jars (headRoom data.length) = none := by
        rw [show data.length = len from hPacks, hWrite]
      have hSafe := safe_refused hPhase hWrite'
      obtain ⟨out, s', hPack, hNext⟩ := advance_item hPacking.ok hSafe hPhase
      rcases packItem_still hPack with ⟨off, jars, -, hSome, -⟩ | ⟨rfl, -, hRead⟩
      · rw [hWrite'] at hSome
        cases hSome
      · obtain ⟨hStay, -⟩ := hPacking.snug.reclaim hReflects hRead
        refine ⟨hSafe, _, round_again hNext (by simp [behindItem]), ?_⟩
        refine ⟨?_, by rw [hStay]; exact hAligned⟩
        apply List.eq_nil_of_length_eq_zero
        simp only [History.settle, History.reclaim_blocks, List.length_tail, hOne]

section Runs

variable {jars : Jars} {buffer : Nat → Cell} {firstSerial lastSerial : Nat → Nat}

theorem packing_of_reached (hInit : init size buffer = some jars)
    (hReached : Reached step Safe (start jars firstSerial lastSerial) w)
    (hLen : data.length = len) : Packing size len { w with phase := .wantsHeader c data } := by
  obtain ⟨hOk, hSnug⟩ := snug_of_reached hInit hReached
  exact ⟨⟨hOk.reflects, fun _ _ _ h => by cases h⟩, hSnug, hLen⟩

/-- An item without data is packed into a fresh jar. -/
theorem reached_first (hInit : init size buffer = some jars) :
    ∃ w, Reached step Safe (start jars firstSerial lastSerial) w ∧ w.phase = .idle ∧
      w.history.blocks.length = 1 ∧ ¬w.history.needsHeader = true ∧ w.shelf.jars.read = 0 ∧
      w.shelf.jars.write = 64 := by
  obtain ⟨hSmall, -, hJars⟩ := init_cases hInit
  have hRoom : headRoom 0 = 32 := rfl
  let asked : World := { start jars firstSerial lastSerial with phase := .wantsHeader 0 [] }
  have hAsked : Reached step Safe (start jars firstSerial lastSerial) asked :=
    .step .start (a := .pack 0 []) ⟨by simp, by simp [repairs]⟩ rfl
  have hPacking : Packing size 0 asked := packing_of_reached hInit .start rfl
  -- the header goes to the start of the buffer
  have hSafe : asked.Safe .advance := hPacking.safe_header rfl rfl
  obtain ⟨out, s₁, hPack₁, hNext₁⟩ := advance_header hPacking.ok hSafe rfl
  obtain ⟨head, rfl, hRead₁, hWrite₁, hSize₁⟩ := hPacking.hop_header rfl hSmall hPack₁
  rw [show asked.shelf.jars.write = 0 from congrArg Jars.write hJars] at hRead₁ hWrite₁
  rw [hop, if_pos (by omega)] at hWrite₁
  have hPacking₁ := hPacking.again hSafe (round_again hNext₁ (by simp [behindHeader, Header.head?]))
  -- and the item behind it
  have hWrite₂ : write s₁.jars 32 =
      some (s₁.jars.write, { s₁.jars with write := s₁.jars.write + 32 }) :=
    write_ahead (by omega) (by omega) hPacking₁.ok.reflects.size
  have hSafe₁ : Safe ⟨s₁, asked.history.header (.made head), .wantsItem 0 [] head⟩ .advance := by
    constructor
    · intro _
      simp only [Fits, Overruns, List.length_nil, hRoom, hWrite₁, hRead₁]
      omega
    · intro c _
      trivial
  obtain ⟨out, s₂, hPack₂, hNext₂⟩ := advance_item hPacking₁.ok hSafe₁ rfl
  rcases packItem_still hPack₂ with ⟨off, jars₂, rfl, hWrite, hStill⟩ | ⟨-, hWrite, -⟩
  · rw [List.length_nil, hRoom, hWrite₂] at hWrite
    cases hWrite
    have hKept : ¬decide (headCount < 1) = true := by decide
    refine ⟨_, .step (.step hAsked hSafe hNext₁) hSafe₁ hNext₂, rfl, rfl, hKept, ?_, ?_⟩
    · rw [hStill.read, hRead₁]
    · rw [hStill.write, hWrite₁]
  · rw [List.length_nil, hRoom, hWrite₂] at hWrite
    cases hWrite

/-- Such a call goes on so for ever, and all its headers fit. -/
theorem turning_endless (hNone : ¬Roomy size (headRoom len)) (hSmall : 128 ≤ size)
    (hRoom : 32 + headRoom len < size) (hPacking : Packing size len w)
    (hTurning : Turning size (headRoom len) w) : HeadersFit w ∧ ¬Loop.Ends round w := by
  have hRound : ∀ w, Packing size len w ∧ Turning size (headRoom len) w →
      ∃ w', round w = .again w' ∧ Packing size len w' ∧ Turning size (headRoom len) w' := by
    rintro w ⟨hPacking, hTurning⟩
    obtain ⟨hSafe, next, hAgain, hNext⟩ := turning_round hNone hSmall hRoom hPacking hTurning
    exact ⟨next, hAgain, hPacking.again hSafe hAgain, hNext⟩
  refine ⟨fun w' hReach c data hPhase => ?_, ?_⟩
  · have hInv : Packing size len w' ∧ Turning size (headRoom len) w' := by
      clear hPhase
      induction hReach with
      | refl => exact ⟨hPacking, hTurning⟩
      | tail _ hStep ih =>
          obtain ⟨next, hAgain, hNext⟩ := hRound _ ih
          rw [Loop.Again, hAgain] at hStep
          cases hStep
          exact hNext
    exact (turning_round hNone hSmall hRoom hInv.1 hInv.2).1.1 rfl
  · exact Loop.not_ends_of_trap (fun w => Packing size len w ∧ Turning size (headRoom len) w) .refl
      ⟨hPacking, hTurning⟩ hRound

/-- Without such a place there is a state of a jar in which no call with an item
of this length returns. -/
theorem turns_forever (hInit : init size buffer = some jars)
    (hFresh : 32 + headRoom len < size) (hNone : ¬Roomy size (headRoom len)) :
    ∃ w, Reached step Safe (start jars firstSerial lastSerial) w ∧ w.phase = .idle ∧
      ∀ c data, data.length = len → w.PackFits c data ∧ ¬w.PackEnds c data := by
  have hSmall := (init_cases hInit).1
  obtain ⟨w, hReached, hIdle, hOne, hKept, hRead, hWrite⟩ := reached_first hInit
  refine ⟨w, hReached, hIdle, fun c data hLen => ?_⟩
  have hPacking := packing_of_reached (c := c) hInit hReached hLen
  have hLarge := large_of_not_roomy hNone
  have hLimit := hPacking.ok.reflects.size
  rw [hPacking.snug.size, malignLimit] at hLimit
  have hSafe : Safe { w with phase := .wantsHeader c data } .advance := by
    refine ⟨fun _ hNeeds => absurd hNeeds hKept, by simp [repairs]⟩
  obtain ⟨out, s', hPack, hNext⟩ := advance_header hPacking.ok hSafe rfl
  rcases packHeader_still hPacking.ok.reflects hPack with ⟨head, rfl, rfl, -⟩ | ⟨hNeeds, -⟩
  · have hAgain := round_again hNext (by simp [behindHeader, Header.head?])
    have hTurning : Turning size (headRoom len)
        ⟨w.shelf, w.history.header (.kept head), behindHeader c data (Header.kept head).head?⟩ := by
      refine ⟨hOne, ?_, ?_⟩
      · rw [write_wrap (by rw [hPacking.snug.size, hWrite]; omega) (by rw [hWrite]; omega),
          if_pos (by rw [hRead]; omega)]
      · show Aligned size w.shelf.jars.write
        rw [hWrite]
        exact ⟨rfl, by omega, by omega⟩
    obtain ⟨hFit, hForever⟩ :=
      turning_endless hNone hSmall hFresh (hPacking.again hSafe hAgain) hTurning
    constructor
    · -- the first round keeps the header that is there
      intro w' hReach c' data' hPhase
      rcases hReach.cases_head with rfl | ⟨next, hFirst, hRest⟩
      · exact hSafe.1 rfl
      · rw [Loop.Again, hAgain] at hFirst
        cases hFirst
        exact hFit w' hRest c' data' hPhase
    · rintro ⟨fuel, final, hRun⟩
      cases fuel with
      | zero => cases hRun
      | succ fuel =>
          rw [Loop.run_succ_of_again hAgain] at hRun
          exact hForever ⟨fuel, final, hRun⟩
  · exact absurd hNeeds hKept

/-- In a jar of a size that `peak_jar_init` accepts, and for items of a length
that fits into it while it is fresh, every call in every state reached by safe
steps ends that asks for no serial header that overruns, exactly if the size is
roomy for the item. -/
theorem packing_ends_iff (hInit : init size buffer = some jars)
    (hFresh : 32 + headRoom len < size) :
    (∀ w, Reached step Safe (start jars firstSerial lastSerial) w → w.phase = .idle →
      ∀ c data, data.length = len → w.PackFits c data → w.PackEnds c data) ↔
        Roomy size (headRoom len) := by
  constructor
  · intro hEnds
    by_contra hNone
    obtain ⟨w, hReached, hIdle, hForever⟩ := turns_forever hInit hFresh hNone
    obtain ⟨hFit, hEndless⟩ := hForever 0 (List.replicate len 0) List.length_replicate
    exact hEndless (hEnds w hReached hIdle 0 _ List.length_replicate hFit)
  · intro hRoomy w hReached _ c data hLen hFit
    exact ends_of_roomy (packing_of_reached hInit hReached hLen) hFit (init_cases hInit).1 hFresh
      hRoomy

/-- Items of 24 bytes always get into the small jar in the end. -/
theorem smallJar_packing_ends : 32 + headRoom 24 < 128 ∧
    ∀ w, Reached step Safe small w → w.phase = .idle →
      ∀ c data, data.length = 24 → w.PackFits c data → w.PackEnds c data :=
  ⟨by decide, (packing_ends_iff small_init (by decide)).mpr ⟨2, by decide, by decide⟩⟩

/-- An item of 56 bytes fits into the small jar while it is fresh. Once an item
without data has been packed, the call never returns. -/
theorem smallJar_turns_forever : 32 + headRoom 56 < 128 ∧
    ¬∀ w, Reached step Safe small w → w.phase = .idle →
      ∀ c data, data.length = 56 → w.PackEnds c data := by
  have hRoom : headRoom 56 = 88 := rfl
  have hNone : ¬Roomy 128 (headRoom 56) := by
    rintro ⟨k, hEnd, hGoal⟩
    omega
  refine ⟨by decide, fun hEnds => ?_⟩
  obtain ⟨w, hReached, hIdle, hForever⟩ := turns_forever small_init (by decide) hNone
  exact (hForever 0 (List.replicate 56 0) rfl).2 (hEnds w hReached hIdle 0 _ rfl)

end Runs

end World

end Peak.Jar
