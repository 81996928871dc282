import Peak.Jar.World

/-! Where the reader and the writer of a jar are. The writer moves by
reservations and the reader by reclaiming headers, nothing else moves either of
them, and so the writer is always right behind what is in use: an empty jar has
both at one place. -/
namespace Peak.Jar

open TailQueue Ring Run

section Fields

variable {s s' : Shelf} {c d head off room : Nat} {data : List UInt8} {answers : List Answer}

theorem insertTail_fields {p : Pair} {x : Nat} (h : links.insertTail s p x = some s') :
    s'.jars.fields = s.jars.fields := by
  obtain ⟨pairs, hTouches⟩ := insertTail_touches h
  exact fields_touches hTouches

theorem insertHead_fields {p : Pair} {x : Nat} (h : links.insertHead s p x = some s') :
    s'.jars.fields = s.jars.fields := by
  obtain ⟨pairs, hTouches⟩ := insertHead_touches h
  exact fields_touches hTouches

theorem remove_fields {p : Pair} {x : Nat} (h : links.remove s p x = some s') :
    s'.jars.fields = s.jars.fields := by
  obtain ⟨pairs, hTouches⟩ := remove_touches h
  exact fields_touches hTouches

theorem init_fields (s : Shelf) (p : Pair) : (links.init s p).jars.fields = s.jars.fields :=
  fields_touches (init_touches links s p)

theorem zapLoop_fields {fuel zap last : Nat} (h : zapLoop c fuel zap s = some (last, s')) :
    s'.jars.fields = s.jars.fields := by
  induction fuel generalizing zap s with
  | zero => cases h
  | succ fuel ih =>
      simp only [zapLoop, Option.bind_eq_bind, Option.bind_eq_some_iff] at h
      obtain ⟨next, -, h⟩ := h
      cases next with
      | none =>
          cases h
          rfl
      | some next =>
          simp only [Option.bind_eq_some_iff] at h
          obtain ⟨prevSerial, -, h⟩ := h
          split_ifs at h
          · cases h
            rfl
          · simp only [Option.bind_eq_some_iff] at h
            obtain ⟨m, hInsert, h⟩ := h
            exact (ih h).trans (insertTail_fields hInsert)

/-- `peak_jar_repair` moves neither the reader nor the writer. -/
theorem repair_fields (h : repair s c = some s') : s'.jars.fields = s.jars.fields := by
  simp only [repair, Option.bind_eq_bind, Option.bind_eq_some_iff] at h
  obtain ⟨first, -, h⟩ := h
  cases first with
  | none =>
      cases h
      rfl
  | some data =>
      simp only [Option.bind_eq_some_iff] at h
      obtain ⟨head, -, h⟩ := h
      split_ifs at h
      · cases h
        exact init_fields s _
      · cases h
        exact init_fields s _
      · simp only [Option.bind_eq_some_iff, Prod.exists] at h
        obtain ⟨last, m, hLoop, serial, -, h⟩ := h
        cases h
        exact (zapLoop_fields hLoop).trans (init_fields s _)
      · cases h
        rfl

theorem fill_fields (h : fill s head off data = some s') : s'.jars.fields = s.jars.fields := by
  simp only [fill, Option.bind_eq_bind, Option.bind_eq_some_iff] at h
  obtain ⟨serial, -, h⟩ := h
  cases h
  rfl

theorem enlist_fields (h : enlist s c off = some s') : s'.jars.fields = s.jars.fields := by
  simp only [enlist, Option.bind_eq_bind, Option.bind_eq_some_iff] at h
  obtain ⟨first, -, serial, -, m, hInsert, later, -, next, -, h⟩ := h
  have hFields : m.jars.fields = s.jars.fields := by
    rw [insertHead_fields hInsert]
    split_ifs <;> rfl
  cases next with
  | none =>
      cases h
      exact hFields
  | some next =>
      simp only [Option.bind_eq_some_iff] at h
      obtain ⟨prevSerial, -, h⟩ := h
      cases h
      exact hFields

theorem book_fields (h : book s head = some s') : s'.jars.fields = s.jars.fields := by
  simp only [book, Option.bind_eq_bind, Option.bind_eq_some_iff] at h
  obtain ⟨count, -, h⟩ := h
  cases h
  rfl

theorem visit_fields {follow : Shelf → Pair → Option (Option Nat)} {fuel : Nat} {x : Option Nat}
    {log : List (Delivery × Answer)} (h : visit follow c fuel x answers s = some (log, s')) :
    s'.jars.fields = s.jars.fields := by
  induction fuel generalizing x answers s log with
  | zero =>
      cases x with
      | none =>
          cases h
          rfl
      | some data => cases h
  | succ fuel ih =>
      cases x with
      | none =>
          cases h
          rfl
      | some data =>
          simp only [visit, Option.bind_eq_bind, Option.bind_eq_some_iff] at h
          obtain ⟨temp, -, delivery, -, h⟩ := h
          cases hAnswer : answers.headD .keep with
          | back =>
              simp only [hAnswer] at h
              cases h
              rfl
          | drop =>
              simp only [hAnswer, Option.bind_eq_some_iff, Prod.exists] at h
              obtain ⟨m, hRemove, rest, m', hVisit, h⟩ := h
              cases h
              exact (ih hVisit).trans (remove_fields hRemove)
          | keep =>
              simp only [hAnswer, Option.bind_eq_some_iff, Prod.exists] at h
              obtain ⟨rest, m', hVisit, h⟩ := h
              cases h
              exact ih hVisit

/-- A walk moves neither the reader nor the writer. -/
theorem walk_fields {follow : Shelf → Pair → Option (Option Nat)} {out : Walk}
    (h : walk follow s c answers = some (out, s')) : s'.jars.fields = s.jars.fields := by
  simp only [walk, Option.bind_eq_bind, Option.bind_eq_some_iff, Prod.exists] at h
  obtain ⟨m, hRepair, data, -, log, m', hVisit, first, -, h⟩ := h
  cases h
  exact (visit_fields hVisit).trans (repair_fields hRepair)

end Fields

namespace History

variable {h : History} {c d off : Nat} {b : Block} {rest : List Block}

@[simp] theorem repair_ranges (h : History) (c : Nat) : (h.repair c).ranges = h.ranges := rfl

/-- Drops do not free any room. -/
@[simp] theorem record_ranges (h : History) (c : Nat) (log : List (Delivery × Answer)) :
    (h.record c log).ranges = h.ranges := by
  induction log generalizing h with
  | nil => rfl
  | cons entry log ih =>
      obtain ⟨delivery, answer⟩ := entry
      cases answer with
      | back => exact ih h
      | drop => exact ih (h.drop c delivery.off)
      | keep => exact ih h

theorem ranges_openBlock (h : History) (off : Nat) :
    (h.openBlock off).ranges = h.ranges ++ [⟨off, 32⟩] := by
  simp [ranges, openBlock, Block.ranges]

/-- Moving the reader behind the oldest ranges does not change where the last
one ends. -/
theorem stopOf_reclaim (hBlocks : h.blocks = b :: rest) (read : Nat) :
    stopOf (stopOf 0 b.ranges) h.reclaim.ranges = stopOf read h.ranges := by
  simp only [reclaim, ranges, hBlocks, List.flatMap_cons]
  rw [stopOf_append]
  rfl

end History

/-- Neither the writer nor the reader has moved. -/
structure Still (jars jars' : Jars) : Prop where
  write : jars'.write = jars.write
  read : jars'.read = jars.read
  size : jars'.size = jars.size

theorem still_of_fields {jars jars' : Jars} (h : jars'.fields = jars.fields) : Still jars jars' := by
  obtain ⟨-, -, hWrite, hRead, hSize⟩ := Jars.fields_eq_iff.mp h
  exact ⟨hWrite, hRead, hSize⟩

section Cases

variable {s s' : Shelf} {h : History} {c head : Nat} {data : List UInt8}

/-- The search for a serial header keeps the newest one, or it makes one in
reserved room, or it reclaims the oldest one. -/
theorem packHeader_still {out : Header} (hReflects : Reflects s h [])
    (hPack : packHeader s = some (out, s')) :
    (∃ head, out = .kept head ∧ s' = s ∧ ¬h.needsHeader = true) ∨
      h.needsHeader = true ∧
        ((∃ head jars, out = .made head ∧ write s.jars 32 = some (head, jars) ∧
            Still jars s'.jars) ∨
          out = .reclaimed ∧ write s.jars 32 = none ∧ read s = some s') := by
  by_cases hNeeds : h.needsHeader = true
  · rw [hReflects.packHeader_make hNeeds] at hPack
    refine .inr ⟨hNeeds, ?_⟩
    simp only [makeHeader] at hPack
    cases hWrite : write s.jars 32 with
    | none =>
        simp only [hWrite, Option.bind_eq_bind, Option.bind_eq_some_iff] at hPack
        obtain ⟨m, hRead, hPack⟩ := hPack
        cases hPack
        exact .inr ⟨rfl, rfl, hRead⟩
    | some reserved =>
        obtain ⟨head, jars⟩ := reserved
        simp only [hWrite, Option.bind_eq_bind, Option.bind_eq_some_iff] at hPack
        obtain ⟨m, hInsert, hPack⟩ := hPack
        cases hPack
        have hStill := still_of_fields (insertTail_fields hInsert)
        exact .inl ⟨head, jars, rfl, rfl, hStill.write, hStill.read, hStill.size⟩
  · obtain ⟨head, hReady⟩ := History.ready_of_not_needsHeader hNeeds
    rw [hReflects.packHeader_kept hReady] at hPack
    cases hPack
    exact .inl ⟨head, rfl, rfl, hNeeds⟩

/-- Packing an item moves the writer as the reservation did, or it reclaims the
oldest header. -/
theorem packItem_still {out : Option Nat} (hPack : packItem s c data head = some (out, s')) :
    (∃ off jars, out = some off ∧ write s.jars (headRoom data.length) = some (off, jars) ∧
        Still jars s'.jars) ∨
      out = none ∧ write s.jars (headRoom data.length) = none ∧ read s = some s' := by
  refine (packItem_cases hPack).imp_left ?_
  rintro ⟨off, jars, m₁, m₂, m₃, rfl, hWrite, hRepair, hFill, hEnlist, hBook⟩
  refine ⟨off, jars, rfl, hWrite, still_of_fields ?_⟩
  calc s'.jars.fields = m₃.jars.fields := book_fields hBook
    _ = m₂.jars.fields := enlist_fields hEnlist
    _ = m₁.jars.fields := fill_fields hFill
    _ = jars.fields := repair_fields hRepair

end Cases

/-- The jar has its size, and the writer is right behind what is in use. -/
structure Snug (size : Nat) (s : Shelf) (h : History) : Prop where
  size : s.jars.size = size
  writer : stopOf s.jars.read h.ranges = s.jars.write

section Snug

variable {s s' : Shelf} {h h' : History} {size c room off : Nat} {jars : Jars}

theorem Snug.still (hSnug : Snug size s h) (hStill : Still s.jars s'.jars)
    (hRanges : h'.ranges = h.ranges) : Snug size s' h' := by
  constructor
  case size => rw [hStill.size, hSnug.size]
  case writer => rw [hStill.read, hRanges, hStill.write, hSnug.writer]

/-- Reserved room is put to use. -/
theorem Snug.reserve (hSnug : Snug size s h) (hReflects : Reflects s h [])
    (hOk : ¬Overruns s.jars room) (hWrite : write s.jars room = some (off, jars))
    (hStill : Still jars s'.jars) (hRanges : h'.ranges = h.ranges ++ [⟨off, room⟩]) :
    Snug size s' h' := by
  obtain ⟨rfl, -⟩ := write_spec hReflects.layout hOk hWrite
  constructor
  case size => rw [hStill.size, hSnug.size]
  case writer =>
    rw [hRanges, stopOf_append, hStill.write]
    rfl

/-- Reclaiming moves the reader to the next header, or, behind the last one, to
the writer. -/
theorem Snug.reclaim (hSnug : Snug size s h) (hReflects : Reflects s h [])
    (hRead : read s = some s') :
    s'.jars.write = s.jars.write ∧ Snug size s' h.reclaim := by
  cases hBlocks : h.blocks with
  | nil =>
      rw [hReflects.read_empty hBlocks] at hRead
      cases hRead
      refine ⟨rfl, ?_⟩
      simp only [History.reclaim, hBlocks]
      exact hSnug
  | cons b rest =>
      obtain ⟨m, -, hTouches, hRead'⟩ := hReflects.read_eq hBlocks
      rw [hRead'] at hRead
      cases hRead
      obtain ⟨-, -, hWrite, -, hSize⟩ := Jars.fields_eq_iff.mp (fields_touches hTouches)
      refine ⟨hWrite, ?_⟩
      constructor
      case size => exact hSize.trans hSnug.size
      case writer =>
        rw [hWrite, ← hSnug.writer]
        exact History.stopOf_reclaim hBlocks _

end Snug

namespace World

variable {w w' : World} {e : Event} {size c head : Nat} {data : List UInt8} {buffer : Nat → Cell}
variable {jars : Jars} {firstSerial lastSerial : Nat → Nat}

theorem start_snug (hInit : init size buffer = some jars) :
    Snug size (start jars firstSerial lastSerial).shelf (start jars firstSerial lastSerial).history := by
  obtain ⟨-, -, rfl⟩ := init_cases hInit
  exact ⟨rfl, rfl⟩

theorem advance_snug (hOk : w.Ok) (hSnug : Snug size w.shelf w.history) (hSafe : w.Safe .advance)
    (hAdvance : w.advance = .ok w') : Snug size w'.shelf w'.history := by
  have hFits := hSafe.1 rfl
  have hReflects := hOk.reflects
  simp only [Fits] at hFits
  rcases advance_cases hAdvance with ⟨c, data, out, s', hPhase, hPack, rfl⟩ |
    ⟨c, data, head, out, s', hPhase, hPack, rfl⟩
  · rw [hPhase] at hFits
    rcases packHeader_still hReflects hPack with ⟨head, rfl, rfl, -⟩ | ⟨hNeeds, hMade⟩
    · exact hSnug
    · rcases hMade with ⟨head, jars, rfl, hWrite, hStill⟩ | ⟨rfl, -, hRead⟩
      · exact hSnug.reserve hReflects (hFits hNeeds) hWrite hStill (History.ranges_openBlock _ _)
      · exact (hSnug.reclaim hReflects hRead).2
  · rw [hPhase] at hFits
    rcases packItem_still hPack with ⟨off, jars, rfl, hWrite, hStill⟩ | ⟨rfl, -, hRead⟩
    · obtain ⟨front, b, hBlocks, -, -⟩ := hOk.ready c data head hPhase
      refine hSnug.reserve hReflects hFits.1 hWrite hStill ?_
      exact History.ranges_store hBlocks
    · exact (hSnug.reclaim hReflects hRead).2

/-- A safe step leaves the writer right behind what is in use. -/
theorem step_snug (hOk : w.Ok) (hSnug : Snug size w.shelf w.history) (hSafe : w.Safe e)
    (hStep : w.step e = .ok w') : Snug size w'.shelf w'.history := by
  rcases step_cases hStep with ⟨c, data, rfl⟩ | ⟨rfl, hAdvance⟩ |
    ⟨c, walk, s', -, ⟨answers, hWalk⟩, rfl⟩
  · exact hSnug
  · exact advance_snug hOk hSnug hSafe hAdvance
  · have hFields : s'.jars.fields = w.shelf.jars.fields := hWalk.elim walk_fields walk_fields
    refine hSnug.still (still_of_fields hFields) ?_
    rw [History.record_ranges, History.repair_ranges]

theorem snug_of_reached (hInit : init size buffer = some jars)
    (hReached : Reached step Safe (start jars firstSerial lastSerial) w) :
    w.Ok ∧ Snug size w.shelf w.history := by
  refine hReached.invariant (fun w => w.Ok ∧ Snug size w.shelf w.history)
    ⟨start_ok hInit, start_snug hInit⟩ ?_
  intro w e w' hInv hSafe hStep
  exact ⟨step_ok hInv.1 hSafe hStep, step_snug hInv.1 hInv.2 hSafe hStep⟩

end World

end Peak.Jar
