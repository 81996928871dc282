import Peak.Base.Run
import Peak.Jar.Pack
import Peak.Jar.Walk

/-! Clients of a jar. Calls on any number of contexts come in any order; a call
of `peak_jar_pack` is taken round by round, since it may go round its loop many
times, or forever. The history is kept beside the shelf and never asked. -/
namespace Peak.Jar

open TailQueue Ring Run

/-- Where a client is: outside of the library, or in `peak_jar_pack` before or
behind the search for a serial header. -/
inductive Phase where
  | idle
  | wantsHeader (c : Nat) (data : List UInt8)
  | wantsItem (c : Nat) (data : List UInt8) (head : Nat)
deriving DecidableEq, Repr

structure World where
  shelf : Shelf
  history : History
  phase : Phase

/-- A call, or a further round of `peak_jar_pack`. -/
inductive Event where
  | pack (c : Nat) (data : List UInt8)
  | advance
  | fifo (c : Nat) (answers : List Answer)
  | lifo (c : Nat) (answers : List Answer)
deriving DecidableEq, Repr

/-- The client is not where the event belongs, or the memory is not what the
code takes it for. -/
inductive Fault where
  | busy
  | trashed
deriving DecidableEq, Repr

namespace World

/-- A jar with contexts on which `JAR_INIT` was called. This leaves their serials
as they were. -/
def start (jars : Jars) (firstSerial lastSerial : Nat → Nat) : World where
  shelf := ⟨jars, fun c => ⟨⟨none, .datas c⟩, firstSerial c, lastSerial c⟩⟩
  history := ⟨[], 0, 0, fun _ => ⟨[], [], 0, 0⟩⟩
  phase := .idle

/-- The phase behind the search for a serial header. -/
def behindHeader (c : Nat) (data : List UInt8) : Option Nat → Phase
  | none => .wantsHeader c data
  | some head => .wantsItem c data head

/-- The phase behind the reservation for an item. -/
def behindItem (c : Nat) (data : List UInt8) : Option Nat → Phase
  | none => .wantsHeader c data
  | some _ => .idle

/-- One round of `peak_jar_pack`. -/
def advance (w : World) : Except Fault World :=
  match w.phase with
  | .idle => .error .busy
  | .wantsHeader c data =>
      match packHeader w.shelf with
      | none => .error .trashed
      | some (out, shelf) => .ok ⟨shelf, w.history.header out, behindHeader c data out.head?⟩
  | .wantsItem c data head =>
      match packItem w.shelf c data head with
      | none => .error .trashed
      | some (out, shelf) => .ok ⟨shelf, w.history.settle c data out, behindItem c data out⟩

/-- A walk as the client sees it. -/
def walked (w : World) (c : Nat) (result : Option (Walk × Shelf)) : Except Fault World :=
  match w.phase, result with
  | .idle, some (walk, shelf) => .ok ⟨shelf, (w.history.repair c).record c walk.log, .idle⟩
  | .idle, none => .error .trashed
  | _, _ => .error .busy

def step (w : World) : Event → Except Fault World
  | .pack c data =>
      match w.phase with
      | .idle => .ok { w with phase := .wantsHeader c data }
      | _ => .error .busy
  | .advance => w.advance
  | .fifo c answers => w.walked c (fifo w.shelf c answers)
  | .lifo c answers => w.walked c (lifo w.shelf c answers)

/-- The reservation of a round does not overrun. -/
def Fits (w : World) : Prop :=
  match w.phase with
  | .idle => True
  | .wantsHeader _ _ => w.history.needsHeader → ¬Overruns w.shelf.jars 32
  | .wantsItem _ data _ =>
      ¬Overruns w.shelf.jars (headRoom data.length) ∧
        ((write w.shelf.jars (headRoom data.length)).isSome → data.length + 40 ≤ 2 ^ 64)

/-- The context that an event repairs. -/
def repairs (w : World) : Event → Option Nat
  | .pack _ _ => none
  | .advance =>
      match w.phase with
      | .wantsItem c data _ =>
          if (write w.shelf.jars (headRoom data.length)).isSome then some c else none
      | _ => none
  | .fifo c _ => some c
  | .lifo c _ => some c

/-- No overrun, and no repair of a list that `peak_jar_repair` trips over. -/
def Safe (w : World) (e : Event) : Prop :=
  (e = .advance → w.Fits) ∧
    ∀ c ∈ w.repairs e, w.history.Repairable (w.history.accounts c)

instance (w : World) : Decidable w.Fits :=
  match h : w.phase with
  | .idle => .isTrue (by simp only [Fits, h])
  | .wantsHeader _ _ =>
      decidable_of_iff (w.history.needsHeader → ¬Overruns w.shelf.jars 32) (by simp only [Fits, h])
  | .wantsItem _ data _ =>
      decidable_of_iff (¬Overruns w.shelf.jars (headRoom data.length) ∧
        ((write w.shelf.jars (headRoom data.length)).isSome → data.length + 40 ≤ 2 ^ 64))
        (by simp only [Fits, h])

instance (w : World) (e : Event) : Decidable (w.Safe e) := inferInstanceAs (Decidable (_ ∧ _))

/-- The shelf shows the history, and the header that a round goes on with is the
newest. -/
structure Ok (w : World) : Prop where
  reflects : Reflects w.shelf w.history []
  ready : ∀ c data head, w.phase = .wantsItem c data head → w.history.Ready head

variable {w w' : World} {e : Event} {size : Nat} {buffer : Nat → Cell} {jars : Jars}
variable {firstSerial lastSerial : Nat → Nat}

/-- What `peak_jar_init` asks for and what it leaves. -/
theorem init_cases (hInit : init size buffer = some jars) :
    128 ≤ size ∧ size ≤ malignLimit ∧ jars = ⟨⟨none, .heads⟩, 0, 0, buffer, 0, 0, size⟩ := by
  simp only [init] at hInit
  split_ifs at hInit with hSize
  cases hInit
  exact ⟨by omega, by omega, rfl⟩

/-- What a round comes from. -/
theorem advance_cases (hAdvance : w.advance = .ok w') :
    (∃ c data out s', w.phase = .wantsHeader c data ∧ packHeader w.shelf = some (out, s') ∧
        w' = ⟨s', w.history.header out, behindHeader c data out.head?⟩) ∨
      ∃ c data head out s', w.phase = .wantsItem c data head ∧
        packItem w.shelf c data head = some (out, s') ∧
        w' = ⟨s', w.history.settle c data out, behindItem c data out⟩ := by
  simp only [advance] at hAdvance
  split at hAdvance
  · cases hAdvance
  · next c data hPhase =>
      split at hAdvance
      · cases hAdvance
      · next out s' hPack =>
          cases hAdvance
          exact .inl ⟨c, data, out, s', hPhase, hPack, rfl⟩
  · next c data head hPhase =>
      split at hAdvance
      · cases hAdvance
      · next out s' hPack =>
          cases hAdvance
          exact .inr ⟨c, data, head, out, s', hPhase, hPack, rfl⟩

theorem walked_cases {c : Nat} {result : Option (Walk × Shelf)} (hWalk : w.walked c result = .ok w') :
    ∃ walk s', result = some (walk, s') ∧
      w' = ⟨s', (w.history.repair c).record c walk.log, .idle⟩ := by
  simp only [walked] at hWalk
  split at hWalk
  · cases hWalk
    exact ⟨_, _, rfl, rfl⟩
  · cases hWalk
  · cases hWalk

/-- What a step does: a call is taken up, goes one round further, or is a walk. -/
theorem step_cases (hStep : w.step e = .ok w') :
    (∃ c data, w' = { w with phase := .wantsHeader c data }) ∨
      (e = .advance ∧ w.advance = .ok w') ∨
      ∃ c walk s', w.repairs e = some c ∧
        (∃ answers, fifo w.shelf c answers = some (walk, s') ∨
          lifo w.shelf c answers = some (walk, s')) ∧
        w' = ⟨s', (w.history.repair c).record c walk.log, .idle⟩ := by
  cases e with
  | pack c data =>
      simp only [step] at hStep
      split at hStep
      · cases hStep
        exact .inl ⟨c, data, rfl⟩
      · cases hStep
  | advance => exact .inr (.inl ⟨rfl, hStep⟩)
  | fifo c answers =>
      obtain ⟨walk, s', hFifo, hNext⟩ := walked_cases hStep
      exact .inr (.inr ⟨c, walk, s', rfl, ⟨answers, .inl hFifo⟩, hNext⟩)
  | lifo c answers =>
      obtain ⟨walk, s', hLifo, hNext⟩ := walked_cases hStep
      exact .inr (.inr ⟨c, walk, s', rfl, ⟨answers, .inr hLifo⟩, hNext⟩)

theorem start_ok (hInit : init size buffer = some jars) : (start jars firstSerial lastSerial).Ok := by
  obtain ⟨hSmall, hLimit, rfl⟩ := init_cases hInit
  refine ⟨?_, fun _ _ _ h => by cases h⟩
  constructor
  case sound =>
    refine ⟨rfl, by simp [start], by simp [start], fun c => ?_⟩
    exact ⟨by simp [start], by simp [start], by simp [start], by simp [start], by simp [start],
      List.Sublist.refl _, by simp [start], by simp [start]⟩
  case size => exact hLimit
  case layout =>
    have hLt : 0 < size := by omega
    exact .ahead hLt (Nat.le_refl _)
  case firstSerial => rfl
  case lastSerial => rfl
  case heads => exact ⟨trivial, rfl, rfl, List.pairwise_singleton _ _⟩
  case headers => simp [start]
  case items => simp [start, History.held]
  case lists => exact fun c => ⟨trivial, rfl, fun _ => rfl⟩
  case serials => simp [start]

theorem advance_ok (hOk : w.Ok) (hSafe : w.Safe .advance) (hAdvance : w.advance = .ok w') :
    w'.Ok := by
  obtain ⟨hFits, hRepairs⟩ := hSafe
  have hFits := hFits rfl
  simp only [Fits] at hFits
  simp only [repairs] at hRepairs
  rcases advance_cases hAdvance with ⟨c, data, out, s', hPhase, hPack, rfl⟩ |
    ⟨c, data, head, out, s', hPhase, hPack, rfl⟩
  · rw [hPhase] at hFits
    obtain ⟨out', s'', hSpec, hReflects, hReady⟩ := packHeader_spec hOk.reflects hFits
    rw [hPack] at hSpec
    cases hSpec
    refine ⟨hReflects, fun c' data' head hHead => ?_⟩
    cases hOut : out.head? with
    | none =>
        rw [hOut] at hHead
        cases hHead
    | some head' =>
        rw [hOut] at hHead
        cases hHead
        exact hReady head hOut
  · rw [hPhase] at hFits hRepairs
    obtain ⟨out', s'', hSpec, hReflects⟩ := packItem_spec (c := c) hOk.reflects
      (hOk.ready c data head hPhase) hFits.1 fun hSome =>
        ⟨hFits.2 hSome, hRepairs c (by simp [hSome])⟩
    rw [hPack] at hSpec
    cases hSpec
    refine ⟨hReflects, fun c' data' head' hHead => ?_⟩
    cases out <;> cases hHead

/-- A safe step keeps the shelf in line with the history. -/
theorem step_ok (hOk : w.Ok) (hSafe : w.Safe e) (hStep : w.step e = .ok w') : w'.Ok := by
  rcases step_cases hStep with ⟨c, data, rfl⟩ | ⟨rfl, hAdvance⟩ |
    ⟨c, walk, s', hRepairs, ⟨answers, hFifo | hLifo⟩, rfl⟩
  · exact ⟨hOk.reflects, fun _ _ _ h => by cases h⟩
  · exact advance_ok hOk hSafe hAdvance
  · obtain ⟨left, s'', hSpec, hReflects⟩ := fifo_spec answers hOk.reflects (hSafe.2 c hRepairs)
    rw [hFifo] at hSpec
    cases hSpec
    exact ⟨hReflects, fun _ _ _ h => by cases h⟩
  · obtain ⟨left, s'', hSpec, hReflects⟩ := lifo_spec answers hOk.reflects (hSafe.2 c hRepairs)
    rw [hLifo] at hSpec
    cases hSpec
    exact ⟨hReflects, fun _ _ _ h => by cases h⟩

theorem ok_of_reached (hInit : init size buffer = some jars)
    (hReached : Reached step Safe (start jars firstSerial lastSerial) w) : w.Ok :=
  hReached.invariant Ok (start_ok hInit) fun _ _ _ hOk hSafe hStep => step_ok hOk hSafe hStep

/-- Reserved room never overlaps. In every run of safe steps what is in use lies
in the buffer and does not overlap, and room handed out next lies in the buffer
and overlaps nothing in use exactly if the reservation does not overrun. -/
theorem reservations_apart (hInit : init size buffer = some jars)
    (hReached : Reached step Safe (start jars firstSerial lastSerial) w) :
    (∀ r ∈ w.history.ranges, r.stop ≤ w.shelf.jars.size) ∧
      w.history.ranges.Pairwise Range.Apart ∧
      ∀ room off jars', room < 2 ^ 64 → write w.shelf.jars room = some (off, jars') →
        ((off + room ≤ w.shelf.jars.size ∧ ∀ r ∈ w.history.ranges, Range.Apart ⟨off, room⟩ r) ↔
          ¬Overruns w.shelf.jars room) := by
  have hReflects := (ok_of_reached hInit hReached).reflects
  have hLayout := hReflects.layout
  rw [List.append_nil] at hLayout
  refine ⟨fun r hr => hLayout.inside hr, hLayout.apart, fun room off jars' hRoom hWrite => ?_⟩
  exact write_safe_iff hLayout hReflects.size hRoom hWrite

section Trial

variable {β : Type} {v : β}

/-- A jar of 128 bytes and contexts without a past. -/
def small : World := start ⟨⟨none, .heads⟩, 0, 0, fun _ => .unknown, 0, 0, 128⟩ (fun _ => 0) fun _ => 0

theorem small_init : init 128 (fun _ => .unknown) =
    some ⟨⟨none, .heads⟩, 0, 0, fun _ => .unknown, 0, 0, 128⟩ := rfl

/-- What is seen at the end of a run of listed events is seen in a state
reached. -/
theorem reached_of_trial (admitted : World → Event → Prop) [∀ w e, Decidable (admitted w e)]
    (events : List Event) (view : World → β)
    (h : (drive step admitted small events).map view = some v) :
    ∃ w, Reached step admitted small w ∧ view w = v := by
  obtain ⟨w, hDrive, hView⟩ := Option.map_eq_some_iff.mp h
  exact ⟨w, reached_of_drive .start hDrive, hView⟩

end Trial

/-- A packed item of three bytes and its header. -/
theorem smallJar_apart : ∃ w, Reached step Safe small w ∧
    w.history.ranges = [⟨0, 32⟩, ⟨32, 40⟩] ∧ w.history.ranges.Pairwise Range.Apart := by
  obtain ⟨w, hReached, hView⟩ := reached_of_trial Safe
    [.pack 0 [1, 2, 3], .advance, .advance] (fun w => w.history.ranges)
    (v := [⟨0, 32⟩, ⟨32, 40⟩]) (by decide)
  exact ⟨w, hReached, hView, (reservations_apart small_init hReached).2.1⟩

/-- The first two items of 24 bytes go into the buffer one after the other; the
second one wraps around. The third is the one that does not fit. -/
def overrunEvents : List Event :=
  [.pack 0 (List.replicate 24 1), .advance, .advance,
    .pack 1 (List.replicate 24 2), .advance, .advance, .advance, .advance,
    .pack 2 (List.replicate 40 3), .advance]

/-- The third item is given the room of the second one, whose header is still
linked. -/
theorem secondItem_is_overwritten : ∃ w, Reached step (fun _ _ => True) small w ∧
    w.phase = .wantsItem 2 (List.replicate 40 3) 88 ∧
    (write w.shelf.jars (headRoom 40)).map Prod.fst = some 0 ∧
    w.history.ranges = [⟨88, 32⟩, ⟨0, 56⟩] ∧
    ¬Range.Apart ⟨0, headRoom 40⟩ ⟨0, 56⟩ := by
  obtain ⟨w, hReached, hView⟩ := reached_of_trial (fun _ _ => True) overrunEvents
    (fun w => (w.phase, (write w.shelf.jars (headRoom 40)).map Prod.fst, w.history.ranges))
    (v := (.wantsItem 2 (List.replicate 40 3) 88, some 0, [⟨88, 32⟩, ⟨0, 56⟩])) (by decide)
  simp only [Prod.mk.injEq] at hView
  refine ⟨w, hReached, hView.1, hView.2.1, hView.2.2, ?_⟩
  rintro (h | h) <;> simp [Range.stop, headRoom, allocAlign] at h

/-- The deliveries are items in this order that belong to the context and whose
headers are linked, with the length and the bytes they were packed with. -/
def Delivers (h : History) (c : Nat) (order : List Item) (log : List (Delivery × Answer)) : Prop :=
  ∃ items : List Item, items.Sublist order ∧ (∀ x ∈ items, x.owner = c ∧ x ∈ h.held) ∧
    log.map Prod.fst = items.map Item.delivery

theorem replay_fst_sublist (order : List Item) (answers : List Answer) :
    ∃ items : List Item, items.Sublist order ∧
      (replay order answers).map Prod.fst = items.map Item.delivery := by
  induction order generalizing answers with
  | nil => exact ⟨[], List.Sublist.refl _, rfl⟩
  | cons x order ih =>
      obtain ⟨items, hSub, hLog⟩ := ih answers.tail
      simp only [replay]
      cases answers.headD .keep with
      | back => exact ⟨[x], by simp, rfl⟩
      | drop => exact ⟨x :: items, hSub.cons_cons x, by simp [hLog]⟩
      | keep => exact ⟨x :: items, hSub.cons_cons x, by simp [hLog]⟩

/-- In every run of safe steps a walk that repairs a list it does not trip over
hands out items of that context that were not dropped and whose headers are
linked, with their length and bytes: `peak_jar_fifo` in the order in which they
were packed and `peak_jar_lifo` in the opposite order. -/
theorem deliveries_sound (hInit : init size buffer = some jars)
    (hReached : Reached step Safe (start jars firstSerial lastSerial) w) (c : Nat)
    (answers : List Answer) (hRepairable : w.history.Repairable (w.history.accounts c)) :
    (∃ walk s', fifo w.shelf c answers = some (walk, s') ∧
      Delivers w.history c (w.history.accounts c).stock.reverse walk.log) ∧
    ∃ walk s', lifo w.shelf c answers = some (walk, s') ∧
      Delivers w.history c (w.history.accounts c).stock walk.log := by
  have hReflects := (ok_of_reached hInit hReached).reflects
  have hKept := hReflects.sound.accounts c
  have hRepaired := (History.kept_repaired hKept).listed
  have hStock : (w.history.repaired (w.history.accounts c)).stock =
      (w.history.accounts c).stock := History.repaired_stock _ _
  rw [hStock] at hRepaired
  have hChain : ((w.history.repair c).accounts c).chain =
      (w.history.repaired (w.history.accounts c)).chain := by
    simp only [History.repair, History.setAccount_self]
  have hHeld : ∀ x ∈ ((w.history.repair c).accounts c).chain, x.owner = c ∧ x ∈ w.history.held := by
    intro x hx
    rw [hChain] at hx
    have hMem := hRepaired.subset hx
    exact ⟨hKept.owner x hMem,
      hKept.held x hMem (History.live_of_repaired hKept hRepairable hx)⟩
  rw [← hChain] at hRepaired
  constructor
  · obtain ⟨left, s', hFifo, -⟩ := fifo_spec answers hReflects hRepairable
    obtain ⟨items, hSub, hLog⟩ := replay_fst_sublist
      ((w.history.repair c).accounts c).chain.reverse answers
    refine ⟨_, s', hFifo, items, hSub.trans hRepaired.reverse, fun x hx => ?_, hLog⟩
    exact hHeld x (List.mem_reverse.mp (hSub.subset hx))
  · obtain ⟨left, s', hLifo, -⟩ := lifo_spec answers hReflects hRepairable
    obtain ⟨items, hSub, hLog⟩ := replay_fst_sublist
      ((w.history.repair c).accounts c).chain answers
    exact ⟨_, s', hLifo, items, hSub.trans hRepaired, fun x hx => hHeld x (hSub.subset hx), hLog⟩

/-- The second of two items takes the room of the first one, whose header is
reclaimed: its context gets it, and the other context gets nothing any more. -/
theorem smallJar_delivers : ∃ w, Reached step Safe small w ∧
    (w.history.accounts 0).stock.length = 1 ∧
    ((fifo w.shelf 0 []).map fun r => r.1.log) = some [] ∧
    ((fifo w.shelf 1 []).map fun r => r.1.log) =
      some [(⟨0, 24, List.replicate 24 (.byte 2)⟩, .keep)] ∧
    (∃ walk s', fifo w.shelf 0 [] = some (walk, s') ∧
      Delivers w.history 0 (w.history.accounts 0).stock.reverse walk.log) ∧
    ∃ walk s', lifo w.shelf 1 [] = some (walk, s') ∧
      Delivers w.history 1 (w.history.accounts 1).stock walk.log := by
  obtain ⟨w, hReached, hView⟩ := reached_of_trial Safe
    [.pack 0 (List.replicate 24 1), .advance, .advance,
      .pack 1 (List.replicate 24 2), .advance, .advance, .advance, .advance]
    (fun w => ((fifo w.shelf 0 []).map fun r => r.1.log, (fifo w.shelf 1 []).map fun r => r.1.log,
      decide ((w.history.accounts 0).stock.length = 1 ∧ w.history.Repairable (w.history.accounts 0) ∧
        w.history.Repairable (w.history.accounts 1))))
    (v := (some [], some [(⟨0, 24, List.replicate 24 (.byte 2)⟩, .keep)], true)) (by decide)
  simp only [Prod.mk.injEq, decide_eq_true_eq] at hView
  obtain ⟨hGone, hBack, hStock, hFirst, hSecond⟩ := hView
  exact ⟨w, hReached, hStock, hGone, hBack, (deliveries_sound small_init hReached 0 [] hFirst).1,
    (deliveries_sound small_init hReached 1 [] hSecond).2⟩

/-- The context of the second item is handed the third one, which belongs to
another context. -/
theorem secondContext_is_handed_thirdItem : ∃ w, Reached step (fun _ _ => True) small w ∧
    ∃ walk s', fifo w.shelf 1 [] = some (walk, s') ∧
      walk.log = [(⟨0, 40, List.replicate 40 (.byte 3)⟩, .keep)] ∧
      ¬Delivers w.history 1 (w.history.accounts 1).stock.reverse walk.log := by
  obtain ⟨w, hReached, hView⟩ := reached_of_trial (fun _ _ => True)
    (overrunEvents ++ [.advance])
    (fun w => ((fifo w.shelf 1 []).map fun r => r.1.log,
      (w.history.accounts 1).stock.map fun x => x.data.length))
    (v := (some [(⟨0, 40, List.replicate 40 (.byte 3)⟩, .keep)], [24])) (by decide)
  simp only [Prod.mk.injEq] at hView
  obtain ⟨⟨walk, s'⟩, hFifo, hLog⟩ := Option.map_eq_some_iff.mp hView.1
  refine ⟨w, hReached, walk, s', hFifo, hLog, ?_⟩
  rintro ⟨items, hSub, -, hItems⟩
  rw [hLog] at hItems
  obtain ⟨x, rest, rfl⟩ : ∃ x rest, items = x :: rest := by
    cases items with
    | nil => simp at hItems
    | cons x rest => exact ⟨x, rest, rfl⟩
  have hLen : x.data.length = 40 := by
    have hHead := List.head_eq_of_cons_eq hItems
    exact (congrArg Delivery.len hHead).symm
  have hStock : x.data.length ∈ (w.history.accounts 1).stock.map fun x => x.data.length :=
    List.mem_map_of_mem (List.mem_reverse.mp (hSub.subset List.mem_cons_self))
  rw [hView.2, hLen] at hStock
  simp at hStock

end World

end Peak.Jar
