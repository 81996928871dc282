import Peak.Peek.Program
import Peak.Track.Runs

/-! What `peek` prints, by the packets of the trace alone. -/
namespace Peak.Peek

open Load Track Clock Flowsplit Lru

variable {tm : Type}

/-- A packet that a line is printed for, with the detector's answer and the time. -/
structure Sight (tm : Type) where
  packet : Packet
  li : Nat
  timer : Timeslice tm

/-- The key of its flow. -/
def Sight.key (x : Sight tm) : Ref := trackRef x.packet

/-- The side that it comes from. -/
def Sight.dir (x : Sight tm) : Bool := side x.packet x.key

/-- The keys in the order in which they were first seen. -/
def order (history : List (Sight tm)) : List Key := (history.map fun x => x.key.1).foldl extend []

/-- What is known about a side of a flow: the first answer of the detector that is not
zero. -/
def verdict (history : List (Sight tm)) (key : Ref) (dir : Bool) : Nat :=
  (((history.filter fun x => x.key = key ∧ x.dir = dir).map fun x => x.li % 2 ^ 16).find? fun li => li ≠ 0).getD 0

/-- The flow of a key after some packets. -/
def flowOf (history : List (Sight tm)) (key : Ref) : Flow :=
  { Flow.fresh key ((order history).idxOf key.1) with li := (verdict history key false, verdict history key true) }

variable {history : List (Sight tm)} {x : Sight tm} {key : Ref} {dir : Bool}

theorem order_snoc : order (history ++ [x]) = extend (order history) x.key.1 := by
  rw [order, List.map_append, List.foldl_append]
  rfl

/-- A key was seen if one of the packets has it. -/
theorem mem_order : key.1 ∈ order history ↔ ∃ x ∈ history, x.key = key := by
  induction history using List.reverseRecOn with
  | nil => simp [order]
  | append_singleton history x ih =>
      rw [order_snoc, extend]
      constructor
      · intro hMem
        split_ifs at hMem with hSeen
        · obtain ⟨y, hOld, hKey⟩ := ih.mp hMem
          exact ⟨y, List.mem_append_left _ hOld, hKey⟩
        · rcases List.mem_append.mp hMem with hOld | hNew
          · obtain ⟨y, hOld, hKey⟩ := ih.mp hOld
            exact ⟨y, List.mem_append_left _ hOld, hKey⟩
          · exact ⟨x, List.mem_concat_self, Subtype.ext (List.mem_singleton.mp hNew).symm⟩
      · rintro ⟨y, hMem, rfl⟩
        rcases List.mem_append.mp hMem with hOld | hNew
        · have hSeen := ih.mpr ⟨y, hOld, rfl⟩
          split_ifs
          · exact hSeen
          · exact List.mem_append_left _ hSeen
        · obtain rfl := List.mem_singleton.mp hNew
          exact mem_extend _ _

/-- The first answer stays. -/
theorem verdict_snoc : verdict (history ++ [x]) key dir =
    if x.key = key ∧ x.dir = dir ∧ verdict history key dir = 0 then x.li % 2 ^ 16 else verdict history key dir := by
  by_cases hThis : x.key = key ∧ x.dir = dir
  · have hFilter : (history ++ [x]).filter (fun x => x.key = key ∧ x.dir = dir) =
        history.filter (fun x => x.key = key ∧ x.dir = dir) ++ [x] := by
      rw [List.filter_append, List.filter_singleton, decide_eq_true hThis]
      rfl
    rw [verdict, hFilter, List.map_append, List.find?_append, List.map_singleton]
    cases hFind : ((history.filter fun x => x.key = key ∧ x.dir = dir).map fun x => x.li % 2 ^ 16).find?
        fun li => li ≠ 0 with
    | none =>
        have hZero : verdict history key dir = 0 := by rw [verdict, hFind]; rfl
        rw [if_pos ⟨hThis.1, hThis.2, hZero⟩, Option.none_or]
        generalize x.li % 2 ^ 16 = li
        by_cases hLi : li = 0
        · simp [hLi]
        · simp [hLi]
    | some li =>
        have hSome : verdict history key dir = li := by rw [verdict, hFind]; rfl
        have hLi : li ≠ 0 := by simpa using List.find?_some hFind
        rw [if_neg fun hAll => hLi (hSome.symm.trans hAll.2.2), hSome]
        rfl
  · have hFilter : (history ++ [x]).filter (fun x => x.key = key ∧ x.dir = dir) =
        history.filter fun x => x.key = key ∧ x.dir = dir := by
      rw [List.filter_append, List.filter_singleton, decide_eq_false hThis, cond_false, List.append_nil]
    rw [if_neg fun hAll => hThis ⟨hAll.1, hAll.2.1⟩, verdict, hFilter, verdict]

theorem verdict_unseen (h : key.1 ∉ order history) : verdict history key dir = 0 := by
  have hNone : history.filter (fun x => x.key = key ∧ x.dir = dir) = [] := by
    refine List.filter_eq_nil_iff.mpr fun x hMem hThis => h (mem_order.mpr ⟨x, hMem, ?_⟩)
    exact (of_decide_eq_true hThis).1
  rw [verdict, hNone]
  rfl

/-- Other flows stay as they are. -/
theorem flowOf_other (hSeen : key.1 ∈ order history) (hOther : x.key ≠ key) :
    flowOf (history ++ [x]) key = flowOf history key := by
  have hSame : ∀ dir, verdict (history ++ [x]) key dir = verdict history key dir := by
    intro dir
    rw [verdict_snoc, if_neg fun hAll => hOther hAll.1]
  rw [flowOf, flowOf, order_snoc, idxOf_extend hSeen, hSame, hSame]

/-- The flow of a packet gets to know what the packet is. -/
theorem flowOf_this : flowOf (history ++ [x]) x.key =
    { Flow.fresh x.key ((extend (order history) x.key.1).idxOf x.key.1) with
      li := setSide x.dir (verdict history x.key false, verdict history x.key true) x.li } := by
  have hSide : (verdict (history ++ [x]) x.key false, verdict (history ++ [x]) x.key true) =
      setSide x.dir (verdict history x.key false, verdict history x.key true) x.li := by
    rw [verdict_snoc, verdict_snoc, setSide]
    cases x.dir with
    | false => simp
    | true => simp
  rw [flowOf, order_snoc, hSide]

/-- The tracker holds the flows of the packets so far. -/
structure Tracking (history : List (Sight tm)) (peek : Tracks) : Prop where
  flows : Flows 10000 (order history) peek
  whole : ∀ slot ∈ peek.tos, peek.mem slot = flowOf history (peek.keyOf slot)

variable {peek peek' : Tracks} {slot : Nat} {flow : Flow}

/-- A flow that is tracked is found by its key. -/
theorem rbFind_keyOf {count : Nat} (h : Ok count peek) (hMem : slot ∈ peek.tos) :
    peek.rbFind (peek.keyOf slot) = some slot := by
  cases hFind : peek.rbFind (peek.keyOf slot) with
  | none => exact absurd rfl (rbFind_eq_none_iff.mp hFind slot (h.tree.symm.subset hMem))
  | some slot' =>
      obtain ⟨hMem', hKey⟩ := mem_of_rbFind hFind
      exact congrArg some (List.inj_on_of_nodup_map h.keys (h.tree.subset hMem') hMem hKey)

/-- To write to a flow does not change which flows there are. -/
theorem flows_setLi {count : Nat} {keys : List Key} (h : Flows count keys peek) (hMem : slot ∈ peek.tos)
    (li : Nat × Nat) :
    Flows count keys { peek with mem := Function.update peek.mem slot { peek.mem slot with li := li } } := by
  have hSet : peek.setLi (peek.keyOf slot) li =
      { peek with mem := Function.update peek.mem slot { peek.mem slot with li := li } } := by
    rw [Tracks.setLi, rbFind_keyOf h.ok hMem]
  have hOk := h.ok.setLi (peek.keyOf slot) li
  have hKeys := setLi_keyOf peek (peek.keyOf slot) li
  rw [hSet] at hOk hKeys
  refine ⟨hOk, h.keep, h.next, h.nodup, fun slot' hSlot => ?_, fun key hKey => ?_⟩
  · obtain ⟨hSeen, hId⟩ := h.tracked slot' hSlot
    rw [hKeys]
    refine ⟨hSeen, ?_⟩
    rw [← hId]
    by_cases hSame : slot' = slot
    · subst hSame
      simp
    · simp [hSame]
  · rw [hKeys]
    exact h.known key hKey

/-- What a call finds of the flow of a packet: what the packets before told. -/
theorem Tracking.found (h : Tracking history peek) {answer : Answer Nat}
    (hAcquires : Acquires peek x.key answer peek') (hAnswer : answer.value = some slot) :
    slot ∈ peek'.tos ∧ peek'.mem slot = { Flow.fresh x.key ((extend (order history) x.key.1).idxOf x.key.1) with
      li := (verdict history x.key false, verdict history x.key true) } := by
  cases hAcquires with
  | known slot' hMem hKey =>
      obtain rfl : slot' = slot := Option.some.inj hAnswer
      have hSeen := (h.flows.tracked slot' hMem).1
      rw [hKey] at hSeen
      refine ⟨List.mem_concat_self, ?_⟩
      rw [idxOf_extend hSeen]
      exact hKey ▸ h.whole slot' hMem
  | made slot' free flows hNew hFree hFlows =>
      obtain rfl : slot' = slot := Option.some.inj hAnswer
      have hUnseen := h.flows.not_seen hNew
      refine ⟨List.mem_concat_self, ?_⟩
      rw [verdict_unseen hUnseen, verdict_unseen hUnseen, extend, if_neg hUnseen, List.idxOf_append_of_notMem hUnseen,
        List.idxOf_cons_self, Nat.add_zero, ← h.flows.next]
      exact Function.update_self ..
  | recycled _ _ _ _ _ hTimeout =>
      rw [h.flows.keep] at hTimeout
      cases hTimeout
  | refused => cases hAnswer

/-- A packet of a flow that there is room for. -/
theorem Tracking.acquire (h : Tracking history peek) (x : Sight tm)
    (hRoom : (order (history ++ [x])).length ≤ 10000) :
    ∃ slot peek', trackAcquire peek (some x.key) = .ret (some slot) peek' ∧
      { peek'.mem slot with li := setSide (side x.packet (peek'.mem slot).key) (peek'.mem slot).li x.li } =
        flowOf (history ++ [x]) x.key ∧
      Tracking (history ++ [x]) { peek' with mem := Function.update peek'.mem slot (flowOf (history ++ [x]) x.key) } := by
  rw [order_snoc] at hRoom
  obtain ⟨answer, peek', hReturn, hAcquires⟩ := h.flows.ok.acquire_returns (by decide) x.key
  obtain ⟨slot, peek'', hReturn', _, hFlows⟩ := h.flows.acquire (by decide) (by decide) hRoom
  obtain ⟨hAnswer, rfl⟩ := Outcome.ret.inj (hReturn.symm.trans hReturn')
  obtain ⟨hMem, hFound⟩ := h.found hAcquires hAnswer
  have hKey : peek'.keyOf slot = x.key := congrArg Flow.key hFound
  have hThis : { peek'.mem slot with li := setSide (side x.packet (peek'.mem slot).key) (peek'.mem slot).li x.li } =
      flowOf (history ++ [x]) x.key := by
    rw [hFound, flowOf_this]
    rfl
  refine ⟨slot, peek', hReturn', hThis, ?_, fun slot' hSlot => ?_⟩
  · rw [← hThis, order_snoc]
    exact flows_setLi hFlows hMem _
  · show Function.update peek'.mem slot _ slot' = flowOf _ (Function.update peek'.mem slot _ slot').key
    by_cases hSame : slot' = slot
    · subst hSame
      rw [Function.update_self]
      rfl
    · obtain ⟨hOld, hMem'⟩ := hAcquires.others hSlot fun hEq => hSame (Option.some.inj (hEq.trans hAnswer))
      have hOther : x.key ≠ peek'.keyOf slot' := fun hEq =>
        hSame (List.inj_on_of_nodup_map hFlows.ok.keys hSlot hMem (hEq.symm.trans hKey.symm))
      rw [Function.update_of_ne hSame]
      show peek'.mem slot' = flowOf (history ++ [x]) (peek'.keyOf slot')
      have hKeyOf : peek'.keyOf slot' = peek.keyOf slot' := congrArg Flow.key hMem'
      rw [hKeyOf] at hOther ⊢
      rw [flowOf_other (h.flows.tracked slot' hOld).1 hOther, hMem', h.whole slot' hOld]

/-- There are no more keys than flows. -/
theorem Tracking.length_order (h : Tracking history peek) : (order history).length ≤ peek.tos.length := by
  have hSubset : order history ⊆ peek.tos.map fun slot => (peek.keyOf slot).1 := by
    intro key hMem
    obtain ⟨slot, hSlot, hKey⟩ := h.flows.known key hMem
    exact List.mem_map.mpr ⟨slot, hSlot, hKey⟩
  have hLength := (h.flows.nodup.subperm hSubset).length_le
  rwa [List.length_map] at hLength

/-- A packet of a new flow without room for it. -/
theorem Tracking.refuse (h : Tracking history peek) (x : Sight tm)
    (hFull : 10000 < (order (history ++ [x])).length) :
    trackAcquire peek (some x.key) = .ret none peek ∧ x.key.1 ∉ order history ∧ (order history).length = 10000 := by
  rw [order_snoc] at hFull
  have hLength := h.flows.ok.length
  have hOrder := h.length_order
  have hUnseen : x.key.1 ∉ order history := by
    intro hSeen
    rw [extend, if_pos hSeen] at hFull
    omega
  rw [extend, if_neg hUnseen, List.length_append, List.length_singleton] at hFull
  obtain ⟨answer, peek', hReturn, hAcquires⟩ := h.flows.ok.acquire_returns (by decide) x.key
  cases hAcquires with
  | known slot hMem hKey => exact absurd (hKey ▸ (h.flows.tracked slot hMem).1) hUnseen
  | made slot free flows hNew hFree hFlows =>
      rw [hFree, List.length_cons] at hLength
      omega
  | recycled _ _ _ _ _ hTimeout =>
      rw [h.flows.keep] at hTimeout
      cases hTimeout
  | refused => exact ⟨hReturn, hUnseen, by omega⟩

/-- The packets that the loader finds, if so many calls lead to the end of the trace. -/
def readAll (fuel : Nat) : Nat → Loader → Option (List Loader)
  | 0, _ => none
  | calls + 1, trace =>
      match packet fuel trace with
      | .again _ => none
      | .done trace => if trace.len = 0 then some [] else (readAll fuel calls trace).map (trace :: ·)

/-- Those that can be dissected, while the clock goes on with all of them. -/
def watch (fuel : Nat) (memory : Nat → UInt8) (localtime gmtime : Int → Option tm) :
    Timeslice tm → List Loader → Option (List (Sight tm))
  | _, [] => some []
  | timer, trace :: rest => do
      let timer ← advance localtime gmtime timer (stamp trace)
      let (ret, packet) ← Packet.parse fuel (image memory trace.buf) trace.len trace.ll
      let later ← watch fuel memory localtime gmtime timer rest
      if ret ≠ 0 ∨ packet.netLen = 0 then some later
      else some (⟨packet, Li.get (Li.seen (image memory trace.buf) packet), timer⟩ :: later)

/-- The packets of a trace that a line is printed for. -/
def observe (fuel : Nat) (memory : Nat → UInt8) (localtime gmtime : Int → Option tm) (zero : tm) :
    List Loader → Option (List (Sight tm))
  | [] => some []
  | first :: rest => do
      let timer ← calibrate (init zero) (stamp first)
      watch fuel memory localtime gmtime timer (first :: rest)

/-- A line for each of some packets, by the packets up to it. -/
def lines (uses : List Use) : List (Sight tm) → List (Sight tm) → List (List (Field tm))
  | _, [] => []
  | history, x :: rest =>
      report uses x.packet (flowOf (history ++ [x]) x.key) x.timer :: lines uses (history ++ [x]) rest

/-- The process ended after some of the packets: after all of them, or at the first one of
a flow that there was no room for. -/
inductive Ends (history : List (Sight tm)) : List (Sight tm) → List (Sight tm) → Ending → Prop where
  | finished {printed : List (Sight tm)} (hRoom : (order (history ++ printed)).length ≤ 10000) :
      Ends history printed [] .finished
  | full {printed rest : List (Sight tm)} {x : Sight tm} (hFull : (order (history ++ printed)).length = 10000)
      (hNew : x.key.1 ∉ order (history ++ printed)) : Ends history printed (x :: rest) (.panicked "tracker is empty\n")

variable {fuel : Nat} {memory : Nat → UInt8} {localtime gmtime : Int → Option tm} {uses : List Use}
variable {timer : Timeslice tm} {trace : Loader} {records : List Loader} {sights : List (Sight tm)}

theorem watch_cons (h : watch fuel memory localtime gmtime timer (trace :: records) = some sights) :
    ∃ timer' ret packet later, advance localtime gmtime timer (stamp trace) = some timer' ∧
      Packet.parse fuel (image memory trace.buf) trace.len trace.ll = some (ret, packet) ∧
      watch fuel memory localtime gmtime timer' records = some later ∧
      ((ret ≠ 0 ∨ packet.netLen = 0) ∧ sights = later ∨
        ¬(ret ≠ 0 ∨ packet.netLen = 0) ∧
          sights = ⟨packet, Li.get (Li.seen (image memory trace.buf) packet), timer'⟩ :: later) := by
  simp only [watch, Option.bind_eq_bind, Option.bind_eq_some_iff] at h
  obtain ⟨timer', hTimer, ⟨ret, packet⟩, hParse, later, hLater, hSights⟩ := h
  refine ⟨timer', ret, packet, later, hTimer, hParse, hLater, ?_⟩
  split_ifs at hSights with hSkip
  · exact .inl ⟨hSkip, (Option.some.inj hSights).symm⟩
  · exact .inr ⟨hSkip, (Option.some.inj hSights).symm⟩

section Packet

variable {buf : ByteImage.Image} {len type ret : Nat} {packet : Packet}

theorem peekPacket_skip (hParse : Packet.parse fuel buf len type = some (ret, packet))
    (hSkip : ret ≠ 0 ∨ packet.netLen = 0) :
    peekPacket fuel uses peek timer buf len type = some (.returned none peek) := by
  simp only [peekPacket, hParse, if_pos hSkip]

/-- A line is printed, and the tracker goes on. -/
theorem Tracking.line (h : Tracking history peek) (uses : List Use)
    (hParse : Packet.parse fuel buf len type = some (ret, packet)) (hSkip : ¬(ret ≠ 0 ∨ packet.netLen = 0))
    (x : Sight tm) (hx : x = ⟨packet, Li.get (Li.seen buf packet), timer⟩)
    (hRoom : (order (history ++ [x])).length ≤ 10000) :
    ∃ peek', peekPacket fuel uses peek timer buf len type =
        some (.returned (some (report uses x.packet (flowOf (history ++ [x]) x.key) x.timer)) peek') ∧
      Tracking (history ++ [x]) peek' := by
  obtain ⟨slot, peek', hAcquire, hFlow, hTracking⟩ := h.acquire x hRoom
  refine ⟨_, ?_, hTracking⟩
  subst hx
  have hAcquire' : trackAcquire peek (some (trackRef packet)) = .ret (some slot) peek' := hAcquire
  simp only [peekPacket, hParse, if_neg hSkip, hAcquire']
  rw [← hFlow]

theorem Tracking.panic (h : Tracking history peek) (hParse : Packet.parse fuel buf len type = some (ret, packet))
    (hSkip : ¬(ret ≠ 0 ∨ packet.netLen = 0)) (x : Sight tm) (hx : x = ⟨packet, Li.get (Li.seen buf packet), timer⟩)
    (hFull : 10000 < (order (history ++ [x])).length) :
    peekPacket fuel uses peek timer buf len type = some (.ended (.panicked "tracker is empty\n")) := by
  have hRefuse := (h.refuse x hFull).1
  subst hx
  have hRefuse' : trackAcquire peek (some (trackRef packet)) = .ret none peek := hRefuse
  simp only [peekPacket, hParse, if_neg hSkip, hRefuse']

end Packet

variable {s : State tm}

/-- The condition of the loop, and what follows it. -/
def proceed (fuel : Nat) (memory : Nat → UInt8) (localtime gmtime : Int → Option tm) (uses : List Use) (calls : Nat)
    (s : State tm) : Option (Exit tm) :=
  match packet fuel s.trace with
  | .again _ => none
  | .done trace =>
      if trace.len = 0 then some (s.exit .finished)
      else loop fuel memory localtime gmtime uses calls { s with trace := trace }

theorem loop_returned {calls : Nat} {line : Option (List (Field tm))}
    (hTimer : advance localtime gmtime s.timer (stamp s.trace) = some timer)
    (hPacket : peekPacket fuel uses s.peek timer (image memory s.trace.buf) s.trace.len s.trace.ll =
      some (.returned line peek)) :
    loop fuel memory localtime gmtime uses (calls + 1) s = proceed fuel memory localtime gmtime uses calls
      { s with peek := peek, timer := timer, lines := s.lines ++ line.toList } := by
  simp only [loop, hTimer, hPacket]
  rfl

/-- What is printed from some point on. -/
def Prints (uses : List Use) (history sights : List (Sight tm)) (before : List (List (Field tm)))
    (exit : Option (Exit tm)) : Prop :=
  ∃ printed rest ending, sights = printed ++ rest ∧ Ends history printed rest ending ∧
    exit = some ⟨ending, before ++ lines uses history printed⟩

/-- One more line. -/
theorem Prints.cons {before : List (List (Field tm))} {exit : Option (Exit tm)}
    (h : Prints uses (history ++ [x]) sights
      (before ++ [report uses x.packet (flowOf (history ++ [x]) x.key) x.timer]) exit) :
    Prints uses history (x :: sights) before exit := by
  obtain ⟨printed, rest, ending, rfl, hEnds, rfl⟩ := h
  refine ⟨x :: printed, rest, ending, rfl, ?_, ?_⟩
  · cases hEnds with
    | finished hRoom =>
        rw [List.append_assoc] at hRoom
        exact .finished hRoom
    | full hFull hNew =>
        rw [List.append_assoc] at hFull hNew
        exact .full hFull hNew
  · rw [lines, List.append_assoc]
    rfl

/-- A round of the loop, when what follows it is known. -/
theorem loop_round {calls : Nat} (hTracking : Tracking history s.peek) (hRoom : (order history).length ≤ 10000)
    (hWatch : watch fuel memory localtime gmtime s.timer (s.trace :: records) = some sights)
    (hNext : ∀ timer history' later peek before, Tracking history' peek → (order history').length ≤ 10000 →
      watch fuel memory localtime gmtime timer records = some later →
      Prints uses history' later before (proceed fuel memory localtime gmtime uses calls
        { s with peek := peek, timer := timer, lines := before })) :
    Prints uses history sights s.lines (loop fuel memory localtime gmtime uses (calls + 1) s) := by
  obtain ⟨timer, ret, packet, later, hTimer, hParse, hLater, ⟨hSkip, rfl⟩ | ⟨hSkip, rfl⟩⟩ := watch_cons hWatch
  · rw [loop_returned hTimer (peekPacket_skip hParse hSkip), Option.toList_none, List.append_nil]
    exact hNext timer history _ _ _ hTracking hRoom hLater
  · generalize hx : (⟨packet, Li.get (Li.seen (image memory s.trace.buf) packet), timer⟩ : Sight tm) = x
    rcases Nat.lt_or_ge 10000 (order (history ++ [x])).length with hFull | hMore
    · obtain ⟨_, hNew, hLength⟩ := hTracking.refuse x hFull
      refine ⟨[], x :: later, .panicked "tracker is empty\n", rfl, .full ?_ ?_, ?_⟩
      · rwa [List.append_nil]
      · rwa [List.append_nil]
      · simp only [loop, hTimer, hTracking.panic hParse hSkip x hx.symm hFull, lines, List.append_nil]
        rfl
    · obtain ⟨peek, hPacket, hTracking'⟩ := hTracking.line uses hParse hSkip x hx.symm hMore
      rw [loop_returned hTimer hPacket]
      exact (hNext timer (history ++ [x]) later peek _ hTracking' hMore hLater).cons

/-- The packets up to the end of the trace. -/
theorem loop_prints {calls : Nat} (hTracking : Tracking history s.peek) (hRoom : (order history).length ≤ 10000)
    (hReads : readAll fuel calls s.trace = some records)
    (hWatch : watch fuel memory localtime gmtime s.timer (s.trace :: records) = some sights) :
    Prints uses history sights s.lines (loop fuel memory localtime gmtime uses calls s) := by
  induction calls generalizing s history sights records with
  | zero => cases hReads
  | succ calls ih =>
      refine loop_round hTracking hRoom hWatch fun timer history' later peek before hTracking' hRoom' hLater => ?_
      rw [readAll] at hReads
      cases hPacket : packet fuel s.trace with
      | again trace =>
          rw [hPacket] at hReads
          cases hReads
      | done trace =>
          simp only [hPacket] at hReads
          simp only [proceed, hPacket]
          split_ifs at hReads ⊢ with hEnd
          · cases hReads
            refine ⟨[], [], .finished, (Option.some.inj hLater).symm, .finished (by rwa [List.append_nil]), ?_⟩
            rw [lines, List.append_nil]
            rfl
          · obtain ⟨rest, hRest, rfl⟩ := Option.map_eq_some_iff.mp hReads
            exact ih hTracking' hRoom' hRest hLater

theorem Tracking.init {slots : Nat → Flow} (hInit : trackInit true true slots 0 10000 true = some peek) :
    Tracking ([] : List (Sight tm)) peek := by
  refine ⟨.init (by decide) hInit, fun slot hMem => ?_⟩
  rw [trackInit_eq hInit] at hMem
  cases hMem

theorem peek_prints {calls : Nat} {contents : List UInt8} {zero : tm} {slots : Nat → Flow}
    (hInit : Load.init true true true contents = some trace) (hReads : readAll fuel (calls + 1) trace = some records)
    (hObserve : observe fuel memory localtime gmtime zero records = some sights) :
    Prints uses [] sights [] (Peek.peek fuel memory localtime gmtime uses calls zero slots contents) := by
  obtain ⟨peek, hTrack⟩ : ∃ peek, trackInit true true slots 0 10000 true = some peek := ⟨_, rfl⟩
  rw [readAll] at hReads
  cases hPacket : packet fuel trace with
  | again trace =>
      rw [hPacket] at hReads
      cases hReads
  | done first =>
      simp only [hPacket] at hReads
      simp only [Peek.peek, hInit, hTrack, hPacket]
      split_ifs at hReads ⊢ with hEnd
      · cases hReads
        cases hObserve
        exact ⟨[], [], .finished, rfl, .finished (Nat.zero_le _), rfl⟩
      · obtain ⟨rest, hRest, rfl⟩ := Option.map_eq_some_iff.mp hReads
        obtain ⟨timer, hTimer, hWatch⟩ := Option.bind_eq_some_iff.mp hObserve
        simp only [hTimer]
        have hRoom : (order ([] : List (Sight tm))).length ≤ 10000 := Nat.zero_le _
        exact loop_prints (s := ⟨first, peek, timer, []⟩) (.init hTrack) hRoom hRest hWatch

/-- What was asked for, or the default. -/
def chosen (uses : List Use) : List Use := if uses = [] then defaultUses else uses

/-- On a trace that is read to its end `peek` prints one line for each packet that can be
dissected, in order. The number in a line is how many flows were seen before the first
packet of its flow, and the application is the first one that was detected on each of the
two sides. The process panics at the first packet of the flow after 10000 others, and only
there. -/
theorem peek_reports {calls : Nat} {contents : List UInt8} {zero : tm} (slots : Nat → Flow) {letters : List Char}
    (hLetters : parseOptions [] letters = .ok uses) (hInit : Load.init true true true contents = some trace)
    (hReads : readAll fuel (calls + 1) trace = some records)
    (hObserve : observe fuel memory localtime gmtime zero records = some sights) :
    ∃ printed rest ending, sights = printed ++ rest ∧ Ends [] printed rest ending ∧
      main fuel memory localtime gmtime calls zero slots letters contents =
        some ⟨ending, lines (chosen uses) [] printed⟩ := by
  have hMain : main fuel memory localtime gmtime calls zero slots letters contents =
      Peek.peek fuel memory localtime gmtime (chosen uses) calls zero slots contents := by
    rw [main, hLetters]
    cases uses with
    | nil => rfl
    | cons use rest => rfl
  rw [hMain]
  exact peek_prints hInit hReads hObserve

/-- A packet of an IP header only. -/
def ipRecord (source target : UInt8) : PcapRecord :=
  ⟨⟨[0x45, 0, 0, 20, 0, 0, 0, 0, 64, 2, 0, 0, 10, 0, 0, source, 10, 0, 0, target], 7, 9⟩, 60⟩

/-- A packet, the answer to it, and one of another flow. -/
def threePackets : List UInt8 :=
  pcapFile false { storeHeader with network := 0 } [ipRecord 1 2, ipRecord 2 1, ipRecord 3 4]

theorem threePackets_reported :
    (main 9 (fun _ => 0) some some 4 (0 : Int) (fun _ => Flow.zeroed) ['f', 'a'] threePackets).map
        (fun exit => (exit.ending, exit.lines)) = some (.finished, [[.flow 0, .app Li.App.igmp.number],
          [.flow 0, .app Li.App.igmp.number], [.flow 1, .app Li.App.igmp.number]]) ∧
      ∃ printed rest ending, (printed ++ rest).length = 3 ∧ Ends [] printed rest ending ∧
        main 9 (fun _ => 0) some some 4 (0 : Int) (fun _ => Flow.zeroed) ['f', 'a'] threePackets =
          some ⟨ending, lines [.flow, .app] [] printed⟩ := by
  have hSights : (((Load.init true true true threePackets).bind (readAll 9 5)).bind
      (observe 9 (fun _ => 0) some some (0 : Int))).map List.length = some 3 := by
    decide +kernel
  obtain ⟨sights, hObserve, hLength⟩ := Option.map_eq_some_iff.mp hSights
  obtain ⟨records, hReads, hObserve⟩ := Option.bind_eq_some_iff.mp hObserve
  obtain ⟨trace, hInit, hReads⟩ := Option.bind_eq_some_iff.mp hReads
  have hLetters : parseOptions [] ['f', 'a'] = .ok [.flow, .app] := rfl
  obtain ⟨printed, rest, ending, rfl, hEnds, hMain⟩ := peek_reports (fun _ => Flow.zeroed) hLetters hInit hReads
    hObserve
  exact ⟨by decide +kernel, printed, rest, ending, hLength, hEnds, hMain⟩

end Peak.Peek
