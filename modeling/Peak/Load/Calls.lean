import Peak.Load.Blocks

/-! Whole runs of the loader on arbitrary files: which packet lengths are backed
by data, how much is read into the packet buffer, and when a call returns. -/
namespace Peak.Load

open Bytes

variable {s s' : Loader} {contents : List UInt8} {r : Record}

/-- A call of `peak_load_packet` that returns. -/
def Returns (s s' : Loader) : Prop := ∃ fuel, packet fuel s = .done s'

/-- A loader of a trace with the given contents, after any number of calls. -/
def Session (contents : List UInt8) (s : Loader) : Prop :=
  ∃ named mallocOk callocOk s₀, init named mallocOk callocOk contents = some s₀ ∧
    Relation.ReflTransGen Returns s₀ s

theorem initPcap_contents {fmt : Format} {file : File} {h : Header}
    (hInit : initPcap fmt file = some h) : h.file.contents = file.contents := by
  simp only [initPcap] at hInit
  split_ifs at hInit
  cases hInit
  exact File.read_contents

theorem initNetmon_contents {mallocOk : Bool} {file : File} {h : Header}
    (hInit : initNetmon mallocOk file = some h) : h.file.contents = file.contents := by
  simp only [initNetmon] at hInit
  split_ifs at hInit
  cases hInit
  rw [File.read_contents, File.seekSet_contents, File.read_contents]

theorem initPcapng_contents {file : File} {h : Header} (hInit : initPcapng file = some h) :
    h.file.contents = file.contents := by
  rw [initPcapng, Option.ite_none_left_eq_some] at hInit
  rw [← Option.some.inj hInit.2, File.seekCur_contents, File.read_contents]

/-- Detecting the format does not change the file. -/
theorem detect_contents {mallocOk : Bool} {h : Header} (hDetect : detect mallocOk contents = some h) :
    h.file.contents = contents := by
  have hRewound : (((File.mk contents 0).read 4).file.seekSet 0).contents = contents := by
    rw [File.seekSet_contents, File.read_contents]
  simp only [detect] at hDetect
  split_ifs at hDetect
  · exact (initPcap_contents hDetect).trans hRewound
  · exact (initPcap_contents hDetect).trans hRewound
  · exact (initNetmon_contents hDetect).trans hRewound
  · exact (initPcapng_contents hDetect).trans hRewound
  · cases hDetect
    exact hRewound

theorem init_contents {named mallocOk callocOk : Bool} {s₀ : Loader}
    (hInit : init named mallocOk callocOk contents = some s₀) : s₀.file.contents = contents := by
  simp only [init, Option.bind_eq_some_iff] at hInit
  obtain ⟨h, hHeader, hStart⟩ := hInit
  split_ifs at hStart
  cases hStart
  split_ifs at hHeader
  · exact detect_contents hHeader
  · cases hHeader
    rfl

/-- A trace whose format is detected gets a loader if there is memory for it. -/
theorem init_of_detect {mallocOk : Bool} {h : Header} (hDetect : detect mallocOk contents = some h) :
    init true mallocOk true contents = some (start h) := by
  simp only [init, if_true, hDetect, Option.bind_some]

/-- No call changes the file. -/
theorem Follows.contents_eq {found : Option Record} (h : Follows s s' found) :
    s'.file.contents = s.file.contents := by
  cases found with
  | none => exact h.contents
  | some r => exact h.contents

/-- A loader stays on the file it was opened for. -/
theorem Session.contents_eq (h : Session contents s) : s.file.contents = contents := by
  obtain ⟨named, mallocOk, callocOk, s₀, hInit, hCalls⟩ := h
  induction hCalls with
  | refl => exact init_contents hInit
  | tail _ hCall ih =>
      obtain ⟨fuel, hPacket⟩ := hCall
      obtain ⟨found, _, hFollows⟩ := packet_done hPacket
      exact hFollows.contents_eq.trans ih

/-- The data that a packet block asks for. -/
def blockAsked (contents : List UInt8) (pos : Nat) : Nat :=
  File.sizeSub (File.sizeSub (blockLength contents pos) 8) 20

/-- The file holds the header of every record that is met, and the record is
small enough for the buffer unless it is a PCAPNG block. -/
theorem meets_cases (hMeets : Meets s r) :
    (r.start ≤ s.file.contents.length ∧ r.asked ≤ bufSize) ∨
      (s.fmt = .pcapng ∧ ∃ pos, SkipTo s.file.contents s.file.pos pos ∧
        BlockAt s.file.contents pos ∧ PacketBlock s.file.contents pos ∧
        pos + 28 ≤ s.file.contents.length ∧ r.start = pos + 28 ∧
        r.asked = blockAsked s.file.contents pos) := by
  cases hFmt : s.fmt with
  | erf =>
      simp only [Meets, hFmt, erfRecord, Option.ite_none_right_eq_some] at hMeets
      obtain ⟨hSmall, hRecord⟩ := hMeets
      cases hRecord
      exact .inl hSmall
  | pcap =>
      simp only [Meets, hFmt, pcapRecord, Option.ite_none_right_eq_some] at hMeets
      obtain ⟨hSmall, hRecord⟩ := hMeets
      cases hRecord
      exact .inl hSmall
  | pcapSwap =>
      simp only [Meets, hFmt, pcapRecord, Option.ite_none_right_eq_some] at hMeets
      obtain ⟨hSmall, hRecord⟩ := hMeets
      cases hRecord
      exact .inl hSmall
  | netmon =>
      simp only [Meets, hFmt, netmonRecord, Option.ite_none_right_eq_some] at hMeets
      obtain ⟨_, hSmall, hRecord⟩ := hMeets
      cases hRecord
      exact .inl hSmall
  | pcapng =>
      simp only [Meets, hFmt, pcapngRecord, Option.ite_none_right_eq_some] at hMeets
      obtain ⟨pos, hSkip, ⟨hBlock, hPacket, hHeader⟩, hRecord⟩ := hMeets
      cases hRecord
      exact .inr ⟨rfl, pos, hSkip, hBlock, hPacket, hHeader, rfl, rfl⟩

/-- A packet block of 28 bytes or more asks for what is left of it, a shorter
one for a number from the top of the range. -/
theorem blockAsked_cases {pos : Nat} (hBlock : BlockAt contents pos) :
    (28 ≤ blockLength contents pos ∧ blockAsked contents pos ≤ bufSize) ∨
      (blockLength contents pos < 28 ∧ 2 ^ 64 - 28 ≤ blockAsked contents pos) := by
  have hSmall := hBlock.2
  simp only [blockAsked, bufSize, File.sizeSub] at hSmall ⊢
  omega

theorem meets_bounds (hMeets : Meets s r) :
    r.start ≤ s.file.contents.length ∧ (r.asked ≤ bufSize ∨ 2 ^ 64 - 28 ≤ r.asked) := by
  rcases meets_cases hMeets with ⟨hStart, hSmall⟩ | ⟨_, pos, _, hBlock, _, hHeader, hStart, hAsked⟩
  · exact ⟨hStart, .inl hSmall⟩
  · rw [hStart, hAsked]
    exact ⟨hHeader, (blockAsked_cases hBlock).imp And.right And.right⟩

/-- The length a record reports is covered by its data: if the data is in the
file, there is at least that much of it. A request that wrapped around to minus
one is answered by minus one, so it counts as complete and yields no data. -/
def Record.Covered (r : Record) (contents : List UInt8) : Prop :=
  (r.asked ≤ bufSize → r.start + r.asked ≤ contents.length → r.reported ≤ r.asked) ∧
    (r.asked = 2 ^ 64 - 1 → r.reported = 0)

/-- The packet a call returned is backed: it fits into the buffer, and the call
itself read the bytes that the buffer holds for it from the record it met. -/
def Backed (contents : List UInt8) (s s' : Loader) : Prop :=
  0 < s'.len → s'.len ≤ bufSize ∧ ∃ r t, Meets s r ∧ t ∈ s'.transfers ∧ t.start = r.start ∧
    s'.len ≤ t.got.length ∧ t.got = (contents.drop t.start).take t.got.length ∧
    Cells.read s'.buf 0 s'.len = t.got.take s'.len

/-- The data of a record within the buffer is complete if the file has all of
it. -/
theorem complete_small (hSmall : r.asked ≤ bufSize) (hStart : r.start ≤ contents.length) :
    r.Complete contents ↔ r.start + r.asked ≤ contents.length := by
  have hBound : r.asked < 2 ^ 63 := by
    simp only [bufSize] at hSmall
    omega
  simp only [Record.Complete, Record.got, File.signed, if_pos hBound, File.read,
    if_neg (Nat.not_le.mpr hBound), List.length_take, List.length_drop]
  omega

theorem got_small (hSmall : r.asked ≤ bufSize) (hLeft : r.start + r.asked ≤ contents.length) :
    (r.got contents).bytes.length = r.asked := by
  have hBound : r.asked < 2 ^ 63 := by
    simp only [bufSize] at hSmall
    omega
  rw [Record.got, File.read_full hBound hLeft, List.length_take, List.length_drop]
  exact Nat.min_eq_left (Nat.le_sub_of_add_le' hLeft)

/-- A request from the top of the range fails, and that is what was asked for
only if it is minus one. -/
theorem got_wrapped (hWrapped : 2 ^ 64 - 28 ≤ r.asked) :
    (r.got contents).bytes = [] ∧ (r.Complete contents ↔ r.asked = 2 ^ 64 - 1) := by
  have hBound : 2 ^ 63 ≤ r.asked := by omega
  simp only [Record.Complete, Record.got, File.signed, if_neg (Nat.not_lt.mpr hBound), File.read,
    if_pos hBound, true_and]
  omega

/-- The reported length is covered exactly if the data of a complete read is
long enough. -/
theorem covered_iff (hStart : r.start ≤ contents.length)
    (hAsked : r.asked ≤ bufSize ∨ 2 ^ 64 - 28 ≤ r.asked) :
    r.Covered contents ↔ (r.Complete contents → r.reported ≤ (r.got contents).bytes.length) := by
  rcases hAsked with hSmall | hWrapped
  · have hNot : r.asked ≠ 2 ^ 64 - 1 := by
      simp only [bufSize] at hSmall
      omega
    rw [complete_small hSmall hStart]
    constructor
    · intro hCovered hLeft
      rw [got_small hSmall hLeft]
      exact hCovered.1 hSmall hLeft
    · intro hLong
      refine ⟨fun _ hLeft => ?_, fun hOne => absurd hOne hNot⟩
      rw [← got_small hSmall hLeft]
      exact hLong hLeft
  · have hNot : ¬ r.asked ≤ bufSize := by
      simp only [bufSize]
      omega
    obtain ⟨hNone, hComplete⟩ := got_wrapped hWrapped
    rw [hComplete, hNone, List.length_nil, Nat.le_zero]
    constructor
    · exact fun hCovered => hCovered.2
    · exact fun hZero => ⟨fun hSmall => absurd hSmall hNot, hZero⟩

/-- What a call took from a record is backed exactly if the record covers the
length it reports. -/
theorem Taken.backed_iff (hTaken : Taken s s' r) (hMeets : Meets s r)
    (hContents : s.file.contents = contents) : Backed contents s s' ↔ r.Covered contents := by
  obtain ⟨hStart, hAsked⟩ := meets_bounds hMeets
  have hLen := hTaken.len
  have hTransfers := hTaken.transfers
  have hBuf := hTaken.buf
  rw [hContents] at hStart hLen hTransfers hBuf
  rw [covered_iff hStart hAsked]
  constructor
  · intro hBacked hComplete
    rw [if_pos hComplete] at hLen
    rcases Nat.eq_zero_or_pos r.reported with hZero | hPos
    · omega
    · obtain ⟨_, _, t, _, hMem, _, hLong, _⟩ := hBacked (hLen ▸ hPos)
      rw [hTransfers, List.mem_singleton] at hMem
      subst hMem
      exact hLen ▸ hLong
  · intro hLong hPos
    have hComplete : r.Complete contents := by
      by_contra hNot
      rw [if_neg hNot] at hLen
      omega
    rw [if_pos hComplete] at hLen
    have hGot := hLong hComplete
    have hFit : (r.got contents).bytes.length ≤ bufSize := by
      rcases hAsked with hSmall | hWrapped
      · exact Nat.le_trans File.read_bytes_length_le hSmall
      · rw [(got_wrapped hWrapped).1]
        exact Nat.zero_le _
    rw [hLen]
    refine ⟨Nat.le_trans hGot hFit, r, _, hMeets, hTransfers ▸ List.mem_singleton_self _, rfl, hGot,
      File.read_bytes_prefix, ?_⟩
    rw [hBuf, ← Cells.read_take _ _ hGot, Cells.read_write]

/-- A call that met no record returned no packet. -/
theorem Missed.backed (hMissed : Missed s s') : Backed contents s s' := by
  intro hPos
  have hLen := hMissed.len
  omega

/-- For every file and every sequence of calls, a call that returns hands out a
packet that is backed exactly if the record it meets covers the length that it
reports for it. -/
theorem loaded_length_backed (fuel : Nat) (hSession : Session contents s)
    (hPacket : packet fuel s = .done s') :
    Backed contents s s' ↔ ∀ r, Meets s r → r.Covered contents := by
  obtain ⟨found, hFound, hFollows⟩ := packet_done hPacket
  have hContents := hSession.contents_eq
  cases found with
  | none =>
      refine iff_of_true hFollows.backed fun r hMeets => ?_
      cases (hFound r).mp hMeets
  | some r =>
      rw [hFollows.backed_iff ((hFound r).mpr rfl) hContents]
      constructor
      · intro hCovered r' hMeets
        cases (hFound r').mp hMeets
        exact hCovered
      · intro hCovered
        exact hCovered r ((hFound r).mpr rfl)

/-- An ERF trace of one record: no data behind the header, a wire length of
five. -/
def erfTrace : List UInt8 := [0, 0, 0, 0, 0, 0, 0, 0, 1, 0, 0, 18, 0, 0, 0, 5, 0, 0]

/-- The loader that `peak_load_init` makes for a trace in ERF format. -/
def erfStart (contents : List UInt8) : Loader := start ⟨⟨contents, 0⟩, .erf, linktypeEthernet, [], 0⟩

theorem erfTrace_session : Session erfTrace (erfStart erfTrace) :=
  ⟨true, true, true, _, rfl, .refl⟩

/-- The only call on the trace returns five bytes of which it read none. -/
theorem erfTrace_unbacked :
    ¬ ∀ contents s s' fuel, Session contents s → packet fuel s = .done s' → Backed contents s s' := by
  intro hClaim
  have hBacked := hClaim erfTrace _ _ 0 erfTrace_session rfl
  obtain ⟨_, r, t, _, hMem, _, hLong, _⟩ := hBacked (by decide)
  have hTransfers : (loadErf (entered (erfStart erfTrace))).transfers = [⟨18, 0, []⟩] := by decide
  rw [hTransfers, List.mem_singleton] at hMem
  subst hMem
  exact absurd hLong (by decide)

/-- The same record with its five bytes of data. -/
def erfFullTrace : List UInt8 :=
  [0, 0, 0, 0, 0, 0, 0, 0, 1, 0, 0, 23, 0, 0, 0, 5, 0, 0, 1, 2, 3, 4, 5]

/-- The complete record is backed. -/
theorem erfFullTrace_backed :
    Backed erfFullTrace (erfStart erfFullTrace) (loadErf (entered (erfStart erfFullTrace))) := by
  refine (loaded_length_backed 0 ⟨true, true, true, _, rfl, .refl⟩ rfl).mpr ?_
  intro r hMeets
  have hRecord : some (Record.mk 18 5 5) = some r := hMeets
  cases hRecord
  exact ⟨fun _ _ => Nat.le_refl 5, fun hOne => absurd hOne (by decide)⟩

/-- The blocks lead to a packet block with a complete packet header that is too
short for its two headers. -/
def MeetsShortBlock (contents : List UInt8) (s : Loader) : Prop :=
  s.fmt = .pcapng ∧ ∃ pos, SkipTo contents s.file.pos pos ∧ BlockAt contents pos ∧
    PacketBlock contents pos ∧ pos + 28 ≤ contents.length ∧ blockLength contents pos < 28

/-- A request for more than the buffer holds comes from a short block, and a
short block makes such a request. -/
theorem meetsShortBlock_iff :
    MeetsShortBlock s.file.contents s ↔ ∃ r, Meets s r ∧ bufSize < r.asked := by
  constructor
  · rintro ⟨hFmt, pos, hSkip, hBlock, hPacket, hHeader, hLength⟩
    have hMeets : ∃ r, Meets s r ∧ r.asked = blockAsked s.file.contents pos := by
      simp only [Meets, hFmt]
      exact ⟨_, ⟨pos, hSkip, if_pos ⟨hBlock, hPacket, hHeader⟩⟩, rfl⟩
    obtain ⟨r, hMeets, hAsked⟩ := hMeets
    refine ⟨r, hMeets, ?_⟩
    rcases blockAsked_cases hBlock with ⟨hLong, _⟩ | ⟨_, hWrapped⟩
    · omega
    · rw [hAsked, bufSize]
      omega
  · rintro ⟨r, hMeets, hBig⟩
    rcases meets_cases hMeets with ⟨_, hSmall⟩ | ⟨hFmt, pos, hSkip, hBlock, hPacket, hHeader, _, hAsked⟩
    · omega
    · rcases blockAsked_cases hBlock with ⟨_, hSmall⟩ | ⟨hShort, _⟩
      · omega
      · exact ⟨hFmt, pos, hSkip, hBlock, hPacket, hHeader, hShort⟩

/-- For every file and every state that calls lead to, no read into the packet
buffer asks for more than its size exactly if the call does not get to a packet
block that is shorter than its headers. The reads of a call that does not return
count as well. -/
theorem buffer_requests_bounded (hSession : Session contents s) :
    (∀ fuel, ∀ t ∈ (packet fuel s).state.transfers, t.asked ≤ bufSize) ↔
      ¬ MeetsShortBlock contents s := by
  rw [← hSession.contents_eq, meetsShortBlock_iff]
  constructor
  · rintro hBounded ⟨r, hMeets, hBig⟩
    obtain ⟨fuel, s', hPacket⟩ := packet_returns hMeets
    obtain ⟨found, hFound, hFollows⟩ := packet_done hPacket
    rw [(hFound r).mp hMeets] at hFollows
    have hMem : (⟨r.start, r.asked, (r.got s.file.contents).bytes⟩ : Transfer) ∈
        (packet fuel s).state.transfers := by
      rw [hPacket, Loop.Step.state, hFollows.transfers]
      exact List.mem_singleton_self _
    exact absurd (hBounded fuel _ hMem) (Nat.not_le.mpr hBig)
  · intro hShort fuel t hMem
    cases hPacket : packet fuel s with
    | again s' =>
        rw [hPacket, Loop.Step.state, packet_running hPacket] at hMem
        cases hMem
    | done s' =>
        rw [hPacket, Loop.Step.state] at hMem
        obtain ⟨found, hFound, hFollows⟩ := packet_done hPacket
        cases found with
        | none =>
            rw [hFollows.transfers] at hMem
            cases hMem
        | some r =>
            rw [hFollows.transfers, List.mem_singleton] at hMem
            subst hMem
            by_contra hBig
            exact hShort ⟨r, (hFound r).mpr rfl, Nat.lt_of_not_le hBig⟩

/-- A PCAPNG trace whose only packet block consists of its headers and claims
to be eight bytes long. -/
def shortBlockTrace : List UInt8 :=
  [10, 13, 13, 10, 8, 0, 0, 0, 6, 0, 0, 0, 8, 0, 0, 0,
    0, 0, 0, 0, 0, 0, 0, 0, 0, 0, 0, 0, 0, 0, 0, 0, 0, 0, 0, 0]

/-- The loader that `peak_load_init` makes for a trace in PCAPNG format. -/
def pcapngStart (contents : List UInt8) (pos : Nat) : Loader :=
  start ⟨⟨contents, pos⟩, .pcapng, 0, [], 0⟩

theorem shortBlockTrace_session : Session shortBlockTrace (pcapngStart shortBlockTrace 8) :=
  ⟨true, true, true, _, init_of_detect (by decide +kernel), .refl⟩

/-- The call asks for twenty bytes less than the whole address space. -/
theorem shortBlockTrace_overruns :
    ¬ ∀ contents s, Session contents s →
      ∀ fuel, ∀ t ∈ (packet fuel s).state.transfers, t.asked ≤ bufSize := by
  intro hClaim
  have hTransfers : (packet 1 (pcapngStart shortBlockTrace 8)).state.transfers =
      [⟨36, 2 ^ 64 - 20, []⟩] := by decide
  have hAsked := hClaim _ _ shortBlockTrace_session 1 ⟨36, 2 ^ 64 - 20, []⟩ (by
    rw [hTransfers]
    exact List.mem_singleton_self _)
  exact absurd hAsked (by decide)

/-- The ERF trace has no blocks at all, so its reads are bounded. -/
theorem erfTrace_bounded :
    Session erfTrace (erfStart erfTrace) ∧
      ∀ fuel, ∀ t ∈ (packet fuel (erfStart erfTrace)).state.transfers, t.asked ≤ bufSize :=
  ⟨erfTrace_session,
    (buffer_requests_bounded erfTrace_session).mpr fun hShort => absurd hShort.1 (by decide)⟩

/-- The blocks lead to a block that is skipped and has length zero. -/
def MeetsEmptyBlock (s : Loader) : Prop :=
  s.fmt = .pcapng ∧ ∃ pos, SkipTo s.file.contents s.file.pos pos ∧
    Skipped s.file.contents pos ∧ blockLength s.file.contents pos = 0

/-- Every block that the loop skips moves the file position forward. -/
def Advances (s : Loader) : Prop :=
  s.fmt = .pcapng → ∀ pos pos', SkipTo s.file.contents s.file.pos pos →
    Skip s.file.contents pos pos' → pos < pos'

theorem advances_iff : Advances s ↔ ¬ MeetsEmptyBlock s := by
  constructor
  · rintro hAdvances ⟨hFmt, pos, hSkip, hSkipped, hZero⟩
    exact absurd (hAdvances hFmt pos _ hSkip ⟨hSkipped, rfl⟩) (by omega)
  · rintro hNone hFmt pos _ hSkip ⟨hSkipped, rfl⟩
    have hPos : blockLength s.file.contents pos ≠ 0 := fun hZero =>
      hNone ⟨hFmt, pos, hSkip, hSkipped, hZero⟩
    omega

/-- A call returns if every block it skips moves the file position forward: a
block that is skipped starts within the file. -/
theorem returns_of_advances (hAdvances : Advances s) : ∃ fuel s', packet fuel s = .done s' := by
  cases hFmt : s.fmt with
  | pcapng =>
      have hFresh := entered_fresh s
      have hEnds : Loop.Ends loadPcapngBlock (entered s) := by
        refine Loop.ends_of_measure (fun s' => s.file.contents.length - s'.file.pos) ?_
        intro s₁ s₂ hReach hAgain
        obtain ⟨hSkip, hMoved⟩ := reach_skipTo hFresh hReach
        obtain ⟨hStep, _⟩ := again_skip (hMoved.fresh hFresh) hAgain
        rw [hMoved.contents_eq] at hStep
        have hForward := hAdvances hFmt _ _ hSkip hStep
        have hWithin : s₁.file.pos + 8 ≤ s.file.contents.length := hStep.1.1.1
        omega
      obtain ⟨fuel, s', hRun⟩ := hEnds
      refine ⟨fuel, s', ?_⟩
      simp only [packet, hFmt]
      exact hRun
  | _ => exact ⟨0, _, by simp only [packet, hFmt]; rfl⟩

/-- At a block that is skipped and has length zero the loop reads the same
header again and again. -/
theorem not_returns_of_emptyBlock (hEmpty : MeetsEmptyBlock s) :
    ¬ ∃ fuel s', packet fuel s = .done s' := by
  obtain ⟨hFmt, pos, hSkip, hSkipped, hZero⟩ := hEmpty
  simp only [packet, hFmt]
  obtain ⟨stuck, hReach, hMoved⟩ := reach_of_skipTo (s := entered s) hSkip
  refine Loop.not_ends_of_trap (fun s' => s'.file = ⟨s.file.contents, pos⟩) hReach ?_ ?_
  · obtain ⟨ll, rfl⟩ := hMoved
    rfl
  · intro s₁ hFile
    have hSkipped₁ : Skipped s₁.file.contents s₁.file.pos := by
      rw [hFile]
      exact hSkipped
    obtain ⟨s₂, hAgain, hMoved⟩ := block_again hSkipped₁
    refine ⟨s₂, hAgain, ?_⟩
    obtain ⟨ll, rfl⟩ := hMoved
    simp only [hFile, hZero, Nat.add_zero]

/-- For every file, every position in it and every format, a call returns and
skips blocks forward only exactly if it does not get to a block of length zero
that is to be skipped. -/
theorem load_terminates_iff (s : Loader) :
    ((∃ fuel s', packet fuel s = .done s') ∧ Advances s) ↔ ¬ MeetsEmptyBlock s := by
  constructor
  · rintro ⟨hReturns, _⟩ hEmpty
    exact not_returns_of_emptyBlock hEmpty hReturns
  · intro hNone
    have hAdvances := advances_iff.mpr hNone
    exact ⟨returns_of_advances hAdvances, hAdvances⟩

/-- A PCAPNG trace that consists of a section header of length zero. -/
def emptyBlockTrace : List UInt8 := [10, 13, 13, 10, 0, 0, 0, 0]

theorem emptyBlockTrace_session : Session emptyBlockTrace (pcapngStart emptyBlockTrace 0) :=
  ⟨true, true, true, _, init_of_detect (by decide +kernel), .refl⟩

/-- The first call on the trace does not return. -/
theorem emptyBlockTrace_loops :
    ¬ ∀ contents s, Session contents s → (∃ fuel s', packet fuel s = .done s') ∧ Advances s := by
  intro hClaim
  have hEmpty : MeetsEmptyBlock (pcapngStart emptyBlockTrace 0) :=
    ⟨rfl, 0, .refl, by decide, by decide⟩
  exact not_returns_of_emptyBlock hEmpty (hClaim _ _ emptyBlockTrace_session).1

end Peak.Load
