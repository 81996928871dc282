import Mathlib.Order.Basic
import Peak.Load.Records

/-! The PCAPNG loop block by block, and from it what one call of
`peak_load_packet` does in every format. -/
namespace Peak.Load

open Bytes

variable {s s' : Loader} {contents : List UInt8} {pos pos' : Nat}

/-- A round of the loop that goes again changes the file position and possibly
the link type, nothing else. -/
def Moved (s s' : Loader) (pos : Nat) : Prop :=
  ∃ ll, s' = { s with file := ⟨s.file.contents, pos⟩, ll := ll }

theorem Moved.trans {s'' : Loader} (h : Moved s s' pos) (h' : Moved s' s'' pos') :
    Moved s s'' pos' := by
  obtain ⟨ll, rfl⟩ := h
  obtain ⟨ll', rfl⟩ := h'
  exact ⟨ll', rfl⟩

theorem Moved.contents_eq (h : Moved s s' pos) : s'.file.contents = s.file.contents := by
  obtain ⟨ll, rfl⟩ := h
  rfl

theorem Moved.pos_eq (h : Moved s s' pos) : s'.file.pos = pos := by
  obtain ⟨ll, rfl⟩ := h
  rfl

theorem Moved.fresh (h : Moved s s' pos) (hFresh : Fresh s) : Fresh s' := by
  obtain ⟨ll, rfl⟩ := h
  exact ⟨hFresh.transfers, hFresh.len⟩

/-- A call that follows a record from a state the loop moved to follows it from
the state before as well. -/
theorem Moved.follows {s'' : Loader} {r : Option Record} (h : Moved s s' pos)
    (hFollows : Follows s' s'' r) : Follows s s'' r := by
  obtain ⟨ll, rfl⟩ := h
  cases r with
  | none => exact ⟨hFollows.transfers, hFollows.len, hFollows.contents⟩
  | some r => exact ⟨hFollows.transfers, hFollows.buf, hFollows.len, hFollows.contents⟩

/-- The block header as the loop reads it. -/
theorem block_header (hHeader : s.file.pos + 8 ≤ s.file.contents.length) :
    loadPcapngBlock s =
      let length := blockLength s.file.contents s.file.pos
      let behind := { s with file := ⟨s.file.contents, s.file.pos + 8⟩ }
      if bufSize < length then .done behind
      else if PacketBlock s.file.contents s.file.pos then .done (loadPcapngPacket length behind)
      else if blockType s.file.contents s.file.pos = 1 then loadPcapngIface length behind
      else .again { behind with
        file := behind.file.seekCur (File.signed (File.sizeSub length 8)) } := by
  have hType := field_within s.file.contents s.file.pos (show 0 + 4 ≤ 8 by omega)
  have hLength := field_within s.file.contents s.file.pos (show 4 + 4 ≤ 8 by omega)
  rw [Nat.add_zero] at hType
  simp only [loadPcapngBlock, readHeader_full (show 8 < 2 ^ 63 by omega) hHeader, hType, hLength,
    PacketBlock, blockType, blockLength]
  rfl

theorem blockLength_lt (contents : List UInt8) (pos : Nat) :
    blockLength contents pos < 2 ^ 32 :=
  le_field_lt contents (pos + 4) 4

/-- The packet block behind its header. -/
theorem loadPcapngPacket_follows (hFresh : Fresh s) (hBlock : BlockAt s.file.contents s.file.pos)
    (hPacket : PacketBlock s.file.contents s.file.pos) :
    Follows s
      (loadPcapngPacket (blockLength s.file.contents s.file.pos)
        { s with file := ⟨s.file.contents, s.file.pos + 8⟩ })
      (pcapngRecord s.file.contents s.file.pos) := by
  by_cases hHeader : s.file.pos + 8 + 20 ≤ s.file.contents.length
  · have hRecord : BlockAt s.file.contents s.file.pos ∧ PacketBlock s.file.contents s.file.pos ∧
        s.file.pos + 28 ≤ s.file.contents.length := ⟨hBlock, hPacket, hHeader⟩
    have hReported := field_within s.file.contents (s.file.pos + 8) (show 16 + 4 ≤ 20 by omega)
    rw [loadPcapngPacket, readHeader_full (show 20 < 2 ^ 63 by omega) hHeader]
    simp only [pcapngRecord, if_pos hRecord, hReported]
    exact loadData_taken rfl rfl ⟨hFresh.transfers, hFresh.len⟩
  · have hRecord : ¬ (BlockAt s.file.contents s.file.pos ∧ PacketBlock s.file.contents s.file.pos ∧
        s.file.pos + 28 ≤ s.file.contents.length) := fun h => hHeader h.2.2
    rw [loadPcapngPacket, readHeader_short (show 0 < 20 by omega) (show 20 < 2 ^ 63 by omega)
      (Nat.lt_of_not_le hHeader)]
    simp only [pcapngRecord, if_neg hRecord]
    exact ⟨hFresh.transfers, hFresh.len, File.read_contents⟩

/-- A block that is skipped makes the loop go again where its length points
to, be that forward or not. -/
theorem block_again (hSkipped : Skipped s.file.contents s.file.pos) :
    ∃ s', loadPcapngBlock s = .again s' ∧
      Moved s s' (s.file.pos + blockLength s.file.contents s.file.pos) := by
  obtain ⟨⟨hHeader, hSmall⟩, hPacket, hIface⟩ := hSkipped
  have hBound := blockLength_lt s.file.contents s.file.pos
  rw [block_header hHeader]
  simp only [if_neg (Nat.not_lt.mpr hSmall), if_neg hPacket]
  split_ifs with hType
  · have hRead : s.file.pos + 8 + 8 ≤ s.file.contents.length := hIface hType
    have hSub : File.sizeSub (File.sizeSub (blockLength s.file.contents s.file.pos) 8) 8 =
        File.sizeSub (blockLength s.file.contents s.file.pos) 16 := by
      simp only [File.sizeSub]
      omega
    rw [loadPcapngIface, readHeader_full (show 8 < 2 ^ 63 by omega) hRead]
    refine ⟨_, rfl, le (field (((s.file.contents.drop (s.file.pos + 8)).take 8)) 0 2), ?_⟩
    simp only [hSub]
    rw [File.seekCur_rest (by omega) (show 16 < 2 ^ 63 by omega) rfl]
  · refine ⟨_, rfl, s.ll, ?_⟩
    rw [File.seekCur_rest (by omega) (show 8 < 2 ^ 63 by omega) rfl]

/-- Any other block ends the loop. -/
theorem block_done (hFresh : Fresh s) (hSkipped : ¬ Skipped s.file.contents s.file.pos) :
    ∃ s', loadPcapngBlock s = .done s' ∧
      Follows s s' (pcapngRecord s.file.contents s.file.pos) := by
  by_cases hHeader : s.file.pos + 8 ≤ s.file.contents.length
  · rw [block_header hHeader]
    dsimp only
    split_ifs with hBig hPacket hType
    · refine ⟨_, rfl, ?_⟩
      rw [pcapngRecord, if_neg fun h => Nat.not_lt.mpr h.1.2 hBig]
      exact ⟨hFresh.transfers, hFresh.len, rfl⟩
    · exact ⟨_, rfl, loadPcapngPacket_follows hFresh ⟨hHeader, Nat.not_lt.mp hBig⟩ hPacket⟩
    · have hShort : s.file.contents.length < s.file.pos + 8 + 8 := by
        by_contra hLong
        exact hSkipped ⟨⟨hHeader, Nat.not_lt.mp hBig⟩, hPacket, fun _ => Nat.not_lt.mp hLong⟩
      rw [loadPcapngIface, readHeader_short (show 0 < 8 by omega) (show 8 < 2 ^ 63 by omega) hShort]
      refine ⟨_, rfl, ?_⟩
      rw [pcapngRecord, if_neg fun h => hPacket h.2.1]
      exact ⟨hFresh.transfers, hFresh.len, File.read_contents⟩
    · exact absurd ⟨⟨hHeader, Nat.not_lt.mp hBig⟩, hPacket, fun h => absurd h hType⟩ hSkipped
  · rw [loadPcapngBlock, readHeader_short (show 0 < 8 by omega) (show 8 < 2 ^ 63 by omega)
      (Nat.lt_of_not_le hHeader)]
    refine ⟨_, rfl, ?_⟩
    rw [pcapngRecord, if_neg fun h => hHeader h.1.1]
    exact ⟨hFresh.transfers, hFresh.len, File.read_contents⟩

/-- The loop goes again behind blocks that are skipped, and only there. -/
theorem again_skip (hFresh : Fresh s) (hAgain : loadPcapngBlock s = .again s') :
    Skip s.file.contents s.file.pos s'.file.pos ∧ Moved s s' s'.file.pos := by
  by_cases hSkipped : Skipped s.file.contents s.file.pos
  · obtain ⟨after, hAfter, hMoved⟩ := block_again hSkipped
    cases hAfter.symm.trans hAgain
    have hNext := hMoved.pos_eq
    rw [← hNext] at hMoved
    exact ⟨⟨hSkipped, hNext⟩, hMoved⟩
  · obtain ⟨after, hAfter, _⟩ := block_done hFresh hSkipped
    cases hAfter.symm.trans hAgain

/-- The rounds of the loop walk along the blocks that are skipped. -/
theorem reach_skipTo (hFresh : Fresh s)
    (hReach : Relation.ReflTransGen (Loop.Again loadPcapngBlock) s s') :
    SkipTo s.file.contents s.file.pos s'.file.pos ∧ Moved s s' s'.file.pos := by
  induction hReach with
  | refl => exact ⟨.refl, s.ll, rfl⟩
  | tail _ hAgain ih =>
      obtain ⟨hSkip, hMoved⟩ := ih
      obtain ⟨hStep, hMore⟩ := again_skip (hMoved.fresh hFresh) hAgain
      rw [hMoved.contents_eq] at hStep
      exact ⟨hSkip.tail hStep, hMoved.trans hMore⟩

/-- Where skipping blocks leads to, the loop gets. -/
theorem reach_of_skipTo (hSkip : SkipTo s.file.contents s.file.pos pos) :
    ∃ s', Relation.ReflTransGen (Loop.Again loadPcapngBlock) s s' ∧ Moved s s' pos := by
  induction hSkip with
  | refl => exact ⟨s, .refl, s.ll, rfl⟩
  | @tail last next _ hStep ih =>
      obtain ⟨s', hReach, hMoved⟩ := ih
      obtain ⟨hSkipped, rfl⟩ := hStep
      rw [← hMoved.contents_eq, ← hMoved.pos_eq] at hSkipped
      obtain ⟨after, hAfter, hMore⟩ := block_again hSkipped
      rw [hMoved.contents_eq, hMoved.pos_eq] at hMore
      exact ⟨after, hReach.tail hAfter, hMoved.trans hMore⟩

/-- From a block there is at most one way to go on. -/
theorem skip_unique : Relator.RightUnique (Skip contents) := by
  intro pos next next' hStep hStep'
  exact hStep.2.trans hStep'.2.symm

/-- Skipping blocks ends in one place at most. -/
theorem skipTo_end_unique {start : Nat} (hSkip : SkipTo contents start pos)
    (hSkip' : SkipTo contents start pos') (hEnd : ¬ Skipped contents pos)
    (hEnd' : ¬ Skipped contents pos') : pos = pos' := by
  rcases Relation.ReflTransGen.total_of_right_unique skip_unique hSkip hSkip' with h | h
  · rcases h.cases_head with rfl | ⟨_, hStep, _⟩
    · rfl
    · exact absurd hStep.1 hEnd
  · rcases h.cases_head with rfl | ⟨_, hStep, _⟩
    · rfl
    · exact absurd hStep.1 hEnd'

/-- A packet block is not skipped. -/
theorem pcapngRecord_not_skipped {r : Record} (h : pcapngRecord contents pos = some r) :
    ¬ Skipped contents pos := by
  intro hSkipped
  rw [pcapngRecord, if_neg fun hRecord => hSkipped.2.1 hRecord.2.1] at h
  cases h

theorem entered_fresh (s : Loader) : Fresh (entered s) := ⟨rfl, rfl⟩

/-- What the reader leaves behind is the same seen from before the call. -/
theorem Follows.of_entered {r : Option Record} (h : Follows (entered s) s' r) : Follows s s' r := by
  cases r with
  | none => exact ⟨h.transfers, h.len, h.contents⟩
  | some r => exact ⟨h.transfers, h.buf, h.len, h.contents⟩

/-- A call that returns follows the record it meets, if there is one. -/
theorem packet_done {fuel : Nat} (h : packet fuel s = .done s') :
    ∃ found : Option Record, (∀ r, Meets s r ↔ found = some r) ∧ Follows s s' found := by
  have hFresh := entered_fresh s
  cases hFmt : s.fmt with
  | erf =>
      simp only [packet, hFmt, Loop.Step.done.injEq] at h
      subst h
      refine ⟨_, fun r => ?_, (loadErf_follows hFresh).of_entered⟩
      simp only [Meets, hFmt]
      rfl
  | pcap =>
      simp only [packet, hFmt, Loop.Step.done.injEq] at h
      subst h
      refine ⟨_, fun r => ?_, (loadPcap_follows hFresh).of_entered⟩
      simp only [Meets, hFmt, entered]
  | pcapSwap =>
      simp only [packet, hFmt, Loop.Step.done.injEq] at h
      subst h
      refine ⟨_, fun r => ?_, (loadPcap_follows hFresh).of_entered⟩
      simp only [Meets, hFmt, entered]
  | pcapng =>
      simp only [packet, hFmt] at h
      obtain ⟨last, hReach, hLast⟩ := Loop.last_round h
      obtain ⟨hSkip, hMoved⟩ := reach_skipTo hFresh hReach
      have hEnd : ¬ Skipped last.file.contents last.file.pos := fun hSkipped => by
        obtain ⟨after, hAfter, _⟩ := block_again hSkipped
        cases hAfter.symm.trans hLast
      obtain ⟨after, hAfter, hFollows⟩ := block_done (hMoved.fresh hFresh) hEnd
      cases hAfter.symm.trans hLast
      rw [hMoved.contents_eq] at hEnd hFollows
      refine ⟨_, fun r => ?_, (hMoved.follows hFollows).of_entered⟩
      simp only [Meets, hFmt]
      constructor
      · rintro ⟨pos, hTo, hRecord⟩
        rw [skipTo_end_unique hSkip hTo hEnd (pcapngRecord_not_skipped hRecord)]
        exact hRecord
      · intro hRecord
        exact ⟨last.file.pos, hSkip, hRecord⟩
  | netmon =>
      simp only [packet, hFmt, Loop.Step.done.injEq] at h
      subst h
      by_cases hMore : s.netmonPos = s.netmonCount
      · refine ⟨none, fun r => ?_, ?_⟩
        · simp [Meets, hFmt, hMore]
        · exact (loadNetmon_end hFresh hMore).of_entered
      · refine ⟨_, fun r => ?_, (loadNetmon_follows hFresh hMore).of_entered⟩
        simp only [Meets, hFmt, ne_eq, hMore, not_false_eq_true, true_and]
        rfl

/-- A call whose blocks lead to a packet returns. -/
theorem packet_returns {r : Record} (hMeets : Meets s r) : ∃ fuel s', packet fuel s = .done s' := by
  cases hFmt : s.fmt with
  | pcapng =>
      simp only [Meets, hFmt] at hMeets
      obtain ⟨pos, hSkip, hRecord⟩ := hMeets
      obtain ⟨last, hReach, hMoved⟩ := reach_of_skipTo (s := entered s) hSkip
      have hEnd : ¬ Skipped last.file.contents last.file.pos := by
        rw [hMoved.contents_eq, hMoved.pos_eq]
        exact pcapngRecord_not_skipped hRecord
      obtain ⟨after, hAfter, _⟩ := block_done (hMoved.fresh (entered_fresh s)) hEnd
      obtain ⟨fuel, hRun⟩ := Loop.ends_at hReach hAfter
      refine ⟨fuel, after, ?_⟩
      simp only [packet, hFmt]
      exact hRun
  | _ => exact ⟨0, _, by simp only [packet, hFmt]; rfl⟩

/-- While the loop is running nothing was read into the packet buffer. -/
theorem packet_running {fuel : Nat} (h : packet fuel s = .again s') : s'.transfers = [] := by
  cases hFmt : s.fmt with
  | pcapng =>
      simp only [packet, hFmt] at h
      obtain ⟨_, hMoved⟩ := reach_skipTo (entered_fresh s) (Loop.unfinished h)
      exact (hMoved.fresh (entered_fresh s)).transfers
  | _ => simp only [packet, hFmt, reduceCtorEq] at h

end Peak.Load
