import Peak.Flowsplit.Outputs

/-! Runs of `flowsplit` on well-formed PCAP traces. -/
namespace Peak.Flowsplit

open Load Track ByteImage

variable {memory : Nat → UInt8} {swapped : Bool} {ll flowCount n fuel : Nat}
variable {r : PcapRecord} {records : List PcapRecord} {order : List Key} {items more : List (Frame × Key)}
variable {s : State}

/-- The loop is at some records of its trace, and the packets before them were
taken care of. -/
structure At (swapped : Bool) (ll flowCount n : Nat) (records : List PcapRecord) (order : List Key)
    (items : List (Frame × Key)) (s : State) : Prop where
  fmt : s.trace.fmt = pcapFormat swapped
  ll : s.trace.ll = ll
  rest : s.trace.file.contents.drop s.trace.file.pos = records.flatMap (PcapRecord.encode swapped)
  flows : Flows flowCount order s.track
  keys (key : Key) : key ∈ order ↔ key ∈ items.map Prod.snd
  count : s.files.length = n
  outputs (hWritten : s.written = true) : Outputs n (fileOf n order) items s.files

/-- The packet that the dissector finds in the buffer after the next record. -/
def nextSeen (memory : Nat → UInt8) (r : PcapRecord) (s : State) : Frame × Image :=
  (r.frame, image memory (Cells.write s.trace.buf 0 r.frame.bytes))

/-- A packet that is not accepted is passed over. -/
theorem At.reject (h : At swapped ll flowCount n (r :: records) order items s)
    (hStorable : r.frame.Storable) {res : Nat × Packet}
    (hParse : Packet.parse fuel (nextSeen memory r s).2 r.frame.bytes.length ll = some res)
    (hReject : res.1 ≠ 0 ∨ res.2.netLen = 0) :
    ∃ s', (∀ calls, loop fuel memory (calls + 1) s = loop fuel memory calls s') ∧
      At swapped ll flowCount n records order items s' ∧ s'.written = s.written ∧
      s'.trace.buf = Cells.write s.trace.buf 0 r.frame.bytes := by
  have hRest := h.rest
  rw [List.flatMap_cons] at hRest
  obtain ⟨trace, hPacket, hFmt, hLl, hLen, _, hBuf, hAt⟩ := packet_record fuel h.fmt hStorable hRest
  have hPos := hStorable.pos
  refine ⟨{ s with trace := trace }, fun calls => ?_, ?_, rfl, hBuf⟩
  · have hVerdict : flowsplitPacket fuel s.track (image memory trace.buf) trace.len trace.ll =
        some (.returned (-1) s.track) := by
      rw [flowsplitPacket, hBuf, hLen, hLl, h.ll]
      rw [nextSeen] at hParse
      simp only [hParse, hReject, if_true]
    simp only [loop, hPacket, hVerdict]
    rw [if_neg (by omega), if_pos (by decide)]
  · exact ⟨hFmt.trans h.fmt, hLl.trans h.ll, hAt, h.flows, h.keys, h.count, h.outputs⟩

/-- Storing the packet in the loader at the end of a file. -/
theorem store_eq {i : Nat} {out : File.Sink} (hOut : s.files[i]? = some out) :
    ∃ ret out', storePacket out s.trace.buf s.trace.len s.trace.tsSec s.trace.tsUsec = (ret, out') ∧
      s.store i = { s with files := s.files.set i out', written := s.written && ret != 0 } := by
  cases hStore : storePacket out s.trace.buf s.trace.len s.trace.tsSec s.trace.tsUsec with
  | mk ret out' => exact ⟨ret, out', rfl, by simp only [State.store, hOut, hStore]⟩

/-- A key that is seen for the first or another time. -/
theorem mem_extend_iff (hKeys : ∀ key, key ∈ order ↔ key ∈ items.map Prod.snd) (e : Frame × Key)
    (key : Key) : key ∈ extend order e.2 ↔ key ∈ (items ++ [e]).map Prod.snd := by
  rw [List.map_append, List.mem_append, ← hKeys, List.map_singleton, List.mem_singleton, extend]
  split_ifs with hMem
  · exact ⟨.inl, fun h => h.elim id fun hEq => hEq ▸ hMem⟩
  · rw [List.mem_append, List.mem_singleton]

/-- A packet that is accepted goes to the file of its key. -/
theorem At.accept (h : At swapped ll flowCount n (r :: records) order items s)
    (hStorable : r.frame.Storable) (hCount : 0 < flowCount) (hSize : flowCount < 2 ^ 32)
    (hFiles : 0 < n) {packet : Packet}
    (hParse : Packet.parse fuel (nextSeen memory r s).2 r.frame.bytes.length ll = some (0, packet))
    (hNet : packet.netLen ≠ 0) (hRoom : (extend order (trackKey packet)).length ≤ flowCount) :
    ∃ s', (∀ calls, loop fuel memory (calls + 1) s = loop fuel memory calls s') ∧
      At swapped ll flowCount n records (extend order (trackKey packet))
        (items ++ [(r.frame, trackKey packet)]) s' ∧
      (s'.written = true → s.written = true) ∧
      s'.trace.buf = Cells.write s.trace.buf 0 r.frame.bytes := by
  have hRest := h.rest
  rw [List.flatMap_cons] at hRest
  obtain ⟨trace, hPacket, hFmt, hLl, hLen, hFrame, hBuf, hAt⟩ :=
    packet_record fuel h.fmt hStorable hRest
  have hPos := hStorable.pos
  have hKey := trackRef_key hParse
  rw [← hKey] at hRoom ⊢
  obtain ⟨slot, track, hAcquire, hId, hFlows⟩ := h.flows.acquire hCount hSize hRoom
  generalize hOrder : extend order (trackRef packet).1 = order' at hRoom hId hFlows ⊢
  have hSeen : (trackRef packet).1 ∈ order' := hOrder ▸ mem_extend order _
  have hPlace := List.idxOf_lt_length_of_mem hSeen
  have hSigned : File.signed (track.mem slot).id = (order'.idxOf (trackRef packet).1 : Int) := by
    rw [hId, File.signed, if_pos (by omega)]
  have hVerdict : flowsplitPacket fuel s.track (image memory trace.buf) trace.len trace.ll =
      some (.returned (order'.idxOf (trackRef packet).1) track) := by
    rw [flowsplitPacket, hBuf, hLen, hLl, h.ll]
    rw [nextSeen] at hParse
    simp only [hParse, hNet, hAcquire, hSigned]
    rfl
  -- the file of the key
  have hWithin : fileOf n order' (trackRef packet).1 < s.files.length := by
    rw [h.count]
    exact Nat.mod_lt _ hFiles
  obtain ⟨out, hOut⟩ : ∃ out, s.files[fileOf n order' (trackRef packet).1]? = some out :=
    ⟨_, List.getElem?_eq_getElem hWithin⟩
  obtain ⟨ret, out', hStore, hState⟩ := store_eq (s := { s with trace := trace, track := track }) hOut
  refine ⟨⟨trace, track, s.files.set (fileOf n order' (trackRef packet).1) out',
    s.written && ret != 0⟩, fun calls => ?_, ?_, ?_, hBuf⟩
  · simp only [loop, hPacket, hVerdict]
    rw [if_neg (by omega), if_neg (by omega), Int.toNat_natCast, h.count]
    exact congrArg _ hState
  · refine ⟨hFmt.trans h.fmt, hLl.trans h.ll, hAt, hFlows, fun key => ?_, ?_, fun hWritten => ?_⟩
    · rw [← hOrder]
      exact mem_extend_iff h.keys (r.frame, (trackRef packet).1) key
    · rw [List.length_set, h.count]
    · obtain ⟨hBefore, hRet⟩ := Bool.and_eq_true_iff.mp hWritten
      have hSame : ∀ e ∈ items, fileOf n order' e.2 = fileOf n order e.2 := by
        intro e hMem
        rw [fileOf, fileOf, ← hOrder, idxOf_extend ((h.keys e.2).mpr (List.mem_map_of_mem hMem))]
      refine ((h.outputs hBefore).congr hSame).snoc hOut rfl ?_
      cases ret with
      | zero => cases hRet
      | succ ret =>
          rw [storePacket_contents hStore]
          exact congrArg (fun f : Frame => out.contents ++ f.record.encode false) hFrame
  · intro hWritten
    exact (Bool.and_eq_true_iff.mp hWritten).1

/-- Results of the dissector do not depend on the number of rounds. -/
theorem parse_unique {fuel' len type : Nat} {m : Image} {res res' : Nat × Packet}
    (h : Packet.parse fuel m len type = some res) (h' : Packet.parse fuel' m len type = some res') :
    res = res' := by
  have hMax := Packet.parse_mono h (Nat.le_max_left fuel fuel')
  rw [Packet.parse_mono h' (Nat.le_max_right fuel fuel')] at hMax
  exact (Option.some.inj hMax).symm

/-- There is room for the flows of all packets. -/
theorem extend_length_le (key : Key) (hNodup : order.Nodup) (hOrder : order ⊆ items.map Prod.snd)
    (hKey : key ∈ items.map Prod.snd) (hRoom : (items.map Prod.snd).dedup.length ≤ flowCount) :
    (extend order key).length ≤ flowCount := by
  have hSubset : extend order key ⊆ (items.map Prod.snd).dedup := by
    intro key' hMem
    rw [List.mem_dedup]
    rw [extend] at hMem
    split_ifs at hMem
    · exact hOrder hMem
    · rcases List.mem_append.mp hMem with hMem | hMem
      · exact hOrder hMem
      · exact List.mem_singleton.mp hMem ▸ hKey
  have hExtend : (extend order key).Nodup := by
    rw [extend]
    split_ifs with hMem
    · exact hNodup
    · exact List.nodup_append'.mpr ⟨hNodup, List.nodup_singleton _,
        fun key' hOld hLast => hMem (List.mem_singleton.mp hLast ▸ hOld)⟩
  exact ((hExtend.subperm hSubset).length_le).trans hRoom

/-- The loop takes care of one packet for which the dissector returns. -/
theorem At.next (h : At swapped ll flowCount n (r :: records) order items s)
    (hStorable : r.frame.Storable) (hCount : 0 < flowCount) (hSize : flowCount < 2 ^ 32)
    (hFiles : 0 < n)
    (hAccepted : Accepted ll (seen memory s.trace.buf ((r :: records).map PcapRecord.frame)) more)
    (hRoom : ((items ++ more).map Prod.snd).dedup.length ≤ flowCount) {res : Nat × Packet}
    (hParse : Packet.parse fuel (nextSeen memory r s).2 r.frame.bytes.length ll = some res) :
    ∃ s' order' items' more', (∀ calls, loop fuel memory (calls + 1) s = loop fuel memory calls s') ∧
      At swapped ll flowCount n records order' items' s' ∧ (s'.written = true → s.written = true) ∧
      s'.trace.buf = Cells.write s.trace.buf 0 r.frame.bytes ∧
      Accepted ll (seen memory s'.trace.buf (records.map PcapRecord.frame)) more' ∧
      items' ++ more' = items ++ more := by
  rw [List.map_cons, seen] at hAccepted
  cases hAccepted with
  | @take _ _ more packet hAccepts hMore =>
      obtain ⟨⟨fuel', hParse'⟩, hNet⟩ := hAccepts
      obtain rfl := parse_unique hParse hParse'
      have hOrder : order ⊆ (items ++ (r.frame, trackKey packet) :: more).map Prod.snd := by
        intro key hMem
        rw [List.map_append]
        exact List.mem_append_left _ ((h.keys key).mp hMem)
      have hLength := extend_length_le (trackKey packet) h.flows.nodup hOrder (by simp) hRoom
      obtain ⟨s', hLoop, hAt, hWritten, hBuf⟩ :=
        h.accept hStorable hCount hSize hFiles hParse hNet hLength
      refine ⟨s', _, _, more, hLoop, hAt, hWritten, hBuf, hBuf ▸ hMore, ?_⟩
      rw [List.append_assoc, List.singleton_append]
  | skip hNone hMore =>
      have hReject : res.1 ≠ 0 ∨ res.2.netLen = 0 := by
        by_contra hAccept
        obtain ⟨hRet, hNet⟩ := not_or.mp hAccept
        refine hNone res.2 ⟨⟨fuel, hParse.trans ?_⟩, hNet⟩
        rw [← not_not.mp hRet]
      obtain ⟨s', hLoop, hAt, hWritten, hBuf⟩ := h.reject hStorable hParse hReject
      exact ⟨s', order, items, more, hLoop, hAt, fun hTrue => hWritten ▸ hTrue, hBuf, hBuf ▸ hMore, rfl⟩

/-- The loop stays with a packet for which the dissector does not return. -/
theorem At.stuck (h : At swapped ll flowCount n (r :: records) order items s)
    (hStorable : r.frame.Storable)
    (hParse : Packet.parse fuel (nextSeen memory r s).2 r.frame.bytes.length ll = none) (calls : Nat) :
    loop fuel memory calls s = none := by
  have hRest := h.rest
  rw [List.flatMap_cons] at hRest
  obtain ⟨trace, hPacket, _, hLl, hLen, _, hBuf, _⟩ := packet_record fuel h.fmt hStorable hRest
  have hPos := hStorable.pos
  cases calls with
  | zero => rfl
  | succ calls =>
      have hVerdict : flowsplitPacket fuel s.track (image memory trace.buf) trace.len trace.ll = none := by
        rw [flowsplitPacket, hBuf, hLen, hLl, h.ll]
        rw [nextSeen] at hParse
        simp only [hParse]
      simp only [loop, hPacket, hVerdict]
      rw [if_neg (by omega)]

/-- At the end of the trace the loop is over. -/
theorem At.finish (h : At swapped ll flowCount n [] order items s) (calls : Nat) :
    loop fuel memory (calls + 1) s = some (s.exit .finished) := by
  obtain ⟨trace, hPacket, hLen⟩ := packet_end fuel h.fmt h.rest
  simp only [loop, hPacket, hLen, if_true]

/-- What the loop leaves behind when it ends. -/
theorem At.exit {calls : Nat} {exit : Exit} (h : At swapped ll flowCount n records order items s)
    (hStorable : ∀ r ∈ records, r.frame.Storable) (hCount : 0 < flowCount)
    (hSize : flowCount < 2 ^ 32) (hFiles : 0 < n)
    (hAccepted : Accepted ll (seen memory s.trace.buf (records.map PcapRecord.frame)) more)
    (hRoom : ((items ++ more).map Prod.snd).dedup.length ≤ flowCount)
    (hRun : loop fuel memory calls s = some exit) :
    (∀ e ∈ seen memory s.trace.buf (records.map PcapRecord.frame), Returns ll e) ∧
      (exit.written = true → s.written = true ∧
        ∃ order', Outputs n (fileOf n order') (items ++ more) exit.files) := by
  induction records generalizing s order items more calls with
  | nil =>
      cases hAccepted
      cases calls with
      | zero => cases hRun
      | succ calls =>
          rw [h.finish] at hRun
          cases hRun
          refine ⟨fun e hMem => absurd hMem List.not_mem_nil, fun hWritten => ⟨hWritten, order, ?_⟩⟩
          rw [List.append_nil]
          exact h.outputs hWritten
  | cons r records ih =>
      have hFirst := hStorable r List.mem_cons_self
      cases hParse : Packet.parse fuel (nextSeen memory r s).2 r.frame.bytes.length ll with
      | none =>
          rw [h.stuck hFirst hParse] at hRun
          cases hRun
      | some res =>
          obtain ⟨s', order', items', more', hLoop, hAt, hWritten, hBuf, hMore, hAll⟩ :=
            h.next hFirst hCount hSize hFiles hAccepted hRoom hParse
          cases calls with
          | zero => cases hRun
          | succ calls =>
              rw [hLoop] at hRun
              obtain ⟨hReturns, hExit⟩ := ih hAt (fun r' hMem => hStorable r' (List.mem_cons_of_mem _ hMem))
                hMore (hAll ▸ hRoom) hRun
              rw [hBuf] at hReturns
              rw [hAll] at hExit
              refine ⟨fun e hMem => ?_, fun hTrue => ?_⟩
              · rw [List.map_cons, seen] at hMem
                rcases List.mem_cons.mp hMem with rfl | hMem
                · exact ⟨fuel, res, hParse⟩
                · exact hReturns e hMem
              · obtain ⟨hTrue', hOutputs⟩ := hExit hTrue
                exact ⟨hWritten hTrue', hOutputs⟩

/-- The loop ends if the dissector returns for all packets in time. -/
theorem At.ends {calls : Nat} (h : At swapped ll flowCount n records order items s)
    (hStorable : ∀ r ∈ records, r.frame.Storable) (hCount : 0 < flowCount)
    (hSize : flowCount < 2 ^ 32) (hFiles : 0 < n)
    (hAccepted : Accepted ll (seen memory s.trace.buf (records.map PcapRecord.frame)) more)
    (hRoom : ((items ++ more).map Prod.snd).dedup.length ≤ flowCount)
    (hReturns : ∀ e ∈ seen memory s.trace.buf (records.map PcapRecord.frame),
      ∃ res, Packet.parse fuel e.2 e.1.bytes.length ll = some res)
    (hCalls : records.length < calls) : ∃ exit, loop fuel memory calls s = some exit := by
  induction records generalizing s order items more calls with
  | nil =>
      obtain ⟨calls, rfl⟩ := Nat.exists_eq_succ_of_ne_zero (Nat.ne_of_gt hCalls)
      exact ⟨_, h.finish calls⟩
  | cons r records ih =>
      obtain ⟨calls, rfl⟩ := Nat.exists_eq_succ_of_ne_zero (Nat.ne_zero_of_lt hCalls)
      rw [List.map_cons, seen] at hReturns
      obtain ⟨res, hParse⟩ := hReturns _ List.mem_cons_self
      obtain ⟨s', order', items', more', hLoop, hAt, _, hBuf, hMore, hAll⟩ :=
        h.next (hStorable r List.mem_cons_self) hCount hSize hFiles hAccepted hRoom hParse
      rw [List.length_cons] at hCalls
      rw [Nat.succ_eq_add_one, hLoop]
      refine ih hAt (fun r' hMem => hStorable r' (List.mem_cons_of_mem _ hMem)) hMore (hAll ▸ hRoom) ?_
        (by omega)
      intro e hMem
      rw [hBuf] at hMem
      exact hReturns e (List.mem_cons_of_mem _ hMem)

/-- One number of rounds is enough for all packets. -/
theorem exists_fuel {es : List (Frame × Image)} (h : ∀ e ∈ es, Returns ll e) :
    ∃ fuel, ∀ e ∈ es, ∃ res, Packet.parse fuel e.2 e.1.bytes.length ll = some res := by
  induction es with
  | nil => exact ⟨0, fun e hMem => absurd hMem List.not_mem_nil⟩
  | cons e es ih =>
      obtain ⟨fuel, hRest⟩ := ih fun e' hMem => h e' (List.mem_cons_of_mem _ hMem)
      obtain ⟨fuel', res, hParse⟩ := h e List.mem_cons_self
      refine ⟨max fuel fuel', fun e' hMem => ?_⟩
      rcases List.mem_cons.mp hMem with rfl | hMem
      · exact ⟨res, Packet.parse_mono hParse (Nat.le_max_right _ _)⟩
      · obtain ⟨res', hParse'⟩ := hRest e' hMem
        exact ⟨res', Packet.parse_mono hParse' (Nat.le_max_left _ _)⟩

/-- The output files before the first packet. -/
theorem openFiles_outputs {room : Nat → Nat} {files : List File.Sink} (assign : Key → Nat)
    (h : openFiles room n = some files) : Outputs n assign [] files := by
  induction n generalizing files with
  | zero =>
      cases h
      exact ⟨rfl, fun i out hOut => by cases hOut⟩
  | succ n ih =>
      obtain ⟨before, hBefore, hLast⟩ := Option.bind_eq_some_iff.mp h
      obtain ⟨out, hOpen, rfl⟩ := Option.map_eq_some_iff.mp hLast
      have hOutputs := ih hBefore
      refine ⟨by rw [List.length_append, List.length_singleton, hOutputs.count], fun i out' hOut => ?_⟩
      by_cases hWithin : i < before.length
      · rw [List.getElem?_append_left hWithin] at hOut
        exact hOutputs.contents i out' hOut
      · rw [List.getElem?_append_right (Nat.le_of_not_lt hWithin)] at hOut
        have hSame : out' = out := by
          have hMem := List.mem_of_getElem? hOut
          exact List.mem_singleton.mp hMem
        rw [hSame, storeInit_contents hOpen]
        simp [pcapFile, share]

end Peak.Flowsplit
