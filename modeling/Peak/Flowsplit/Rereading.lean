import Peak.Flowsplit.Runs

/-! What is read back from the output files of `flowsplit`. -/
namespace Peak.Flowsplit

open Load Track ByteImage

variable {memory : Nat → UInt8} {slots : Nat → Flow} {room : Nat → Nat} {fileCount flowCount ll : Nat}
variable {swapped : Bool} {h : PcapFileHeader} {records : List PcapRecord} {items : List (Frame × Key)}
variable {files : List File.Sink}

/-- Reading the files again yields every packet once, in order within its file
and with the link type of the trace, and packets of the same key from the same
file. -/
def KeepsEverything (ll : Nat) (items : List (Frame × Key)) (files : List File.Sink) : Prop :=
  ∃ assign : Key → Nat, (∀ e ∈ items, assign e.2 < files.length) ∧
    ∀ i out, files[i]? = some out → ∃ s, Load.init true true true out.contents = some s ∧
      (∀ fuel calls, (share assign items i).length < calls →
        drain fuel calls s = some (share assign items i)) ∧
      (share assign items i ≠ [] → s.ll = ll)

/-- The packets of a trace as the dissector finds them. -/
def traceSeen (memory : Nat → UInt8) (records : List PcapRecord) : List (Frame × Image) :=
  seen memory (fun _ => 0) (records.map PcapRecord.frame)

theorem seen_frames (memory buf : Nat → UInt8) (frames : List Frame) :
    (seen memory buf frames).map Prod.fst = frames := by
  induction frames generalizing buf with
  | nil => rfl
  | cons f frames ih => rw [seen, List.map_cons, ih]

theorem Accepted.mem {es : List (Frame × Image)} (hAccepted : Accepted ll es items) {e : Frame × Key}
    (hMem : e ∈ items) : e.1 ∈ es.map Prod.fst := by
  induction hAccepted with
  | nil => cases hMem
  | take _ _ ih =>
      rw [List.map_cons]
      rcases List.mem_cons.mp hMem with rfl | hMem
      · exact List.mem_cons_self
      · exact List.mem_cons_of_mem _ (ih hMem)
  | skip _ _ ih =>
      rw [List.map_cons]
      exact List.mem_cons_of_mem _ (ih hMem)

/-- The packets that are accepted are packets of the trace. -/
theorem accepted_storable (hStorable : ∀ r ∈ records, r.frame.Storable)
    (hAccepted : Accepted ll (traceSeen memory records) items) {e : Frame × Key} (hMem : e ∈ items) :
    e.1.Storable := by
  have hFrame := hAccepted.mem hMem
  rw [traceSeen, seen_frames] at hFrame
  obtain ⟨r, hRecord, hEq⟩ := List.mem_map.mp hFrame
  exact hEq ▸ hStorable r hRecord

/-- The loop at the start of a trace. -/
theorem start_at {n : Nat} {track : Tracks} (swapped : Bool) (h : PcapFileHeader)
    (records : List PcapRecord) (hFlows : Flows flowCount [] track) (hFiles : openFiles room n = some files) :
    At swapped (h.network % 256 ^ 4) flowCount n records [] []
      ⟨pcapStart swapped h records, track, files, true⟩ := by
  have hOutputs := openFiles_outputs (fileOf n []) hFiles
  refine ⟨rfl, rfl, ?_, hFlows, fun key => by simp, hOutputs.count, fun _ => hOutputs⟩
  exact List.drop_left' (encode_fileHeader_length swapped h)

/-- Without room for a flow the process ends before the trace is read. -/
theorem flowsplit_no_flows (hStorable : ∀ r ∈ records, r.frame.Storable) (fuel calls : Nat) :
    flowsplit fuel calls memory slots room fileCount 0 (pcapFile swapped h records) =
      some ⟨.panicked "cannot init flow tracker\n", [], true⟩ := by
  simp only [flowsplit, (load_pcapFile swapped true h hStorable).1]
  rfl

/-- With room for flows the loop is run on the output files, if they can be
opened. -/
theorem flowsplit_eq_loop (memory : Nat → UInt8) (slots : Nat → Flow) (room : Nat → Nat)
    (swapped : Bool) (h : PcapFileHeader) (hStorable : ∀ r ∈ records, r.frame.Storable)
    (hFlows : flowCount ≠ 0) (hSize : flowCount < 2 ^ 32) (hFiles : fileCount ≠ 0) :
    ∃ track, Flows flowCount [] track ∧ ∀ fuel calls,
      flowsplit fuel calls memory slots room fileCount flowCount (pcapFile swapped h records) =
        match openFiles room (min fileCount flowCount) with
        | none => some ⟨.panicked "cannot open an output file\n", [], false⟩
        | some files => loop fuel memory calls ⟨pcapStart swapped h records, track, files, true⟩ := by
  obtain ⟨track, hInit⟩ : ∃ track, trackInit true true slots 0 flowCount true = some track := by
    simp [trackInit, Pool.init, trackSize, hFlows]
  refine ⟨track, .init hSize hInit, fun fuel calls => ?_⟩
  cases hOpen : openFiles room (min fileCount flowCount) with
  | none =>
      simp only [flowsplit, (load_pcapFile swapped true h hStorable).1, hInit, hFiles, hOpen, if_false]
  | some files =>
      simp only [flowsplit, (load_pcapFile swapped true h hStorable).1, hInit, hFiles, hOpen, if_false]

theorem share_mem (assign : Key → Nat) (i : Nat) {f : Frame} (hMem : f ∈ share assign items i) :
    ∃ e ∈ items, e.1 = f := by
  obtain ⟨e, hItem, rfl⟩ := List.mem_map.mp hMem
  exact ⟨e, (List.mem_filter.mp hItem).1, rfl⟩

/-- Every file says that its packets are Ethernet frames. -/
theorem Outputs.relabelled {n : Nat} {assign : Key → Nat} (hOutputs : Outputs n assign items files)
    (hStorable : ∀ e ∈ items, e.1.Storable) (hKeeps : KeepsEverything ll items files) :
    ll = Load.linktypeEthernet ∨ items = [] := by
  obtain ⟨assign', hWithin, hFiles⟩ := hKeeps
  cases items with
  | nil => exact .inr rfl
  | cons e items =>
      have hFile := hWithin e List.mem_cons_self
      have hOut : files[assign' e.2]? = some files[assign' e.2] := List.getElem?_eq_getElem hFile
      obtain ⟨s, hInit, _, hLl⟩ := hFiles (assign' e.2) _ hOut
      obtain ⟨s', hInit', _, hLl'⟩ := load_stored true fun f hMem => by
        obtain ⟨e', hItem, rfl⟩ := share_mem assign (assign' e.2) hMem
        exact hStorable e' hItem
      rw [← hOutputs.contents _ _ hOut, hInit] at hInit'
      cases hInit'
      refine .inl ((hLl ?_).symm.trans hLl')
      have hMem : e.1 ∈ share assign' (e :: items) (assign' e.2) := by simp [share]
      exact List.ne_nil_of_mem hMem

/-- Files with all packets keep everything, but for the link type. -/
theorem Outputs.keeps {n : Nat} {order : List Key} (hOutputs : Outputs n (fileOf n order) items files)
    (hCount : 0 < n) (hStorable : ∀ e ∈ items, e.1.Storable)
    (hLl : ll = Load.linktypeEthernet ∨ items = []) : KeepsEverything ll items files := by
  refine ⟨fileOf n order, fun e _ => ?_, fun i out hOut => ?_⟩
  · rw [hOutputs.count]
    exact Nat.mod_lt _ hCount
  · obtain ⟨s, hInit, hDrain, hEthernet⟩ := load_stored true fun f hMem => by
      obtain ⟨e, hItem, rfl⟩ := share_mem (fileOf n order) i hMem
      exact hStorable e hItem
    rw [← hOutputs.contents i out hOut] at hInit
    refine ⟨s, hInit, hDrain, fun hSome => ?_⟩
    rcases hLl with hLl | rfl
    · exact hEthernet.trans hLl.symm
    · exact absurd rfl hSome

/-- What a run that ended did, if all writes succeeded. -/
theorem flowsplit_outputs {fuel calls : Nat} {exit : Exit}
    (hStorable : ∀ r ∈ records, r.frame.Storable) (hFiles : fileCount ≠ 0) (hFlows : flowCount ≠ 0)
    (hSize : flowCount < 2 ^ 32)
    (hAccepted : Accepted (h.network % 256 ^ 4) (traceSeen memory records) items)
    (hRoom : (items.map Prod.snd).dedup.length ≤ flowCount)
    (hRun : flowsplit fuel calls memory slots room fileCount flowCount (pcapFile swapped h records) =
      some exit) (hWritten : exit.written = true) :
    (∀ e ∈ traceSeen memory records, Returns (h.network % 256 ^ 4) e) ∧
      ∃ order, Outputs (min fileCount flowCount) (fileOf (min fileCount flowCount) order) items exit.files := by
  obtain ⟨track, hTrack, hLoop⟩ :=
    flowsplit_eq_loop memory slots room swapped h hStorable hFlows hSize hFiles
  rw [hLoop] at hRun
  cases hOpen : openFiles room (min fileCount flowCount) with
  | none =>
      rw [hOpen] at hRun
      cases hRun
      cases hWritten
  | some files =>
      rw [hOpen] at hRun
      obtain ⟨hReturns, hExit⟩ := (start_at swapped h records hTrack hOpen).exit hStorable
        (Nat.pos_of_ne_zero hFlows) hSize (by omega) hAccepted hRoom hRun
      exact ⟨hReturns, (hExit hWritten).2⟩

/-- A run ends if the dissector returns for all packets in time. -/
theorem flowsplit_ends {fuel calls : Nat} (slots : Nat → Flow) (room : Nat → Nat) (swapped : Bool)
    (hStorable : ∀ r ∈ records, r.frame.Storable) (hFiles : fileCount ≠ 0) (hFlows : flowCount ≠ 0)
    (hSize : flowCount < 2 ^ 32)
    (hAccepted : Accepted (h.network % 256 ^ 4) (traceSeen memory records) items)
    (hRoom : (items.map Prod.snd).dedup.length ≤ flowCount)
    (hReturns : ∀ e ∈ traceSeen memory records,
      ∃ res, Packet.parse fuel e.2 e.1.bytes.length (h.network % 256 ^ 4) = some res)
    (hCalls : records.length < calls) :
    ∃ exit, flowsplit fuel calls memory slots room fileCount flowCount (pcapFile swapped h records) =
      some exit := by
  obtain ⟨track, hTrack, hLoop⟩ :=
    flowsplit_eq_loop memory slots room swapped h hStorable hFlows hSize hFiles
  rw [hLoop]
  cases hOpen : openFiles room (min fileCount flowCount) with
  | none => exact ⟨_, rfl⟩
  | some files =>
      exact (start_at swapped h records hTrack hOpen).ends hStorable (Nat.pos_of_ne_zero hFlows) hSize
        (by omega) hAccepted hRoom hReturns hCalls

/-- Everything is kept exactly if the dissector returns for every packet, and the
trace has Ethernet frames or none of its packets is accepted. Without room for a
flow nothing is accepted, and no file is made. -/
theorem flowsplit_keeps_everything (hStorable : ∀ r ∈ records, r.frame.Storable)
    (hFiles : 1 ≤ fileCount) (hSize : flowCount < 2 ^ 32)
    (hAccepted : Accepted (h.network % 256 ^ 4) (traceSeen memory records) items)
    (hRoom : (items.map Prod.snd).dedup.length ≤ flowCount)
    (hWrites : ∀ fuel calls exit, flowsplit fuel calls memory slots room fileCount flowCount
      (pcapFile swapped h records) = some exit → exit.written = true) :
    (∃ fuel calls exit, flowsplit fuel calls memory slots room fileCount flowCount
        (pcapFile swapped h records) = some exit ∧
        KeepsEverything (h.network % 256 ^ 4) items exit.files) ↔
      flowCount = 0 ∨ ((∀ e ∈ traceSeen memory records, Returns (h.network % 256 ^ 4) e) ∧
        (h.network % 256 ^ 4 = Load.linktypeEthernet ∨ items = [])) := by
  have hSome : fileCount ≠ 0 := Nat.ne_of_gt hFiles
  have hItems (e : Frame × Key) (hMem : e ∈ items) := accepted_storable hStorable hAccepted hMem
  by_cases hFlows : flowCount = 0
  · subst hFlows
    refine ⟨fun _ => .inl rfl, fun _ => ⟨0, 0, _, flowsplit_no_flows hStorable 0 0, ?_⟩⟩
    have hNone : items = [] := by
      have hNil := (List.dedup_eq_nil _).mp (List.length_eq_zero_iff.mp (Nat.le_zero.mp hRoom))
      exact List.map_eq_nil_iff.mp hNil
    subst hNone
    exact ⟨fun _ => 0, fun e hMem => absurd hMem List.not_mem_nil, fun i out hOut => by cases hOut⟩
  · constructor
    · rintro ⟨fuel, calls, exit, hRun, hKeeps⟩
      obtain ⟨hReturns, order, hOutputs⟩ := flowsplit_outputs hStorable hSome hFlows hSize
        hAccepted hRoom hRun (hWrites _ _ _ hRun)
      exact .inr ⟨hReturns, hOutputs.relabelled hItems hKeeps⟩
    · rintro (hZero | ⟨hReturns, hLl⟩)
      · exact absurd hZero hFlows
      obtain ⟨fuel, hFuel⟩ := exists_fuel hReturns
      obtain ⟨exit, hRun⟩ := flowsplit_ends slots room swapped hStorable hSome hFlows hSize
        hAccepted hRoom hFuel (Nat.lt_succ_self records.length)
      obtain ⟨_, order, hOutputs⟩ := flowsplit_outputs hStorable hSome hFlows hSize
        hAccepted hRoom hRun (hWrites _ _ _ hRun)
      exact ⟨fuel, _, exit, hRun, hOutputs.keeps (by omega) hItems hLl⟩

/-- A packet of an IP header only, behind a link header. -/
def ipRecord (link : List UInt8) : PcapRecord :=
  ⟨⟨link ++ [0x45, 0, 0, 20, 0, 0, 0, 0, 64, 2, 0, 0, 10, 0, 0, 1, 10, 0, 0, 2], 7, 9⟩, 60⟩

/-- The header of a trace of some link type. -/
def traceHeader (network : Nat) : PcapFileHeader := { storeHeader with network := network }

/-- A run on a trace of one packet with two output files. -/
def splitOne (fuel calls network : Nat) (link : List UInt8) : Option Exit :=
  flowsplit fuel calls (fun _ => 0) (fun _ => Flow.zeroed) (fun _ => 1000) 2 1
    (pcapFile false (traceHeader network) [ipRecord link])

/-- The link header of an Ethernet frame that holds an IP packet. -/
def etherHeader : List UInt8 := [2, 0, 0, 0, 0, 1, 2, 0, 0, 0, 0, 2, 8, 0]

/-- What is made of the packet. -/
def ipPacket (network : Nat) (link : List UInt8) : Packet :=
  { mac := some 0
    net := some link.length
    flow := some (link.length + 20)
    linkType := network
    macLen := link.length + 20
    macType := 0x0800
    netSaddr := [0, 0, 0, 0, 0, 0, 0, 0, 0, 0, 255, 255, 10, 0, 0, 1]
    netDaddr := [0, 0, 0, 0, 0, 0, 0, 0, 0, 0, 255, 255, 10, 0, 0, 2]
    netFamily := 2
    netLen := 20
    netHlen := 20
    netType := 2 }

/-- An Ethernet frame of an IP header only, from one host to another. -/
def hostRecord (source target : UInt8) : PcapRecord :=
  ⟨⟨etherHeader ++ [0x45, 0, 0, 20, 0, 0, 0, 0, 64, 2, 0, 0, 10, 0, 0, source, 10, 0, 0, target], 7, 9⟩, 60⟩

/-- What is made of it. -/
def hostPacket (source target : UInt8) : Packet :=
  { ipPacket 1 etherHeader with
    netSaddr := [0, 0, 0, 0, 0, 0, 0, 0, 0, 0, 255, 255, 10, 0, 0, source]
    netDaddr := [0, 0, 0, 0, 0, 0, 0, 0, 0, 0, 255, 255, 10, 0, 0, target] }

/-- A packet, one of another flow, and the answer to the first one. -/
def threeHosts : List PcapRecord := [hostRecord 1 2, hostRecord 3 2, hostRecord 2 1]

/-- A run on the three packets with two output files. -/
def splitThree (fuel calls : Nat) : Option Exit :=
  flowsplit fuel calls (fun _ => 0) (fun _ => Flow.zeroed) (fun _ => 1000) 2 2
    (pcapFile false (traceHeader 1) threeHosts)

theorem etherTrace_written (fuel calls : Nat) (exit : Exit)
    (h : splitThree fuel calls = some exit) : exit.written = true := by
  match calls with
  | 0 =>
      have hNone : splitThree fuel 0 = none := rfl
      rw [hNone] at h
      cases h
  | 1 =>
      have hNone : splitThree fuel 1 = none := rfl
      rw [hNone] at h
      cases h
  | 2 =>
      have hNone : splitThree fuel 2 = none := rfl
      rw [hNone] at h
      cases h
  | 3 =>
      have hNone : splitThree fuel 3 = none := rfl
      rw [hNone] at h
      cases h
  | calls + 4 =>
      have hDone : (splitThree fuel (calls + 4)).map (·.written) = some true := rfl
      rw [h] at hDone
      exact Option.some.inj hDone

/-- An Ethernet trace of two flows is kept. -/
theorem etherTrace_kept :
    ∃ items, items.length = 3 ∧ (items.map Prod.snd).dedup.length = 2 ∧
      Accepted 1 (traceSeen (fun _ => 0) threeHosts) items ∧
      ∃ fuel calls exit, splitThree fuel calls = some exit ∧ exit.files.length = 2 ∧
        KeepsEverything 1 items exit.files := by
  have hStorable : ∀ r ∈ threeHosts, r.frame.Storable := by
    intro r hMem
    simp only [threeHosts, List.mem_cons, List.not_mem_nil, or_false] at hMem
    rcases hMem with rfl | rfl | rfl <;> exact ⟨by decide, by decide, by decide, by decide⟩
  have hAccepted : Accepted 1 (traceSeen (fun _ => 0) threeHosts)
      [((hostRecord 1 2).frame, trackKey (hostPacket 1 2)),
        ((hostRecord 3 2).frame, trackKey (hostPacket 3 2)),
        ((hostRecord 2 1).frame, trackKey (hostPacket 2 1))] :=
    .take ⟨⟨0, by decide +kernel⟩, by decide⟩
      (.take ⟨⟨0, by decide +kernel⟩, by decide⟩ (.take ⟨⟨0, by decide +kernel⟩, by decide⟩ .nil))
  have hReturns : ∀ e ∈ traceSeen (fun _ => 0) threeHosts, Returns 1 e := by
    intro e hMem
    change e ∈ [_, _, _] at hMem
    simp only [List.mem_cons, List.not_mem_nil, or_false] at hMem
    rcases hMem with rfl | rfl | rfl <;> exact ⟨0, Option.isSome_iff_exists.mp (by decide +kernel)⟩
  obtain ⟨fuel, calls, exit, hRun, hKeeps⟩ :=
    (flowsplit_keeps_everything (h := traceHeader 1) hStorable (by decide) (by decide) hAccepted
      (by decide) etherTrace_written).mpr (.inr ⟨hReturns, .inl rfl⟩)
  obtain ⟨_, order, hOutputs⟩ := flowsplit_outputs (h := traceHeader 1) hStorable (by decide) (by decide)
    (by decide) hAccepted (by decide) hRun (etherTrace_written _ _ _ hRun)
  exact ⟨_, rfl, by decide, hAccepted, fuel, calls, exit, hRun, hOutputs.count, hKeeps⟩

/-- The packet of a trace without link headers is an Ethernet frame when it is
read again. -/
theorem nullTrace_relabelled :
    ∃ items, items ≠ [] ∧ Accepted 0 (traceSeen (fun _ => 0) [ipRecord []]) items ∧
      (items.map Prod.snd).dedup.length = 1 ∧
      (splitOne 0 2 0 []).map (fun exit => (exit.ending, exit.written)) = some (.finished, true) ∧
      ¬ ∃ fuel calls exit, splitOne fuel calls 0 [] = some exit ∧ exit.written = true ∧
        KeepsEverything 0 items exit.files := by
  have hStorable : ∀ r ∈ [ipRecord []], r.frame.Storable := by
    intro r hMem
    rw [List.mem_singleton.mp hMem]
    exact ⟨by decide, by decide, by decide, by decide⟩
  have hAccepted : Accepted 0 (traceSeen (fun _ => 0) [ipRecord []])
      [((ipRecord []).frame, trackKey (ipPacket 0 []))] :=
    .take ⟨⟨0, by decide +kernel⟩, by decide⟩ .nil
  refine ⟨_, List.cons_ne_nil _ _, hAccepted, rfl, rfl, ?_⟩
  rintro ⟨fuel, calls, exit, hRun, hWritten, hKeeps⟩
  obtain ⟨_, order, hOutputs⟩ := flowsplit_outputs (h := traceHeader 0) hStorable (by decide)
    (by decide) (by decide) hAccepted (by decide) hRun hWritten
  have hItems := fun e hMem => accepted_storable hStorable hAccepted (e := e) hMem
  rcases hOutputs.relabelled hItems hKeeps with hLl | hNone
  · cases hLl
  · cases hNone

end Peak.Flowsplit
