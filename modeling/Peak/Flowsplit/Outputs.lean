import Mathlib.Data.List.Dedup
import Peak.Flowsplit.Flows

/-! The output files of `flowsplit`: which packets are in which file, and what is
read back from them. -/
namespace Peak.Flowsplit

open Load Track ByteImage

variable {memory : Nat → UInt8} {swapped : Bool} {ll flowCount n fuel : Nat}
variable {records : List PcapRecord} {order : List Key} {items : List (Frame × Key)}
variable {s : State} {files : List File.Sink}

/-- The packets of a trace with the bytes that the dissector finds: a packet is
followed by what longer ones left in the buffer. -/
def seen (memory buf : Nat → UInt8) : List Frame → List (Frame × Image)
  | [] => []
  | f :: frames =>
      (f, image memory (Cells.write buf 0 f.bytes)) :: seen memory (Cells.write buf 0 f.bytes) frames

/-- `peak_packet_parse` accepts a packet, and there is a network header. -/
def Accepts (ll : Nat) (e : Frame × Image) (packet : Packet) : Prop :=
  (∃ fuel, Packet.parse fuel e.2 e.1.bytes.length ll = some (0, packet)) ∧ packet.netLen ≠ 0

/-- The dissector returns for a packet. -/
def Returns (ll : Nat) (e : Frame × Image) : Prop :=
  ∃ fuel r, Packet.parse fuel e.2 e.1.bytes.length ll = some r

/-- The packets that are accepted, in order and with their keys. -/
inductive Accepted (ll : Nat) : List (Frame × Image) → List (Frame × Key) → Prop where
  | nil : Accepted ll [] []
  | take {e : Frame × Image} {es : List (Frame × Image)} {items : List (Frame × Key)} {packet : Packet}
      (hAccepts : Accepts ll e packet) (rest : Accepted ll es items) :
      Accepted ll (e :: es) ((e.1, trackKey packet) :: items)
  | skip {e : Frame × Image} {es : List (Frame × Image)} {items : List (Frame × Key)}
      (hNone : ∀ packet, ¬ Accepts ll e packet) (rest : Accepted ll es items) :
      Accepted ll (e :: es) items

/-- The packets whose keys are assigned to a file, in order. -/
def share (assign : Key → Nat) (items : List (Frame × Key)) (i : Nat) : List Frame :=
  (items.filter fun e => assign e.2 = i).map Prod.fst

/-- The files that were written, and all packets are in them. -/
structure Outputs (n : Nat) (assign : Key → Nat) (items : List (Frame × Key))
    (files : List File.Sink) : Prop where
  count : files.length = n
  contents (i : Nat) (out : File.Sink) (hOut : files[i]? = some out) :
    out.contents = pcapFile false storeHeader ((share assign items i).map Frame.record)

/-- The file that the packets of a key go to. -/
def fileOf (n : Nat) (order : List Key) (key : Key) : Nat := order.idxOf key % n

theorem share_snoc (assign : Key → Nat) (items : List (Frame × Key)) (e : Frame × Key) (i : Nat) :
    share assign (items ++ [e]) i = share assign items i ++ if assign e.2 = i then [e.1] else [] := by
  simp only [share, List.filter_append, List.map_append]
  congr 1
  by_cases hHere : assign e.2 = i
  · simp [hHere]
  · simp [hHere]

/-- A packet behind the others in a file. -/
theorem pcapFile_snoc (frames : List Frame) (f : Frame) :
    pcapFile false storeHeader ((frames ++ [f]).map Frame.record) =
      pcapFile false storeHeader (frames.map Frame.record) ++ f.record.encode false := by
  simp [pcapFile]

/-- Another assignment of keys that are not there. -/
theorem Outputs.congr {assign assign' : Key → Nat} (h : Outputs n assign items files)
    (hSame : ∀ e ∈ items, assign' e.2 = assign e.2) : Outputs n assign' items files := by
  refine ⟨h.count, fun i out hOut => ?_⟩
  have hShare : share assign' items i = share assign items i := by
    rw [share, share]
    refine congrArg _ (List.filter_congr fun e hMem => ?_)
    rw [hSame e hMem]
  rw [hShare]
  exact h.contents i out hOut

/-- A packet was stored in the file that its key is assigned to. -/
theorem Outputs.snoc {assign : Key → Nat} {e : Frame × Key} {i : Nat} {out out' : File.Sink}
    (h : Outputs n assign items files) (hOut : files[i]? = some out) (hAssign : assign e.2 = i)
    (hStored : out'.contents = out.contents ++ e.1.record.encode false) :
    Outputs n assign (items ++ [e]) (files.set i out') := by
  refine ⟨by rw [List.length_set, h.count], fun j out₂ hOut₂ => ?_⟩
  rw [share_snoc]
  rw [List.getElem?_set] at hOut₂
  split_ifs at hOut₂ with hSame hWithin
  · cases hOut₂
    subst hSame
    rw [if_pos hAssign, pcapFile_snoc, hStored, h.contents i out hOut]
  · rw [if_neg fun hEq => hSame (hAssign.symm.trans hEq), List.append_nil]
    exact h.contents j out₂ hOut₂

end Peak.Flowsplit
