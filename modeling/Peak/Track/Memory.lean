import Peak.Audit
import Peak.Base.TailQueue
import Peak.Base.TreeSet
import Peak.Prealloc
import Peak.Track.Tracker

/-! The tracker of `lib/peak_track.c` in the memory that it runs in: flows are
chunks of a pool, linked into a red-black tree and into a tail queue, and a chunk
that is not in use holds the link to another one where the key was. -/
namespace Peak.Track

open RedBlack Prealloc TailQueue

/-- The first bytes of a chunk: the key of a flow, or the link to a free chunk. -/
inductive Front where
  | key (key : Ref)
  | link (next : Option Nat)
deriving DecidableEq

/-- `struct peak_track` without `rb_track`. The links of `tq_to` are a flow and a
pair of links: that of a flow, or that of the queue. -/
structure Chunk where
  front : Front
  padding : List UInt8
  li : Nat × Nat
  reserved : List UInt8
  id : Nat
  tqNext : Option Nat
  tqPrev : Option (Option Nat)
deriving DecidableEq

/-- The key of a flow. Nothing reads a link as a key. -/
def Chunk.key (c : Chunk) : Ref :=
  match c.front with
  | .key key => key
  | .link _ => Ref.zeroed

/-- The link of a free chunk. -/
def Chunk.next (c : Chunk) : Option Nat :=
  match c.front with
  | .key _ => none
  | .link next => next

/-- The flow without its links. -/
def Chunk.flow (c : Chunk) : Flow := ⟨c.key, c.padding, c.li, c.reserved, c.id⟩

/-- A chunk after `memset` and `memcpy` of a key. -/
def Chunk.ofKey (key : Ref) : Chunk :=
  ⟨.key key, List.replicate 3 0, (0, 0), List.replicate 4 0, 0, none, none⟩

/-- `TRACK_CMP`. -/
def chunkCmp (x y : Chunk) : Ordering := trackCmp x.key.1 y.key.1

instance : Std.TransCmp chunkCmp := transCmp_of fun c : Chunk => c.key.1

/-- The link of `prealloc_t` comes first in a chunk. -/
def trackOverlay : Overlay (Cell Nat Chunk) where
  next c := c.data.next
  setNext c p := { c with data := { c.data with front := .link p } }
  next_setNext _ _ := rfl

/-- `struct peak_tracks` with the memory of its flows, `next_flow_id`, and the
counters of the thread. -/
structure Memory where
  tree : Store Nat Chunk
  tosFirst : Option Nat
  tosLast : Option Nat
  noTimeout : Bool
  pool : Prealloc.Pool
  nextFlowId : Nat
  audit : Audit

namespace Memory

/-- A store to the data of a flow. -/
def onData (self : Memory) (a : Nat) (f : Chunk → Chunk) : Memory :=
  { self with tree := self.tree.modify a fun c => { c with data := f c.data } }

/-- The links of `tos`. The head is the pair that belongs to no flow. -/
def tos : Links Memory (Option Nat) Nat where
  elem := some
  next self
    | none => some self.tosFirst
    | some a => some (self.tree.cells a).data.tqNext
  prev self
    | none => some self.tosLast
    | some a => (self.tree.cells a).data.tqPrev
  setNext self
    | none, v => { self with tosFirst := v }
    | some a, v => self.onData a fun c => { c with tqNext := v }
  setPrev self
    | none, v => { self with tosLast := v }
    | some a, v => self.onData a fun c => { c with tqPrev := some v }

/-- `peak_audit_inc`. -/
def auditInc (self : Memory) (field : Nat) : Memory := { self with audit := self.audit.inc field }

/-- What a call did. It may also stop the process, or follow a missing link. -/
inductive Outcome where
  | ret (flow : Option Nat) (self : Memory)
  | panic (message : String)
  | fault

/-- `prealloc_put`. -/
def put (self : Memory) (flow : Nat) : Memory :=
  let (pool, cells) := self.pool.put trackOverlay self.tree.cells (some flow)
  { self with pool := pool, tree := { self.tree with cells := cells } }

/-- A flow after `memset` and `memcpy` of a key. -/
def blank (ref : Ref) : Cell Nat Chunk := ⟨none, none, none, .black, Chunk.ofKey ref⟩

/-- What is left to do with a flow that is in the tree. -/
def enrol (self : Memory) (flow : Nat) : Option Memory := do
  let self := self.onData flow fun c => { c with id := self.nextFlowId }
  let self := { self with nextFlowId := (self.nextFlowId + 1) % 2 ^ 64 }
  let self ← tos.insertTail self none flow
  return self.auditInc auditTrackAdded

/-- The end of `peak_track_acquire`: a flow from the pool gets the key. -/
def addFlow (rounds : Nat) (self : Memory) (ref : Ref) : Outcome :=
  match self.pool.get trackOverlay self.tree.cells with
  | (none, _) => .panic "flow pool empty\n"
  | (some flow, pool) =>
      match (self.tree.modify flow fun _ => blank ref).insert chunkCmp rounds flow with
      | none => .fault
      | some (.error _) => .panic "can't insert flow\n"
      | some (.ok tree) =>
          match { self with pool := pool, tree := tree }.enrol flow with
          | none => .fault
          | some self => .ret (some flow) self

/-- The flow that was used least recently goes back to the pool. -/
def recycle (rounds : Nat) (self : Memory) : Option Memory := do
  let flow ← self.tosFirst
  let self ← tos.remove self none flow
  let tree ← self.tree.remove rounds flow
  return ({ self with tree := tree }.put flow).auditInc auditTrackRecycled

/-- `peak_track_acquire`, where loops over the tree are given so many rounds. -/
def acquire (rounds : Nat) (self : Memory) (ref : Option Ref) : Outcome :=
  match ref with
  | none => .ret none self
  | some ref =>
      match self.tree.find chunkCmp rounds (Chunk.ofKey ref) with
      | none => .fault
      | some (some flow) =>
          match (tos.remove self none flow).bind fun self => tos.insertTail self none flow with
          | none => .fault
          | some self => .ret (some flow) self
      | some none =>
          if self.pool.free = none then
            if self.noTimeout then .ret none (self.auditInc auditTrackFailed)
            else
              match self.recycle rounds with
              | none => .fault
              | some self => self.addFlow rounds ref
          else self.addFlow rounds ref

/-- `peak_track_init`, with the memory that `malign` grants. -/
def init (callocOk : Bool) (granted : Option Nat) (cells : Nat → Cell Nat Chunk) (nextFlowId : Nat)
    (audit : Audit) (maxFlows : Nat) (noTimeout : Bool) : Option Memory :=
  if callocOk then
    (Prealloc.init trackOverlay cells maxFlows trackSize granted).map fun (pool, cells) =>
      tos.init
        { tree := ⟨cells, none⟩, tosFirst := none, tosLast := none, noTimeout := noTimeout, pool := pool,
          nextFlowId := nextFlowId, audit := audit } none
  else none

/-- The loop of `peak_track_exit` in at most so many rounds. -/
def drain (rounds : Nat) : Nat → Memory → Option Memory
  | fuel, self =>
      match self.tree.root, fuel with
      | none, _ => some self
      | some _, 0 => none
      | some flow, fuel + 1 => do
          let tree ← self.tree.remove rounds flow
          drain rounds fuel ({ self with tree := tree }.put flow)

/-- `peak_track_exit` up to the calls of `free`: what is left, or the panic of
`prealloc_exit`. -/
def exit (rounds fuel : Nat) (self : Memory) : Option (Except String Memory) :=
  (self.drain rounds fuel).map fun self =>
    if self.pool.used ≠ 0 then .error "missing chunks detected\n" else .ok self

end Memory

end Peak.Track
