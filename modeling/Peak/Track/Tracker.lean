import Mathlib.Data.List.Nodup
import Mathlib.Data.List.Sort
import Mathlib.Logic.Function.Basic
import Peak.Track.Key

/-! `lib/peak_track.c`: flows live in the slots of a pool, and each flow in use
is in a tree that is ordered by the keys and in a queue that is ordered by the
last use. -/
namespace Peak.Track

/-- What a caller may pass to identify a flow. -/
abbrev Ref := {key : Key // key.Typed}

/-- `struct peak_track` without the links for the tree and the queue. -/
structure Flow where
  key : Ref
  padding : List UInt8
  li : Nat × Nat
  reserved : List UInt8
  id : Nat
deriving DecidableEq

/-- A key of zeros. -/
def Ref.zeroed : Ref :=
  ⟨⟨List.replicate 16 0, List.replicate 16 0, 0, 0, 0⟩,
    ⟨rfl, rfl, by decide, by decide, by decide⟩⟩

/-- A flow after `memset`. -/
def Flow.zeroed : Flow := ⟨Ref.zeroed, List.replicate 3 0, (0, 0), List.replicate 4 0, 0⟩

/-- `prealloc_t`: the free slots and the number of slots in use. -/
structure Pool where
  free : List Nat
  used : Nat
deriving DecidableEq, Repr

/-- `prealloc_init`. It wants sizes that keep all slots aligned. -/
def Pool.init (memory : Bool) (count size : Nat) : Option Pool :=
  if count = 0 ∨ size = 0 then none
  else if size % 8 ≠ 0 then none
  else if memory then some ⟨List.range count, 0⟩
  else none

/-- `prealloc_empty`. -/
def Pool.empty (pool : Pool) : Bool := pool.free.isEmpty

/-- `prealloc_get`. -/
def Pool.get (pool : Pool) : Option (Nat × Pool) :=
  match pool.free with
  | [] => none
  | slot :: free => some (slot, ⟨free, (pool.used + 1) % 2 ^ 64⟩)

/-- `prealloc_put`. The link to the other free slots is written over the key of
the flow that was there. -/
def Pool.put (pool : Pool) (slot : Nat) : Pool :=
  ⟨slot :: pool.free, (pool.used + 2 ^ 64 - 1) % 2 ^ 64⟩

/-- `struct peak_tracks` with the flows in its slots, and `next_flow_id`. -/
structure Tracks where
  mem : Nat → Flow
  flows : List Nat
  tos : List Nat
  noTimeout : Bool
  pool : Pool
  nextFlowId : Nat

variable (s : Tracks)

/-- The key of the flow in a slot. -/
def Tracks.keyOf (slot : Nat) : Ref := (s.mem slot).key

/-- `RB_FIND` in a tree that is an ordered set. -/
def Tracks.rbFind (key : Ref) : Option Nat :=
  s.flows.find? fun slot => trackCmp key.1 (s.keyOf slot).1 == .eq

/-- `RB_INSERT`: the flow that is in the way, or the tree with the flow. -/
def Tracks.rbInsert (slot : Nat) : Option Nat × Tracks :=
  match s.rbFind (s.keyOf slot) with
  | some found => (some found, s)
  | none =>
      (none, { s with
        flows := s.flows.orderedInsert
          (fun slot slot' => trackCmp (s.keyOf slot).1 (s.keyOf slot').1 = .lt) slot })

/-- What a call did. It may also stop the process. -/
inductive Outcome where
  | ret (flow : Option Nat) (s : Tracks)
  | panic (message : String)
  | fault

/-- The end of `peak_track_acquire`: a flow from the pool gets the key. -/
def addFlow (key : Ref) : Outcome :=
  match s.pool.get with
  | none => .panic "flow pool empty\n"
  | some (slot, pool) =>
      let s := { s with
        pool := pool
        mem := Function.update s.mem slot { Flow.zeroed with key := key } }
      match s.rbInsert slot with
      | (some _, _) => .panic "can't insert flow\n"
      | (none, s) =>
          .ret (some slot) { s with
            mem := Function.update s.mem slot { s.mem slot with id := s.nextFlowId }
            nextFlowId := (s.nextFlowId + 1) % 2 ^ 64
            tos := s.tos ++ [slot] }

/-- `peak_track_acquire`. -/
def trackAcquire (ref : Option Ref) : Outcome :=
  match ref with
  | none => .ret none s
  | some key =>
      match s.rbFind key with
      | some slot => .ret (some slot) { s with tos := s.tos.erase slot ++ [slot] }
      | none =>
          if s.pool.empty then
            if s.noTimeout then .ret none s
            else
              match s.tos with
              | [] => .fault
              | slot :: tos =>
                  addFlow { s with
                    tos := tos
                    flows := s.flows.erase slot
                    pool := s.pool.put slot } key
          else addFlow s key

/-- `sizeof(struct peak_track)`. -/
def trackSize : Nat := 104

/-- `peak_track_init`. The slots hold whatever was in the memory. -/
def trackInit (callocOk malignOk : Bool) (mem : Nat → Flow) (nextFlowId : Nat) (maxFlows : Nat)
    (noTimeout : Bool) : Option Tracks :=
  if callocOk then
    (Pool.init malignOk maxFlows trackSize).map fun pool =>
      { mem := mem, flows := [], tos := [], noTimeout := noTimeout, pool := pool,
        nextFlowId := nextFlowId }
  else none

end Peak.Track
