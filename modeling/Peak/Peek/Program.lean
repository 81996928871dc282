import Peak.Flowsplit.Flows
import Peak.Li.Apps
import Peak.Timeslice

/-! `bin/peek/peek.c`: a line for every packet of a trace that can be dissected, with
what its flow is known to be. Memory for the loader and the tracker is there. -/
namespace Peak.Peek

open Load Track Clock

/-- What an option asks for. -/
inductive Use where
  | app
  | appLen
  | flow
  | ipLen
  | ipType
  | time
  | src
  | dst
deriving DecidableEq

/-- The cells of `use_print`. -/
def useMax : Nat := 8

/-- The letters for `getopt`. -/
def Use.ofLetter : Char → Option Use
  | 'A' => some .appLen
  | 'a' => some .app
  | 'd' => some .dst
  | 'f' => some .flow
  | 'N' => some .ipLen
  | 'n' => some .ipType
  | 's' => some .src
  | 't' => some .time
  | _ => none

/-- How the process ended. Something that C does not define is `undefined`. -/
inductive Ending where
  | finished
  | usage
  | panicked (message : String)
  | crashed
  | undefined
deriving DecidableEq

/-- The options of `main` one after another. One more than there are cells for is stored
behind the last cell before it is counted. -/
def parseOptions : List Use → List Char → Except Ending (List Use)
  | uses, [] => .ok uses
  | uses, c :: rest =>
      match Use.ofLetter c with
      | none => .error .usage
      | some use => if uses.length = useMax then .error .undefined else parseOptions (uses ++ [use]) rest

/-- What is printed without options. -/
def defaultUses : List Use := [.time, .flow, .ipType, .ipLen, .src, .dst, .app]

/-- A part of a line, as the values that go into its format string. An address comes
with brackets if it may be taken for one with its port. -/
inductive Field (tm : Type) where
  | app (number : Nat)
  | appLen (len : Nat)
  | flow (id : Nat)
  | ipLen (len : Nat)
  | ipType (type : Nat)
  | time (gmt : tm) (usec : Int)
  | src (brackets : Bool) (addr : List UInt8) (port : Nat)
  | dst (brackets : Bool) (addr : List UInt8) (port : Nat)
deriving DecidableEq

/-- `peak_li_merge`. -/
def merge (li : Nat × Nat) : Nat :=
  let ret := max li.1 li.2
  if ret = Li.App.undefined.number ∧ (li.1 = Li.App.unknown.number ∨ li.2 = Li.App.unknown.number) then
    Li.App.unknown.number
  else ret

variable {tm : Type}

/-- A round of the loop of `peek_report`. -/
def field (packet : Packet) (flow : Flow) (timer : Timeslice tm) : Use → Field tm
  | .app => .app (merge flow.li)
  | .appLen => .appLen packet.appLen
  | .flow => .flow flow.id
  | .ipLen => .ipLen packet.netLen
  | .ipType => .ipType packet.netType
  | .time => .time timer.gmt timer.tv.tvUsec
  | .src => .src (packet.netFamily == Packet.afInet6 && packet.flowSport != 0) packet.netSaddr packet.flowSport
  | .dst => .dst (packet.netFamily == Packet.afInet6 && packet.flowDport != 0) packet.netDaddr packet.flowDport

/-- `peek_report`. -/
def report (uses : List Use) (packet : Packet) (flow : Flow) (timer : Timeslice tm) : List (Field tm) :=
  uses.map (field packet flow timer)

/-- The side of a flow that a packet comes from. -/
def side (packet : Packet) (key : Ref) : Bool := netcmp packet.netSaddr key.1.addr₀ != .eq

/-- What is known about a side of a flow stays, or is found out. The cell has 16 bits. -/
def setSide (dir : Bool) (li : Nat × Nat) (found : Nat) : Nat × Nat :=
  if dir then (li.1, if li.2 = 0 then found % 2 ^ 16 else li.2)
  else (if li.1 = 0 then found % 2 ^ 16 else li.1, li.2)

/-- What `peek_packet` did: it returned, maybe with a line, or it ended the process. -/
inductive Verdict (tm : Type) where
  | returned (line : Option (List (Field tm))) (peek : Tracks)
  | ended (ending : Ending)

/-- `peek_packet`. There is no verdict while the dissector has not returned. -/
def peekPacket (fuel : Nat) (uses : List Use) (peek : Tracks) (timer : Timeslice tm) (buf : ByteImage.Image)
    (len type : Nat) : Option (Verdict tm) :=
  match Packet.parse fuel buf len type with
  | none => none
  | some (ret, packet) =>
      if ret ≠ 0 ∨ packet.netLen = 0 then some (.returned none peek)
      else
        match trackAcquire peek (some (Flowsplit.trackRef packet)) with
        | .ret none _ => some (.ended (.panicked "tracker is empty\n"))
        | .ret (some slot) peek =>
            let flow := peek.mem slot
            let flow := { flow with li := setSide (side packet flow.key) flow.li (Li.get (Li.seen buf packet)) }
            some (.returned (some (report uses packet flow timer))
              { peek with mem := Function.update peek.mem slot flow })
        | .panic message => some (.ended (.panicked message))
        | .fault => some (.ended .crashed)

/-- The variables of `main`, and the lines that were printed. -/
structure State (tm : Type) where
  trace : Loader
  peek : Tracks
  timer : Timeslice tm
  lines : List (List (Field tm))

/-- What the process leaves behind. -/
structure Exit (tm : Type) where
  ending : Ending
  lines : List (List (Field tm))

def State.exit (s : State tm) (ending : Ending) : Exit tm := ⟨ending, s.lines⟩

/-- The time stamp of the packet in the loader. -/
def stamp (trace : Loader) : Timeval := ⟨trace.tsSec, trace.tsUsec⟩

section Main

variable (fuel : Nat) (memory : Nat → UInt8) (localtime gmtime : Int → Option tm) (uses : List Use)

/-- The loop of `main` with a packet in the loader, for at most so many packets. -/
def loop : Nat → State tm → Option (Exit tm)
  | 0, _ => none
  | calls + 1, s =>
      match advance localtime gmtime s.timer (stamp s.trace) with
      | none => some (s.exit .undefined)
      | some timer =>
          match peekPacket fuel uses s.peek timer (Flowsplit.image memory s.trace.buf) s.trace.len s.trace.ll with
          | none => none
          | some (.ended ending) => some (s.exit ending)
          | some (.returned line peek) =>
              let s := { s with peek := peek, timer := timer, lines := s.lines ++ line.toList }
              match packet fuel s.trace with
              | .again _ => none
              | .done trace => if trace.len = 0 then some (s.exit .finished) else loop calls { s with trace := trace }

/-- `main` behind the options, on a trace with the given contents. -/
def peek (calls : Nat) (zero : tm) (slots : Nat → Flow) (contents : List UInt8) : Option (Exit tm) :=
  match Load.init true true true contents with
  | none => some ⟨.panicked "cannot init file loader\n", []⟩
  | some trace =>
      match trackInit true true slots 0 10000 true with
      | none => some ⟨.panicked "cannot init flow tracker\n", []⟩
      | some peek =>
          match packet fuel trace with
          | .again _ => none
          | .done trace =>
              if trace.len = 0 then some ⟨.finished, []⟩
              else
                match calibrate (init zero) (stamp trace) with
                | none => some ⟨.undefined, []⟩
                | some timer => loop fuel memory localtime gmtime uses calls ⟨trace, peek, timer, []⟩

/-- `main`, with the letters of its options. -/
def main (calls : Nat) (zero : tm) (slots : Nat → Flow) (letters : List Char) (contents : List UInt8) :
    Option (Exit tm) :=
  match parseOptions [] letters with
  | .error ending => some ⟨ending, []⟩
  | .ok [] => peek fuel memory localtime gmtime defaultUses calls zero slots contents
  | .ok uses => peek fuel memory localtime gmtime uses calls zero slots contents

end Main

end Peak.Peek
