import Peak.Alloc
import Peak.Jar.Memory

/-! The functions of `lib/peak_jar.c` on the memory of a shelf. A load that finds
no whole pointer or number there, because something else was written over it, is
where the model stops with `none`: the C code would run on with whatever the
bytes spell. -/
namespace Peak.Jar

open TailQueue

/-- `wrap32`. The argument is taken as a `uint32_t`. -/
def wrap32 (x : Nat) : Bool := (2 ^ 32 - 1) / 2 < x % 2 ^ 32

/-- The difference of two `unsigned int`. -/
def sub32 (x y : Nat) : Nat := (x + (2 ^ 32 - y)) % 2 ^ 32

/-- `peak_jar_write`: the offset of the reserved room and the jar with its
writer moved. -/
def write (jars : Jars) (headRoom : Nat) : Option (Nat × Jars) :=
  let newWrite := (jars.write + headRoom) % 2 ^ 64
  let free :=
    if jars.read ≤ jars.write then (jars.size + (2 ^ 64 - jars.write) + jars.read) % 2 ^ 64
    else jars.read - jars.write
  if jars.size ≤ newWrite then
    if jars.read ≤ headRoom then none else some (0, { jars with write := headRoom })
  else
    if free ≤ headRoom then none else some (jars.write, { jars with write := newWrite })

/-- `peak_jar_read`. -/
def read (s : Shelf) : Option Shelf := do
  match ← links.first s .heads with
  | none => return s
  | some head =>
      let s ← links.remove s .heads head
      let write ← s.number (head + 24) 8
      return { s with
        jars := { s.jars with
          read := write, firstSerial := (s.jars.firstSerial + 1) % 2 ^ 32 } }

/-- The serial is below that of the oldest header, by the code's comparison. -/
def Jars.stale (jars : Jars) (serial : Nat) : Bool := wrap32 (sub32 serial jars.firstSerial)

/-- The loop of `peak_jar_repair`: the item it stops at. -/
def zapLoop (c : Nat) : Nat → Nat → Shelf → Option (Nat × Shelf)
  | 0, _, _ => none
  | fuel + 1, zap, s => do
      match ← links.next s (.entry zap) with
      | none => return (zap, s)
      | some next =>
          let prevSerial ← s.number (zap + 16) 4
          if s.jars.stale prevSerial then return (zap, s)
          else
            let s ← links.insertTail s (.datas c) next
            zapLoop c fuel next s

/-- `peak_jar_repair`. -/
def repair (s : Shelf) (c : Nat) : Option Shelf := do
  match ← links.first s (.datas c) with
  | none => return s
  | some data =>
      if (← links.first s .heads) = none then return links.init s (.datas c)
      else if s.jars.stale (s.contexts c).lastSerial then return links.init s (.datas c)
      else if s.jars.stale (s.contexts c).firstSerial then
        let (zap, s) ← zapLoop c s.jars.size data (links.init s (.datas c))
        let serial ← s.number (zap + 20) 4
        return s.setContext c { s.contexts c with firstSerial := serial }
      else return s

/-- `JAR_HEAD_COUNT`. -/
def headCount : Nat := 1000

/-- How the search for a serial header ends. -/
inductive Header where
  | kept (head : Nat)
  | made (head : Nat)
  | reclaimed
deriving DecidableEq, Repr

/-- The header that the item goes under. -/
def Header.head? : Header → Option Nat
  | .kept head => some head
  | .made head => some head
  | .reclaimed => none

/-- The fields of a new serial header. -/
def initHeader (s : Shelf) (head : Nat) : Shelf :=
  let s := s.store (head + 16) (leCells 4 s.jars.lastSerial)
  let s := { s with jars := { s.jars with lastSerial := (s.jars.lastSerial + 1) % 2 ^ 32 } }
  let s := s.store (head + 24) (leCells 8 s.jars.write)
  s.store (head + 20) (leCells 4 0)

/-- Reserve and initialise a new serial header, or reclaim the oldest one. -/
def makeHeader (s : Shelf) : Option (Header × Shelf) :=
  match write s.jars 32 with
  | none => do return (.reclaimed, ← read s)
  | some (head, jars) => do
      let s ← links.insertTail { s with jars } .heads head
      return (.made head, initHeader s head)

/-- The first part of `peak_jar_pack`, from its label to the serial header. When
there is no room for a new header the oldest one is reclaimed and the part is
run again. -/
def packHeader (s : Shelf) : Option (Header × Shelf) := do
  match ← links.before s .heads with
  | none => makeHeader s
  | some head =>
      let count ← s.number (head + 20) 4
      if headCount < count then makeHeader s else return (.kept head, s)

/-- The room of an item with its header. -/
def headRoom (len : Nat) : Nat := (32 + allocAlign len 8) % 2 ^ 64

/-- Initialise the data header and copy the data. -/
def fill (s : Shelf) (head off : Nat) (data : List UInt8) : Option Shelf := do
  let s := s.store off (List.replicate 32 (.byte 0))
  let s := s.store (off + 32) (data.map .byte)
  let serial ← s.number (head + 16) 4
  let s := s.store (off + 20) (leCells 4 serial)
  return s.store (off + 24) (leCells 8 data.length)

/-- Put the item into the context. -/
def enlist (s : Shelf) (c off : Nat) : Option Shelf := do
  let first ← links.first s (.datas c)
  let serial ← s.number (off + 20) 4
  let s := if first = none then s.setContext c { s.contexts c with firstSerial := serial } else s
  let s ← links.insertHead s (.datas c) off
  let serial ← s.number (off + 20) 4
  let s := s.setContext c { s.contexts c with lastSerial := serial }
  match ← links.next s (.entry off) with
  | none => return s
  | some next =>
      let prevSerial ← s.number (next + 20) 4
      return s.store (off + 16) (leCells 4 prevSerial)

/-- Bring the serial header up to date. -/
def book (s : Shelf) (head : Nat) : Option Shelf := do
  let s := s.store (head + 24) (leCells 8 s.jars.write)
  let count ← s.number (head + 20) 4
  return s.store (head + 20) (leCells 4 (count + 1))

/-- The rest of `peak_jar_pack`: where the item went. When there is no room the
oldest header is reclaimed and the call starts over. -/
def packItem (s : Shelf) (c : Nat) (data : List UInt8) (head : Nat) :
    Option (Option Nat × Shelf) :=
  match write s.jars (headRoom data.length) with
  | none => do return (none, ← read s)
  | some (off, jars) => do
      let s ← repair { s with jars } c
      let s ← fill s head off data
      let s ← enlist s c off
      return (some off, ← book s head)

/-- What a callback answers: `JAR_RETURN`, `JAR_DROP` or `JAR_KEEP`. -/
inductive Answer where
  | back
  | drop
  | keep
deriving DecidableEq, Repr

/-- What a callback is handed: the item's place, its length and its bytes. -/
structure Delivery where
  off : Nat
  len : Nat
  cells : List Cell
deriving DecidableEq, Repr

/-- The item at an offset as a callback sees it. -/
def deliver (s : Shelf) (off : Nat) : Option Delivery := do
  let len ← s.number (off + 24) 8
  return ⟨off, len, s.cells (off + 32) len⟩

/-- The loop of `peak_jar_fifo` and `peak_jar_lifo`. The follower of an item is
found before the callback decides on it. -/
def visit (follow : Shelf → Pair → Option (Option Nat)) (c : Nat) :
    Nat → Option Nat → List Answer → Shelf → Option (List (Delivery × Answer) × Shelf)
  | _, none, _, s => some ([], s)
  | 0, some _, _, _ => none
  | fuel + 1, some data, answers, s => do
      let temp ← follow s (.entry data)
      let delivery ← deliver s data
      match answers.headD .keep with
      | .back => return ([(delivery, .back)], s)
      | .drop =>
          let s ← links.remove s (.datas c) data
          let (log, s) ← visit follow c fuel temp answers.tail s
          return ((delivery, .drop) :: log, s)
      | .keep =>
          let (log, s) ← visit follow c fuel temp answers.tail s
          return ((delivery, .keep) :: log, s)

/-- The outcome of a walk over a context: whether anything is left in it, and
what the callback was handed and answered. -/
structure Walk where
  left : Bool
  log : List (Delivery × Answer)
deriving DecidableEq, Repr

/-- Repair, visit, look whether the context is empty. -/
def walk (follow : Shelf → Pair → Option (Option Nat)) (s : Shelf) (c : Nat)
    (answers : List Answer) : Option (Walk × Shelf) := do
  let s ← repair s c
  let data ← follow s (.datas c)
  let (log, s) ← visit follow c s.jars.size data answers s
  let first ← links.first s (.datas c)
  return (⟨first.isSome, log⟩, s)

/-- `peak_jar_fifo`. -/
def fifo (s : Shelf) (c : Nat) (answers : List Answer) : Option (Walk × Shelf) :=
  walk links.before s c answers

/-- `peak_jar_lifo`. -/
def lifo (s : Shelf) (c : Nat) (answers : List Answer) : Option (Walk × Shelf) :=
  walk links.next s c answers

/-- `peak_jar_init` on memory whose bytes are `buffer`. -/
def init (size : Nat) (buffer : Nat → Cell) : Option Jars :=
  if size % 8 ≠ 0 ∨ size < 128 ∨ malignLimit < size then none
  else some ⟨⟨none, .heads⟩, 0, 0, buffer, 0, 0, size⟩

end Peak.Jar
