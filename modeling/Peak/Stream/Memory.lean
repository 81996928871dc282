import Peak.Base.Bytes
import Peak.Base.TreeSet
import Peak.Base.Traversal
import Peak.Base.Words
import Peak.Stream.Session

/-! The stream pool of `lib/peak_stream.c` in the memory that it runs in: the
free pages are the nodes of a red-black tree, and magics, index and links of a
node lie in the page itself, where a client may get at them. What the links are
is only known as long as nobody but the tree has written there; a call that
would follow others is not followed further. -/
namespace Peak.Streams

open Cells Words

/-- What stops a call: a panic, or that it would use what is not known or lies
outside of the page memory. -/
inductive Stop where
  | panic (e : Panic)
  | undefined
deriving DecidableEq, Repr

/-- `STREAM_CMP`. The functions of `sys/tree.h` keep the difference as an
`int`. -/
def streamCmp (x y : Int) : Ordering := compare (Int.bmod (x - y) (2 ^ 32)) 0

/-- `struct peak_streams`. The cells of the tree are the link fields of the
pages, as the tree has left them. -/
structure Memory where
  tree : RedBlack.Store Nat Int
  references : List Nat
  pageCount : Nat
  pageSize : Nat
  pageMem : Nat → Option UInt8
  nonempty : pageCount ≠ 0
  aligned : pageSize % 8 = 0
  large : pageHeaderSize ≤ pageSize
  fits : pageCount * pageSize ≤ malignLimit

namespace Memory

/-- The pool if these pages were the free ones. -/
def listing (self : Memory) (pages : Tree) : Streams where
  pageTree := pages
  references := self.references
  pageCount := self.pageCount
  pageSize := self.pageSize
  pageMem := self.pageMem
  nonempty := self.nonempty
  aligned := self.aligned
  large := self.large
  fits := self.fits

/-- The pool for all that does not depend on the tree. -/
def area (self : Memory) : Streams := self.listing Tree.empty

/-- As many rounds as any loop over the tree takes. -/
def rounds (self : Memory) : Nat := 2 * self.pageCount + 2

/-- The free pages, from left to right. -/
def pages (self : Memory) : List Nat := self.tree.elements self.rounds self.tree.root

/-- `page->index`, which is a `ssize_t`. -/
def index (self : Memory) (no : Nat) : Option Int :=
  ((read self.pageMem (self.area.page no + 8) 8).mapM id).map fun bytes => signed (Bytes.le bytes)

/-- The link fields of a page are those of the tree. -/
def linked (self : Memory) (no : Nat) : Bool :=
  (read self.pageMem (self.area.page no + 16) 32).all fun byte => byte == none

/-- All nodes of the tree can be followed and compared. -/
def readable (self : Memory) : Bool := self.pages.all fun no => self.linked no && (self.index no).isSome

/-- The tree with the indices that its nodes have. -/
def nodes (self : Memory) : RedBlack.Store Nat Int :=
  { self.tree with cells := fun no => { self.tree.cells no with data := (self.index no).getD 0 } }

/-- What a function of `sys/tree.h` gives on the pool. -/
def onTree {α : Type} (self : Memory) (f : RedBlack.Store Nat Int → Option α) : Except Stop α :=
  if self.readable then
    match f self.nodes with
    | some result => .ok result
    | none => .error .undefined
  else .error .undefined

/-- The pool after the tree has written to the links of these pages. -/
def relinked (self : Memory) (tree : RedBlack.Store Nat Int) (pages : List Nat) : Memory :=
  { self with tree := tree, pageMem := self.area.relink pages }

/-- `RB_MIN`. -/
def min (self : Memory) : Except Stop (Option Nat) := self.onTree fun s => s.min self.rounds

/-- `RB_FIND`. -/
def find (self : Memory) (index : Int) : Except Stop (Option Nat) :=
  self.onTree fun s => s.find streamCmp self.rounds index

/-- `RB_NEXT`. -/
def next (self : Memory) (page : Nat) : Except Stop (Option Nat) :=
  self.onTree fun s => s.next self.rounds page

/-- `RB_REMOVE`. -/
def remove (self : Memory) (page : Nat) : Except Stop Memory := do
  let tree ← self.onTree fun s => s.remove self.rounds page
  return self.relinked tree self.pages

/-- `page->index`, if it is known. -/
def indexOf (self : Memory) (page : Nat) : Except Stop Int :=
  match self.index page with
  | some index => .ok index
  | none => .error .undefined

/-- The loop of `peak_stream_probe`. -/
def probeFrom (self : Memory) (base stop : Int) : Nat → Option Nat → Nat → Except Stop Nat
  | _, none, count => .ok count
  | 0, some _, _ => .error .undefined
  | fuel + 1, some next, count =>
      if (count : Int) = stop then .ok count
      else do
        if (← self.indexOf next) ≠ base + count then return count
        else self.probeFrom base stop fuel (← self.next next) (count + 1)

/-- `peak_stream_probe`. -/
def probe (self : Memory) (base : Option Nat) (stop : Int) : Except Stop Nat :=
  match base with
  | none => .ok 0
  | some page => do self.probeFrom (← self.indexOf page) stop self.rounds base 0

/-- `peak_stream_unhook`, for a number of pages that is not negative. -/
def unhook : Nat → Memory → Option Nat → Except Stop Memory
  | 0, self, _ => .ok self
  | _ + 1, _, none => .error (.panic .nullPage)
  | count + 1, self, some page =>
      if self.area.intact page then do
        let next ← self.next page
        unhook count (← self.remove page) next
      else .error (.panic .pageTrashed)

/-- `__peak_stream_reclaim`. -/
def reclaimPages (self : Memory) (stream : Stream) (pageCount : Int) :
    Except Stop (Option (Int × Memory)) := do
  let page ← self.find (stream.pageNo + stream.pageCount)
  if pageCount > (← self.probe page pageCount) then return none
  else return some (stream.pageNo, ← unhook pageCount.toNat self page)

/-- Move past pages with `RB_NEXT`. -/
def advance (self : Memory) : Nat → Option Nat → Except Stop (Option Nat)
  | 0, page => .ok page
  | _ + 1, none => .error (.panic .nullPage)
  | count + 1, some page => do self.advance count (← self.next page)

/-- The loop of `__peak_stream_claim`: the page where it found a spot. -/
def search (self : Memory) (pageCount : Int) :
    Nat → Option Nat → Except Stop (Option (Option Nat))
  | 0, _ => .error .undefined
  | fuel + 1, page => do
      let i ← self.probe page pageCount
      if pageCount ≤ i then return some page
      else
        match ← self.advance i page with
        | none => return none
        | some page => self.search pageCount fuel (some page)

/-- `__peak_stream_claim`. It returns the index that the first page has in the
end. -/
def claimPages (self : Memory) (pageCount : Int) : Except Stop (Option (Int × Memory)) := do
  match ← self.search pageCount self.rounds (← self.min) with
  | none => return none
  | some page => do
      let self ← unhook pageCount.toNat self page
      match page with
      | none => throw (.panic .nullPage)
      | some page => return some (← self.indexOf page, self)

/-- `peak_stream_get`. -/
def get (self : Memory) : Except Stop (Memory × Stream) :=
  match self.references with
  | [] => .error (.panic .noReferences)
  | slot :: rest => .ok ({ self with references := rest }, ⟨slot, 0, 0, 0, 0⟩)

/-- `peak_stream_put`. -/
def put (self : Memory) (stream : Stream) : Memory :=
  { self with references := stream.slot :: self.references }

/-- The end of `_peak_stream_claim`, with the page number that was returned. A
stream outside of the page memory is not followed. -/
def deal (self : Memory) (ref : Option Stream) (pageNo pageCount : Int) (size : Nat) :
    Except Stop (Bool × Memory × Option Stream) :=
  if pageNo = -1 then .ok (false, self, ref)
  else if 0 ≤ pageNo ∧ pageNo < self.pageCount then do
    let (self, stream) ← match ref with
      | some stream => pure (self, stream)
      | none => self.get
    return (true, self, some (self.area.extend stream pageNo.toNat pageCount size))
  else .error .undefined

/-- `_peak_stream_claim`. -/
def claimDirect (self : Memory) (ref : Option Stream) (size : Nat) :
    Except Stop (Bool × Memory × Option Stream) :=
  if size = 0 then .ok (true, self, ref)
  else
    match ref with
    | none =>
        if self.tree.root = none then .ok (false, self, none)
        else do
          let pageCount := self.area.pagesFor size
          match ← self.claimPages pageCount with
          | none => return (false, self, none)
          | some (pageNo, self) => self.deal none pageNo pageCount size
    | some stream =>
        let pageCount := self.area.lacking stream size
        if pageCount = 0 then
          .ok (true, self, some { stream with len := (stream.len + size) % 2 ^ 64 })
        else do
          match ← self.reclaimPages stream pageCount with
          | none => return (false, self, some stream)
          | some (pageNo, self) => self.deal (some stream) pageNo pageCount size

/-- `STREAM_SETUP`. -/
def setup (self : Memory) (no : Nat) : Memory :=
  { self with pageMem := (self.area.setup no).pageMem }

/-- `_peak_stream_release`. -/
def releasePage (self : Memory) (no : Nat) : Except Stop Memory :=
  if no < self.pageCount then do
    let self := self.setup no
    match ← self.onTree fun s => s.insert streamCmp self.rounds no with
    | .error _ => throw (.panic .duplicatedPage)
    | .ok tree => return self.relinked tree (tree.elements self.rounds tree.root)
  else .error .undefined

/-- The loop of `peak_stream_release`, in at most so many passes. -/
def releaseLoop (sizeAdj : Nat) (self : Memory) (stream : Stream) (size : Nat) :
    Nat → Except Stop (Memory × Stream × Nat)
  | 0 => .ok (self, stream, size)
  | passes + 1 =>
      if stream.pageCount ≠ 0 ∧ self.pageSize ≤ (sizeAdj + size) % 2 ^ 64 then do
        let self ← self.releasePage stream.pageNo
        let stream :=
          { stream with
            buf := (stream.buf + self.pageSize) % 2 ^ 64
            len := (stream.len + 2 ^ 64 - self.pageSize) % 2 ^ 64
            pageCount := stream.pageCount - 1
            pageNo := stream.pageNo + 1 }
        releaseLoop sizeAdj self stream ((size + 2 ^ 64 - self.pageSize) % 2 ^ 64) passes
      else .ok (self, stream, size)

/-- The end of `peak_stream_release`: the rest of the size, and the reference if
no data is left. -/
def mopUp (self : Memory) (stream : Stream) (size : Nat) : Memory × Option Stream :=
  let stream :=
    { stream with
      buf := (stream.buf + size) % 2 ^ 64
      len := (stream.len + 2 ^ 64 - size) % 2 ^ 64 }
  if stream.len = 0 then (self.put stream, none) else (self, some stream)

/-- `peak_stream_release`. -/
def release (self : Memory) (ref : Option Stream) (size : Nat) :
    Except Stop (Memory × Option Stream) :=
  if size = 0 then .ok (self, ref)
  else
    match ref with
    | none => .ok (self, none)
    | some stream => do
        let sizeAdj := self.area.sizeAdj stream
        let (self, stream, size) ←
          releaseLoop sizeAdj self stream size ((sizeAdj + size) % 2 ^ 64 / self.pageSize)
        return self.mopUp stream size

/-- A store of these cells to the page memory. -/
def store (self : Memory) (dst : Nat) (cells : List (Option UInt8)) : Memory :=
  { self with pageMem := write self.pageMem dst cells }

/-- `peak_stream_claim`. -/
def claim (self : Memory) (ref : Option Stream) (size : Nat) :
    Except Stop (Bool × Memory × Option Stream) := do
  match ← self.claimDirect ref size with
  | (true, self, ref) => return (true, self, ref)
  | (false, self, none) => return (false, self, none)
  | (false, self, some stream) =>
      match ← self.claimDirect none ((stream.len + size) % 2 ^ 64) with
      | (false, self, _) => return (false, self, some stream)
      | (true, _, none) => throw (.panic .nullReference)
      | (true, self, some retry) =>
          let copied := self.store retry.buf (read self.pageMem stream.buf stream.len)
          let (self, _) ← copied.release (some stream) stream.len
          return (true, self, some retry)

/-- `peak_stream_init`. -/
def init (pageCount pageSize : Nat) (granted : Bool) : Except Stop (Option Memory) :=
  if h : (pageCount ≠ 0 ∧ pageSize % 8 = 0 ∧ pageHeaderSize ≤ pageSize ∧
      pageCount * pageSize ≤ malignLimit) ∧ granted then do
    let self ← (List.range pageCount).foldlM releasePage
      { tree := ⟨fun _ => ⟨none, none, none, .black, 0⟩, none⟩
        references := List.range pageCount
        pageCount := pageCount
        pageSize := pageSize
        pageMem := fun _ => none
        nonempty := h.1.1
        aligned := h.1.2.1
        large := h.1.2.2.1
        fits := h.1.2.2.2 }
    return some self
  else .ok none

end Memory

end Peak.Streams
