import Mathlib.Data.List.Sort
import Peak.Alloc
import Peak.Base.Cells

/-! The paged stream memory of `lib/peak_stream.c`. Positions are byte offsets
from `page_mem`; `size_t` values are reduced modulo 2^64 where the code
computes with them. The red-black tree of the free pages is the ordered list of
their indices. Its nodes lie in the pages themselves: magics and index are
bytes of the page memory, the link fields are cells without a known value. The
list is what the code goes by as long as nobody writes to free pages; the pool
in `Memory` goes by the nodes. -/
namespace Peak

open Cells

/-- `struct _peak_stream` together with its place in the reference pool. -/
structure Stream where
  slot : Nat
  pageCount : Int
  pageNo : Nat
  len : Nat
  buf : Nat
deriving DecidableEq, Repr

/-- `struct peak_stream_tree`: the free pages in index order. A pointer to one
of them is the list from it on. -/
structure Tree where
  pages : List Nat
  sorted : pages.Pairwise (· < ·)

namespace Tree

def empty : Tree := ⟨[], List.Pairwise.nil⟩

/-- `RB_REMOVE`. -/
def remove (tree : Tree) (page : Nat) : Tree :=
  ⟨tree.pages.erase page, tree.sorted.sublist List.erase_sublist⟩

/-- `RB_FIND`: the pages from an index on, none if that page is not free. -/
def find (tree : Tree) (index : Int) : List Nat := tree.pages.dropWhile fun page => (page : Int) ≠ index

theorem nodup (tree : Tree) : tree.pages.Nodup := tree.sorted.imp Nat.ne_of_lt

theorem orderedInsert_sorted {page : Nat} {pages : List Nat} (hSorted : pages.Pairwise (· < ·))
    (hFresh : page ∉ pages) : (pages.orderedInsert (· ≤ ·) page).Pairwise (· < ·) := by
  induction pages with
  | nil => simp
  | cons head rest ih =>
      rw [List.pairwise_cons] at hSorted
      rw [List.mem_cons, not_or] at hFresh
      rw [List.orderedInsert_cons]
      split_ifs with hLe
      · refine List.pairwise_cons.mpr ⟨?_, List.pairwise_cons.mpr hSorted⟩
        intro other hOther
        rcases List.mem_cons.mp hOther with rfl | hRest
        · omega
        · have := hSorted.1 other hRest
          omega
      · refine List.pairwise_cons.mpr ⟨?_, ih hSorted.2 hFresh.2⟩
        intro other hOther
        rcases List.mem_orderedInsert (r := (· ≤ ·)).mp hOther with rfl | hRest
        · omega
        · exact hSorted.1 other hRest

/-- `RB_INSERT`: nothing on a duplicate. -/
def insert (tree : Tree) (page : Nat) : Option Tree :=
  if hFresh : page ∉ tree.pages then
    some ⟨tree.pages.orderedInsert (· ≤ ·) page, orderedInsert_sorted tree.sorted hFresh⟩
  else none

end Tree

/-- The ways the code stops the program: its own panics, and two pointers that
would be null. -/
inductive Panic where
  | pageTrashed
  | duplicatedPage
  | noReferences
  | nullPage
  | nullReference
deriving DecidableEq, Repr

/-- `sizeof(struct peak_stream_page)`: magic, index, four link fields and the
place holder of the second magic. -/
def pageHeaderSize : Nat := 56

/-- `struct peak_streams`. The last four fields are what
`peak_stream_init` and `malign` check. -/
structure Streams where
  pageTree : Tree
  references : List Nat
  pageCount : Nat
  pageSize : Nat
  pageMem : Nat → Option UInt8
  nonempty : pageCount ≠ 0
  aligned : pageSize % 8 = 0
  large : pageHeaderSize ≤ pageSize
  fits : pageCount * pageSize ≤ malignLimit

/-- The eight bytes of a 64-bit value, least significant first. -/
def le64 (value : Nat) : List (Option UInt8) :=
  (List.range 8).map fun i => some (UInt8.ofNat (value / 256 ^ i))

def streamMagic : Nat := 0xEF05BA06CD07FA08

namespace Streams

/-- `STREAM_PAGE`. -/
def page (pool : Streams) (no : Nat) : Nat := no * pool.pageSize

/-- `STREAM_TAIL`. -/
def tail (pool : Streams) (no : Nat) : Nat := pool.page no + pool.pageSize - 8

/-- `STREAM_SETUP`. -/
def setup (pool : Streams) (no : Nat) : Streams :=
  { pool with
    pageMem := write (write (write pool.pageMem (pool.tail no) (le64 streamMagic))
      (pool.page no) (le64 streamMagic)) (pool.page no + 8) (le64 no) }

/-- The condition of `STREAM_CHECK`. -/
def intact (pool : Streams) (no : Nat) : Bool :=
  read pool.pageMem (pool.page no) 8 == le64 streamMagic &&
    read pool.pageMem (pool.tail no) 8 == le64 streamMagic

/-- What a tree operation may leave behind: the link fields of the listed pages
have some new value. -/
def relink (pool : Streams) (pages : List Nat) : Nat → Option UInt8 := fun i =>
  if i / pool.pageSize ∈ pages ∧ 16 ≤ i % pool.pageSize ∧ i % pool.pageSize < 48 then none
  else pool.pageMem i

/-- `RB_REMOVE` on the pool. -/
def remove (pool : Streams) (no : Nat) : Streams :=
  { pool with
    pageTree := pool.pageTree.remove no
    pageMem := pool.relink pool.pageTree.pages }

/-- The loop of `peak_stream_probe`. -/
def probeFrom (base : Nat) (stop : Int) : Nat → List Nat → Nat
  | count, [] => count
  | count, next :: rest =>
      if (count : Int) = stop then count
      else if next ≠ base + count then count
      else probeFrom base stop (count + 1) rest

/-- `peak_stream_probe`: the number of consecutive pages, at most `stop`. -/
def probe (stop : Int) : List Nat → Nat
  | [] => 0
  | base :: rest => probeFrom base stop 0 (base :: rest)

/-- `peak_stream_unhook`, for a number of pages that is not negative. -/
def unhook (pool : Streams) : List Nat → Nat → Except Panic Streams
  | _, 0 => .ok pool
  | [], _ + 1 => .error .nullPage
  | no :: rest, count + 1 =>
      if pool.intact no then (pool.remove no).unhook rest count else .error .pageTrashed

/-- `__peak_stream_reclaim`: take the pages right behind the stream. A negative
number of pages always succeeds and takes none. -/
def reclaimPages (pool : Streams) (stream : Stream) (pageCount : Int) :
    Except Panic (Option (Nat × Streams)) :=
  let pages := pool.pageTree.find (stream.pageNo + stream.pageCount)
  if pageCount > probe pageCount pages then .ok none
  else do
    let pool ← pool.unhook pages pageCount.toNat
    return some (stream.pageNo, pool)

/-- The loop of `__peak_stream_claim`, with the number of pages still to move
past. -/
def search (pageCount : Int) : Nat → List Nat → Option (Nat × List Nat)
  | _, [] => none
  | skip + 1, _ :: rest => search pageCount skip rest
  | 0, no :: rest =>
      if pageCount ≤ probe pageCount (no :: rest) then some (no, rest)
      else search pageCount (probe pageCount (no :: rest) - 1) rest

/-- `__peak_stream_claim`: take the first pages that are free in a row. -/
def claimPages (pool : Streams) (pageCount : Int) : Except Panic (Option (Nat × Streams)) :=
  match search pageCount 0 pool.pageTree.pages with
  | none => .ok none
  | some (no, rest) => do
      let pool ← pool.unhook (no :: rest) pageCount.toNat
      return some (no, pool)

/-- `peak_stream_get`. -/
def get (pool : Streams) : Except Panic (Streams × Stream) :=
  match pool.references with
  | [] => .error .noReferences
  | slot :: rest => .ok ({ pool with references := rest }, ⟨slot, 0, 0, 0, 0⟩)

/-- `peak_stream_put`. -/
def put (pool : Streams) (stream : Stream) : Streams :=
  { pool with references := stream.slot :: pool.references }

/-- The number of pages that `_peak_stream_claim` wants for a size. -/
def pagesFor (pool : Streams) (size : Nat) : Nat := allocAlign size pool.pageSize / pool.pageSize

/-- The pages a stream lacks to hold `size` more bytes. -/
def lacking (pool : Streams) (stream : Stream) (size : Nat) : Int :=
  pool.pagesFor ((size + stream.len) % 2 ^ 64) - stream.pageCount

/-- The common end of `_peak_stream_claim`: the buffer starts at the page
start. -/
def extend (pool : Streams) (stream : Stream) (pageNo : Nat) (pageCount : Int) (size : Nat) :
    Stream :=
  { stream with
    buf := pool.page pageNo
    pageCount := stream.pageCount + pageCount
    pageNo := pageNo
    len := (stream.len + size) % 2 ^ 64 }

/-- `_peak_stream_claim`. -/
def claimDirect (pool : Streams) (ref : Option Stream) (size : Nat) :
    Except Panic (Bool × Streams × Option Stream) :=
  if size = 0 then .ok (true, pool, ref)
  else
    match ref with
    | none =>
        if pool.pageTree.pages = [] then .ok (false, pool, none)
        else do
          let pageCount := pool.pagesFor size
          match ← pool.claimPages pageCount with
          | none => return (false, pool, none)
          | some (pageNo, pool) =>
              let (pool, stream) ← pool.get
              return (true, pool, some (pool.extend stream pageNo pageCount size))
    | some stream =>
        let pageCount := pool.lacking stream size
        if pageCount = 0 then
          .ok (true, pool, some { stream with len := (stream.len + size) % 2 ^ 64 })
        else do
          match ← pool.reclaimPages stream pageCount with
          | none => return (false, pool, some stream)
          | some (pageNo, pool) =>
              return (true, pool, some (pool.extend stream pageNo pageCount size))

/-- `_peak_stream_release`: one page goes back to the tree. -/
def releasePage (pool : Streams) (no : Nat) : Except Panic Streams :=
  let pool := pool.setup no
  match pool.pageTree.insert no with
  | none => .error .duplicatedPage
  | some tree =>
      .ok { pool with pageTree := tree, pageMem := pool.relink tree.pages }

/-- The loop of `peak_stream_release`. The last argument bounds its passes:
every pass lowers `size_adj + size` by one page. -/
def releaseLoop (sizeAdj : Nat) (pool : Streams) (stream : Stream) (size : Nat) :
    Nat → Except Panic (Streams × Stream × Nat)
  | 0 => .ok (pool, stream, size)
  | passes + 1 =>
      if stream.pageCount ≠ 0 ∧ pool.pageSize ≤ (sizeAdj + size) % 2 ^ 64 then do
        let pool ← pool.releasePage stream.pageNo
        let stream :=
          { stream with
            buf := (stream.buf + pool.pageSize) % 2 ^ 64
            len := (stream.len + 2 ^ 64 - pool.pageSize) % 2 ^ 64
            pageCount := stream.pageCount - 1
            pageNo := stream.pageNo + 1 }
        releaseLoop sizeAdj pool stream ((size + 2 ^ 64 - pool.pageSize) % 2 ^ 64) passes
      else .ok (pool, stream, size)

/-- The offset of the buffer in its first page. -/
def sizeAdj (pool : Streams) (stream : Stream) : Nat :=
  (stream.buf + 2 ^ 64 - pool.page stream.pageNo % 2 ^ 64) % 2 ^ 64

/-- `peak_stream_release`. -/
def release (pool : Streams) (ref : Option Stream) (size : Nat) :
    Except Panic (Streams × Option Stream) :=
  if size = 0 then .ok (pool, ref)
  else
    match ref with
    | none => .ok (pool, none)
    | some stream => do
        let sizeAdj := pool.sizeAdj stream
        let (pool, stream, size) ←
          releaseLoop sizeAdj pool stream size ((sizeAdj + size) % 2 ^ 64 / pool.pageSize)
        let stream :=
          { stream with
            buf := (stream.buf + size) % 2 ^ 64
            len := (stream.len + 2 ^ 64 - size) % 2 ^ 64 }
        if stream.len = 0 then return (pool.put stream, none) else return (pool, some stream)

/-- `memcpy` within the page memory. -/
def copy (pool : Streams) (dst src len : Nat) : Streams :=
  { pool with pageMem := write pool.pageMem dst (read pool.pageMem src len) }

/-- `peak_stream_claim`. -/
def claim (pool : Streams) (ref : Option Stream) (size : Nat) :
    Except Panic (Bool × Streams × Option Stream) := do
  match ← pool.claimDirect ref size with
  | (true, pool, ref) => return (true, pool, ref)
  | (false, pool, none) => return (false, pool, none)
  | (false, pool, some stream) =>
      match ← pool.claimDirect none ((stream.len + size) % 2 ^ 64) with
      | (false, pool, _) => return (false, pool, some stream)
      | (true, _, none) => throw .nullReference
      | (true, pool, some retry) =>
          let (pool, _) ← (pool.copy retry.buf stream.buf stream.len).release (some stream) stream.len
          return (true, pool, some retry)

/-- `peak_stream_init`. Whether the system grants the memory is an argument; a
count or size that the code refuses gives no pool either way. -/
def init (pageCount pageSize : Nat) (granted : Bool) : Except Panic (Option Streams) :=
  if h : pageCount ≠ 0 ∧ pageSize % 8 = 0 ∧ pageHeaderSize ≤ pageSize ∧
      pageCount * pageSize ≤ malignLimit ∧ granted then do
    let pool ← (List.range pageCount).foldlM releasePage
      { pageTree := Tree.empty
        references := List.range pageCount
        pageCount := pageCount
        pageSize := pageSize
        pageMem := fun _ => none
        nonempty := h.1
        aligned := h.2.1
        large := h.2.2.1
        fits := h.2.2.2.1 }
    return some pool
  else .ok none

end Streams

end Peak
