import Peak.Base.Cells
import Peak.Base.Ordered

/-! `include/peak_page.h`: a sorted list whose elements lie in pages. A page is
a counter and an array of `num` elements; the array is memory here, so elements
behind the counter are whatever was left there. -/
namespace Peak.PagedList

open Ordered Std

/-- `PAGE_DECLARE`, without the link to the next page. The counter is at most the
length of the array, so it does not wrap around as long as that is an `unsigned
int` itself, `num` below 2^32. -/
structure Page (α : Type*) where
  count : Nat
  list : Nat → α

/-- A pointer to an element: its page, counted from the root, and its place
in there. -/
structure Spot where
  page : Nat
  pos : Nat
deriving DecidableEq, Repr

section Model

variable {α : Type*} (cmp : α → α → Ordering)

/-- The inner loop of `PAGE_FIND`. -/
def findIn (x : α) (p : Page α) (k : Nat) : Nat → Nat → Option Spot
  | 0, _ => none
  | left + 1, i => if cmp x (p.list i) = .eq then some ⟨k, i⟩ else findIn x p k left (i + 1)

/-- `PAGE_FIND`, from the page with number `k` on. -/
def find (x : α) : List (Page α) → Nat → Option Spot
  | [], _ => none
  | p :: rest, k =>
      if cmp x (p.list 0) = .lt then none
      else if cmp x (p.list (p.count - 1)) = .gt then find x rest (k + 1)
      else findIn cmp x p k p.count 0

/-- What the search of `PAGE_INSERT` ends with: `_elem` and `_ret`. -/
structure Search where
  elem : Option Spot
  ret : Option Spot
deriving DecidableEq, Repr

/-- The inner loop of the search in `PAGE_INSERT`. -/
def searchIn (x : α) (p : Page α) (k : Nat) : Nat → Nat → Search
  | 0, _ => ⟨none, none⟩
  | left + 1, i =>
      match cmp x (p.list i) with
      | .eq => ⟨some ⟨k, i⟩, some ⟨k, i⟩⟩
      | .lt => ⟨some ⟨k, i⟩, none⟩
      | .gt => searchIn x p k left (i + 1)

/-- The search of `PAGE_INSERT`, from the page with number `k` on. -/
def search (x : α) : List (Page α) → Nat → Search
  | [], _ => ⟨none, none⟩
  | p :: rest, k =>
      if cmp x (p.list 0) = .lt then ⟨some ⟨k, 0⟩, none⟩
      else if cmp x (p.list (p.count - 1)) = .gt then search x rest (k + 1)
      else searchIn cmp x p k p.count 0

/-- `PAGE_MAX`, one position further. -/
def pastEnd (pages : List (Page α)) : Option Spot :=
  pages.getLast?.map fun p => ⟨pages.length - 1, p.count - 1 + 1⟩

/-- The last part of `PAGE_INSERT`: make room for the element and store it. -/
def Page.put (p : Page α) (x : α) (pos : Nat) : Page α :=
  let list :=
    if pos < p.count then Cells.write p.list (pos + 1) (Cells.read p.list pos (p.count - pos))
    else p.list
  ⟨p.count + 1, Cells.write list pos [x]⟩

/-- The element is put at its place in a page that has room. -/
def putAt (x : α) (spot : Spot) (pages : List (Page α)) : List (Page α) :=
  pages.modify spot.page fun p => p.put x spot.pos

/-- The old page of a split: only the counter changes. -/
def Page.keep (p : Page α) (stay : Nat) : Page α := ⟨stay, p.list⟩

/-- The new page of a split: the elements from `stay` on are moved into it. -/
def Page.spill (p : Page α) (garbage : Nat → α) (stay move : Nat) : Page α :=
  ⟨move, Cells.write garbage 0 (Cells.read p.list stay move)⟩

/-- The biased split of a full page: where the element goes then, and the pages
with the new one hooked up behind the full one. -/
def split (num : Nat) (garbage : Nat → α) (spot : Spot) (p : Page α) (pages : List (Page α)) :
    Spot × List (Page α) :=
  let half := (num + 1) / 2
  let stay := if half ≤ spot.pos then half else p.count - half
  let move := if half ≤ spot.pos then p.count - half else half
  let new := p.spill garbage stay move
  let pages := (pages.set spot.page (p.keep stay)).insertIdx (spot.page + 1) new
  (if half ≤ spot.pos then ⟨spot.page + 1, spot.pos - half⟩ else spot, pages)

/-- `PAGE_INSERT`: the element that is returned and the pages afterwards. The
memory of a new page holds anything; `none` stands for a failed allocation. -/
def insert (num : Nat) (alloc : Option (Nat → α)) (x : α) (pages : List (Page α)) :
    Option Spot × List (Page α) :=
  let found := search cmp x pages 0
  match found.ret, found.elem.or (pastEnd pages) with
  | some spot, _ => (some spot, pages)
  | none, none =>
      match alloc with
      | none => (none, pages)
      | some garbage => (some ⟨0, 0⟩, putAt x ⟨0, 0⟩ [⟨0, garbage⟩])
  | none, some spot =>
      match pages[spot.page]? with
      | none => (none, pages)
      | some p =>
          if p.count = num then
            match alloc with
            | none => (none, pages)
            | some garbage =>
                let (spot, pages) := split num garbage spot p pages
                (some spot, putAt x spot pages)
          else (some spot, putAt x spot pages)

/-- The element a pointer points to, if it is one that its page counts. -/
def get (pages : List (Page α)) (spot : Spot) : Option α :=
  pages[spot.page]?.bind fun p => if spot.pos < p.count then some (p.list spot.pos) else none

/-- Assigning to the element that a pointer points to. -/
def set (pages : List (Page α)) (spot : Spot) (y : α) : List (Page α) :=
  pages.modify spot.page fun p => ⟨p.count, Cells.write p.list spot.pos [y]⟩

end Model

variable {α : Type*} {cmp : α → α → Ordering} {num : Nat} {x y : α} {pages : List (Page α)}
variable {spot : Spot} {l r : List α}

/-- The elements of a page, in order. -/
def Page.elems (p : Page α) : List α := Cells.read p.list 0 p.count

/-- The concatenation of the pages. -/
def elems (pages : List (Page α)) : List α := pages.flatMap Page.elems

@[simp] theorem Page.elems_length (p : Page α) : p.elems.length = p.count := by
  simp [Page.elems]

@[simp] theorem elems_nil : elems ([] : List (Page α)) = [] := rfl

@[simp] theorem elems_cons (p : Page α) (pages : List (Page α)) :
    elems (p :: pages) = p.elems ++ elems pages := by
  simp [elems]

@[simp] theorem elems_append (front back : List (Page α)) :
    elems (front ++ back) = elems front ++ elems back := by
  simp [elems]

theorem Page.elems_getElem (p : Page α) {i : Nat} (h : i < p.elems.length) :
    p.elems[i] = p.list i := by
  simp [Page.elems, Cells.read]

theorem Page.list_mem (p : Page α) {i : Nat} (h : i < p.count) : p.list i ∈ p.elems := by
  rw [← Page.elems_getElem p (by simpa using h)]
  exact List.getElem_mem _

/-- The elements of a page around one of its places. -/
theorem Page.elems_split (p : Page α) {i : Nat} (h : i < p.count) :
    p.elems.drop i = p.list i :: p.elems.drop (i + 1) := by
  rw [List.drop_eq_getElem_cons (by simpa using h), Page.elems_getElem]

/-- The place splits the elements of all pages into those before it and those
from it on. -/
def Splits (pages : List (Page α)) (spot : Spot) (l r : List α) : Prop :=
  ∃ front p back, pages = front ++ p :: back ∧ spot.page = front.length ∧ spot.pos ≤ p.count ∧
    l = elems front ++ p.elems.take spot.pos ∧ r = p.elems.drop spot.pos ++ elems back

theorem Splits.elems_eq (h : Splits pages spot l r) : elems pages = l ++ r := by
  obtain ⟨front, p, back, rfl, _, _, rfl, rfl⟩ := h
  simp only [elems_append, elems_cons, List.append_assoc]
  rw [← List.append_assoc (p.elems.take _), List.take_append_drop]

/-- Storing an element into a page with the rest of it moved up. -/
theorem Page.put_elems (p : Page α) (x : α) {pos : Nat} (hPos : pos ≤ p.count) :
    (p.put x pos).elems = p.elems.take pos ++ x :: p.elems.drop pos := by
  let rest := Cells.read p.list pos (p.count - pos)
  let moved := Cells.write p.list (pos + 1) rest
  have hMoved : (if pos < p.count then moved else p.list) = moved := by
    split_ifs with hBefore
    · rfl
    · have hNone : p.count - pos = 0 := by omega
      simp only [moved, rest, hNone, Cells.read_zero, Cells.write_nil]
  have hFront : Cells.read (Cells.write moved pos [x]) 0 pos = p.elems.take pos := by
    rw [Cells.read_write_outside (.inl (by omega)), Cells.read_write_outside (.inl (by omega)),
      Page.elems, Cells.read_take _ _ hPos]
  have hElem : Cells.read (Cells.write moved pos [x]) pos 1 = [x] :=
    Cells.read_write moved pos [x]
  have hRest : Cells.read (Cells.write moved pos [x]) (pos + 1) (p.count - pos) =
      p.elems.drop pos := by
    have hLength : rest.length = p.count - pos := Cells.read_length ..
    rw [Cells.read_write_outside (.inr (by simp)), ← hLength, Cells.read_write, Page.elems,
      Cells.read_drop, Nat.zero_add]
  have hCount : p.count + 1 = pos + (1 + (p.count - pos)) := by omega
  calc (p.put x pos).elems
      = Cells.read (Cells.write moved pos [x]) 0 (pos + (1 + (p.count - pos))) := by
        rw [Page.elems, Page.put, hMoved, ← hCount]
    _ = p.elems.take pos ++ x :: p.elems.drop pos := by
        rw [Cells.read_add, Cells.read_add, hFront, Nat.zero_add, hElem, hRest, List.singleton_append]

/-- Changing the page behind the pages in front. -/
theorem modify_middle (f : Page α → Page α) (front : List (Page α)) (p : Page α)
    (back : List (Page α)) : (front ++ p :: back).modify front.length f = front ++ f p :: back := by
  induction front with
  | nil => rfl
  | cons first front ih => rw [List.cons_append, List.length_cons, List.modify_succ_cons, ih,
      List.cons_append]

/-- Hooking up a page behind another one. -/
theorem insertIdx_middle (new : Page α) (front : List (Page α)) (p : Page α)
    (back : List (Page α)) :
    (front ++ p :: back).insertIdx (front.length + 1) new = front ++ p :: new :: back := by
  induction front with
  | nil => rfl
  | cons first front ih => rw [List.cons_append, List.length_cons, List.insertIdx_succ_cons, ih,
      List.cons_append]

/-- The element is at the place where it was put, between the ones that were
around that place before. -/
theorem Splits.putAt (h : Splits pages spot l r) (x : α) :
    Splits (putAt x spot pages) spot l (x :: r) ∧ get (putAt x spot pages) spot = some x := by
  obtain ⟨front, p, back, rfl, hPage, hPos, rfl, rfl⟩ := h
  have hPut : PagedList.putAt x spot (front ++ p :: back) = front ++ p.put x spot.pos :: back := by
    rw [PagedList.putAt, hPage, modify_middle]
  have hLength : (p.elems.take spot.pos).length = spot.pos := by
    rw [List.length_take, Page.elems_length, Nat.min_eq_left hPos]
  have hTake : (p.put x spot.pos).elems.take spot.pos = p.elems.take spot.pos := by
    rw [Page.put_elems p x hPos, List.take_left' hLength]
  have hDrop : (p.put x spot.pos).elems.drop spot.pos = x :: p.elems.drop spot.pos := by
    rw [Page.put_elems p x hPos, List.drop_left' hLength]
  constructor
  · refine ⟨front, p.put x spot.pos, back, hPut, hPage, Nat.le_succ_of_le hPos, ?_, ?_⟩
    · rw [hTake]
    · rw [hDrop, List.cons_append]
  · have hCount : spot.pos < (p.put x spot.pos).count := Nat.lt_succ_of_le hPos
    rw [hPut, get, hPage, List.getElem?_append_right (Nat.le_refl _), Nat.sub_self,
      List.getElem?_cons_zero, Option.bind_some, if_pos hCount]
    exact congrArg some (Cells.write_inside (i := 0) (by simp))

/-- Every page holds at least one element. -/
def Filled (pages : List (Page α)) : Prop := ∀ p ∈ pages, 1 ≤ p.count

/-- No page holds more elements than its array. -/
def Within (num : Nat) (pages : List (Page α)) : Prop := ∀ p ∈ pages, p.count ≤ num

/-- The search knows where the element is or where it belongs. -/
inductive Located (cmp : α → α → Ordering) (x : α) (pages : List (Page α)) (k : Nat) :
    Search → Prop where
  | here (front : List (Page α)) (p : Page α) (back : List (Page α)) (i : Nat)
      (hPages : pages = front ++ p :: back) (hPos : i < p.count) (hEq : cmp x (p.list i) = .eq) :
      Located cmp x pages k ⟨some ⟨k + front.length, i⟩, some ⟨k + front.length, i⟩⟩
  | before (front : List (Page α)) (p : Page α) (back : List (Page α)) (i : Nat)
      (hPages : pages = front ++ p :: back) (hPos : i < p.count)
      (hBelow : ∀ y ∈ elems front ++ p.elems.take i, cmp x y = .gt)
      (hAbove : ∀ y ∈ p.elems.drop i ++ elems back, cmp x y = .lt) :
      Located cmp x pages k ⟨some ⟨k + front.length, i⟩, none⟩
  | behind (hBelow : ∀ y ∈ elems pages, cmp x y = .gt) : Located cmp x pages k ⟨none, none⟩

/-- An increasing list of pages increases from any place on. -/
theorem increasing_from {p : Page α} {back : List (Page α)}
    (hSorted : Increasing cmp (elems (p :: back))) {i : Nat} (hPos : i < p.count) :
    Increasing cmp (p.list i :: (p.elems.drop (i + 1) ++ elems back)) := by
  rw [← List.cons_append, ← Page.elems_split p hPos]
  refine List.Pairwise.sublist ?_ hSorted
  rw [elems_cons]
  exact (List.drop_sublist i p.elems).append_right (elems back)

/-- The inner loop stops at the first element that is not below. -/
theorem searchIn_located [TransCmp cmp] {p : Page α} {back : List (Page α)} (k : Nat)
    (hSorted : Increasing cmp (elems (p :: back))) (hFilled : 1 ≤ p.count)
    (hLast : cmp x (p.list (p.count - 1)) ≠ .gt) {left i : Nat} (hCount : i + left = p.count)
    (hBelow : ∀ y ∈ p.elems.take i, cmp x y = .gt) :
    Located cmp x (p :: back) k (searchIn cmp x p k left i) := by
  induction left generalizing i with
  | zero =>
      have hAll : p.elems.take i = p.elems := List.take_of_length_le (by simp; omega)
      rw [hAll] at hBelow
      exact absurd (hBelow _ (p.list_mem (by omega))) hLast
  | succ left ih =>
      have hPos : i < p.count := by omega
      cases hCmp : cmp x (p.list i) with
      | eq =>
          simp only [searchIn, hCmp]
          exact .here [] p back i rfl hPos hCmp
      | lt =>
          simp only [searchIn, hCmp]
          refine .before [] p back i rfl hPos (by simpa using hBelow) ?_
          rw [Page.elems_split p hPos, List.cons_append]
          exact lt_of_lt_head (increasing_from hSorted hPos) hCmp
      | gt =>
          simp only [searchIn, hCmp]
          refine ih (by omega) ?_
          intro y hy
          rw [List.take_succ_eq_append_getElem (by simpa using hPos), Page.elems_getElem] at hy
          rcases List.mem_append.mp hy with hy | hy
          · exact hBelow y hy
          · exact List.mem_singleton.mp hy ▸ hCmp

/-- What is above the last element of a page is above the whole page. -/
theorem above_page [TransCmp cmp] {p : Page α} {rest : List (Page α)} (hFilled : 1 ≤ p.count)
    (hSorted : Increasing cmp (elems (p :: rest))) (hLast : cmp x (p.list (p.count - 1)) = .gt) :
    ∀ y ∈ p.elems, cmp x y = .gt := by
  have hSplit : p.elems = p.elems.take (p.count - 1) ++ [p.list (p.count - 1)] := by
    have hEnd : p.elems.drop (p.count - 1 + 1) = [] := List.drop_eq_nil_of_le (by simp; omega)
    rw [← hEnd, ← Page.elems_split p (by omega), List.take_append_drop]
  rw [elems_cons] at hSorted
  have hPage := (List.pairwise_append.mp hSorted).1
  rw [hSplit] at hPage ⊢
  exact gt_of_gt_last hPage hLast

/-- Pages in front of which there is one with smaller elements only. -/
theorem Located.cons {p : Page α} {k : Nat} {s : Search} (hBelow : ∀ y ∈ p.elems, cmp x y = .gt)
    (h : Located cmp x pages (k + 1) s) : Located cmp x (p :: pages) k s := by
  have hShift (front : List (Page α)) : k + 1 + front.length = k + (p :: front).length := by
    rw [List.length_cons]
    omega
  have hFront {ys : List α} (hRest : ∀ y ∈ ys, cmp x y = .gt) :
      ∀ y ∈ p.elems ++ ys, cmp x y = .gt := by
    intro y hy
    exact (List.mem_append.mp hy).elim (hBelow y) (hRest y)
  cases h with
  | here front q back i hPages hPos hEq =>
      rw [hShift]
      exact .here (p :: front) q back i (by rw [hPages, List.cons_append]) hPos hEq
  | before front q back i hPages hPos hBefore hAbove =>
      rw [hShift]
      refine .before (p :: front) q back i (by rw [hPages, List.cons_append]) hPos ?_ hAbove
      rw [elems_cons, List.append_assoc]
      exact hFront hBefore
  | behind hAll =>
      refine .behind ?_
      rw [elems_cons]
      exact hFront hAll

/-- The search of an increasing list ends where the element is or belongs. -/
theorem search_located [TransCmp cmp] (k : Nat) (hFilled : Filled pages)
    (hSorted : Increasing cmp (elems pages)) : Located cmp x pages k (search cmp x pages k) := by
  induction pages generalizing k with
  | nil => exact .behind (by simp)
  | cons p rest ih =>
      have hCount : 1 ≤ p.count := hFilled p List.mem_cons_self
      simp only [search]
      split_ifs with hFirst hLast
      · refine .before [] p rest 0 rfl hCount (by simp) ?_
        rw [Page.elems_split p hCount, List.cons_append]
        exact lt_of_lt_head (increasing_from hSorted hCount) hFirst
      · have hBelow := above_page hCount hSorted hLast
        rw [elems_cons] at hSorted
        exact (ih (k + 1) (fun q hq => hFilled q (List.mem_cons_of_mem p hq))
          (List.pairwise_append.mp hSorted).2.1).cons hBelow
      · exact searchIn_located k hSorted hCount hLast (by omega) (by simp)

/-- The inner loop of `PAGE_FIND` finds nothing if nothing compares equal. -/
theorem findIn_none {p : Page α} {k left i : Nat} (hCount : i + left = p.count)
    (hNone : ∀ y ∈ p.elems.drop i, cmp x y ≠ .eq) : findIn cmp x p k left i = none := by
  induction left generalizing i with
  | zero => rfl
  | succ left ih =>
      rw [Page.elems_split p (by omega)] at hNone
      rw [findIn, if_neg (hNone _ List.mem_cons_self)]
      exact ih (by omega) fun y hy => hNone y (List.mem_cons_of_mem _ hy)

/-- The inner loops of `PAGE_FIND` and `PAGE_INSERT` find the same element. -/
theorem findIn_eq_searchIn [TransCmp cmp] {p : Page α} {back : List (Page α)} {k left i : Nat}
    (hSorted : Increasing cmp (elems (p :: back))) (hCount : i + left = p.count) :
    findIn cmp x p k left i = (searchIn cmp x p k left i).ret := by
  induction left generalizing i with
  | zero => rfl
  | succ left ih =>
      have hPos : i < p.count := by omega
      cases hCmp : cmp x (p.list i) with
      | eq => simp [findIn, searchIn, hCmp]
      | gt => simpa [findIn, searchIn, hCmp] using ih (by omega)
      | lt =>
          simp only [searchIn, hCmp]
          refine findIn_none hCount fun y hy => ?_
          rw [Page.elems_split p hPos] at hy
          have hMem := List.mem_append_left (elems back) hy
          rw [lt_of_lt_head (increasing_from hSorted hPos) hCmp y hMem]
          decide

/-- `PAGE_FIND` finds what the search of `PAGE_INSERT` finds. -/
theorem find_eq_search [TransCmp cmp] (k : Nat) (hSorted : Increasing cmp (elems pages)) :
    find cmp x pages k = (search cmp x pages k).ret := by
  induction pages generalizing k with
  | nil => rfl
  | cons p rest ih =>
      simp only [find, search]
      split_ifs with hFirst hLast
      · rfl
      · rw [elems_cons] at hSorted
        exact ih (k + 1) (List.pairwise_append.mp hSorted).2.1
      · exact findIn_eq_searchIn hSorted (by omega)

/-- The places of a page split the elements. -/
theorem splits_middle (front : List (Page α)) (p : Page α) (back : List (Page α)) {i : Nat}
    (hPos : i ≤ p.count) :
    Splits (front ++ p :: back) ⟨front.length, i⟩ (elems front ++ p.elems.take i)
      (p.elems.drop i ++ elems back) :=
  ⟨front, p, back, rfl, rfl, hPos, rfl, rfl⟩

/-- The element a pointer into a page points to. -/
theorem get_middle (front : List (Page α)) (p : Page α) (back : List (Page α)) {i : Nat}
    (hPos : i < p.count) : get (front ++ p :: back) ⟨front.length, i⟩ = some (p.list i) := by
  simp [get, hPos]

/-- What `PAGE_INSERT` knows behind its search: the element is there, or it
belongs to a certain place, or there are no pages. -/
inductive Target (cmp : α → α → Ordering) (x : α) (pages : List (Page α)) :
    Option Spot → Option Spot → Prop where
  | found (spot : Spot) (l : List α) (y : α) (r : List α) (elem : Option Spot)
      (hSplits : Splits pages spot l (y :: r)) (hGet : get pages spot = some y)
      (hEq : cmp x y = .eq) : Target cmp x pages (some spot) elem
  | place (spot : Spot) (l r : List α) (hSplits : Splits pages spot l r)
      (hBelow : ∀ y ∈ l, cmp x y = .gt) (hAbove : ∀ y ∈ r, cmp x y = .lt) :
      Target cmp x pages none (some spot)
  | empty (hPages : pages = []) : Target cmp x pages none none

theorem search_target [TransCmp cmp] (hFilled : Filled pages)
    (hSorted : Increasing cmp (elems pages)) :
    Target cmp x pages (search cmp x pages 0).ret
      ((search cmp x pages 0).elem.or (pastEnd pages)) := by
  have hLocated := search_located (x := x) 0 hFilled hSorted
  generalize search cmp x pages 0 = found at hLocated
  cases hLocated with
  | here front p back i hPages hPos hEq =>
      subst hPages
      rw [Nat.zero_add]
      have hSplits := splits_middle front p back (Nat.le_of_lt hPos)
      rw [Page.elems_split p hPos] at hSplits
      exact .found _ _ _ _ _ hSplits (get_middle front p back hPos) hEq
  | before front p back i hPages hPos hBelow hAbove =>
      subst hPages
      rw [Nat.zero_add]
      exact .place _ _ _ (splits_middle front p back (Nat.le_of_lt hPos)) hBelow hAbove
  | behind hBelow =>
      rcases List.eq_nil_or_concat pages with rfl | ⟨front, p, rfl⟩
      · exact .empty rfl
      · rw [List.concat_eq_append] at hFilled hBelow ⊢
        have hCount : 1 ≤ p.count := hFilled p (by simp)
        have hSplits := splits_middle front p [] (Nat.le_refl p.count)
        have hEnd : pastEnd (front ++ [p]) = some ⟨front.length, p.count⟩ := by
          simp [pastEnd, Nat.sub_add_cancel hCount]
        rw [hEnd]
        refine .place _ _ _ hSplits ?_ ?_
        · rw [List.take_of_length_le (by simp)]
          simpa using hBelow
        · rw [List.drop_eq_nil_of_le (by simp)]
          simp

/-- `PAGE_FIND` points to the element that compares equal if there is one. -/
theorem find_cases [TransCmp cmp] (hFilled : Filled pages) (hSorted : Increasing cmp (elems pages))
    (x : α) :
    (find cmp x pages 0 = none ∧ ∀ y ∈ elems pages, cmp x y ≠ .eq) ∨
      ∃ spot l y r, find cmp x pages 0 = some spot ∧ Splits pages spot l (y :: r) ∧
        get pages spot = some y ∧ cmp x y = .eq := by
  rw [find_eq_search 0 hSorted]
  have hTarget := search_target (x := x) hFilled hSorted
  generalize (search cmp x pages 0).elem.or (pastEnd pages) = elem at hTarget
  generalize (search cmp x pages 0).ret = ret at hTarget ⊢
  cases hTarget with
  | found spot l y r _ hSplits hGet hEq => exact .inr ⟨spot, l, y, r, rfl, hSplits, hGet, hEq⟩
  | place spot l r hSplits hBelow hAbove =>
      refine .inl ⟨rfl, fun y hy => ?_⟩
      rw [hSplits.elems_eq] at hy
      rcases List.mem_append.mp hy with hy | hy
      · simp [hBelow y hy]
      · simp [hAbove y hy]
  | empty hPages =>
      subst hPages
      exact .inl ⟨rfl, by simp⟩

/-- `PAGE_FIND` returns the element of the list that compares equal. -/
theorem find_spec [TransCmp cmp] (hFilled : Filled pages) (hSorted : Increasing cmp (elems pages))
    (x : α) :
    (find cmp x pages 0).bind (get pages) = (elems pages).find? (fun y => cmp x y == .eq) := by
  rcases find_cases hFilled hSorted x with
    ⟨hNone, hNew⟩ | ⟨spot, l, y, r, hSome, hSplits, hGet, hEq⟩
  · rw [hNone, find_of_ne hNew, Option.bind_none]
  · rw [hSplits.elems_eq] at hSorted ⊢
    rw [hSome, find_of_eq hSorted hEq, Option.bind_some, hGet]

/-- Assigning to an element of a page. -/
theorem Page.assign_elems (p : Page α) (z : α) {i : Nat} (hPos : i < p.count) :
    (Page.mk p.count (Cells.write p.list i [z])).elems =
      p.elems.take i ++ z :: p.elems.drop (i + 1) := by
  have hFront : Cells.read (Cells.write p.list i [z]) 0 i = p.elems.take i := by
    rw [Cells.read_write_outside (.inl (by omega)), Page.elems, Cells.read_take _ _ (by omega)]
  have hElem : Cells.read (Cells.write p.list i [z]) i 1 = [z] := Cells.read_write p.list i [z]
  have hRest : Cells.read (Cells.write p.list i [z]) (i + 1) (p.count - (i + 1)) =
      p.elems.drop (i + 1) := by
    rw [Cells.read_write_outside (.inr (by simp)), Page.elems, Cells.read_drop, Nat.zero_add]
  have hCount : p.count = i + (1 + (p.count - (i + 1))) := by omega
  calc Cells.read (Cells.write p.list i [z]) 0 p.count
      = Cells.read (Cells.write p.list i [z]) 0 (i + (1 + (p.count - (i + 1)))) := by rw [← hCount]
    _ = p.elems.take i ++ z :: p.elems.drop (i + 1) := by
        rw [Cells.read_add, Cells.read_add, hFront, Nat.zero_add, hElem, hRest, List.singleton_append]

/-- Assigning to an element changes that element and no other. -/
theorem Splits.set_elems (h : Splits pages spot l (y :: r)) (hGet : get pages spot = some y) (z : α) :
    elems (set pages spot z) = l ++ z :: r ∧
      (set pages spot z).map Page.count = pages.map Page.count := by
  obtain ⟨front, p, back, rfl, hPage, hPos, rfl, hRest⟩ := h
  obtain ⟨page, i⟩ := spot
  simp only at hPage hPos hRest ⊢
  subst hPage
  have hCount : i < p.count := by
    by_contra hEnd
    simp [get, hEnd] at hGet
  have hTail : r = p.elems.drop (i + 1) ++ elems back := by
    rw [Page.elems_split p hCount, List.cons_append] at hRest
    exact (List.cons.inj hRest).2
  constructor
  · rw [set, modify_middle, elems_append, elems_cons, p.assign_elems z hCount, hTail]
    simp
  · simp [set, modify_middle]

@[simp] theorem Page.keep_count (p : Page α) (stay : Nat) : (p.keep stay).count = stay := rfl

@[simp] theorem Page.spill_count (p : Page α) (garbage : Nat → α) (stay move : Nat) :
    (p.spill garbage stay move).count = move := rfl

theorem Page.keep_elems (p : Page α) {stay : Nat} (h : stay ≤ p.count) :
    (p.keep stay).elems = p.elems.take stay :=
  (Cells.read_take p.list 0 h).symm

theorem Page.spill_elems (p : Page α) (garbage : Nat → α) {stay move : Nat}
    (h : p.count = stay + move) : (p.spill garbage stay move).elems = p.elems.drop stay := by
  have hLength : (Cells.read p.list stay move).length = move := Cells.read_length ..
  have hRead := Cells.read_write garbage 0 (Cells.read p.list stay move)
  rw [hLength] at hRead
  simp only [Page.elems, Page.spill, hRead, h, Cells.read_drop, Nat.zero_add, Nat.add_sub_cancel_left]

/-- Splitting a full page keeps all elements in order, and the page that gets
the element has room for it. Only that page may be empty. -/
theorem split_spec (hNum : 1 ≤ num) (front : List (Page α)) {p : Page α} (back : List (Page α))
    {i : Nat} (garbage : Nat → α) (hPos : i ≤ p.count) (hFull : p.count = num) :
    ∃ front' q back' j,
      split num garbage ⟨front.length, i⟩ p (front ++ p :: back) =
        (⟨front'.length, j⟩, front' ++ q :: back') ∧ j ≤ q.count ∧ q.count < num ∧
      elems front' ++ q.elems.take j = elems front ++ p.elems.take i ∧
      q.elems.drop j ++ elems back' = p.elems.drop i ++ elems back ∧
      ∀ q' ∈ front' ++ back', q' ∈ front ++ back ∨ (1 ≤ q'.count ∧ q'.count ≤ num) := by
  obtain ⟨half, hHalf⟩ : ∃ half, half = (num + 1) / 2 := ⟨_, rfl⟩
  have hHook (stay : Nat) (new : Page α) :
      ((front ++ p :: back).set front.length (p.keep stay)).insertIdx (front.length + 1) new =
        front ++ p.keep stay :: new :: back := by
    rw [List.set_append_right _ _ (Nat.le_refl _), Nat.sub_self, List.set_cons_zero,
      insertIdx_middle]
  by_cases hLate : half ≤ i
  · -- the element goes to the new page
    have hKeep := p.keep_elems (show half ≤ p.count by omega)
    have hSpill := p.spill_elems garbage (show p.count = half + (p.count - half) by omega)
    refine ⟨front ++ [p.keep half], p.spill garbage half (p.count - half), back, i - half,
      ?_, ?_, ?_, ?_, ?_, ?_⟩
    · simp only [split, ← hHalf, if_pos hLate, hHook, List.length_append, List.length_singleton,
        List.append_assoc, List.singleton_append]
    · rw [Page.spill_count]
      omega
    · rw [Page.spill_count]
      omega
    · rw [hSpill, elems_append, elems_cons, hKeep, elems_nil, List.append_nil, List.append_assoc,
        ← List.take_add, Nat.add_sub_cancel' hLate]
    · rw [hSpill, List.drop_drop, Nat.add_sub_cancel' hLate]
    · intro q' hMem
      simp only [List.mem_append, List.mem_singleton] at hMem ⊢
      rcases hMem with (hMem | rfl) | hMem
      · exact .inl (.inl hMem)
      · exact .inr (by rw [Page.keep_count]; omega)
      · exact .inl (.inr hMem)
  · -- the element stays in the old page, which keeps the smaller part
    have hKeep := p.keep_elems (show p.count - half ≤ p.count by omega)
    have hSpill := p.spill_elems garbage (show p.count = p.count - half + half by omega)
    refine ⟨front, p.keep (p.count - half), p.spill garbage (p.count - half) half :: back, i,
      ?_, ?_, ?_, ?_, ?_, ?_⟩
    · simp only [split, ← hHalf, if_neg hLate, hHook]
    · rw [Page.keep_count]
      omega
    · rw [Page.keep_count]
      omega
    · rw [hKeep, List.take_take, Nat.min_eq_left (by omega)]
    · have hWithin : i ≤ (p.elems.take (p.count - half)).length := by
        rw [List.length_take, Page.elems_length]
        omega
      rw [hKeep, elems_cons, hSpill, ← List.append_assoc, ← List.drop_append_of_le_length hWithin,
        List.take_append_drop]
    · intro q' hMem
      simp only [List.mem_append, List.mem_cons] at hMem ⊢
      rcases hMem with hMem | rfl | hMem
      · exact .inl (.inl hMem)
      · exact .inr (by rw [Page.spill_count]; omega)
      · exact .inl (.inr hMem)

/-- What the pages are between two calls: all of them filled within the array,
and the elements increasing. -/
structure Ok (num : Nat) (cmp : α → α → Ordering) (pages : List (Page α)) : Prop where
  filled : Filled pages
  within : Within num pages
  sorted : Increasing cmp (elems pages)

/-- A page with room gets an element. -/
theorem ok_putAt [TransCmp cmp] {front : List (Page α)} {p : Page α} {back : List (Page α)} {i : Nat}
    (hPos : i ≤ p.count) (hRoom : p.count < num)
    (hOthers : ∀ q ∈ front ++ back, 1 ≤ q.count ∧ q.count ≤ num)
    (hSorted : Increasing cmp (elems (front ++ p :: back)))
    (hBelow : ∀ y ∈ elems front ++ p.elems.take i, cmp x y = .gt)
    (hAbove : ∀ y ∈ p.elems.drop i ++ elems back, cmp x y = .lt) :
    Ok num cmp (putAt x ⟨front.length, i⟩ (front ++ p :: back)) := by
  have hSplits := splits_middle front p back hPos
  have hAll : ∀ q ∈ putAt x ⟨front.length, i⟩ (front ++ p :: back), 1 ≤ q.count ∧ q.count ≤ num := by
    rw [putAt, modify_middle]
    intro q hMem
    rcases List.mem_append.mp hMem with hMem | hMem
    · exact hOthers q (List.mem_append_left back hMem)
    · rcases List.mem_cons.mp hMem with rfl | hMem
      · exact ⟨Nat.succ_pos _, hRoom⟩
      · exact hOthers q (List.mem_append_right front hMem)
  refine ⟨fun q hq => (hAll q hq).1, fun q hq => (hAll q hq).2, ?_⟩
  rw [(hSplits.putAt x).1.elems_eq]
  rw [hSplits.elems_eq] at hSorted
  exact increasing_insert hSorted hBelow hAbove

/-- What `PAGE_INSERT` did: nothing but pointing to the element that was there,
nothing at all for want of memory, or adding exactly the element. -/
inductive Inserted (num : Nat) (cmp : α → α → Ordering) (x : α) (pages : List (Page α)) :
    Option (Nat → α) → Option Spot × List (Page α) → Prop where
  | present (alloc : Option (Nat → α)) (spot : Spot) (l : List α) (y : α) (r : List α)
      (hSplits : Splits pages spot l (y :: r)) (hGet : get pages spot = some y)
      (hEq : cmp x y = .eq) : Inserted num cmp x pages alloc (some spot, pages)
  | failed (hNew : ∀ y ∈ elems pages, cmp x y ≠ .eq) :
      Inserted num cmp x pages none (none, pages)
  | added (alloc : Option (Nat → α)) (spot : Spot) (pages' : List (Page α)) (l r : List α)
      (hNew : ∀ y ∈ elems pages, cmp x y ≠ .eq) (hElems : elems pages = l ++ r)
      (hSplits : Splits pages' spot l (x :: r)) (hGet : get pages' spot = some x)
      (hOk : Ok num cmp pages') : Inserted num cmp x pages alloc (some spot, pages')

/-- An element that was put where it belongs was added. -/
theorem added_putAt [TransCmp cmp] (front : List (Page α)) (p : Page α) (back : List (Page α))
    {i : Nat} (alloc : Option (Nat → α)) (hPos : i ≤ p.count) (hRoom : p.count < num)
    (hOthers : ∀ q ∈ front ++ back, 1 ≤ q.count ∧ q.count ≤ num)
    (hElems : elems (front ++ p :: back) = elems pages) (hSorted : Increasing cmp (elems pages))
    (hBelow : ∀ y ∈ elems front ++ p.elems.take i, cmp x y = .gt)
    (hAbove : ∀ y ∈ p.elems.drop i ++ elems back, cmp x y = .lt) :
    Inserted num cmp x pages alloc
      (some ⟨front.length, i⟩, putAt x ⟨front.length, i⟩ (front ++ p :: back)) := by
  have hSplits := splits_middle front p back hPos
  obtain ⟨hPut, hGet⟩ := hSplits.putAt x
  have hApart := hElems.symm.trans hSplits.elems_eq
  refine .added alloc _ _ _ _ ?_ hApart hPut hGet
    (ok_putAt hPos hRoom hOthers (hElems ▸ hSorted) hBelow hAbove)
  intro y hy
  rw [hApart] at hy
  rcases List.mem_append.mp hy with hy | hy
  · simp [hBelow y hy]
  · simp [hAbove y hy]

/-- `PAGE_INSERT` on pages that are in order. -/
theorem insert_spec [TransCmp cmp] (hNum : 1 ≤ num) (hOk : Ok num cmp pages) (x : α)
    (alloc : Option (Nat → α)) :
    Inserted num cmp x pages alloc (insert cmp num alloc x pages) := by
  have hTarget := search_target (x := x) hOk.filled hOk.sorted
  simp only [insert]
  generalize (search cmp x pages 0).elem.or (pastEnd pages) = elem at hTarget ⊢
  generalize (search cmp x pages 0).ret = ret at hTarget ⊢
  cases hTarget with
  | found spot l y r _ hSplits hGet hEq => exact .present alloc spot l y r hSplits hGet hEq
  | empty hPages =>
      subst hPages
      cases alloc with
      | none => exact .failed (by simp)
      | some garbage =>
          exact added_putAt [] ⟨0, garbage⟩ [] _ (Nat.le_refl 0)
            hNum (by simp) rfl hOk.sorted (by simp [Page.elems]) (by simp [Page.elems])
  | place spot l r hSplits hBelow hAbove =>
      obtain ⟨front, p, back, rfl, hPage, hPos, rfl, rfl⟩ := hSplits
      obtain ⟨page, i⟩ := spot
      simp only at hPage hPos hBelow hAbove
      subst hPage
      have hAt : (front ++ p :: back)[front.length]? = some p := by simp
      have hWithin : p.count ≤ num := hOk.within p (by simp)
      have hOthers : ∀ q ∈ front ++ back, 1 ≤ q.count ∧ q.count ≤ num := by
        intro q hMem
        have hMem' : q ∈ front ++ p :: back := by
          simp only [List.mem_append, List.mem_cons] at hMem ⊢
          tauto
        exact ⟨hOk.filled q hMem', hOk.within q hMem'⟩
      simp only [hAt]
      split_ifs with hFull
      · cases alloc with
        | none =>
            refine .failed fun y hy => ?_
            rw [(splits_middle front p back hPos).elems_eq] at hy
            rcases List.mem_append.mp hy with hy | hy
            · simp [hBelow y hy]
            · simp [hAbove y hy]
        | some garbage =>
            obtain ⟨front', q, back', j, hSplit, hPos', hRoom, hLeft, hRight, hNew⟩ :=
              split_spec hNum front back garbage hPos hFull
            simp only [hSplit]
            rw [← hLeft] at hBelow
            rw [← hRight] at hAbove
            refine added_putAt front' q back' _ hPos' hRoom ?_ ?_ hOk.sorted hBelow hAbove
            · intro q' hMem
              exact (hNew q' hMem).elim (hOthers q') id
            · rw [(splits_middle front' q back' hPos').elems_eq, hLeft, hRight,
                (splits_middle front p back hPos).elems_eq]
      · exact added_putAt front p back alloc hPos (by omega) hOthers rfl hOk.sorted hBelow hAbove

/-- The pages together with the elements that were inserted so far: those for
which `PAGE_INSERT` returned a pointer. -/
structure History (α : Type*) where
  pages : List (Page α)
  inserted : List α

/-- One `PAGE_INSERT` with the outcome of the allocation it may ask for. -/
def History.insert (cmp : α → α → Ordering) (num : Nat) (h : History α)
    (call : α × Option (Nat → α)) : History α :=
  match PagedList.insert cmp num call.2 call.1 h.pages with
  | (some _, pages) => ⟨pages, call.1 :: h.inserted⟩
  | (none, pages) => ⟨pages, h.inserted⟩

/-- A sequence of calls that starts with a `NULL` root. -/
def History.run (cmp : α → α → Ordering) (num : Nat) (calls : List (α × Option (Nat → α))) :
    History α :=
  calls.foldl (History.insert cmp num) ⟨[], []⟩

/-- The pages are in order and hold the elements that were inserted. -/
structure History.Ok (num : Nat) (cmp : α → α → Ordering) (h : History α) : Prop where
  pages : PagedList.Ok num cmp h.pages
  elems (x : α) : (∃ y ∈ elems h.pages, cmp x y = .eq) ↔ ∃ y ∈ h.inserted, cmp x y = .eq

/-- One call keeps the pages in order. -/
theorem History.Ok.insert [TransCmp cmp] {h : History α} (hNum : 1 ≤ num) (hOk : h.Ok num cmp)
    (call : α × Option (Nat → α)) : (h.insert cmp num call).Ok num cmp := by
  have hSpec := insert_spec hNum hOk.pages call.1 call.2
  simp only [History.insert]
  generalize PagedList.insert cmp num call.2 call.1 h.pages = result at hSpec
  generalize call.2 = alloc at hSpec
  cases hSpec with
  | present _ spot l y r hSplits hGet hEq =>
      refine ⟨hOk.pages, fun x => ?_⟩
      rw [hOk.elems x]
      constructor
      · rintro ⟨z, hMem, hz⟩
        exact ⟨z, List.mem_cons_of_mem _ hMem, hz⟩
      · rintro ⟨z, hMem, hz⟩
        rcases List.mem_cons.mp hMem with rfl | hMem
        · have hThere : y ∈ PagedList.elems h.pages := by
            rw [hSplits.elems_eq]
            exact List.mem_append_right l List.mem_cons_self
          exact (hOk.elems x).mp ⟨y, hThere, TransCmp.eq_trans hz hEq⟩
        · exact ⟨z, hMem, hz⟩
  | failed hNew => exact hOk
  | added _ spot pages' l r hNew hElems hSplits hGet hOk' =>
      refine ⟨hOk', fun x => ?_⟩
      have hBefore := hOk.elems x
      rw [hElems] at hBefore
      rw [hSplits.elems_eq]
      simp only [List.mem_append, List.mem_cons, or_and_right, exists_or, exists_eq_left] at hBefore ⊢
      rw [← hBefore]
      exact or_left_comm

/-- Every sequence of calls keeps the pages in order. -/
theorem History.run_ok [TransCmp cmp] (hNum : 1 ≤ num) (calls : List (α × Option (Nat → α))) :
    (History.run cmp num calls).Ok num cmp := by
  have hFold (h : History α) (hOk : h.Ok num cmp) :
      (calls.foldl (History.insert cmp num) h).Ok num cmp := by
    induction calls generalizing h with
    | nil => exact hOk
    | cons call calls ih => exact ih _ (hOk.insert hNum call)
  refine hFold ⟨[], []⟩ ⟨⟨?_, ?_, List.Pairwise.nil⟩, fun x => by simp⟩
  · intro p hMem
    cases hMem
  · intro p hMem
    cases hMem

/-- Three insertions into pages of one element, the second of which fails for
want of memory. -/
def threeInserts : List (Nat × Option (Nat → Nat)) :=
  [(2, some fun _ => 9), (1, none), (3, some fun _ => 9)]

end Peak.PagedList
