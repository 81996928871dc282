import Peak.Base.Insertion
import Peak.Base.Traversal
import Peak.Locate.Geoconv
import Peak.Prealloc

/-! The elements of `bin/geoconv` in memory: chunks of `geo_mem`, linked into the
tree of `geo_head` while they are in use. The program does to them what is said
of its tree. -/
namespace Peak.Locate

open RedBlack Prealloc

/-- `struct geo_helper`. -/
abbrev GeoHelper := Cell Nat Location

/-- `sizeof(struct geo_helper)`. -/
def geoHelperSize : Nat := 72

/-- `RB_ENTRY` comes first: the link to a free chunk is written over the one to
the left child. -/
def geoOverlay : Overlay GeoHelper where
  next := Cell.left
  setNext c p := { c with left := p }
  next_setNext _ _ := rfl

/-- `geo_head` with the memory of its elements, and `geo_mem`. -/
structure Helpers where
  tree : Store Nat Location
  mem : Pool

/-- How the program can stop early: with a message, or at a link that is missing. -/
inductive Halt where
  | exit (msg : String)
  | crash
deriving DecidableEq, Repr

/-- There are never more elements than chunks, so that no loop over the tree
takes more rounds. -/
def geoRounds : Nat := geoCapacity + 1

/-- The element after `memset` with the data of the entry. -/
def Entry.helper (e : Entry) : GeoHelper := ⟨none, none, none, .black, e.data⟩

/-- The rule `entry`. -/
def Helpers.entry (self : Helpers) (e : Entry) : Except Halt Helpers :=
  if e.loc = 0 then .ok self
  else
    match self.mem.get geoOverlay self.tree.cells with
    | (none, _) => .error (.exit "too many entries\n")
    | (some elm, mem) =>
        match (self.tree.modify elm fun _ => e.helper).insert peakLocateCmp geoRounds elm with
        | none => .error .crash
        | some (.error _) => .error (.exit "found duplicated entry\n")
        | some (.ok tree) => .ok ⟨tree, mem⟩

/-- The rule `line`. -/
def Helpers.line (self : Helpers) : List Entry → Except Halt Helpers
  | [] => .ok self
  | e :: rest =>
      match self.entry e with
      | .error halt => .error halt
      | .ok self => self.line rest

/-- What `main` does with its input, in the memory it is granted. -/
def Helpers.parse (cells : Nat → GeoHelper) (granted : Option Nat) (entries : List Entry) :
    Except Halt Helpers :=
  match Prealloc.init geoOverlay cells geoCapacity geoHelperSize granted with
  | none => .error (.exit "could not allocate memory\n")
  | some (mem, cells) => Helpers.line ⟨⟨cells, none⟩, mem⟩ entries

/-- `prealloc_put` of an element. -/
def Helpers.put (self : Helpers) (elm : Nat) : Helpers :=
  ⟨{ self.tree with cells := (self.mem.put geoOverlay self.tree.cells (some elm)).2 },
    (self.mem.put geoOverlay self.tree.cells (some elm)).1⟩

/-- The loop of `finalise` from an element on, in at most `fuel` rounds: the
element is written and put back before `RB_NEXT` asks it for the next one. -/
def Helpers.foreach : Nat → Helpers → Option Nat → File.Sink → Except Halt (File.Sink × Helpers)
  | _, self, none, out => .ok (out, self)
  | 0, _, some _, _ => .error .crash
  | fuel + 1, self, some elm, out =>
      let (ret, out) := out.write (self.tree.cells elm).data.encode
      if ret ≠ 40 then .error (.exit "entry write failed\n")
      else
        match (self.put elm).tree.next geoRounds elm with
        | none => .error .crash
        | some elm' => foreach fuel (self.put elm) elm' out

/-- `finalise` on a device with so much room: the file that was written, if there
was anything to write, and what is left in memory. -/
def Helpers.finalise (self : Helpers) (openOk : Bool) (room : Nat) :
    Except Halt (Option File.Sink × Helpers) :=
  if self.tree.root = none then .ok (none, self)
  else if openOk = false then .error (.exit "output open failed\n")
  else
    let (ret, out) := (File.Sink.mk [] room).write (header self.mem.used)
    if ret ≠ 16 then .error (.exit "header write failed\n")
    else
      match self.tree.min geoRounds with
      | none => .error .crash
      | some elm =>
          match foreach geoRounds self elm out with
          | .error halt => .error halt
          | .ok (out, self) => .ok (some out, self)

/-- The elements in memory are those of the tree, and every chunk that is in use
is one of them. -/
structure Helpers.Refines (helpers : Helpers) (chunks : List Nat) (geo : Geo) (t : RedBlack.Tree Nat)
    (free : List Nat) : Prop where
  tree : helpers.tree.Holds t
  black : t.isRed = false
  head : t.map (fun a => (helpers.tree.cells a).data) = geo.head
  mem : Prealloc.Holds geoOverlay helpers.tree.cells helpers.mem chunks t.toList free
  used : geo.used = helpers.mem.used
  full : chunks.length = geoCapacity

variable {self : Helpers} {geo : Geo} {t : RedBlack.Tree Nat} {chunks free : List Nat} {e : Entry}

theorem Helpers.Refines.length_eq (h : self.Refines chunks geo t free) :
    geo.used + free.length = geoCapacity := by
  rw [h.used, h.mem.used, ← List.length_append, h.mem.perm.length_eq, h.full]

/-- The elements in memory with a new one that is not in the tree yet. -/
theorem Helpers.Refines.insert (h : self.Refines chunks geo t free) {elm : Nat} (hNew : elm ∉ t.toList)
    (e : Entry) :
    (∃ head tree t', RedBlack.insert (peakLocateCmp e.data) e.data geo.head = .ok head ∧
      (self.tree.modify elm fun _ => e.helper).insert peakLocateCmp geoRounds elm = some (.ok tree) ∧
      tree.Holds t' ∧ t'.isRed = false ∧ t'.map (fun a => (tree.cells a).data) = head ∧
      t'.toList.Perm (elm :: t.toList) ∧
      ∀ a, a ∉ elm :: t.toList → tree.cells a = self.tree.cells a) ∨
    ∃ met found, RedBlack.insert (peakLocateCmp e.data) e.data geo.head = .error met ∧
      (self.tree.modify elm fun _ => e.helper).insert peakLocateCmp geoRounds elm = some (.error found) := by
  have hTree := h.tree.modify hNew fun _ => e.helper
  have hOther : ∀ a, a ≠ elm → (self.tree.modify elm fun _ => e.helper).cells a = self.tree.cells a :=
    fun a ha => Store.cells_modify_of_ne _ ha
  have hElm : ((self.tree.modify elm fun _ => e.helper).cells elm).data = e.data := by
    rw [Store.cells_modify_same]
    rfl
  generalize self.tree.modify elm (fun _ => e.helper) = s at hTree hOther hElm ⊢
  have hHead : t.map (fun a => (s.cells a).data) = geo.head := by
    rw [← h.head]
    apply RedBlack.Tree.map_congr
    intro a ha
    rw [hOther a fun hSame => hNew (hSame ▸ ha)]
  have hRounds : t.toList.length < geoRounds := by
    have hLength := h.length_eq
    rw [h.used, h.mem.used] at hLength
    rw [geoRounds]
    omega
  have hInsert := insert_map (peakLocateCmp e.data) (fun a => (s.cells a).data) elm t
  rw [hElm, hHead] at hInsert
  rw [hInsert]
  cases hMade : RedBlack.insert (fun a => peakLocateCmp e.data (s.cells a).data) elm t with
  | error met =>
      rw [← hElm] at hMade
      exact .inr ⟨_, met, rfl, Store.insert_of_error hTree (Nat.le_of_lt hRounds) hMade⟩
  | ok t' =>
      rw [← hElm] at hMade
      obtain ⟨tree, hRun, hHolds, hBlack, hPerm, hKeeps⟩ :=
        Store.insert_of_ok hTree h.black hNew hRounds hMade
      refine .inl ⟨_, tree, t', rfl, hRun, hHolds, hBlack, ?_, hPerm, ?_⟩
      · exact RedBlack.Tree.map_congr fun a _ => hKeeps.data a
      · intro a ha
        exact (hKeeps.outside a ha).trans (hOther a fun hSame => ha (hSame ▸ List.mem_cons_self))

/-- An entry is accepted, refused or passed over as the tree has it. -/
theorem Helpers.Refines.entry_refines (h : self.Refines chunks geo t free) (e : Entry) :
    (∃ geo' self' t' free', geo.entry e = .ok geo' ∧ self.entry e = .ok self' ∧
      self'.Refines chunks geo' t' free') ∨
    ∃ msg, geo.entry e = .error msg ∧ self.entry e = .error (.exit msg) := by
  by_cases hKnown : e.loc = 0
  · exact .inl ⟨geo, self, t, free, if_pos hKnown, if_pos hKnown, h⟩
  rw [Geo.entry, Helpers.entry, if_neg hKnown, if_neg hKnown]
  have hLength := h.length_eq
  cases free with
  | nil =>
      rw [List.length_nil] at hLength
      rw [if_pos (by omega), h.mem.get_none]
      exact .inr ⟨_, rfl, rfl⟩
  | cons elm free =>
      rw [List.length_cons] at hLength
      obtain ⟨mem, hGet, hMem⟩ := h.mem.get_some
      have hNodup := hMem.nodup_append
      rw [List.cons_append, List.nodup_cons] at hNodup
      have hNew : elm ∉ t.toList := fun hElm => hNodup.1 (List.mem_append_left _ hElm)
      rw [if_neg (by omega), hGet]
      dsimp only
      obtain ⟨head, tree, t', hInsert, hRun, hHolds, hBlack, hHead, hPerm, hSame⟩ |
        ⟨met, found, hInsert, hRun⟩ := h.insert hNew e
      · rw [hInsert, hRun]
        refine .inl ⟨_, _, t', free, rfl, rfl, hHolds, hBlack, hHead, ?_, ?_, h.full⟩
        · apply (hMem.congr _).claimed_perm hPerm.symm
          intro a ha
          apply hSame
          intro hElm
          exact List.disjoint_of_nodup_append hMem.nodup_append hElm ha
        · rw [(hMem.claimed_perm hPerm.symm).used, h.used, h.mem.used, hPerm.length_eq, List.length_cons]
      · rw [hInsert, hRun]
        exact .inr ⟨_, rfl, rfl⟩

theorem Helpers.Refines.line_refines (h : self.Refines chunks geo t free) (entries : List Entry) :
    (∃ geo' self' t' free', geo.line entries = .ok geo' ∧ self.line entries = .ok self' ∧
      self'.Refines chunks geo' t' free') ∨
    ∃ msg, geo.line entries = .error msg ∧ self.line entries = .error (.exit msg) := by
  induction entries generalizing self geo t free with
  | nil => exact .inl ⟨geo, self, t, free, rfl, rfl, h⟩
  | cons e rest ih =>
      rw [Geo.line, Helpers.line]
      obtain ⟨geo', self', t', free', hGeo, hSelf, hNext⟩ | ⟨msg, hGeo, hSelf⟩ := h.entry_refines e
      · rw [hGeo, hSelf]
        exact ih hNext
      · rw [hGeo, hSelf]
        exact .inr ⟨msg, rfl, rfl⟩

/-- The chunks of `geo_mem`. -/
def geoChunks (start : Nat) : List Nat := chunksFrom start geoHelperSize geoCapacity

/-- With memory the input is accepted or refused as it is without links, and the
elements are where the tree has them. -/
theorem Helpers.parse_refines (cells : Nat → GeoHelper) (start : Nat) (entries : List Entry) :
    (∃ geo self t free, Locate.parse entries = .ok geo ∧
      Helpers.parse cells (some start) entries = .ok self ∧ self.Refines (geoChunks start) geo t free) ∨
    ∃ msg, Locate.parse entries = .error msg ∧
      Helpers.parse cells (some start) entries = .error (.exit msg) := by
  cases hInit : Prealloc.init geoOverlay cells geoCapacity geoHelperSize (some start) with
  | none => cases hInit
  | some made =>
      obtain ⟨mem, cells'⟩ := made
      obtain ⟨hMem, hStart⟩ := init_holds (by decide) hInit
      cases hStart
      have hRefines : Helpers.Refines ⟨⟨cells', none⟩, mem⟩ (geoChunks mem.memStart) ⟨.leaf, 0⟩ .leaf
          (geoChunks mem.memStart) :=
        { tree := ⟨rfl, trivial, List.nodup_nil⟩
          black := rfl
          head := rfl
          mem := hMem
          used := hMem.used.symm
          full := by rw [geoChunks, chunksFrom, List.length_map, List.length_range] }
      rw [Helpers.parse, hInit]
      exact hRefines.line_refines entries

end Peak.Locate
