import Peak.Base.Run
import Peak.Netmap.Rings

/-! The devices of `lib/peak_netmap.c`: which of them are found by a name, after any
sequence of calls. -/
namespace Peak.Netmap

/-- `IFNAMSIZ`. -/
def ifnamsiz : Nat := 16

/-- `NETMAP_MAX`. -/
def netmapMax : Nat := 64

/-- The devices, and whether the mutex is held. -/
structure Registry where
  netmaps : Netmaps
  locked : Bool

namespace Registry

/-- Before any call. -/
def empty (shared : Shared) : Registry := ⟨⟨shared, [], 0, none, ⟨0, 0⟩⟩, false⟩

/-- What `_peak_netmap_attach` does not mind under the same name. -/
def ignored : RegType → RegType
  | .pipeMaster => .pipeSlave
  | .pipeSlave => .pipeMaster
  | .allNic => .allNic

/-- `_peak_netmap_attach`, with the interface and the number of its rings if the
system opens it. -/
def attach (self : Registry) (ifname : Name) (type : RegType) (opened : Option (Nat × Nat)) : Bool × Registry :=
  if self.locked then (true, self)
  else if self.netmaps.find (some ifname) (ignored type) < self.netmaps.dev.length then (true, self)
  else if self.netmaps.dev.length ≥ netmapMax then (true, self)
  else
    match opened with
    | none => (true, self)
    | some (nifp, rings) =>
        let dev : Dev := ⟨ifname.take (ifnamsiz - 1), nifp, type, 0, rings⟩
        (false, { self with netmaps := { self.netmaps with dev := self.netmaps.dev ++ [dev] } })

/-- `peak_netmap_detach`: the last device takes the place of the one that goes. -/
def detach (self : Registry) (ifname : Name) : Bool × Registry :=
  if self.locked then (true, self)
  else
    let i := self.netmaps.find (some ifname) .allNic
    match self.netmaps.dev[i]?, self.netmaps.dev.getLast? with
    | some _, some last =>
        (false, { self with netmaps := { self.netmaps with dev := (self.netmaps.dev.set i last).dropLast } })
    | _, _ => (true, self)

/-- `peak_netmap_lock`, when the mutex is free. -/
def lock (self : Registry) : Registry := { self with locked := true }

/-- `peak_netmap_unlock`. -/
def unlock (self : Registry) : Registry := { self with locked := false }

end Registry

/-- A call. -/
inductive Call where
  | attach (ifname : Name) (type : RegType) (opened : Option (Nat × Nat))
  | detach (ifname : Name)
  | lock
  | unlock

namespace Registry

def step (self : Registry) : Call → Except Empty Registry
  | .attach ifname type opened => .ok (self.attach ifname type opened).2
  | .detach ifname => .ok (self.detach ifname).2
  | .lock => .ok self.lock
  | .unlock => .ok self.unlock

/-- Names are those of interfaces, and a mutex that is held is not taken again. -/
def Admitted (self : Registry) : Call → Prop
  | .attach ifname _ _ => ifname.length < ifnamsiz
  | .detach _ => True
  | .lock => self.locked = false
  | .unlock => self.locked = true

end Registry

/-- The two ends of a pipe, which may have one name. -/
def Dev.Ends (dev dev' : Dev) : Prop :=
  dev.type = .pipeMaster ∧ dev'.type = .pipeSlave ∨ dev.type = .pipeSlave ∧ dev'.type = .pipeMaster

theorem Dev.Ends.symm {dev dev' : Dev} (h : dev.Ends dev') : dev'.Ends dev := by
  rcases h with ⟨h, h'⟩ | ⟨h, h'⟩
  · exact .inr ⟨h', h⟩
  · exact .inl ⟨h', h⟩

/-- Only the two ends of a pipe have one name. -/
def Dev.Apart (dev dev' : Dev) : Prop := dev.ifname = dev'.ifname → dev.Ends dev'

instance : Std.Symm Dev.Apart where
  symm _ _ h hSame := (h hSame.symm).symm

def Registry.Distinct (self : Registry) : Prop := self.netmaps.dev.Pairwise Dev.Apart

variable {s : Registry} {ifname : Name} {type ignore : RegType} {opened : Option (Nat × Nat)} {dev dev' : Dev}

theorem Dev.named_iff : dev.named ifname ignore = true ↔
    ifname = dev.ifname ∧ (ignore = .allNic ∨ ignore ≠ dev.type) := by
  rw [Dev.named, Bool.and_eq_true, Bool.not_eq_true', Bool.and_eq_false_iff, bne_eq_false_iff_eq, beq_eq_false_iff_ne,
    beq_iff_eq]
  exact and_comm

theorem Dev.Ends.covers (h : dev.Ends dev') (hPipe : ignore ≠ .allNic) :
    dev.type = ignore ∨ dev'.type = ignore := by
  rcases h with ⟨hType, hType'⟩ | ⟨hType, hType'⟩
  · cases ignore with
    | allNic => exact absurd rfl hPipe
    | pipeMaster => exact .inl hType
    | pipeSlave => exact .inr hType'
  · cases ignore with
    | allNic => exact absurd rfl hPipe
    | pipeMaster => exact .inr hType'
    | pipeSlave => exact .inl hType

namespace Registry

theorem Distinct.attach (h : s.Distinct) (hLength : ifname.length < ifnamsiz) :
    (s.attach ifname type opened).2.Distinct := by
  unfold Registry.attach
  split_ifs with hLocked hFound hFull
  · exact h
  · exact h
  · exact h
  · cases opened with
    | none => exact h
    | some opened =>
        have hWhole : ifname.take (ifnamsiz - 1) = ifname := List.take_of_length_le (by omega)
        refine List.pairwise_append.mpr ⟨h, List.pairwise_singleton _ _, fun dev hMem dev' hNew hSame => ?_⟩
        rw [List.mem_singleton] at hNew
        subst hNew
        rw [hWhole] at hSame
        -- a device of this name is one that was ignored
        have hNot : dev.named ifname (ignored type) ≠ true := by
          intro hNamed
          exact hFound (List.findIdx_lt_length.mpr ⟨dev, hMem, hNamed⟩)
        rw [Ne, Dev.named_iff] at hNot
        have hIgnored : ignored type ≠ .allNic ∧ ignored type = dev.type := by
          constructor
          · exact fun hNic => hNot ⟨hSame.symm, .inl hNic⟩
          · by_contra hType
            exact hNot ⟨hSame.symm, .inr hType⟩
        cases type with
        | allNic => exact absurd rfl hIgnored.1
        | pipeMaster => exact .inr ⟨hIgnored.2.symm, rfl⟩
        | pipeSlave => exact .inl ⟨hIgnored.2.symm, rfl⟩

/-- The device that is found goes, and all others stay. -/
theorem detach_perm {i : Nat} {devs : List Dev} {last : Dev} (hi : i < devs.length)
    (hLast : devs.getLast? = some last) : (devs.set i last).dropLast.Perm (devs.eraseIdx i) := by
  obtain ⟨front, rfl⟩ := List.getLast?_eq_some_iff.mp hLast
  rw [List.length_append, List.length_singleton] at hi
  rcases Nat.lt_or_ge i front.length with hFront | hEnd
  · rw [List.set_append_left _ _ hFront, List.dropLast_concat, List.eraseIdx_append_of_lt_length hFront]
    exact (List.set_perm_cons_eraseIdx hFront last).trans (List.perm_append_singleton _ _).symm
  · obtain rfl : i = front.length := by omega
    rw [List.set_append_right _ _ (Nat.le_refl _), Nat.sub_self, List.eraseIdx_append_of_length_le (Nat.le_refl _),
      Nat.sub_self]
    simp

theorem Distinct.detach (h : s.Distinct) : (s.detach ifname).2.Distinct := by
  unfold Registry.detach
  split_ifs with hLocked
  · exact h
  · dsimp only
    cases hDev : s.netmaps.dev[s.netmaps.find (some ifname) .allNic]? with
    | none => exact h
    | some dev =>
        cases hLast : s.netmaps.dev.getLast? with
        | none => exact h
        | some last =>
            obtain ⟨hi, _⟩ := List.getElem?_eq_some_iff.mp hDev
            have hOthers := h.sublist (List.eraseIdx_sublist s.netmaps.dev (s.netmaps.find (some ifname) .allNic))
            exact ((detach_perm hi hLast).symm.pairwise_iff fun hApart => symm hApart).mp hOthers

/-- The one device of a name that is not of the type that is ignored is found. -/
theorem Distinct.find_eq (h : s.Distinct) (hMem : dev ∈ s.netmaps.dev) (hPipe : ignore ≠ .allNic)
    (hType : dev.type ≠ ignore) : s.netmaps.dev[s.netmaps.find (some dev.ifname) ignore]? = some dev := by
  have hNamed : dev.named dev.ifname ignore = true := Dev.named_iff.mpr ⟨rfl, .inr hType.symm⟩
  have hFound : s.netmaps.find (some dev.ifname) ignore < s.netmaps.dev.length :=
    List.findIdx_lt_length.mpr ⟨dev, hMem, hNamed⟩
  obtain ⟨hName, hNic | hOther⟩ := Dev.named_iff.mp (List.findIdx_getElem (w := hFound))
  · exact absurd hNic hPipe
  · rw [List.getElem?_eq_getElem hFound]
    by_contra hNe
    have hEnds := List.Pairwise.forall h hMem (List.getElem_mem hFound)
      (fun hSame => hNe (congrArg some hSame.symm)) hName
    rcases hEnds.covers hPipe with hThis | hThat
    · exact hType hThis
    · exact hOther hThat.symm

theorem length_attach (h : s.netmaps.dev.length ≤ netmapMax) :
    (s.attach ifname type opened).2.netmaps.dev.length ≤ netmapMax := by
  unfold Registry.attach
  split_ifs with hLocked hFound hFull
  · exact h
  · exact h
  · exact h
  · cases opened with
    | none => exact h
    | some opened =>
        show (s.netmaps.dev ++ [_]).length ≤ netmapMax
        rw [List.length_append, List.length_singleton]
        omega

theorem length_detach (h : s.netmaps.dev.length ≤ netmapMax) :
    (s.detach ifname).2.netmaps.dev.length ≤ netmapMax := by
  unfold Registry.detach
  split_ifs with hLocked
  · exact h
  · dsimp only
    cases s.netmaps.dev[s.netmaps.find (some ifname) .allNic]? with
    | none => exact h
    | some dev =>
        cases s.netmaps.dev.getLast? with
        | none => exact h
        | some last =>
            show (List.dropLast _).length ≤ netmapMax
            rw [List.length_dropLast, List.length_set]
            omega

/-- What every call keeps. -/
theorem Distinct.step (h : s.Distinct ∧ s.netmaps.dev.length ≤ netmapMax) {call : Call} {s' : Registry}
    (hAdmitted : s.Admitted call) (hStep : s.step call = .ok s') :
    s'.Distinct ∧ s'.netmaps.dev.length ≤ netmapMax := by
  cases call with
  | attach ifname type opened =>
      cases hStep
      exact ⟨h.1.attach hAdmitted, length_attach h.2⟩
  | detach ifname =>
      cases hStep
      exact ⟨h.1.detach, length_detach h.2⟩
  | lock =>
      cases hStep
      exact h
  | unlock =>
      cases hStep
      exact h

/-- Whatever was attached and detached before: a name leads `peak_netmap_recv` to the
one device with it that is not the sending end of a pipe, and `peak_netmap_send` to the
one that is not the receiving end. -/
theorem found_by_name {shared : Shared} (hReached : Run.Reached step Admitted (.empty shared) s) (hMem : dev ∈ s.netmaps.dev) :
    (dev.type ≠ .pipeMaster → s.netmaps.dev[s.netmaps.find (some dev.ifname) .pipeMaster]? = some dev) ∧
      (dev.type ≠ .pipeSlave → s.netmaps.dev[s.netmaps.find (some dev.ifname) .pipeSlave]? = some dev) ∧
      s.netmaps.dev.length ≤ netmapMax := by
  have hFirst : (empty shared).Distinct ∧ (empty shared).netmaps.dev.length ≤ netmapMax :=
    ⟨List.Pairwise.nil, Nat.zero_le _⟩
  obtain ⟨hDistinct, hLength⟩ := hReached.invariant (fun s => s.Distinct ∧ s.netmaps.dev.length ≤ netmapMax)
    hFirst fun s a s' hInv hAdmitted hStep => Distinct.step hInv hAdmitted hStep
  refine ⟨fun hType => hDistinct.find_eq hMem ?_ hType, fun hType => hDistinct.find_eq hMem ?_ hType, hLength⟩
  · decide
  · decide

/-- Two ends of a pipe are left when a device goes. -/
theorem pipe_found :
    ∃ s, Run.Reached step Admitted (.empty ⟨fun _ => ⟨fun _ => ⟨0, 0, 0⟩, 0, 0, 0, 0, ⟨0, 0⟩, 0⟩, fun _ => []⟩) s ∧
      s.netmaps.dev = [⟨[49], 2, .pipeSlave, 0, 1⟩, ⟨[49], 1, .pipeMaster, 0, 1⟩] ∧
      s.netmaps.dev[s.netmaps.find (some [49]) .pipeMaster]? = some ⟨[49], 2, .pipeSlave, 0, 1⟩ := by
  have hName : ([101] : Name).length < ifnamsiz ∧ ([49] : Name).length < ifnamsiz := by decide
  obtain ⟨s, hReached, hDev⟩ : ∃ s, Run.Reached step Admitted
      (.empty ⟨fun _ => ⟨fun _ => ⟨0, 0, 0⟩, 0, 0, 0, 0, ⟨0, 0⟩, 0⟩, fun _ => []⟩) s ∧
      s.netmaps.dev = [⟨[49], 2, .pipeSlave, 0, 1⟩, ⟨[49], 1, .pipeMaster, 0, 1⟩] :=
    ⟨_, ((((Run.Reached.start.step (a := .attach [101] .allNic (some (0, 1))) hName.1 rfl).step
      (a := .attach [49] .pipeMaster (some (1, 1))) hName.2 rfl).step
      (a := .attach [49] .pipeSlave (some (2, 1))) hName.2 rfl).step (a := .detach [101]) trivial rfl), rfl⟩
  have hMem : (⟨[49], 2, .pipeSlave, 0, 1⟩ : Dev) ∈ s.netmaps.dev := hDev ▸ List.mem_cons_self
  exact ⟨s, hReached, hDev, (found_by_name hReached hMem).1 (by decide)⟩

end Registry

end Peak.Netmap
