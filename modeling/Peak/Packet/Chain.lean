import Mathlib.Computability.StateTransition
import Peak.Packet.Parse

/-! The chain of IPv6 extension headers that a buffer holds, as a transition
system on header positions. The loop of `peak_packet_ipv6` follows exactly
this chain, and its 8-bit `net_hlen` is the chain offset modulo 256. -/
namespace Peak.Packet

open ByteImage StateTransition

/-- A position in the chain: where a header starts and what it is said to be. -/
structure ExtHeader where
  pos : Nat
  type : Nat
deriving DecidableEq, Repr

/-- The header behind `h`, laid out the way the dissector takes it: a variable
header is as long as its length byte says, a fragment header is eight bytes.
`none` where the chain stops. -/
def extNext (read : Nat → Option UInt8) (h : ExtHeader) : Option ExtHeader :=
  if isVariable h.type then
    match read (h.pos + 1), read h.pos with
    | some extLen, some extNxt =>
        if extLen.toNat % 8 = 0 then some ⟨h.pos + extLen.toNat, extNxt.toNat⟩ else none
    | _, _ => none
  else if h.type = ipprotoFragment then
    (read h.pos).map fun extNxt => ⟨h.pos + 8, extNxt.toNat⟩
  else none

/-- The header chain of the IPv6 packet at `net`, from its first extension on. -/
def ChainReaches (m : Image) (net : Nat) (h : ExtHeader) : Prop :=
  Reaches (extNext (total m)) ⟨net + 40, byte m (net + 6)⟩ h

/-- The header a loop state points at. -/
def Walk.header (w : Walk) : ExtHeader := ⟨w.nextHdr, w.nextType⟩

variable {read : Nat → Option UInt8}

private theorem two_mul_shift {n : Nat} (h : n % 8 = 0) : 2 * (n >>> 1) = n := by
  rw [Nat.shiftRight_eq_div_pow]
  omega

/-- One pass of the loop moves to the next header of the chain and adds the
distance to `net_hlen`, or it stops at the last header of the chain. -/
theorem walkStep_cases (read : Nat → Option UInt8) (w : Walk) :
    (∃ w', walkStep read w = .next w' ∧ extNext read w.header = some w'.header ∧
      w.nextHdr ≤ w'.nextHdr ∧
      w'.netHlen = (w.netHlen + (w'.nextHdr - w.nextHdr)) % 256) ∨
    ((∀ w', walkStep read w ≠ .next w') ∧ extNext read w.header = none) := by
  unfold walkStep extNext Walk.header
  by_cases hVar : isVariable w.nextType = true
  · simp only [hVar, if_true]
    cases hLen : read (w.nextHdr + 1) with
    | none => simp
    | some extLen =>
        cases hNxt : read w.nextHdr with
        | none => simp
        | some extNxt =>
            by_cases hMod : extLen.toNat % 8 = 0
            · simp [hMod, two_mul_shift hMod]
            · simp [hMod]
  · simp only [hVar, Bool.false_eq_true, if_false]
    by_cases hFrag : w.nextType = ipprotoFragment
    · cases hNxt : read w.nextHdr with
      | none => simp [hFrag]
      | some extNxt => simp [hFrag]
    · simp [hFrag]

theorem walkStep_next {w w' : Walk} (h : walkStep read w = .next w') :
    extNext read w.header = some w'.header ∧
      w.nextHdr ≤ w'.nextHdr ∧
      w'.netHlen = (w.netHlen + (w'.nextHdr - w.nextHdr)) % 256 := by
  rcases walkStep_cases read w with ⟨w'', hNext, hChain⟩ | ⟨hStop, _⟩
  · rw [h] at hNext
    cases hNext
    exact hChain
  · exact absurd h (hStop w')

/-- A pass that does not go on leaves the chain at its last header. -/
theorem walkStep_stop {w : Walk} (h : ∀ w', walkStep read w ≠ .next w') :
    extNext read w.header = none := by
  rcases walkStep_cases read w with ⟨w', hNext, _⟩ | ⟨_, hEnd⟩
  · exact absurd hNext (h w')
  · exact hEnd

theorem walk_of_next {w w' : Walk} (h : walkStep read w = .next w') (fuel : Nat) :
    walk read (fuel + 1) w = walk read fuel w' := by
  rw [walk, h]

theorem walk_of_ret {w : Walk} {code : Nat} (h : walkStep read w = .ret code) (fuel : Nat) :
    walk read (fuel + 1) w = some (.returned code w) := by
  rw [walk, h]

/-- The loop accepts only at a header it does not know as an extension. -/
theorem walkStep_ret_zero {w : Walk} (h : walkStep read w = .ret 0) :
    isVariable w.nextType = false ∧ w.nextType ≠ ipprotoFragment := by
  unfold walkStep at h
  by_cases hVar : isVariable w.nextType = true
  · simp only [hVar, if_true] at h
    split at h
    · split_ifs at h
      cases h
    · cases h
  · refine ⟨by simpa using hVar, ?_⟩
    intro hFrag
    rw [if_neg hVar, if_pos hFrag] at h
    split at h <;> cases h

theorem extNext_of_not_extension {h : ExtHeader} (hVar : isVariable h.type = false)
    (hFrag : h.type ≠ ipprotoFragment) : extNext read h = none := by
  simp [extNext, hVar, hFrag]

/-- The loop ends at the end of the chain it was started on, with `net_hlen`
advanced by the distance walked, modulo 256. -/
theorem walk_returned {fuel code : Nat} {w e : Walk}
    (h : walk read fuel w = some (.returned code e)) :
    Reaches (extNext read) w.header e.header ∧ extNext read e.header = none ∧
      walkStep read e = .ret code ∧ w.nextHdr ≤ e.nextHdr ∧
      e.netHlen % 256 = (w.netHlen + (e.nextHdr - w.nextHdr)) % 256 := by
  induction fuel generalizing w with
  | zero => simp [walk] at h
  | succ fuel ih =>
      unfold walk at h
      cases hStep : walkStep read w with
      | next w' =>
          simp only [hStep] at h
          obtain ⟨hReach, hStop, hRet, hLe, hHlen⟩ := ih h
          obtain ⟨hNext, hLe', hHlen'⟩ := walkStep_next hStep
          refine ⟨.head hNext hReach, hStop, hRet, by omega, ?_⟩
          rw [hHlen, hHlen']
          omega
      | ret c =>
          simp only [hStep, Option.some.injEq, WalkEnd.returned.injEq] at h
          obtain ⟨rfl, rfl⟩ := h
          exact ⟨.refl, walkStep_stop (by simp [hStep]), hStep, le_refl _, by simp⟩
      | outside => simp [hStep] at h

/-- `net_hlen` never leaves its eight bits. -/
theorem walk_netHlen_lt {fuel code : Nat} {w e : Walk} (hLt : w.netHlen < 256)
    (h : walk read fuel w = some (.returned code e)) : e.netHlen < 256 := by
  induction fuel generalizing w with
  | zero => simp [walk] at h
  | succ fuel ih =>
      unfold walk at h
      cases hStep : walkStep read w with
      | next w' =>
          simp only [hStep] at h
          refine ih ?_ h
          rw [(walkStep_next hStep).2.2]
          exact Nat.mod_lt _ (by decide)
      | ret c =>
          simp only [hStep, Option.some.injEq, WalkEnd.returned.injEq] at h
          exact h.2 ▸ hLt
      | outside => simp [hStep] at h

/-- The loop ends within some number of passes exactly when the chain does. -/
theorem walk_ends_iff (w : Walk) :
    (∃ fuel e, walk read fuel w = some e) ↔
      ∃ e, Reaches (extNext read) w.header e ∧ extNext read e = none := by
  constructor
  · rintro ⟨fuel, e, h⟩
    induction fuel generalizing w with
    | zero => simp [walk] at h
    | succ fuel ih =>
        unfold walk at h
        cases hStep : walkStep read w with
        | next w' =>
            simp only [hStep] at h
            obtain ⟨last, hReach, hStop⟩ := ih w' h
            exact ⟨last, .head (walkStep_next hStep).1 hReach, hStop⟩
        | ret c => exact ⟨w.header, .refl, walkStep_stop (by simp [hStep])⟩
        | outside => exact ⟨w.header, .refl, walkStep_stop (by simp [hStep])⟩
  · rintro ⟨last, hReach, hStop⟩
    generalize hHead : w.header = h at hReach
    induction hReach using Relation.ReflTransGen.head_induction_on generalizing w with
    | refl =>
        subst hHead
        refine ⟨1, ?_⟩
        unfold walk
        cases hStep : walkStep read w with
        | next w' => simp [(walkStep_next hStep).1] at hStop
        | ret c => exact ⟨_, rfl⟩
        | outside => exact ⟨_, rfl⟩
    | head hNext hRest ih =>
        subst hHead
        cases hStep : walkStep read w with
        | next w' =>
            have hSame : w'.header = _ :=
              Option.some.inj ((walkStep_next hStep).1.symm.trans hNext)
            obtain ⟨fuel, e, hWalk⟩ := ih w' hSame
            exact ⟨fuel + 1, e, by simp [walk, hStep, hWalk]⟩
        | ret c => exact ⟨1, .returned c w, by simp only [walk, hStep]⟩
        | outside => exact ⟨1, .outside, by simp only [walk, hStep]⟩

/-- More fuel does not change how a finished loop ended. -/
theorem walk_mono {fuel fuel' : Nat} {w : Walk} {e : WalkEnd}
    (h : walk read fuel w = some e) (hLe : fuel ≤ fuel') : walk read fuel' w = some e := by
  induction fuel generalizing fuel' w with
  | zero => simp [walk] at h
  | succ fuel ih =>
      obtain ⟨more, rfl⟩ : ∃ more, fuel' = more + 1 := ⟨fuel' - 1, by omega⟩
      unfold walk at h ⊢
      cases hStep : walkStep read w with
      | next w' =>
          simp only [hStep] at h ⊢
          exact ih h (by omega)
      | ret c => simpa [hStep] using h
      | outside => simpa [hStep] using h

theorem ipv6_mono {fuel fuel' net : Nat} {m : Image} {self : Packet} {r : Nat × Packet}
    (h : ipv6 fuel m net self = some r) (hLe : fuel ≤ fuel') :
    ipv6 fuel' m net self = some r := by
  unfold ipv6 at h ⊢
  cases hWalk : walk (total m) fuel (walkStart m net) with
  | none => simp [hWalk] at h
  | some e =>
      rw [walk_mono hWalk hLe]
      rwa [hWalk] at h

theorem network_mono {fuel fuel' net : Nat} {m : Image} {self : Packet} {r : Nat × Packet}
    (h : network fuel m net self = some r) (hLe : fuel ≤ fuel') :
    network fuel' m net self = some r := by
  by_cases hIp : self.macType = ethertypeIp
  · rwa [network_ip fuel m net hIp, ← network_ip fuel' m net hIp] at h
  by_cases hIpv6 : self.macType = ethertypeIpv6
  · rw [network_ipv6 fuel m net hIpv6] at h
    rw [network_ipv6 fuel' m net hIpv6]
    cases hRes : ipv6 fuel m net (ipv6Packet m net self) with
    | none => simp [hRes] at h
    | some res =>
        rw [ipv6_mono hRes hLe]
        rwa [hRes] at h
  · rwa [network_other fuel m net hIp hIpv6, ← network_other fuel' m net hIp hIpv6] at h

/-- More fuel does not change the result of the dissector. -/
theorem parse_mono {fuel fuel' len type : Nat} {m : Image} {r : Nat × Packet}
    (h : parse fuel m len type = some r) (hLe : fuel ≤ fuel') :
    parse fuel' m len type = some r := by
  unfold parse at h ⊢
  cases hLink : linkHeader m type with
  | none => simpa [hLink] using h
  | some link =>
      simp only [hLink] at h ⊢
      exact network_mono h hLe

/-- A variable header of a total image, in terms of its two bytes. -/
theorem walkStep_variable (m : Image) {w : Walk} (hVar : isVariable w.nextType = true) :
    walkStep (total m) w =
      if byte m (w.nextHdr + 1) % 8 ≠ 0 then .ret 1
      else .next
        { nextHdr := w.nextHdr + byte m (w.nextHdr + 1)
          nextType := byte m w.nextHdr
          netHlen := (w.netHlen + byte m (w.nextHdr + 1)) % 256 } := by
  simp only [walkStep, total, byte, if_pos hVar]
  by_cases hMod : (m (w.nextHdr + 1)).toNat % 8 = 0
  · simp only [hMod, ne_eq, not_true_eq_false, if_false, two_mul_shift hMod]
  · simp only [hMod, ne_eq, not_false_eq_true, if_true]

/-- A fragment header of a total image. -/
theorem walkStep_fragment (m : Image) {w : Walk} (hFrag : w.nextType = ipprotoFragment) :
    walkStep (total m) w = .next
      { nextHdr := w.nextHdr + 8
        nextType := byte m w.nextHdr
        netHlen := (w.netHlen + 8) % 256 } := by
  have hVar : ¬ isVariable w.nextType = true := by
    rw [hFrag]
    decide
  simp only [walkStep, total, byte, if_neg hVar, if_pos hFrag]
  rfl

theorem walkStep_end {w : Walk} (hVar : isVariable w.nextType = false)
    (hFrag : w.nextType ≠ ipprotoFragment) : walkStep read w = .ret 0 := by
  simp [walkStep, hVar, hFrag]

/-- A total image serves every read, so its loop never ends outside. -/
theorem walkStep_total_ne_outside (m : Image) (w : Walk) :
    walkStep (total m) w ≠ .outside := by
  unfold walkStep total
  split_ifs <;> simp
  split_ifs <;> simp

theorem walk_total_ne_outside (m : Image) (fuel : Nat) (w : Walk) :
    walk (total m) fuel w ≠ some .outside := by
  induction fuel generalizing w with
  | zero => simp [walk]
  | succ fuel ih =>
      unfold walk
      cases hStep : walkStep (total m) w with
      | next w' => exact ih w'
      | ret c => simp
      | outside => exact absurd hStep (walkStep_total_ne_outside m w)

/-- Headers only move forward. -/
theorem pos_le_of_extNext {h h' : ExtHeader} (hNext : extNext read h = some h') :
    h.pos ≤ h'.pos := by
  unfold extNext at hNext
  split_ifs at hNext
  · split at hNext
    · split_ifs at hNext
      cases hNext
      simp
    · cases hNext
  · obtain ⟨extNxt, -, rfl⟩ := Option.map_eq_some_iff.mp hNext
    simp

theorem pos_le_of_reaches {h h' : ExtHeader} (hReach : Reaches (extNext read) h h') :
    h.pos ≤ h'.pos := by
  induction hReach with
  | refl => exact le_refl _
  | tail _ hNext ih => exact ih.trans (pos_le_of_extNext hNext)

end Peak.Packet
