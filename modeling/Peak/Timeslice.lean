import Mathlib.Data.List.Induction
import Peak.Base.Forward
import Peak.Base.Words

/-! The clocks of `peak_timeslice.h`: a time of day with its calendar forms, and
three clocks that only run forward. -/
namespace Peak.Clock

open Words

/-- `struct peak_timeval`. -/
structure Timeval where
  tvSec : Int
  tvUsec : Int
deriving DecidableEq, Repr

/-- `timeslice_t`, with `tm` for the calendar form of a time. -/
structure Timeslice (tm : Type) where
  tv : Timeval
  monoUsecOff : Int
  monoMsecOff : Int
  monoSecOff : Int
  monoUsec : Int
  monoMsec : Int
  monoSec : Int
  localTime : tm
  gmt : tm
  time : Int
deriving DecidableEq, Repr

/-- A signed result of 64 bits; C gives a larger one no meaning. -/
def checked (x : Int) : Option Int := if Fits x then some x else none

/-- `_TIMESLICE_RECALIBRATE`: what it leaves in `prev` and `off`. -/
def recalibrate (now prev off : Int) : Option (Int × Int) := do
  let since ← checked (now - off)
  let off ← (if since < prev then checked (now - prev) else some off)
  let prev ← checked (now - off)
  return (prev, off)

/-- `tv_sec * 1000ll + tv_usec / 1000ll`. -/
def Timeval.toMsec (v : Timeval) : Option Int := do
  let ms ← checked (v.tvSec * 1000)
  checked (ms + v.tvUsec.tdiv 1000)

/-- `tv_sec * 1000ll * 1000ll + tv_usec`. -/
def Timeval.toUsec (v : Timeval) : Option Int := do
  let ms ← checked (v.tvSec * 1000)
  let us ← checked (ms * 1000)
  checked (us + v.tvUsec)

section Clock

variable {tm : Type}

/-- `TIMESLICE_INIT`; `zero` is a calendar form of zero bytes. -/
def init (zero : tm) : Timeslice tm where
  tv := ⟨0, 0⟩
  monoUsecOff := 0
  monoMsecOff := 0
  monoSecOff := 0
  monoUsec := 0
  monoMsec := 0
  monoSec := 0
  localTime := zero
  gmt := zero
  time := 0

/-- `TIMESLICE_CALIBRATE`. -/
def calibrate (clock : Timeslice tm) (v : Timeval) : Option (Timeslice tm) := do
  let msec ← v.toMsec
  let usec ← v.toUsec
  return { clock with monoSecOff := v.tvSec, monoMsecOff := msec, monoUsecOff := usec }

/-- The calendar forms follow the second; a call that fails leaves its form. -/
def setTime (localtime gmtime : Int → Option tm) (clock : Timeslice tm) (tvSec : Int) :
    Timeslice tm :=
  if tvSec ≠ clock.time then
    { clock with
      time := tvSec
      localTime := (localtime tvSec).getD clock.localTime
      gmt := (gmtime tvSec).getD clock.gmt }
  else clock

/-- `TIMESLICE_ADVANCE`. -/
def advance (localtime gmtime : Int → Option tm) (clock : Timeslice tm) (v : Timeval) :
    Option (Timeslice tm) := do
  let clock := setTime localtime gmtime { clock with tv := v } v.tvSec
  let (sec, secOff) ← recalibrate v.tvSec clock.monoSec clock.monoSecOff
  let msecNow ← v.toMsec
  let (msec, msecOff) ← recalibrate msecNow clock.monoMsec clock.monoMsecOff
  let usecNow ← v.toUsec
  let (usec, usecOff) ← recalibrate usecNow clock.monoUsec clock.monoUsecOff
  return { clock with
    monoSec := sec
    monoSecOff := secOff
    monoMsec := msec
    monoMsecOff := msecOff
    monoUsec := usec
    monoUsecOff := usecOff }

/-- A clock that is set up, calibrated and then advanced time after time. -/
def run (localtime gmtime : Int → Option tm) (zero : tm) (c : Timeval) (vs : List Timeval) :
    Option (Timeslice tm) := do
  let clock ← calibrate (init zero) c
  vs.foldlM (advance localtime gmtime) clock

end Clock

/-- The three clocks. -/
inductive Scale where
  | sec
  | msec
  | usec
deriving DecidableEq, Repr

/-- A time in the unit of a clock, in integers without bounds. -/
def Scale.of : Scale → Timeval → Int
  | .sec, v => v.tvSec
  | .msec, v => v.tvSec * 1000 + v.tvUsec.tdiv 1000
  | .usec, v => v.tvSec * 1000 * 1000 + v.tvUsec

section Clock

variable {tm : Type} {localtime gmtime : Int → Option tm} {zero : tm}
variable {clock clock' : Timeslice tm} {c v : Timeval} {vs : List Timeval}

/-- What a clock shows. -/
def Timeslice.mono (clock : Timeslice tm) : Scale → Int
  | .sec => clock.monoSec
  | .msec => clock.monoMsec
  | .usec => clock.monoUsec

/-- What a clock takes off the time. -/
def Timeslice.monoOff (clock : Timeslice tm) : Scale → Int
  | .sec => clock.monoSecOff
  | .msec => clock.monoMsecOff
  | .usec => clock.monoUsecOff

theorem checked_eq_some {x y : Int} (h : checked x = some y) : Fits x ∧ x = y := by
  simp only [checked] at h
  split_ifs at h with hFits
  exact ⟨hFits, Option.some.inj h⟩

theorem checked_of_fits {x : Int} (h : Fits x) : checked x = some x := if_pos h

theorem toMsec_eq {x : Int} (h : v.toMsec = some x) : x = Scale.msec.of v := by
  obtain ⟨ms, hMs, hSum⟩ := Option.bind_eq_some_iff.mp h
  rw [← (checked_eq_some hSum).2, ← (checked_eq_some hMs).2]
  rfl

theorem toUsec_eq {x : Int} (h : v.toUsec = some x) : x = Scale.usec.of v := by
  obtain ⟨ms, hMs, hRest⟩ := Option.bind_eq_some_iff.mp h
  obtain ⟨us, hUs, hSum⟩ := Option.bind_eq_some_iff.mp hRest
  rw [← (checked_eq_some hSum).2, ← (checked_eq_some hUs).2, ← (checked_eq_some hMs).2]
  rfl

/-- A clock whose offset leads from the last time to what it shows moves by the
forward part of the step. -/
theorem recalibrate_some {now last prev off prev' off' : Int} (hOff : off = last - prev)
    (h : recalibrate now prev off = some (prev', off')) :
    prev' = prev + max 0 (now - last) ∧ off' = now - prev' := by
  obtain ⟨since, hSince, hRest⟩ := Option.bind_eq_some_iff.mp h
  obtain ⟨newOff, hNewOff, hRest⟩ := Option.bind_eq_some_iff.mp hRest
  obtain ⟨shown, hShown, hResult⟩ := Option.bind_eq_some_iff.mp hRest
  obtain ⟨-, rfl⟩ := checked_eq_some hSince
  obtain ⟨-, rfl⟩ := checked_eq_some hShown
  cases hResult
  split_ifs at hNewOff with hBack
  · obtain ⟨-, rfl⟩ := checked_eq_some hNewOff
    omega
  · cases hNewOff
    omega

/-- The offset of every clock leads from the last time to what the clock shows. -/
def Tracks (clock : Timeslice tm) (last : Timeval) : Prop :=
  ∀ scale, clock.monoOff scale = scale.of last - clock.mono scale

theorem tracks_calibrate (h : calibrate (init zero) c = some clock) :
    (∀ scale, clock.mono scale = 0) ∧ Tracks clock c := by
  obtain ⟨msec, hMsec, hRest⟩ := Option.bind_eq_some_iff.mp h
  obtain ⟨usec, hUsec, hResult⟩ := Option.bind_eq_some_iff.mp hRest
  cases hResult
  constructor
  · intro scale
    cases scale <;> rfl
  · intro scale
    cases scale with
    | sec => exact (Int.sub_zero _).symm
    | msec => exact (toMsec_eq hMsec).trans (Int.sub_zero _).symm
    | usec => exact (toUsec_eq hUsec).trans (Int.sub_zero _).symm

theorem mono_setTime (sec : Int) (scale : Scale) :
    (setTime localtime gmtime { clock with tv := v } sec).mono scale = clock.mono scale := by
  unfold setTime
  split_ifs <;> cases scale <;> rfl

theorem monoOff_setTime (sec : Int) (scale : Scale) :
    (setTime localtime gmtime { clock with tv := v } sec).monoOff scale = clock.monoOff scale := by
  unfold setTime
  split_ifs <;> cases scale <;> rfl

/-- One time passed on: every clock moves by the forward part of the step from
the time before. -/
theorem advance_some {last : Timeval} (hTracks : Tracks clock last)
    (h : advance localtime gmtime clock v = some clock') :
    (∀ scale, clock'.mono scale = clock.mono scale + max 0 (scale.of v - scale.of last)) ∧
      Tracks clock' v := by
  obtain ⟨⟨sec, secOff⟩, hSec, hRest⟩ := Option.bind_eq_some_iff.mp h
  obtain ⟨msecNow, hMsecNow, hRest⟩ := Option.bind_eq_some_iff.mp hRest
  obtain ⟨⟨msec, msecOff⟩, hMsec, hRest⟩ := Option.bind_eq_some_iff.mp hRest
  obtain ⟨usecNow, hUsecNow, hRest⟩ := Option.bind_eq_some_iff.mp hRest
  obtain ⟨⟨usec, usecOff⟩, hUsec, hResult⟩ := Option.bind_eq_some_iff.mp hRest
  cases hResult
  obtain rfl := toMsec_eq hMsecNow
  obtain rfl := toUsec_eq hUsecNow
  have hShown (scale : Scale) :
      (setTime localtime gmtime { clock with tv := v } v.tvSec).mono scale = clock.mono scale :=
    mono_setTime v.tvSec scale
  have hKeep (scale : Scale) :
      (setTime localtime gmtime { clock with tv := v } v.tvSec).monoOff scale = scale.of last -
        (setTime localtime gmtime { clock with tv := v } v.tvSec).mono scale := by
    rw [monoOff_setTime, hShown]
    exact hTracks scale
  obtain ⟨hSecMono, hSecOff⟩ := recalibrate_some (hKeep .sec) hSec
  obtain ⟨hMsecMono, hMsecOff⟩ := recalibrate_some (hKeep .msec) hMsec
  obtain ⟨hUsecMono, hUsecOff⟩ := recalibrate_some (hKeep .usec) hUsec
  constructor
  · intro scale
    rw [← hShown scale]
    cases scale with
    | sec => exact hSecMono
    | msec => exact hMsecMono
    | usec => exact hUsecMono
  · intro scale
    cases scale with
    | sec => exact hSecOff
    | msec => exact hMsecOff
    | usec => exact hUsecOff

/-- Times passed on one after another. -/
theorem foldlM_some {last : Timeval} (hTracks : Tracks clock last)
    (h : vs.foldlM (advance localtime gmtime) clock = some clock') :
    (∀ scale, clock'.mono scale = clock.mono scale + Forward.total scale.of last vs) ∧
      Tracks clock' (vs.getLastD last) := by
  induction vs generalizing clock last with
  | nil =>
      cases h
      exact ⟨fun scale => (Int.add_zero _).symm, hTracks⟩
  | cons v rest ih =>
      rw [List.foldlM_cons] at h
      obtain ⟨next, hNext, hRest⟩ := Option.bind_eq_some_iff.mp h
      obtain ⟨hMono, hNextTracks⟩ := advance_some hTracks hNext
      obtain ⟨hTotal, hLast⟩ := ih hNextTracks hRest
      constructor
      · intro scale
        rw [hTotal, hMono, Forward.total, Int.add_assoc]
      · rw [List.getLastD_cons]
        exact hLast

theorem run_some (h : run localtime gmtime zero c vs = some clock) :
    (∀ scale, clock.mono scale = Forward.total scale.of c vs) ∧ Tracks clock (vs.getLastD c) := by
  obtain ⟨start, hStart, hRest⟩ := Option.bind_eq_some_iff.mp h
  obtain ⟨hZero, hTracks⟩ := tracks_calibrate hStart
  obtain ⟨hTotal, hLast⟩ := foldlM_some hTracks hRest
  refine ⟨fun scale => ?_, hLast⟩
  rw [hTotal, hZero, Int.zero_add]

/-- Every clock shows the forward part of the times passed on since the
calibration; one more time moves it on by what that time is ahead, or not at
all. -/
theorem mono_counts_forward (localtime gmtime : Int → Option tm) (zero : tm) (c : Timeval)
    (vs : List Timeval) (clock : Timeslice tm)
    (hRun : run localtime gmtime zero c vs = some clock) (scale : Scale) :
    clock.mono scale = Forward.total scale.of c vs ∧
      ∀ v clock', advance localtime gmtime clock v = some clock' →
        clock.mono scale ≤ clock'.mono scale ∧
        (scale.of v ≤ scale.of (vs.getLastD c) → clock'.mono scale = clock.mono scale) ∧
        (scale.of (vs.getLastD c) ≤ scale.of v →
          clock'.mono scale = clock.mono scale + (scale.of v - scale.of (vs.getLastD c))) := by
  obtain ⟨hTotal, hTracks⟩ := run_some hRun
  refine ⟨hTotal scale, ?_⟩
  intro v clock' hAdvance
  have hMono := (advance_some hTracks hAdvance).1 scale
  omega

/-- The microseconds of a time are less than a second. -/
def Timeval.Normal (v : Timeval) : Prop := 0 ≤ v.tvUsec ∧ v.tvUsec < 1000000

instance : Decidable v.Normal := inferInstanceAs (Decidable (_ ∧ _))

/-- In a normal time the milliseconds are rounded down. -/
theorem Timeval.Normal.msec_of (hNormal : v.Normal) :
    Scale.msec.of v = v.tvSec * 1000 + v.tvUsec / 1000 := by
  rw [Scale.of, Int.tdiv_eq_ediv_of_nonneg hNormal.1]

/-- A time within some ten thousand years of the epoch. -/
structure Ordinary (v : Timeval) : Prop where
  sec : -2 ^ 40 ≤ v.tvSec ∧ v.tvSec ≤ 2 ^ 40
  normal : v.Normal

instance : Decidable (Ordinary v) :=
  decidable_of_iff ((-2 ^ 40 ≤ v.tvSec ∧ v.tvSec ≤ 2 ^ 40) ∧ v.Normal)
    ⟨fun h => ⟨h.1, h.2⟩, fun h => ⟨h.sec, h.normal⟩⟩

theorem Ordinary.fits (hOrdinary : Ordinary v) (scale : Scale) :
    -2 ^ 61 ≤ scale.of v ∧ scale.of v ≤ 2 ^ 61 := by
  obtain ⟨hSec, hNormal⟩ := hOrdinary
  have hUsec := hNormal
  simp only [Timeval.Normal] at hUsec
  cases scale with
  | sec =>
      simp only [Scale.of]
      omega
  | msec =>
      rw [hNormal.msec_of]
      omega
  | usec =>
      simp only [Scale.of]
      omega

theorem Ordinary.toMsec (hOrdinary : Ordinary v) : v.toMsec = some (Scale.msec.of v) := by
  have hFits := hOrdinary.fits .msec
  obtain ⟨hSec, -⟩ := hOrdinary
  simp only [Scale.of] at hFits ⊢
  rw [Timeval.toMsec, checked_of_fits (by simp only [Fits]; omega), Option.bind_eq_bind,
    Option.bind_some, checked_of_fits (by simp only [Fits]; omega)]

theorem Ordinary.toUsec (hOrdinary : Ordinary v) : v.toUsec = some (Scale.usec.of v) := by
  have hFits := hOrdinary.fits .usec
  obtain ⟨hSec, -⟩ := hOrdinary
  simp only [Scale.of] at hFits ⊢
  simp only [Timeval.toUsec, Option.bind_eq_bind]
  rw [checked_of_fits (by simp only [Fits]; omega), Option.bind_some,
    checked_of_fits (by simp only [Fits]; omega), Option.bind_some,
    checked_of_fits (by simp only [Fits]; omega)]

/-- A clock that stays below `2 ^ 61` is recalibrated without an overflow. -/
theorem recalibrate_isSome {now last prev off : Int} (hOff : off = last - prev)
    (hNow : -2 ^ 61 ≤ now ∧ now ≤ 2 ^ 61) (hLast : -2 ^ 61 ≤ last ∧ last ≤ 2 ^ 61)
    (hPrev : 0 ≤ prev) (hTotal : prev + max 0 (now - last) ≤ 2 ^ 61) :
    ∃ result, recalibrate now prev off = some result := by
  simp only [recalibrate, Option.bind_eq_bind]
  rw [checked_of_fits (by simp only [Fits]; omega), Option.bind_some]
  split_ifs with hBack
  · rw [checked_of_fits (by simp only [Fits]; omega), Option.bind_some,
      checked_of_fits (by simp only [Fits]; omega)]
    exact ⟨_, rfl⟩
  · rw [Option.bind_some, checked_of_fits (by simp only [Fits]; omega)]
    exact ⟨_, rfl⟩

theorem advance_isSome (localtime gmtime : Int → Option tm) {last : Timeval} (hTracks : Tracks clock last) (hLast : Ordinary last)
    (hV : Ordinary v) (hMono : ∀ scale, 0 ≤ clock.mono scale)
    (hTotal : ∀ scale, clock.mono scale + max 0 (scale.of v - scale.of last) ≤ 2 ^ 61) :
    ∃ clock', advance localtime gmtime clock v = some clock' := by
  have hKeep (scale : Scale) :
      ∃ result, recalibrate (scale.of v)
        ((setTime localtime gmtime { clock with tv := v } v.tvSec).mono scale)
        ((setTime localtime gmtime { clock with tv := v } v.tvSec).monoOff scale) = some result := by
    rw [monoOff_setTime, mono_setTime]
    exact recalibrate_isSome (hTracks scale) (hV.fits scale) (hLast.fits scale) (hMono scale)
      (hTotal scale)
  obtain ⟨⟨sec, secOff⟩, hSec⟩ := hKeep .sec
  obtain ⟨⟨msec, msecOff⟩, hMsec⟩ := hKeep .msec
  obtain ⟨⟨usec, usecOff⟩, hUsec⟩ := hKeep .usec
  simp only [Scale.of, Timeslice.mono, Timeslice.monoOff] at hSec hMsec hUsec
  simp only [advance, hSec, hV.toMsec, hV.toUsec, Scale.of, hMsec, hUsec, Option.bind_eq_bind,
    Option.bind_some]
  exact ⟨_, rfl⟩

/-- Ordinary times are counted without an overflow as long as the clocks stay
below `2 ^ 61`. -/
theorem run_isSome (localtime gmtime : Int → Option tm) (zero : tm) (c : Timeval)
    (vs : List Timeval) (hOrdinary : ∀ v ∈ c :: vs, Ordinary v)
    (hTotal : ∀ scale : Scale, Forward.total scale.of c vs ≤ 2 ^ 61) :
    ∃ clock, run localtime gmtime zero c vs = some clock := by
  induction vs using List.reverseRecOn with
  | nil =>
      have hC := hOrdinary c List.mem_cons_self
      simp only [run, calibrate, hC.toMsec, hC.toUsec, Option.bind_eq_bind, Option.bind_some]
      exact ⟨_, rfl⟩
  | append_singleton vs v ih =>
      have hStep (scale : Scale) := Forward.total_concat scale.of c vs v
      obtain ⟨clock, hRun⟩ := ih
        (fun u hu => hOrdinary u (by grind))
        (fun scale => by
          have hWhole := hTotal scale
          rw [hStep] at hWhole
          omega)
      obtain ⟨hMono, hTracks⟩ := run_some hRun
      have hLast : vs.getLastD c ∈ c :: (vs ++ [v]) :=
        List.cons_subset_cons c (List.subset_append_left vs [v]) List.getLastD_mem_cons
      obtain ⟨clock', hAdvance⟩ := advance_isSome localtime gmtime hTracks
        (hOrdinary _ hLast) (hOrdinary v (by simp))
        (fun scale => by
          rw [hMono]
          exact Forward.total_nonneg _ _ _)
        (fun scale => by
          rw [hMono, ← hStep]
          exact hTotal scale)
      obtain ⟨start, hStart, hFold⟩ := Option.bind_eq_some_iff.mp hRun
      refine ⟨clock', Option.bind_eq_some_iff.mpr ⟨start, hStart, ?_⟩⟩
      rw [List.foldlM_append, hFold, Option.bind_eq_bind, Option.bind_some, List.foldlM_cons,
        hAdvance]
      rfl

theorem mono_counts_forward_ordinary :
    ∃ clock, run some some 0 ⟨42, 0⟩ [⟨42, 15003⟩, ⟨45, 18001⟩, ⟨44, 842⟩, ⟨43, 842⟩, ⟨44, 845⟩] =
      some clock ∧ clock.mono .usec = 4018004 := by
  obtain ⟨clock, hRun⟩ := run_isSome some some 0 ⟨42, 0⟩
    [⟨42, 15003⟩, ⟨45, 18001⟩, ⟨44, 842⟩, ⟨43, 842⟩, ⟨44, 845⟩] (by decide)
    (by intro scale; cases scale <;> decide)
  exact ⟨clock, hRun, (mono_counts_forward some some 0 _ _ clock hRun .usec).1⟩

/-- The seconds and the microseconds of a time agree, if it is normal. -/
theorem whole_sec (hNormal : v.Normal) : Forward.Whole Scale.usec.of Scale.sec.of 1000000 v := by
  obtain ⟨hLow, hHigh⟩ := hNormal
  simp only [Forward.Whole, Scale.of]
  omega

theorem whole_msec (hNormal : v.Normal) : Forward.Whole Scale.usec.of Scale.msec.of 1000 v := by
  have hMsec := hNormal.msec_of
  obtain ⟨hLow, hHigh⟩ := hNormal
  simp only [Forward.Whole, hMsec]
  simp only [Scale.of]
  omega

/-- With every stretch in which time does not run backwards the clocks may drift
apart by less than one unit of the coarser clock. -/
theorem clocks_drift (localtime gmtime : Int → Option tm) (zero : tm) (c : Timeval)
    (vs : List Timeval) (clock : Timeslice tm) (hNormal : ∀ v ∈ c :: vs, v.Normal)
    (hRun : run localtime gmtime zero c vs = some clock) :
    Forward.Within (999999 * Forward.stretches Scale.usec.of false c vs)
      (clock.monoUsec - 1000000 * clock.monoSec) ∧
    Forward.Within (999 * Forward.stretches Scale.usec.of false c vs)
      (clock.monoUsec - 1000 * clock.monoMsec) := by
  obtain ⟨hTotal, -⟩ := run_some hRun
  have hSec := hTotal .sec
  have hMsec := hTotal .msec
  have hUsec := hTotal .usec
  simp only [Timeslice.mono] at hSec hMsec hUsec
  rw [hSec, hMsec, hUsec]
  exact ⟨(Forward.drift_stretches fun a ha => whole_sec (hNormal a ha)).2,
    (Forward.drift_stretches fun a ha => whole_msec (hNormal a ha)).2⟩

theorem clocks_drift_one_stretch :
    ∃ clock, run some some 0 ⟨42, 0⟩ [⟨42, 15003⟩, ⟨45, 18001⟩] = some clock ∧
      Forward.Within 999999 (clock.monoUsec - 1000000 * clock.monoSec) := by
  obtain ⟨clock, hRun⟩ := run_isSome some some 0 ⟨42, 0⟩ [⟨42, 15003⟩, ⟨45, 18001⟩] (by decide)
    (by intro scale; cases scale <;> decide)
  exact ⟨clock, hRun, (clocks_drift some some 0 _ _ clock (by decide) hRun).1⟩

/-- The microseconds of one second can be counted twice, and the second not at
all. -/
theorem clocks_apart : ¬ ∀ (c : Timeval) (vs : List Timeval) (clock : Timeslice Int),
    (∀ v ∈ c :: vs, v.Normal) → run some some 0 c vs = some clock →
      Forward.Within 999999 (clock.monoUsec - 1000000 * clock.monoSec) ∧
      Forward.Within 999 (clock.monoUsec - 1000 * clock.monoMsec) := by
  intro h
  have hApart := h ⟨0, 0⟩ [⟨0, 999999⟩, ⟨0, 0⟩, ⟨0, 999999⟩] _ (by decide) rfl
  exact absurd hApart.1.2 (by decide)

end Clock

end Peak.Clock
