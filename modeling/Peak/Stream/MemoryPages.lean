import Peak.Stream.MemoryRuns
import Peak.Stream.References

/-! Pages and references of a pool in memory: what becomes of them in the runs
that keep off foreign pages, and what the calls have to keep to besides. -/
namespace Peak.MemorySession

open Run Streams

variable {s : MemorySession} {m : Memory} {pageCount pageSize : Nat} {granted : Bool}

/-- Every page is free or held by a stream. -/
def Complete (s : MemorySession) : Prop :=
  ∀ i < s.pool.pageCount, i ∈ s.pool.pages ∨ ∃ r, Held (s.refs r) i

/-- The call forgets no page. -/
def CallSettles (s : MemorySession) (call : Call) : Prop := s.shown.CallSettles call

/-- The call leaves no stream without pages that has bytes left. -/
def CallBacked (s : MemorySession) (call : Call) : Prop := s.shown.CallBacked call

instance (s : MemorySession) (call : Call) : Decidable (s.CallSettles call) :=
  inferInstanceAs (Decidable (s.shown.CallSettles call))

instance (s : MemorySession) (call : Call) : Decidable (s.CallBacked call) :=
  inferInstanceAs (Decidable (s.shown.CallBacked call))

theorem complete_iff {refs : Nat → Option Stream} {pool : Streams} (h : m.Refines pool) :
    Complete ⟨m, refs⟩ ↔ Session.Complete ⟨pool, refs⟩ := by
  obtain ⟨pages, rfl, hShows⟩ := h
  rw [Complete, hShows.pages_eq]
  rfl

/-- In every run whose calls settle and write to no foreign page, every page is
free or held by a stream, so that a pool without live streams has all its pages
back. In every state so reached, a claim that succeeds or a release leaves all
pages with an owner if and only if it settles. -/
theorem complete_of_calls_settle (hInit : Memory.init pageCount pageSize granted = .ok (some m))
    (hFew : pageCount < 2 ^ 31)
    (hRun : Reached step (fun s call => s.Promised call ∧ s.KeepsOff call ∧ s.CallSettles call)
      (start m) s) :
    (∀ i < pageCount, i ∈ s.pool.pages ∨ ∃ r, Held (s.refs r) i) ∧
    ((∀ r, s.refs r = none) → ∀ i, i ∈ s.pool.pages ↔ i < pageCount) ∧
    (∀ r size m' ref', size < 2 ^ 64 → s.KeepsOff (.claim r size) →
      s.pool.claim (s.refs r) size = .ok (true, m', ref') →
        (Complete ⟨m', Function.update s.refs r ref'⟩ ↔ s.CallSettles (.claim r size))) ∧
    ∀ r size m' ref', s.Promised (.release r size) →
      s.pool.release (s.refs r) size = .ok (m', ref') →
        (Complete ⟨m', Function.update s.refs r ref'⟩ ↔ s.CallSettles (.release r size)) := by
  obtain ⟨hSound, hCount⟩ := sound_of_keepsOff hInit hFew (hRun.mono fun _ _ h => ⟨h.1, h.2.1⟩)
  obtain ⟨pool, hList, hListRun⟩ := reached_shown hInit hFew hRun
  obtain ⟨hOwned, hListed, hIdle, -⟩ := Session.settled_of_reached hList hListRun
  have hComplete : Complete s := (complete_iff hSound.refines).mpr hListed
  refine ⟨fun i hi => hComplete i (hCount.symm ▸ hi), ?_, ?_, ?_⟩
  · intro hNull i
    refine ⟨fun hi => ?_, fun hi => ?_⟩
    · rw [← hSound.pages_eq] at hi
      exact hCount ▸ hOwned.free_lt i hi
    · rcases hComplete i (hCount.symm ▸ hi) with hFree | ⟨r, hHeld⟩
      · exact hFree
      · rw [hNull r] at hHeld
        exact absurd hHeld (held_none i)
  · intro r size m' ref' _ hKeeps hClaim
    obtain ⟨⟨ret, pool', ref⟩, hListClaim, hAnswers⟩ := (hSound.claim_alike hKeeps).of_eq_ok hClaim
    cases hAnswers with
    | served hRefines =>
        rw [complete_iff hRefines]
        exact Session.claim_complete_iff hOwned hListed hIdle hListClaim
  · intro r size m' ref' hPromised hRelease
    obtain ⟨⟨pool', ref⟩, hListRelease, hRefines, rfl⟩ := (hSound.release_alike r size).of_eq_ok hRelease
    rw [complete_iff hRefines]
    exact Session.release_complete_iff hOwned hListed hPromised hListRelease

/-- A reference that no call is made with stays null. -/
theorem refs_of_unused (admitted : Session → Call → Prop) {r : Nat}
    (hInit : Memory.init pageCount pageSize granted = .ok (some m)) (hFew : pageCount < 2 ^ 31)
    (hRun : Reached step (fun s call => s.Promised call ∧ s.KeepsOff call ∧ admitted s.shown call) (start m) s)
    (hUnused : ∀ t call, admitted t call → r ≠ call.ref) : s.refs r = none := by
  obtain ⟨pool, -, hListRun⟩ := reached_shown hInit hFew hRun
  exact Session.refs_of_unused hListRun fun t call hAdmitted => hUnused t call hAdmitted.2

/-- Two clients write and release. The first gives a page back and moves to the
pages behind the second; in the end all pages are free. -/
theorem wholePage_complete : ∃ m s, Memory.init 5 56 true = .ok (some m) ∧
    Reached step (fun s call => s.Promised call ∧ s.KeepsOff call ∧ s.CallSettles call) (start m) s ∧
    (∀ r, s.refs r = none) ∧ ∀ i, i ∈ s.pool.pages ↔ i < 5 := by
  have hTrial : (trial (Memory.init 5 56 true) start step
      (fun s call => s.Promised call ∧ s.KeepsOff call ∧ s.CallSettles call ∧ call.ref < 2)
      [.claim 0 112, .claim 1 56, .write 0 100 [1, 2], .release 0 56, .claim 0 56, .write 1 0 [3],
        .release 1 56, .release 0 112]).map (fun s => (s.refs 0, s.refs 1)) = some (none, none) := by
    decide +kernel
  obtain ⟨m, s, hInit, hRun, hNone⟩ := reached_of_trial hTrial
  obtain ⟨hFirst, hSecond⟩ := Prod.mk.inj hNone
  have hNull : ∀ r, s.refs r = none := by
    intro r
    match r with
    | 0 => exact hFirst
    | 1 => exact hSecond
    | r + 2 =>
        exact refs_of_unused (fun t call => t.CallSettles call ∧ call.ref < 2) hInit (by decide) hRun
          fun _ _ h => by omega
  have hSettled : Reached step (fun s call => s.Promised call ∧ s.KeepsOff call ∧ s.CallSettles call)
      (start m) s := hRun.mono fun _ _ h => ⟨h.1, h.2.1, h.2.2.1⟩
  exact ⟨m, s, hInit, hSettled, hNull, (complete_of_calls_settle hInit (by decide) hSettled).2.1 hNull⟩

/-- Half a page is claimed and released again: no stream is left, and the only
page of the pool is not free. -/
theorem halfPage_is_lost : ∃ m s, Memory.init 1 56 true = .ok (some m) ∧
    Reached step Promised (start m) s ∧ (∀ r, s.refs r = none) ∧ s.pool.pages = [] ∧ ¬Complete s := by
  have hTrial : (trial (Memory.init 1 56 true) start step
      (fun s call => s.Promised call ∧ s.KeepsOff call ∧ call.ref = 0) [.claim 0 28, .release 0 28]).map
        (fun s => (s.refs 0, s.pool.pages, s.pool.pageCount)) = some (none, [], 1) := by
    decide +kernel
  obtain ⟨m, s, hInit, hRun, hView⟩ := reached_of_trial hTrial
  simp only [Prod.mk.injEq] at hView
  obtain ⟨hNone, hTree, hCount⟩ := hView
  have hNull : ∀ r, s.refs r = none := by
    intro r
    rcases eq_or_ne r 0 with rfl | hOther
    · exact hNone
    · exact refs_of_unused (fun _ call => call.ref = 0) hInit (by decide) hRun
        fun _ _ h => h ▸ hOther
  refine ⟨m, s, hInit, hRun.mono fun _ _ h => h.1, hNull, hTree, fun hComplete => ?_⟩
  rcases hComplete 0 (by omega) with hFree | ⟨r, hHeld⟩
  · rw [hTree] at hFree
    cases hFree
  · rw [hNull r] at hHeld
    exact held_none 0 hHeld

/-- In every run whose calls are backed and write to no foreign page, at least
as many references are left as pages are free, so a claim that finds pages for a
new stream finds a reference for it. -/
theorem references_left (hInit : Memory.init pageCount pageSize granted = .ok (some m))
    (hFew : pageCount < 2 ^ 31)
    (hRun : Reached step (fun s call => s.Promised call ∧ s.KeepsOff call ∧ s.CallBacked call)
      (start m) s) :
    s.pool.pages.length ≤ s.pool.references.length ∧
      ∀ call, s.KeepsOff call → s.step call ≠ .error (.panic .noReferences) := by
  obtain ⟨hSound, -⟩ := sound_of_keepsOff hInit hFew (hRun.mono fun _ _ h => ⟨h.1, h.2.1⟩)
  obtain ⟨pool, hList, hListRun⟩ := reached_shown hInit hFew hRun
  obtain ⟨hOwned, hLength⟩ := Session.kept_of_reached hList hListRun
  refine ⟨hSound.pages_eq ▸ hLength, fun call hKeeps hStep => ?_⟩
  obtain ⟨e, hListStep, hSame⟩ := (step_alike hSound hKeeps).of_eq_error hStep
  cases hSame
  rcases Session.step_error hOwned hListStep with (hNull | hTrashed | ⟨-, hNone, hFree⟩) | hNull
  · cases hNull
  · cases hTrashed
  · rw [hNone, List.length_nil, Nat.le_zero, List.length_eq_zero_iff] at hLength
    exact hFree hLength
  · cases hNull

/-- A stream of two pages writes and releases one of them, and a second one takes
the page that it gave back. -/
theorem references_left_three : ∃ m s, Memory.init 3 56 true = .ok (some m) ∧
    Reached step (fun s call => s.Promised call ∧ s.KeepsOff call ∧ s.CallBacked call) (start m) s ∧
    s.refs 0 = some ⟨0, 1, 1, 54, 58⟩ ∧ s.refs 1 = some ⟨1, 1, 0, 56, 0⟩ ∧
    s.pool.pages.length ≤ s.pool.references.length ∧
    ∀ call, s.KeepsOff call → s.step call ≠ .error (.panic .noReferences) := by
  have hTrial : (trial (Memory.init 3 56 true) start step
      (fun s call => s.Promised call ∧ s.KeepsOff call ∧ s.CallBacked call)
      [.claim 0 112, .write 0 110 [1, 2], .release 0 58, .claim 1 56, .write 1 0 [3]]).map
        (fun s => (s.refs 0, s.refs 1)) = some (some ⟨0, 1, 1, 54, 58⟩, some ⟨1, 1, 0, 56, 0⟩) := by
    decide +kernel
  obtain ⟨m, s, hInit, hRun, hView⟩ := reached_of_trial hTrial
  obtain ⟨hFirst, hSecond⟩ := Prod.mk.inj hView
  obtain ⟨hLength, hNone⟩ := references_left hInit (by decide) hRun
  exact ⟨m, s, hInit, hRun, hFirst, hSecond, hLength, hNone⟩

/-- A stream that keeps one byte and no page: of two references one is left for
two free pages, and the second claim from then on stops the program. -/
theorem references_run_out : ∃ m s, Memory.init 2 56 true = .ok (some m) ∧
    Reached step Promised (start m) s ∧ s.Promised (.claim 2 56) ∧
    s.step (.claim 2 56) = .error (.panic .noReferences) := by
  have hTrial : (trial (Memory.init 2 56 true) start step Promised
      [.claim 0 56, .release 0 1, .claim 0 1, .release 0 55, .claim 1 56]).map
        (fun s => failure (s.step (.claim 2 56))) = some (some (.panic .noReferences)) := by
    decide +kernel
  obtain ⟨m, s, hInit, hRun, hView⟩ := reached_of_trial hTrial
  exact ⟨m, s, hInit, hRun, show 56 < 2 ^ 64 by decide, eq_error_of_failure hView⟩

end Peak.MemorySession
