import Peak.Li.Apps

/-! Detection and test search the application table by different keys. They agree
because no application is listed twice for one protocol. -/
namespace Peak.Li

section Table

variable {α : Type} {p q : α → Bool} {table before after : List α} {a b : α}

/-- The first element that is found is the one with no other before it. -/
theorem find?_append_cons (hBefore : ∀ b ∈ before, p b = false) (ha : p a) :
    (before ++ a :: after).find? p = some a := by
  rw [List.find?_append, List.find?_eq_none.mpr fun b hb => by rw [hBefore b hb]; decide,
    Option.none_or, List.find?_cons_of_pos ha]

/-- If no two elements of a table satisfy `p`, the one that does is found. -/
theorem find?_of_pairwise (hPairwise : table.Pairwise fun a b => ¬(p a ∧ p b)) (hMem : a ∈ table)
    (ha : p a) : table.find? p = some a := by
  obtain ⟨before, after, rfl⟩ := List.append_of_mem hMem
  apply find?_append_cons _ ha
  intro b hb
  have hApart := (List.pairwise_append.mp hPairwise).2.2 b hb a List.mem_cons_self
  cases hp : p b with
  | true => exact absurd ⟨hp, ha⟩ hApart
  | false => rfl

end Table

/-- The protocols of two entries have nothing in common that a packet can
have. -/
def Entry.apart (e e' : Entry) : Bool :=
  [e.proto0, e.proto1].all fun proto =>
    proto == ipprotoMax || (proto != e'.proto0 && proto != e'.proto1)

theorem Entry.not_lists_both {e e' : Entry} (hApart : e.apart e') (netType : UInt8) :
    ¬(e.lists netType ∧ e'.lists netType) := by
  have hByte := netType.toNat_lt
  simp only [apart, lists, List.all_cons, List.all_nil, Bool.and_true, Bool.and_eq_true,
    Bool.or_eq_true, beq_iff_eq, bne_iff_ne, ipprotoMax] at hApart ⊢
  omega

/-- No number is listed twice for the same protocol. -/
theorem apps_apart : apps.Pairwise fun e e' =>
    e.app.number = e'.app.number → e.apart e' = true := by
  decide

/-- The undefined application lists no protocol that a packet can have. -/
theorem protos_undefined : ∀ e ∈ apps, e.app.number = App.undefined.number →
    e.proto0 = ipprotoMax ∧ e.proto1 = ipprotoMax := by
  decide

variable {s : Seen} {e : Entry}

/-- The entry lists the packet's protocol and its detector accepts. -/
def Entry.accepts (e : Entry) (s : Seen) : Bool := e.lists s.netType && e.function s

theorem not_accepts_undefined (hMem : e ∈ apps) (hNumber : e.app.number = App.undefined.number) :
    e.accepts s = false := by
  obtain ⟨hFirst, hSecond⟩ := protos_undefined e hMem hNumber
  have hByte := s.netType.toNat_lt
  have hLists : e.lists s.netType = false := by
    simp only [Entry.lists, hFirst, hSecond, ipprotoMax, Bool.or_eq_false_iff, beq_eq_false_iff_ne]
    omega
  rw [Entry.accepts, hLists, Bool.false_and]

theorem get_eq_find (hPayload : 0 < s.appLen) :
    get s = ((apps.find? fun e => e.accepts s).map fun e => e.app.number).getD
      App.undefined.number := by
  have hLength : s.appLen ≠ 0 := Nat.ne_of_gt hPayload
  have hSearch : (apps.find? fun e => e.lists s.netType && e.function s) =
      apps.find? fun e => e.accepts s := rfl
  rw [get, if_neg fun h => hLength h.2, if_pos hLength, hSearch]
  cases apps.find? fun e => e.accepts s <;> rfl

/-- An entry that accepts is the one that the test for its number asks. -/
theorem test_of_accepts (hMem : e ∈ apps) (hAccepts : e.accepts s) :
    test s e.app.number = true := by
  obtain ⟨hLists, hFunction⟩ := Bool.and_eq_true_iff.mp hAccepts
  have hFind : (apps.find? fun e' => e'.app.number == e.app.number && e'.lists s.netType) =
      some e := by
    apply find?_of_pairwise _ hMem
    · rw [beq_self_eq_true, hLists, Bool.and_true]
    · apply apps_apart.imp
      intro a b hApart hBoth
      obtain ⟨⟨hA, hListsA⟩, hB, hListsB⟩ := hBoth.imp Bool.and_eq_true_iff.mp Bool.and_eq_true_iff.mp
      exact Entry.not_lists_both (hApart ((beq_iff_eq.mp hA).trans (beq_iff_eq.mp hB).symm))
        s.netType ⟨hListsA, hListsB⟩
  rw [test, hFind]
  exact hFunction

/-- If no entry accepts, every test fails. -/
theorem test_of_none (hNone : ∀ e ∈ apps, e.accepts s = false) (number : Nat) :
    test s number = false := by
  rw [test]
  cases hFind : apps.find? fun e => e.app.number == number && e.lists s.netType with
  | none => rfl
  | some e =>
      have hFound := List.find?_some hFind
      have hLists := (Bool.and_eq_true_iff.mp hFound).2
      have hRefused := hNone e (List.mem_of_find?_eq_some hFind)
      rwa [Entry.accepts, hLists, Bool.true_and] at hRefused

/-- Detection and test agree on every packet with a payload: what is detected
passes its test, what is undefined passes no test, and detected is the first
entry that accepts. -/
theorem get_agrees_with_test (s : Seen) (hPayload : 0 < s.appLen) :
    (get s ≠ App.unknown.number → get s ≠ App.undefined.number → test s (get s) = true) ∧
    (get s = App.undefined.number → ∀ number, test s number = false) ∧
    (∀ before e after, apps = before ++ e :: after → e.accepts s = true →
      (∀ e' ∈ before, e'.accepts s = false) → get s = e.app.number) ∧
    ((∀ e ∈ apps, e.accepts s = false) → get s = App.undefined.number) := by
  have hGet := get_eq_find hPayload
  refine ⟨?_, ?_, ?_, ?_⟩
  · intro _ hDefined
    cases hFind : apps.find? fun e => e.accepts s with
    | none =>
        rw [hFind] at hGet
        exact absurd hGet hDefined
    | some e =>
        rw [hFind] at hGet
        have hFound := List.find?_some hFind
        rw [hGet]
        exact test_of_accepts (List.mem_of_find?_eq_some hFind) hFound
  · intro hUndefined
    apply test_of_none
    intro e hMem
    cases hFind : apps.find? fun e => e.accepts s with
    | none => exact Bool.not_eq_true _ ▸ List.find?_eq_none.mp hFind e hMem
    | some found =>
        rw [hFind] at hGet
        have hRefused := not_accepts_undefined (s := s) (List.mem_of_find?_eq_some hFind)
          (hGet.symm.trans hUndefined)
        exact absurd (List.find?_some hFind) (by rw [hRefused]; decide)
  · intro before e after hTable hAccepts hBefore
    have hFind : ((before ++ e :: after).find? fun e => e.accepts s) = some e :=
      find?_append_cons hBefore hAccepts
    rw [hGet, hTable, hFind]
    rfl
  · intro hNone
    have hFind : (apps.find? fun e => e.accepts s) = none :=
      List.find?_eq_none.mpr fun e hMem => by rw [hNone e hMem]; decide
    rw [hGet, hFind]
    rfl

/-- A request for a web page. -/
def webRequest : Seen :=
  { app := ByteImage.ofList [71, 69, 84, 32, 47]
    flow := ByteImage.ofList []
    appLen := 5
    flowLen := 25
    netType := 6
    flowSport := 1024
    flowDport := 80 }

theorem webRequest_agrees : get webRequest = App.http.number ∧
    test webRequest (get webRequest) = true :=
  ⟨by decide, (get_agrees_with_test webRequest (by decide)).1 (by decide) (by decide)⟩

end Peak.Li
