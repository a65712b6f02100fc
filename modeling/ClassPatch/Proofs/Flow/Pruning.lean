import ClassPatch.Proofs.Evaluation
import ClassPatch.Proofs.Flow.Lockstep
import ClassPatch.Proofs.Flow.Places
import ClassPatch.Proofs.Flow.Sites
import Mathlib.Data.List.Find
import Mathlib.Tactic.IntervalCases

/-!
# Analysis after pruning

Removing what control does not come to leaves the analysis as it was, if no frame of removed code
comes to speak of what is kept: the first frame in a row of labels counts, and the row of a label
that control comes to may have been joined by labels of removed code; and a type may name a label
whose `new` has been removed. Otherwise the analysis of what is left may fail.
-/

namespace ClassPatch

namespace FlowSolution

/-- Control comes to a label wherever it is placed. -/
def ReachesLabel (solution : FlowSolution) (events : List Event) (l : Label) : Prop :=
  ∀ i, events[i]? = some (.label l) → (solution.state? i).isSome

/-- Frames say of the events that are left what they have said before: those whose labels come to
stand in a row with a label that control comes to are frames of such labels, and the sites that
these name are such labels. -/
structure Undisturbed (solution : FlowSolution) (events : List Event)
    (frames : List (Label × Frame)) : Prop where
  attached : ∀ row ∈ frames, ∀ i l r, (solution.state? i).isSome → events[i]? = some (.label l) →
    Means (solution.prune events) l r → Means (solution.prune events) row.1 r →
      solution.ReachesLabel events row.1
  sites : ∀ row ∈ frames, solution.ReachesLabel events row.1 → ∀ t ∈ row.2.locals ++ row.2.stack,
    t.IsKnown (solution.ReachesLabel events)

end FlowSolution

namespace FlowGraph

open FlowSolution

variable {events : List Event} {handlers : List Handler} {frames : List (Label × Frame)}
  {method : MethodContext} {solution : FlowSolution} {g g' : FlowGraph} {entry : FlowState}
  {p : FlowProgress}

/-- The graph knows where labels are placed. -/
theorem labels_eq_some_iff (hg : ofEvents events handlers frames method = .ok g) {l : Label}
    {i : Nat} : g.labels[l]? = some i ↔ events[i]? = some (.label l) := by
  obtain ⟨labels, hlabels, h⟩ := Except.bind_eq_ok.mp hg
  obtain ⟨ranges, -, h⟩ := Except.bind_eq_ok.mp h
  obtain rfl := Except.pure_eq_ok.mp h
  exact (placements_spec hlabels).2 l i

theorem method_of_ofEvents (hg : ofEvents events handlers frames method = .ok g) :
    g.method = method := by
  obtain ⟨labels, -, h⟩ := Except.bind_eq_ok.mp hg
  obtain ⟨ranges, -, h⟩ := Except.bind_eq_ok.mp h
  obtain rfl := Except.pure_eq_ok.mp h
  rfl

theorem instructionAt?_label {events : Array Event} {i : Nat} {l : Label}
    (h : events[i]? = some (.label l)) :
    instructionAt? events i = instructionAt? events (i + 1) := by
  obtain ⟨hlt, hget⟩ := Array.getElem?_eq_some_iff.mp h
  rw [instructionAt?, dif_pos hlt, hget]

theorem instructionAt?_instr {events : Array Event} {i : Nat} {ins : Instruction Label}
    (h : events[i]? = some (.instr ins)) : instructionAt? events i = some ins := by
  obtain ⟨hlt, hget⟩ := Array.getElem?_eq_some_iff.mp h
  rw [instructionAt?, dif_pos hlt, hget]

theorem exists_of_labelBefore (hg : ofEvents events handlers frames method = .ok g) {i : Nat}
    {l : Label} (h : g.labelBefore? i = some l) : ∃ k, i = k + 1 ∧
      events[k]? = some (.label l) := by
  cases i with
  | zero => cases h
  | succ k =>
    refine ⟨k, rfl, ?_⟩
    rw [← List.getElem?_toArray, ← (isOf_of_ofEvents hg).events_eq]
    simp only [labelBefore?] at h
    split at h
    · rename_i l' hl'
      rw [hl', Option.some.inj h]
    · cases h

/-- Control that comes to a position inside a row comes to the label in front of it. -/
theorem visits_of_succ (hg : ofEvents events handlers frames method = .ok g) {i : Nat} {l : Label}
    (h : g.Visits (i + 1)) (hl : events[i]? = some (.label l)) : g.Visits i := by
  have hrow {l' : Label} (hposition : g.position l' = .ok (i + 1)) : False := by
    obtain ⟨-, hstart, -⟩ := (isOf_of_ofEvents hg).position hposition
    obtain ⟨ins, hins⟩ := hstart i rfl
    cases hl.symm.trans hins
  generalize hj : i + 1 = j at h
  cases h with
  | entry => omega
  | step hi hedge =>
    cases hedge with
    | @caught range _ hmem =>
      obtain ⟨handler, -, -, -, htarget, -⟩ := (forall₂_ranges hg).exists_left hmem
      exact (hrow (hj ▸ (position_eq_ok_iff hg).mpr htarget)).elim
    | jump _ _ hposition => exact (hrow (hj ▸ hposition)).elim
    | next =>
      obtain rfl : i = _ := Nat.succ.inj hj
      exact hi

/-- Control that comes to a position comes to the start of its row. -/
theorem visits_of_inRow (hg : ofEvents events handlers frames method = .ok g) {r i : Nat}
    (h : InRow events r i) (hi : g.Visits i) : g.Visits r := by
  obtain ⟨n, rfl⟩ := Nat.exists_eq_add_of_le h.le
  induction n with
  | zero => exact hi
  | succ n ih =>
    obtain ⟨l, hl⟩ := h.labels (r + n) (Nat.le_add_right ..) (Nat.lt_succ_self _)
    refine ih ⟨h.isRowStart, Nat.le_add_right .., fun k hk hlt => ?_⟩ (visits_of_succ hg hi hl)
    exact h.labels k hk (Nat.lt_succ_of_lt hlt)

section Pruned

variable (hg : ofEvents events handlers frames method = .ok g)
  (hg' : ofEvents (solution.prune events) handlers frames method = .ok g')
  (hsolution : solution.IsOf g entry p)

section Original

include hg hsolution

omit hg in
theorem visits_iff_live {i : Nat} : g.Visits i ↔ (solution.state? i).isSome := by
  rw [← hsolution.toComplete.state_iff, Option.isSome_iff_exists]
  simp only [hsolution.state?_eq_some]

theorem size_eq_length : solution.states.size = events.length := by
  rw [hsolution.states, hsolution.size, (isOf_of_ofEvents hg).events_eq, List.size_toArray]

theorem exists_event {i : Nat} (h : g.Visits i) : ∃ e, events[i]? = some e := by
  obtain ⟨s, hs⟩ := (hsolution.toComplete.state_iff i).mpr h
  have hlt := (Array.getElem?_eq_some_iff.mp hs).1
  rw [← hsolution.states, size_eq_length hg hsolution] at hlt
  exact ⟨_, List.getElem?_eq_getElem hlt⟩

theorem reachesLabel_of_visits {l : Label} {i : Nat} (h : g.Visits i)
    (hl : events[i]? = some (.label l)) : solution.ReachesLabel events l := by
  intro k hk
  obtain rfl := Option.some.inj (((labels_eq_some_iff hg).mpr hl).symm.trans
    ((labels_eq_some_iff hg).mpr hk))
  exact (visits_iff_live hsolution).mp h

/-- Control comes to a label if it comes to the row of the label. -/
theorem reachesLabel_of_means {l : Label} {r : Nat} (h : g.Visits r) (hmeans : Means events l r) :
    solution.ReachesLabel events l := by
  obtain ⟨k, hk, hrow⟩ := hmeans
  refine reachesLabel_of_visits hg hsolution ?_ hk
  exact (isOf_of_ofEvents hg).visits_of_row h hrow.le
    (Nat.le_of_lt (List.getElem?_eq_some_iff.mp hk).1) hrow.number_eq.symm

theorem placeOf_lt_enterOf {i j : Nat} (hi : g.Visits i) (hlt : i < j) :
    solution.placeOf events i < solution.enterOf events j := by
  obtain ⟨e, he⟩ := exists_event hg hsolution hi
  exact lt_enterOf (size_eq_length hg hsolution) he ((visits_iff_live hsolution).mp hi) hlt

theorem enterOf_injective {i j : Nat} (hi : g.Visits i) (hj : g.Visits j)
    (heq : solution.enterOf events i = solution.enterOf events j) : i = j := by
  have hle := @enterOf_le solution events
  rcases Nat.lt_trichotomy i j with hlt | rfl | hlt
  · have := placeOf_lt_enterOf hg hsolution hi hlt
    have := hle i
    omega
  · rfl
  · have := placeOf_lt_enterOf hg hsolution hj hlt
    have := hle j
    omega

/-- Control enters a position at its place, or the position begins a row of labels. -/
theorem enterOf_eq_or {i : Nat} (h : g.Visits i) :
    solution.enterOf events i = solution.placeOf events i ∨ ∃ l, events[i]? = some (.label l) := by
  have hrow {l : Label} (hposition : g.position l = .ok i) : ∃ l, events[i]? = some (.label l) := by
    obtain ⟨k, hk, hin⟩ := (position_eq_ok_iff hg).mp hposition
    rcases Nat.eq_or_lt_of_le hin.le with rfl | hlt
    · exact ⟨l, hk⟩
    · exact hin.labels i (Nat.le_refl _) hlt
  cases h with
  | entry => exact .inl (by simp [enterOf])
  | step hi hedge =>
    cases hedge with
    | @caught range _ hmem =>
      obtain ⟨handler, -, -, -, htarget, -⟩ := (forall₂_ranges hg).exists_left hmem
      exact .inr (hrow ((position_eq_ok_iff hg).mpr htarget))
    | jump _ _ hposition => exact .inr (hrow hposition)
    | next => exact .inl (if_pos ((visits_iff_live hsolution).mp hi))

/-- The entry of the start of a row starts a row among what is left. -/
theorem isRowStart_enterOf {r : Nat} (hrow : IsRowStart events r) :
    IsRowStart (solution.prune events) (solution.enterOf events r) := by
  have hsize := size_eq_length hg hsolution
  intro c hc
  rcases @enterOf_cases solution events r with hzero | ⟨i, hi, hlive, heq, hnone⟩
  · omega
  · have hvisits := (visits_iff_live hsolution).mpr hlive
    obtain ⟨e, he⟩ := exists_event hg hsolution hvisits
    have hplace := placeOf_live hsize he hlive
    obtain rfl : c = solution.placeOf events i := by omega
    cases e with
    | instr ins => exact ⟨ins, getElem?_prune_live hsize he hlive⟩
    | label l =>
      -- control goes on from a label, and it is not the last position in front of the row
      have hnext : g.Visits (i + 1) := by
        refine .step hvisits (.next (e := .label l) ?_ rfl)
        rw [(isOf_of_ofEvents hg).events_eq, List.getElem?_toArray, he]
      rcases Nat.eq_or_lt_of_le (Nat.succ_le_of_lt hi) with hend | hlt
      · obtain ⟨ins, hins⟩ := hrow i hend
        cases he.symm.trans hins
      · exact absurd ((visits_iff_live hsolution).mp hnext) (hnone (i + 1) (Nat.lt_succ_self i) hlt)

/-- A label that means a position means its entry among what is left. -/
theorem means_enterOf {l : Label} {r : Nat} (h : Means events l r) :
    Means (solution.prune events) l (solution.enterOf events r) := by
  have hsize := size_eq_length hg hsolution
  obtain ⟨k, hk, hrow⟩ := h
  have hlt := (List.getElem?_eq_some_iff.mp hk).1
  refine ⟨_, getElem?_prune_label hsize hk, isRowStart_enterOf hg hsolution hrow.isRowStart,
    Nat.le_trans (enterOf_le r) (placeOf_mono hrow.le), fun c hc hc' => ?_⟩
  by_cases hplace : c < solution.placeOf events r
  · exact labels_between_enterOf hsize (Nat.le_of_lt (Nat.lt_of_le_of_lt hrow.le hlt)) hc hplace
  · exact labels_between_places hsize hrow.le hrow.labels (Nat.le_of_not_lt hplace) hc'

/-- Whether a label stands in front of what control comes to is seen among what is left. -/
theorem numberAt_le_iff {i k : Nat} (h : g.Visits i) (hk : k ≤ events.length) :
    numberAt (solution.prune events) (solution.placeOf events k) ≤
      numberAt (solution.prune events) (solution.placeOf events i) ↔
        numberAt events k ≤ numberAt events i := by
  have hsize := size_eq_length hg hsolution
  constructor
  · intro hle
    by_contra hlt
    -- the next instruction behind `i` is left, and it stands in front of `k`
    have hcount := numberAt_mono events hk
    rw [numberAt_length] at hcount
    obtain ⟨m, ins, hm, hnumber⟩ :=
      exists_position (n := numberAt events i) (Nat.lt_of_lt_of_le (Nat.lt_of_not_le hlt) hcount)
    have him : i ≤ m := by
      by_contra hmi
      have := numberAt_mono events (Nat.succ_le_of_lt (Nat.lt_of_not_le hmi))
      rw [Nat.succ_eq_add_one, numberAt_instr hm] at this
      omega
    have hmk : m + 1 ≤ k := by
      by_contra hkm
      have := numberAt_mono events (Nat.le_of_not_lt hkm)
      omega
    have hvisits := (isOf_of_ofEvents hg).visits_of_row h him
      (Nat.le_of_lt (List.getElem?_eq_some_iff.mp hm).1) hnumber.symm
    have hlive := (visits_iff_live hsolution).mp hvisits
    have hfront := numberAt_mono (solution.prune events) (@placeOf_mono solution events _ _ him)
    have hback := numberAt_mono (solution.prune events) (@placeOf_mono solution events _ _ hmk)
    rw [placeOf_live hsize hm hlive, numberAt_instr (getElem?_prune_live hsize hm hlive)] at hback
    omega
  · intro hle
    by_cases hki : k ≤ i
    · exact numberAt_mono _ (placeOf_mono hki)
    · have := numberAt_placeOf_le hsize (Nat.le_of_not_le hki) hk
      omega

end Original

/-! ### Ranges -/

section Thinned

include hg hg' hsolution

/-- A label stands in front of a position exactly if it does among what is left. -/
theorem le_iff_of_means {l : Label} {r r' i c : Nat} (hr : Means events l r)
    (hr' : Means (solution.prune events) l r') (hi : g.Visits i)
    (hc : solution.enterOf events i ≤ c) (hc' : c ≤ solution.placeOf events i) : r' ≤ c ↔
      r ≤ i := by
  have hsize := size_eq_length hg hsolution
  obtain ⟨e, he⟩ := exists_event hg hsolution hi
  have hlt := (List.getElem?_eq_some_iff.mp he).1
  have hstart {events : List Event} {r i : Nat} (h : IsRowStart events r) :
      r ≤ i ↔ numberAt events r ≤ numberAt events i := by
    refine ⟨numberAt_mono events, fun hle => ?_⟩
    by_contra hlt
    have := h.number_lt (Nat.lt_of_not_le hlt)
    omega
  obtain rfl := means_unique hg' hr' (means_enterOf hg hsolution hr)
  have hplace : numberAt (solution.prune events) c =
      numberAt (solution.prune events) (solution.placeOf events i) := by
    refine (numberAt_row hc' fun k hk hk' => ?_).symm
    exact labels_between_enterOf hsize (Nat.le_of_lt hlt) (Nat.le_trans hc hk) hk'
  obtain ⟨k, hk, hrow⟩ := hr
  have hkle := Nat.le_of_lt (List.getElem?_eq_some_iff.mp hk).1
  have hrle : r ≤ events.length := Nat.le_trans hrow.le hkle
  have hentry : numberAt (solution.prune events) (solution.enterOf events r) =
      numberAt (solution.prune events) (solution.placeOf events r) :=
    (numberAt_row (enterOf_le r) fun c hc hc' => labels_between_enterOf hsize hrle hc hc').symm
  rw [hstart (isRowStart_enterOf hg hsolution hrow.isRowStart), hstart hrow.isRowStart, hentry,
    hplace, numberAt_le_iff hg hsolution hi hrle]

/-- Whatever stands between the entry of a position and its place is guarded as the position is. -/
theorem handlerEdges_prune {i c : Nat} (before after : FlowState) (hi : g.Visits i)
    (hc : solution.enterOf events i ≤ c) (hc' : c ≤ solution.placeOf events i) :
    g'.handlerEdges c before after = (g.handlerEdges i before after).map fun edge =>
      (solution.enterOf events edge.1, edge.2) := by
  unfold handlerEdges
  rw [List.map_flatMap]
  refine ((forall₂_ranges hg).join (forall₂_ranges hg')).flatMap_eq ?_
  rintro range hrange range' -
    ⟨handler, ⟨hstart, hstop, htarget, hcaught⟩, hstart', hstop', htarget', hcaught'⟩
  have hle := le_iff_of_means hg hg' hsolution hstart hstart' hi hc hc'
  have hlt := not_congr (le_iff_of_means hg hg' hsolution hstop hstop' hi hc hc')
  rw [Nat.not_le, Nat.not_le] at hlt
  by_cases hcovers : range.start ≤ i ∧ i < range.stop
  · have hvisits : g.Visits range.target := hi.step (.caught hrange hcovers.1 hcovers.2)
    have heq := means_unique hg' htarget' (means_enterOf hg hsolution htarget)
    simp [hle, hlt, hcovers, heq, caughtState, hcaught, hcaught']
  · rw [← hle, ← hlt] at hcovers
    have hnot : ¬(range.start ≤ i ∧ i < range.stop) := hle.and hlt |>.not.mp hcovers
    simp only [Bool.and_eq_true, decide_eq_true_eq, if_neg hcovers, if_neg hnot, List.map_nil]

/-! ### What events refer to -/

/-- The label in front of an instruction that control comes to is in front of its place. -/
theorem labelBefore_prune {i : Nat} {l : Label} (h : g.labelBefore? i = some l) :
    g'.labelBefore? (solution.placeOf events i) = some l := by
  have hsize := size_eq_length hg hsolution
  obtain ⟨k, rfl, hl⟩ := exists_of_labelBefore hg h
  rw [placeOf_label hsize hl]
  simp only [labelBefore?, (isOf_of_ofEvents hg').events_eq, List.getElem?_toArray,
    getElem?_prune_label hsize hl]

/-- The instruction that control comes to next is left. -/
theorem instructionAt?_prune {i : Nat} (hi : g.Visits i) :
    instructionAt? g'.events (solution.placeOf events i) = instructionAt? g.events i := by
  have hsize := size_eq_length hg hsolution
  obtain ⟨e, he⟩ := exists_event hg hsolution hi
  have hge : g.events[i]? = some e := by
    rw [(isOf_of_ofEvents hg).events_eq, List.getElem?_toArray, he]
  have hge' : g'.events[solution.placeOf events i]? = some e := by
    rw [(isOf_of_ofEvents hg').events_eq, List.getElem?_toArray]
    exact getElem?_prune_live hsize he ((visits_iff_live hsolution).mp hi)
  cases e with
  | instr ins => rw [instructionAt?_instr hge, instructionAt?_instr hge']
  | label l =>
    have hlt : i < events.length := (List.getElem?_eq_some_iff.mp he).1
    rw [instructionAt?_label hge, instructionAt?_label hge', ← placeOf_label hsize he]
    exact instructionAt?_prune (hi.step (.next hge rfl))
termination_by events.length - i

/-- The `new` that a label marks is left if control comes to the label. -/
theorem newClass?_prune {l : Label} (hl : solution.ReachesLabel events l) :
    g'.newClass? l = g.newClass? l := by
  have hsize := size_eq_length hg hsolution
  unfold newClass?
  cases hlabel : g.labels[l]? with
  | none =>
    have hnone : g'.labels[l]? = none := by
      refine Option.eq_none_iff_forall_not_mem.mpr fun c hc => ?_
      have hmem := List.mem_of_getElem? ((labels_eq_some_iff hg').mp hc)
      obtain ⟨row, hrow, heq⟩ := List.mem_map.mp hmem
      obtain ⟨i, hi⟩ := List.getElem?_of_mem (List.of_mem_zip (List.mem_filter.mp hrow).1).1
      rw [heq, ← labels_eq_some_iff hg, hlabel] at hi
      cases hi
    rw [hnone]
    rfl
  | some i =>
    have hi := (labels_eq_some_iff hg).mp hlabel
    have hvisits : g.Visits i := (visits_iff_live hsolution).mpr (hl i hi)
    have hnext : g.Visits (i + 1) := by
      refine hvisits.step (.next (e := .label l) ?_ rfl)
      rw [(isOf_of_ofEvents hg).events_eq, List.getElem?_toArray, hi]
    have hlabel' := (labels_eq_some_iff hg').mpr (getElem?_prune_label hsize hi)
    rw [hlabel', Option.bind_some, Option.bind_some, ← placeOf_label hsize hi,
      instructionAt?_prune hg hg' hsolution hnext]

/-! ### Hints -/

omit hg' in
/-- Where an entry begins a row of labels, so does its position. -/
theorem exists_label_of_enterOf {l : Label} {i : Nat} (hi : g.Visits i)
    (h : Means (solution.prune events) l (solution.enterOf events i)) :
    ∃ l', events[i]? = some (.label l') ∧ IsRowStart events i := by
  have hsize := size_eq_length hg hsolution
  obtain ⟨k, hk, hrow⟩ := h
  obtain ⟨l', hl'⟩ : ∃ l', events[i]? = some (.label l') := by
    rcases enterOf_eq_or hg hsolution hi with heq | hlabel
    · have hentry :
          ∃ l', (solution.prune events)[solution.enterOf events i]? = some (.label l') := by
        rcases Nat.eq_or_lt_of_le hrow.le with hend | hlt
        · exact ⟨l, hend ▸ hk⟩
        · exact hrow.labels _ (Nat.le_refl _) hlt
      obtain ⟨l', hl'⟩ := hentry
      obtain ⟨e, he⟩ := exists_event hg hsolution hi
      rw [heq, getElem?_prune_live hsize he ((visits_iff_live hsolution).mp hi)] at hl'
      exact ⟨l', he.trans hl'⟩
    · exact hlabel
  refine ⟨l', hl', fun k hk => ?_⟩
  subst hk
  cases he : events[k]? with
  | none =>
    have hlt := (List.getElem?_eq_some_iff.mp hl').1
    exact absurd (List.getElem?_eq_none_iff.mp he) (by omega)
  | some e =>
    cases e with
    | instr ins => exact ⟨ins, rfl⟩
    | label l'' =>
      -- then the entry would stand behind a label
      have hlive := (visits_iff_live hsolution).mp (visits_of_succ hg hi he)
      have hentry : solution.enterOf events (k + 1) = solution.placeOf events k + 1 := by
        rw [enterOf, if_pos hlive, placeOf_label hsize he]
      obtain ⟨ins, hins⟩ := hrow.isRowStart _ hentry.symm
      cases (getElem?_prune_label hsize he).symm.trans hins

omit hg' in
/-- A label that is left and that control comes to means a position that control comes to. -/
theorem exists_means_of_prune {l : Label} {c : Nat} (hreaches : solution.ReachesLabel events l)
    (h : Means (solution.prune events) l c) : ∃ r, Means events l r ∧ g.Visits r := by
  obtain ⟨k, hk, -⟩ := h
  obtain ⟨row, hrow, heq⟩ := List.mem_map.mp (List.mem_of_getElem? hk)
  have hmem : .label l ∈ events := heq ▸ (List.of_mem_zip (List.mem_filter.mp hrow).1).1
  obtain ⟨r, hr⟩ := exists_position_of_mem hg (mem_placedLabels.mpr hmem)
  obtain ⟨i, hi, hin⟩ := (position_eq_ok_iff hg).mp hr
  exact ⟨r, ⟨i, hi, hin⟩,
    visits_of_inRow hg hin ((visits_iff_live hsolution).mpr (hreaches i hi))⟩

/-- The entry of a position has the hint of the position. -/
theorem hint_prune (hframes : solution.Undisturbed events frames) {i : Nat} (hi : g.Visits i) :
    g'.hints[solution.enterOf events i]? = g.hints[i]? := by
  have hsize := size_eq_length hg hsolution
  have hposition (l : Label) (r : Nat) : (g.position l).toOption = some r ↔ Means events l r := by
    rw [← position_eq_ok_iff hg]
    cases g.position l <;> simp [Except.toOption]
  have hposition' (l : Label) (r : Nat) :
      (g'.position l).toOption = some r ↔ Means (solution.prune events) l r := by
    rw [← position_eq_ok_iff hg']
    cases g'.position l <;> simp [Except.toOption]
  rw [hint_eq_find hg, hint_eq_find hg']
  congr 1
  refine List.find?_congr fun row hrow => ?_
  rw [decide_eq_decide, hposition, hposition']
  refine ⟨fun hmeans => ?_, means_enterOf hg hsolution⟩
  obtain ⟨l, hl, hstart⟩ := exists_label_of_enterOf hg hsolution hi hmeans
  have hown : Means events l i :=
    ⟨i, hl, hstart, Nat.le_refl _, fun k hk hlt => absurd hlt (by omega)⟩
  -- the frame is one of a label that control comes to, so it has been at the position before
  have hreaches := hframes.attached row hrow i l _ ((visits_iff_live hsolution).mp hi) hl
    (means_enterOf hg hsolution hown) hmeans
  obtain ⟨r, hr, hvisits⟩ := exists_means_of_prune hg hsolution hreaches hmeans
  have heq := means_unique hg' hmeans (means_enterOf hg hsolution hr)
  obtain rfl := enterOf_injective hg hsolution hi hvisits heq
  exact hr

/-- No state is declared behind the entry of a position. -/
theorem unhinted_prune {i c : Nat} (hi : g.Visits i) (hlt : solution.enterOf events i < c)
    (hle : c ≤ solution.placeOf events i) : g'.hints[c]? = none := by
  have hsize := size_eq_length hg hsolution
  obtain ⟨e, he⟩ := exists_event hg hsolution hi
  cases hhint : g'.hints[c]? with
  | none => rfl
  | some hint =>
    obtain ⟨l, frame, -, hposition, -⟩ := exists_frame_of_hint hg' hhint
    obtain ⟨-, hstart, -⟩ := (isOf_of_ofEvents hg').position hposition
    obtain ⟨c, rfl⟩ : ∃ c', c = c' + 1 := ⟨c - 1, by omega⟩
    obtain ⟨ins, hins⟩ := hstart c rfl
    obtain ⟨l', hl'⟩ := labels_between_enterOf hsize
      (Nat.le_of_lt (List.getElem?_eq_some_iff.mp he).1) (Nat.le_of_lt_succ hlt) hle
    cases hl'.symm.trans hins

/-! ### The pruned graph -/

/-- What is left is the graph without what control does not come to. -/
theorem thinned_prune (hframes : solution.Undisturbed events frames) :
    g.Thinned g' (FlowState.Knows (solution.ReachesLabel events)) (solution.enterOf events)
      (solution.placeOf events) := by
  have hsize := size_eq_length hg hsolution
  have hevents {c : Nat} : g'.events[c]? = (solution.prune events)[c]? := by
    rw [(isOf_of_ofEvents hg').events_eq, List.getElem?_toArray]
  have hle {i : Nat} (hi : g.Visits i) : i ≤ events.length := by
    obtain ⟨e, he⟩ := exists_event hg hsolution hi
    exact Nat.le_of_lt (List.getElem?_eq_some_iff.mp he).1
  refine {
    enter_zero := rfl
    enter_le := fun _ => enterOf_le _
    enter_succ := fun {i} hi => ?enter_succ
    apart := fun hi _ hlt => placeOf_lt_enterOf hg hsolution hi hlt
    lt := fun {i} hi => ?lt
    event := fun {i} hi => ?event
    front := fun hi hc hc' => hevents ▸ labels_between_enterOf hsize (hle hi) hc hc'
    label := fun {i} hi hlt => ?label
    hint := hint_prune hg hg' hsolution hframes
    unhinted := unhinted_prune hg hg' hsolution
    handlerEdges := handlerEdges_prune hg hg' hsolution
    transfer := fun {i e s t} hi he hs ht => ?transfer }
  case enter_succ =>
    obtain ⟨e, he⟩ := exists_event hg hsolution hi
    have hlive := (visits_iff_live hsolution).mp hi
    rw [enterOf, if_pos hlive, placeOf_live hsize he hlive]
  case lt =>
    obtain ⟨e, he⟩ := exists_event hg hsolution hi
    rw [(isOf_of_ofEvents hg).events_eq, List.size_toArray]
    exact (List.getElem?_eq_some_iff.mp he).1
  case event =>
    obtain ⟨e, he⟩ := exists_event hg hsolution hi
    rw [hevents, (isOf_of_ofEvents hg).events_eq, List.getElem?_toArray, he]
    exact getElem?_prune_live hsize he ((visits_iff_live hsolution).mp hi)
  case label =>
    rw [(isOf_of_ofEvents hg).events_eq, List.getElem?_toArray]
    exact (enterOf_eq_or hg hsolution hi).resolve_left (Nat.ne_of_lt hlt)
  case transfer =>
    refine Agrees.transfer ⟨?_, fun l => newClass?_prune hg hg' hsolution, fun l hl =>
      labelBefore_prune hg hg' hsolution hl, fun l _ r hr => ?_⟩ hs ht
    · rw [method_of_ofEvents hg, method_of_ofEvents hg']
    · rw [position_eq_ok_iff hg']
      exact means_enterOf hg hsolution ((position_eq_ok_iff hg).mp hr)

end Thinned

/-! ### Sites -/

/-- All sites that come up are labels that control comes to. -/
theorem inherits_knows (hg : ofEvents events handlers frames method = .ok g)
    (hsolution : solution.IsOf g entry p) (hframes : solution.Undisturbed events frames) :
    g.Inherits (FlowState.Knows (solution.ReachesLabel events)) where
  edges {i e s t} hi he hs ht := by
    refine knows_of_edges (fun range hrange => ?_) (fun l hl => ?_) hs ht
    · obtain ⟨handler, -, -, -, -, hcaught⟩ := (forall₂_ranges hg).exists_left hrange
      rw [hcaught]
      trivial
    · obtain ⟨k, rfl, hk⟩ := exists_of_labelBefore hg hl
      exact reachesLabel_of_visits hg hsolution (visits_of_succ hg hi hk) hk
  hint {i hint} hi hhint := by
    obtain ⟨l, frame, hmem, hposition, rfl⟩ := exists_frame_of_hint hg hhint
    have hreaches := reachesLabel_of_means hg hsolution hi ((position_eq_ok_iff hg).mp hposition)
    exact FlowState.knows_ofFrame (hframes.sites _ hmem hreaches)
  merge hs _ hmerge := hs.merge hmerge

end Pruned

end FlowGraph

namespace FlowSolution

variable {events : List Event} {handlers : List Handler} {frames : List (Label × Frame)}
  {method : MethodContext} {maxLocals : UInt16} {solution : FlowSolution}

/-- What is left stands in the order that it has stood in. -/
theorem sublist_prune (hsize : solution.states.size = events.length) :
    (solution.prune events).Sublist events := by
  have hfst : (events.zip solution.states.toList).map (·.1) = events :=
    List.map_fst_zip (by simp [hsize])
  conv_rhs => rw [← hfst]
  exact List.filter_sublist.map _

/-- What is left places no label twice. -/
theorem nodup_placedLabels_prune (hsize : solution.states.size = events.length)
    (h : (placedLabels events).Nodup) : (placedLabels (solution.prune events)).Nodup :=
  ((sublist_prune hsize).filterMap _).nodup h

/-- What is left makes a graph again. -/
theorem exists_ofEvents_prune {g : FlowGraph} {entry : FlowState} {p : FlowProgress}
    (hg : FlowGraph.ofEvents events handlers frames method = .ok g)
    (hsolution : solution.IsOf g entry p) :
    ∃ g', FlowGraph.ofEvents (solution.prune events) handlers frames method = .ok g' := by
  have hsize := FlowGraph.size_eq_length hg hsolution
  refine FlowGraph.exists_ofEvents
    (nodup_placedLabels_prune hsize (FlowGraph.isOf_of_ofEvents hg).nodup)
    (fun handler hmem l hl => ?_) frames method
  have hplaced {l : Label} {r : Nat} (hmeans : Means events l r) :
      l ∈ placedLabels (solution.prune events) := by
    obtain ⟨k, hk, -⟩ := hmeans
    exact mem_placedLabels.mpr (List.mem_of_getElem? (getElem?_prune_label hsize hk))
  obtain ⟨range, -, hstart, hstop, htarget, -⟩ := (FlowGraph.forall₂_ranges hg).exists_right hmem
  simp only [List.mem_cons, List.not_mem_nil, or_false] at hl
  rcases hl with rfl | rfl | rfl
  · exact hplaced hstart
  · exact hplaced hstop
  · exact hplaced htarget

/-- Where an analysis succeeds and no frame of removed code comes to speak of what is left, the
analysis of what is left succeeds, with the same bounds and the same state for every event that is
left and that control comes to. -/
theorem analyze_prune (h : analyze events handlers frames method maxLocals = .ok solution)
    (hframes : solution.Undisturbed events frames) :
    ∃ pruned, analyze (solution.prune events) handlers frames method maxLocals = .ok pruned ∧
      pruned.maxStack = solution.maxStack ∧ pruned.maxLocals = solution.maxLocals ∧
      ∀ i s, solution.state? i = some s →
        (solution.prune events)[solution.placeOf events i]? = events[i]? ∧
          pruned.state? (solution.placeOf events i) = some s := by
  obtain ⟨g, frame, p, hg, hframe, hne, hsearch, hsolution⟩ := exists_search h
  obtain ⟨g', hg'⟩ := exists_ofEvents_prune hg hsolution
  have hsize := FlowGraph.size_eq_length hg hsolution
  obtain ⟨p', hsearch', hstack, hlocals, hstates, hmost⟩ :=
    (FlowGraph.thinned_prune hg hg' hsolution hframes).exists_search
      (FlowGraph.inherits_knows hg hsolution hframes) (FlowState.knows_entry hframe) hsearch
  have hkept : ∀ i s, solution.state? i = some s →
      (solution.prune events)[solution.placeOf events i]? = events[i]? := by
    intro i s hs
    obtain ⟨e, he⟩ := FlowGraph.exists_event hg hsolution
      ((FlowGraph.visits_iff_live hsolution).mpr (Option.isSome_iff_exists.mpr ⟨s, hs⟩))
    rw [he]
    exact getElem?_prune_live hsize he (by rw [hs]; rfl)
  have hne' : solution.prune events ≠ [] := by
    obtain ⟨s, hs⟩ := Option.isSome_iff_exists.mp ((FlowGraph.visits_iff_live hsolution).mp .entry)
    have hfirst := hkept 0 s hs
    intro hnil
    rw [hnil] at hfirst
    exact hne (List.head?_eq_none_iff.mp (by simpa using hfirst.symm))
  have hprogress : ofProgress p' = .ok { solution with states := p'.states } := by
    simp only [ofProgress, hstack, hlocals, hmost, bound, if_pos hsolution.stack_le,
      if_pos hsolution.locals_le, ← hsolution.maxStack, ← hsolution.maxLocals]
    rfl
  refine ⟨{ solution with states := p'.states }, ?_, rfl, rfl, fun i s hs => ⟨hkept i s hs, ?_⟩⟩
  · rw [analyze_eq hne' hg' hframe, hsearch']
    exact hprogress
  · have hvisits := (FlowGraph.visits_iff_live hsolution).mpr (Option.isSome_iff_exists.mpr ⟨s, hs⟩)
    simp only [state?, hstates i hvisits]
    rw [← hsolution.states]
    exact hs

/-- A dead block whose label comes to stand in front of a reached one, which is the only one with a
frame. -/
theorem analyze_prune_joined :
    let method : MethodContext := ⟨"A", "m", "()V", true, 52⟩
    let events : List Event := [.instr (.jump .goto ⟨2⟩), .label ⟨1⟩, .instr (.plain Opcode.pop),
      .label ⟨2⟩, .instr (.leave none)]
    let frames : List (Label × Frame) := [(⟨2⟩, ⟨[], []⟩)]
    let empty : FlowState := ⟨#[], []⟩
    let solution : FlowSolution := ⟨#[some empty, none, none, some empty, some empty], 0, 0⟩
    analyze events [] frames method 0 = .ok solution ∧ solution.Undisturbed events frames ∧
      ∃ pruned, analyze (solution.prune events) [] frames method 0 = .ok pruned ∧
        pruned.maxStack = solution.maxStack ∧ pruned.maxLocals = solution.maxLocals ∧
        ∀ i s, solution.state? i = some s →
          (solution.prune events)[solution.placeOf events i]? = events[i]? ∧
            pruned.state? (solution.placeOf events i) = some s := by
  intro method events frames empty solution
  have hanalysis : analyze events [] frames method 0 = .ok solution := by cbv
  have hreaches : solution.ReachesLabel events ⟨2⟩ := by
    intro i hi
    have hlt : i < 5 := (List.getElem?_eq_some_iff.mp hi).1
    interval_cases i <;> first | rfl | cases hi
  have hframes : solution.Undisturbed events frames := by
    refine ⟨fun row hrow _ _ _ _ _ _ _ => ?_, fun row hrow _ t ht => ?_⟩
    · obtain rfl := List.mem_singleton.mp hrow
      exact hreaches
    · obtain rfl := List.mem_singleton.mp hrow
      cases ht
  exact ⟨hanalysis, hframes, analyze_prune hanalysis hframes⟩

/-- The frame of a dead block comes to count for the reached label behind it, where the stack is not
as high. -/
theorem not_analyze_prune_frame :
    let method : MethodContext := ⟨"A", "m", "()V", true, 52⟩
    let events : List Event := [.instr (.jump .goto ⟨2⟩), .label ⟨1⟩, .instr (.plain Opcode.pop),
      .label ⟨2⟩, .instr (.leave none)]
    let frames : List (Label × Frame) := [(⟨1⟩, ⟨[], [.integer]⟩), (⟨2⟩, ⟨[], []⟩)]
    let empty : FlowState := ⟨#[], []⟩
    let solution : FlowSolution := ⟨#[some empty, none, none, some empty, some empty], 0, 0⟩
    analyze events [] frames method 0 = .ok solution ∧
      analyze (solution.prune events) [] frames method 0 =
        .error (.malformed (.flow (.declaredHeight 0 1 1))) := by
  intro method events frames empty solution
  exact ⟨by cbv, by cbv⟩

end FlowSolution
end ClassPatch
