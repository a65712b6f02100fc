import ClassPatch.Code.Layout
import ClassPatch.Proofs.Flow.Consistency

/-!
# Where events come to when dead ones are removed

A solution is pruned of the instructions that control does not come to; labels all stay. Each event
that is kept comes to the place that the events in front leave to it. Labels of removed code come to
stand in front of what is kept behind it: whatever leads to an event enters at the first of them.
-/

namespace ClassPatch

namespace FlowSolution

variable (solution : FlowSolution) (events : List Event)

/-- An event is kept if it is a label or control comes to it. -/
def keepsRow (row : Event × Option FlowState) : Bool := row.1.isLabel || row.2.isSome

/-- The events that are left of some events. -/
def prune : List Event :=
  ((events.zip solution.states.toList).filter keepsRow).map (·.1)

/-- How many events are left in front of a position. -/
def placeOf (i : Nat) : Nat := ((events.zip solution.states.toList).take i).countP keepsRow

/-- Where control enters on its way to a position: behind the last event in front that it comes
to. -/
def enterOf : Nat → Nat
  | 0 => 0
  | i + 1 => if (solution.state? i).isSome then placeOf solution events (i + 1) else enterOf i

variable {solution events}

/-- What the layout prunes is what the solution keeps of its events. -/
theorem prune_eq (events : List LayoutEvent) (solution : FlowSolution) :
    (Layout.prune events solution).map (·.1.event) = solution.prune (events.map (·.event)) := by
  rw [prune, Layout.prune, List.zip_map_left, List.filter_map, List.map_map]
  rfl

/-! ### Places -/

@[simp] theorem placeOf_zero : solution.placeOf events 0 = 0 := by
  simp [placeOf]

theorem placeOf_mono {i j : Nat} (h : i ≤ j) :
    solution.placeOf events i ≤ solution.placeOf events j :=
  List.Sublist.countP_le (List.take_sublist_take_left h)

/-- What is known of the rows that are pruned. -/
theorem getElem?_rows (hsize : solution.states.size = events.length) {i : Nat} {e : Event}
    (he : events[i]? = some e) :
    (events.zip solution.states.toList)[i]? = some (e, solution.state? i) := by
  have hlt : i < solution.states.size := hsize ▸ (List.getElem?_eq_some_iff.mp he).1
  refine List.getElem?_zip_eq_some.mpr ⟨he, ?_⟩
  rw [Array.getElem?_toList, state?, Array.getElem?_eq_getElem hlt]
  rfl

/-- An entry is at the place of its position or in front of it. -/
theorem enterOf_le (i : Nat) : solution.enterOf events i ≤ solution.placeOf events i := by
  induction i with
  | zero => exact Nat.le_refl _
  | succ i ih =>
    rw [enterOf]
    split
    · exact Nat.le_refl _
    · exact Nat.le_trans ih (placeOf_mono (Nat.le_succ i))

/-- Nothing stands in front of an entry, or the last position that control comes to. -/
theorem enterOf_cases (j : Nat) : solution.enterOf events j = 0 ∨ ∃ i < j,
    (solution.state? i).isSome ∧ solution.enterOf events j = solution.placeOf events (i + 1) ∧
      ∀ k, i < k → k < j → ¬(solution.state? k).isSome := by
  induction j with
  | zero => exact .inl rfl
  | succ j ih =>
    rw [enterOf]
    split
    · rename_i hlive
      exact .inr ⟨j, Nat.lt_succ_self j, hlive, rfl, fun k hk hk' => absurd hk' (by omega)⟩
    · rename_i hdead
      refine ih.imp_right fun ⟨i, hi, hlive, heq, hnone⟩ =>
        ⟨i, Nat.lt_succ_of_lt hi, hlive, heq, ?_⟩
      intro k hk hk'
      rcases Nat.eq_or_lt_of_le (Nat.le_of_lt_succ hk') with rfl | hk'
      · exact hdead
      · exact hnone k hk hk'

section Rows

variable (hsize : solution.states.size = events.length)
include hsize

theorem placeOf_succ {i : Nat} {e : Event} (he : events[i]? = some e) :
    solution.placeOf events (i + 1) =
      solution.placeOf events i + if keepsRow (e, solution.state? i) then 1 else 0 := by
  simp [placeOf, List.take_add_one, getElem?_rows hsize he]

theorem placeOf_label {i : Nat} {l : Label} (h : events[i]? = some (.label l)) :
    solution.placeOf events (i + 1) = solution.placeOf events i + 1 := by
  rw [placeOf_succ hsize h]
  rfl

theorem placeOf_live {i : Nat} {e : Event} (he : events[i]? = some e)
    (hlive : (solution.state? i).isSome) :
    solution.placeOf events (i + 1) = solution.placeOf events i + 1 := by
  rw [placeOf_succ hsize he, keepsRow, hlive, Bool.or_true]
  rfl

/-- An event that is kept is at its place. -/
theorem getElem?_prune {i : Nat} {e : Event} (he : events[i]? = some e)
    (hkept : keepsRow (e, solution.state? i)) :
    (solution.prune events)[solution.placeOf events i]? = some e := by
  have hrow := getElem?_rows hsize he
  obtain ⟨hlt, hget⟩ := List.getElem?_eq_some_iff.mp hrow
  have hsplit := List.take_append_drop i (events.zip solution.states.toList)
  rw [List.drop_eq_getElem_cons hlt, hget] at hsplit
  rw [prune, ← hsplit, List.filter_append, List.filter_cons_of_pos hkept, List.map_append,
    List.getElem?_append_right (by simp [placeOf, List.countP_eq_length_filter])]
  simp [placeOf, List.countP_eq_length_filter]

theorem getElem?_prune_label {i : Nat} {l : Label} (h : events[i]? = some (.label l)) :
    (solution.prune events)[solution.placeOf events i]? = some (.label l) :=
  getElem?_prune hsize h rfl

theorem getElem?_prune_live {i : Nat} {e : Event} (he : events[i]? = some e)
    (hlive : (solution.state? i).isSome) :
    (solution.prune events)[solution.placeOf events i]? = some e :=
  getElem?_prune hsize he (by rw [keepsRow, hlive, Bool.or_true])

/-- Between the places of two positions with only labels between them there are only labels. -/
theorem labels_between_places {i j : Nat} (hle : i ≤ j)
    (hlabels : ∀ k, i ≤ k → k < j → ∃ l, events[k]? = some (.label l)) {c : Nat}
    (hc : solution.placeOf events i ≤ c) (hc' : c < solution.placeOf events j) :
    ∃ l, (solution.prune events)[c]? = some (.label l) := by
  induction hle with
  | refl => omega
  | @step j hle ih =>
    obtain ⟨l, hl⟩ := hlabels j hle (Nat.lt_succ_self _)
    rw [Nat.succ_eq_add_one, placeOf_label hsize hl] at hc'
    rcases Nat.eq_or_lt_of_le (Nat.le_of_lt_succ hc') with rfl | hlt
    · exact ⟨l, getElem?_prune_label hsize hl⟩
    · exact ih (fun k hk hlt => hlabels k hk (Nat.lt_succ_of_lt hlt)) hlt

/-- Removing dead instructions brings positions closer together, by instructions. -/
theorem numberAt_placeOf_le {i j : Nat} (hle : i ≤ j) (hj : j ≤ events.length) :
    numberAt (solution.prune events) (solution.placeOf events j) + numberAt events i ≤
      numberAt (solution.prune events) (solution.placeOf events i) + numberAt events j := by
  induction hle with
  | refl => omega
  | @step j hle ih =>
    have ih := ih (Nat.le_of_succ_le hj)
    have he : events[j]? = some events[j] := List.getElem?_eq_getElem hj
    cases hevent : events[j] with
    | label l =>
      rw [hevent] at he
      rw [Nat.succ_eq_add_one, placeOf_label hsize he, numberAt_label he,
        numberAt_label (getElem?_prune_label hsize he)]
      exact ih
    | instr ins =>
      rw [hevent] at he
      rw [Nat.succ_eq_add_one, numberAt_instr he]
      cases hlive : (solution.state? j).isSome with
      | true =>
        rw [placeOf_live hsize he hlive, numberAt_instr (getElem?_prune_live hsize he hlive)]
        omega
      | false =>
        have hsame : solution.placeOf events (j + 1) = solution.placeOf events j := by
          rw [placeOf_succ hsize he, keepsRow, hlive]
          rfl
        rw [hsame]
        omega

/-! ### Entries -/

/-- An entry is behind the places of all positions in front that control comes to. -/
theorem lt_enterOf {i j : Nat} {e : Event} (he : events[i]? = some e)
    (hlive : (solution.state? i).isSome) (hlt : i < j) :
    solution.placeOf events i < solution.enterOf events j := by
  induction hlt with
  | refl =>
    rw [enterOf, if_pos hlive, placeOf_live hsize he hlive]
    exact Nat.lt_succ_self _
  | @step j hij ih =>
    rw [Nat.succ_eq_add_one, enterOf]
    split
    · exact Nat.lt_of_lt_of_le ih
        (Nat.le_trans (enterOf_le j) (placeOf_mono (Nat.le_succ j)))
    · exact ih

/-- Only labels stand between an entry and the place of its position. -/
theorem labels_between_enterOf {j : Nat} (hj : j ≤ events.length) {c : Nat}
    (hc : solution.enterOf events j ≤ c) (hc' : c < solution.placeOf events j) :
    ∃ l, (solution.prune events)[c]? = some (.label l) := by
  induction j with
  | zero => simp at hc'
  | succ j ih =>
    have he : events[j]? = some events[j] := List.getElem?_eq_getElem hj
    rw [enterOf] at hc
    split at hc
    · omega
    · rename_i hdead
      rw [placeOf_succ hsize he] at hc'
      by_cases hlt : c < solution.placeOf events j
      · exact ih (Nat.le_of_succ_le hj) hc hlt
      · split at hc'
        · rename_i hkept
          obtain rfl : c = solution.placeOf events j := by omega
          cases hevent : events[j] with
          | label l =>
            rw [hevent] at he
            exact ⟨l, getElem?_prune_label hsize he⟩
          | instr ins =>
            simp [keepsRow, hevent, Event.isLabel, hdead] at hkept
        · omega

end Rows
end FlowSolution
end ClassPatch
