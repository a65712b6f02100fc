import ClassPatch.Proofs.Code.Program
import ClassPatch.Proofs.Flow.Solving
import Mathlib.Data.List.Induction

/-!
# Positions that control visits and instructions that it reaches

The graph of some events works on positions, where labels that stand in a row are entered at the
first. Read by instruction numbers this is the program of the events: control visits a position
exactly if it reaches the instruction that comes next there.
-/

namespace ClassPatch

/-! ### Places of labels in the graph -/

/-- One event of the scan for labels. -/
def notePosition (labels : Std.TreeMap Label Nat) (row : Event × Nat) :
    Except Error (Std.TreeMap Label Nat) :=
  match row.1 with
  | .label l =>
    if labels.contains l then .error (.duplicateLabel l) else .ok (labels.insert l row.2)
  | .instr _ => .ok labels

theorem placements_append (events : List Event) (e : Event) :
    placements (events ++ [e]) =
      placements events >>= fun labels => notePosition labels (e, events.length) := by
  unfold placements
  rw [List.zipIdx_append, List.foldlM_append]
  simp
  rfl

/-- The placements of events are placed once, and are found where they are. -/
theorem placements_spec {events : List Event} {labels : Std.TreeMap Label Nat}
    (h : placements events = .ok labels) :
    (placedLabels events).Nodup ∧
      ∀ (l : Label) (i : Nat), labels[l]? = some i ↔ events[i]? = some (.label l) := by
  induction events using List.reverseRecOn generalizing labels with
  | nil =>
    obtain rfl := Except.ok.inj h
    simp [placedLabels]
  | append_singleton events e ih =>
    rw [placements_append] at h
    obtain ⟨labels', hlabels', h⟩ := Except.bind_eq_ok.mp h
    obtain ⟨hnodup, hfound⟩ := ih hlabels'
    have hlast (i : Nat) (l : Label) : (events ++ [e])[i]? = some (.label l) ↔
        events[i]? = some (.label l) ∨ i = events.length ∧ e = .label l := by
      rcases Nat.lt_trichotomy i events.length with hi | rfl | hi
      · simp [List.getElem?_append_left hi, Nat.ne_of_lt hi]
      · simp
      · rw [List.getElem?_eq_none (by simp; omega), List.getElem?_eq_none (Nat.le_of_lt hi)]
        simp [Nat.ne_of_gt hi]
    cases e with
    | instr ins =>
      obtain rfl := Except.ok.inj h
      refine ⟨?_, fun l i => ?_⟩
      · simpa using hnodup
      · simp [hlast, hfound]
    | label l =>
      simp only [notePosition] at h
      split at h
      · simp at h
      · rename_i hnew
        obtain rfl := Except.ok.inj h
        have hnew' : .label l ∉ events := by
          intro hmem
          obtain ⟨i, hi⟩ := List.getElem?_of_mem hmem
          have hsome := (hfound l i).mpr hi
          rw [Std.TreeMap.contains_eq_isSome_getElem?, hsome] at hnew
          exact hnew rfl
        refine ⟨?_, fun l' i => ?_⟩
        · rw [placedLabels_append]
          refine List.nodup_append.mpr ⟨hnodup, by simp, ?_⟩
          rintro l' hl' _ hl rfl
          obtain rfl : l' = l := by simpa using hl
          exact hnew' (mem_placedLabels.mp hl')
        · rw [hlast, ← hfound, Std.TreeMap.getElem?_insert]
          by_cases heq : l = l'
          · subst heq
            have hnone : labels'[l]? = none := by
              cases hget : labels'[l]? with
              | none => rfl
              | some j => exact absurd (List.mem_of_getElem? ((hfound l j).mp hget)) hnew'
            simp only [hnone, Std.ReflCmp.compare_self, if_true, Option.some.injEq, and_true,
              reduceCtorEq, false_or]
            exact eq_comm
          · simp [heq]

/-- Events that place no label twice have placements. -/
theorem exists_placements {events : List Event} (h : (placedLabels events).Nodup) :
    ∃ labels, placements events = .ok labels := by
  induction events using List.reverseRecOn with
  | nil => exact ⟨∅, rfl⟩
  | append_singleton events e ih =>
    rw [placedLabels_append] at h
    obtain ⟨labels, hlabels⟩ := ih (List.nodup_append.mp h).1
    rw [placements_append, hlabels]
    cases e with
    | instr ins => exact ⟨labels, rfl⟩
    | label l =>
      have hnew : ¬labels.contains l = true := by
        intro hcontains
        rw [Std.TreeMap.contains_eq_isSome_getElem?, Option.isSome_iff_exists] at hcontains
        obtain ⟨i, hi⟩ := hcontains
        have hmem := List.mem_of_getElem? (((placements_spec hlabels).2 l i).mp hi)
        exact (List.nodup_append.mp h).2.2 l (mem_placedLabels.mpr hmem) l (by simp) rfl
      refine ⟨labels.insert l events.length, ?_⟩
      show notePosition labels (.label l, events.length) = _
      rw [notePosition]
      exact if_neg hnew

/-- A position that no label stands in front of. -/
def IsRowStart (events : List Event) (r : Nat) : Prop :=
  ∀ k, k + 1 = r → ∃ ins, events[k]? = some (.instr ins)

/-- Only labels stand between a position and the start of its row. -/
structure InRow (events : List Event) (r i : Nat) : Prop where
  isRowStart : IsRowStart events r
  le : r ≤ i
  labels : ∀ k, r ≤ k → k < i → ∃ l, events[k]? = some (.label l)

theorem IsRowStart.append {events : List Event} {r : Nat} (h : IsRowStart events r)
    (more : List Event) : IsRowStart (events ++ more) r := by
  intro k hk
  obtain ⟨ins, hins⟩ := h k hk
  exact ⟨ins, by rw [List.getElem?_append_left (List.getElem?_eq_some_iff.mp hins).1, hins]⟩

theorem InRow.append {events : List Event} {r i : Nat} (h : InRow events r i)
    (more : List Event) : InRow (events ++ more) r i where
  isRowStart := h.isRowStart.append more
  le := h.le
  labels k hr hi := by
    obtain ⟨l, hl⟩ := h.labels k hr hi
    exact ⟨l, by rw [List.getElem?_append_left (List.getElem?_eq_some_iff.mp hl).1, hl]⟩

/-- Whatever stands in front of the start of a row has a smaller number. -/
theorem IsRowStart.number_lt {events : List Event} {r i : Nat} (h : IsRowStart events r)
    (hi : i < r) : numberAt events i < numberAt events r := by
  obtain ⟨k, rfl⟩ : ∃ k, r = k + 1 := ⟨r - 1, by omega⟩
  obtain ⟨ins, hins⟩ := h k rfl
  rw [numberAt_instr hins]
  exact Nat.lt_succ_of_le (numberAt_mono events (Nat.le_of_lt_succ hi))

theorem InRow.number_eq {events : List Event} {r i : Nat} (h : InRow events r i) :
    numberAt events i = numberAt events r :=
  numberAt_row h.le h.labels

/-- One event of the scan for rows. -/
def noteRow (acc : Array Nat × Option Nat) (e : Event) : Array Nat × Option Nat :=
  match e, acc.2 with
  | .label _, some start => (acc.1.push start, some start)
  | .label _, none => (acc.1.push acc.1.size, some acc.1.size)
  | .instr _, _ => (acc.1.push acc.1.size, none)

theorem rowStarts_eq (events : List Event) :
    rowStarts events = (events.foldl noteRow (#[], none)).1 := by
  unfold rowStarts
  congr 2

/-- What the scan for rows knows after some events. -/
structure RowsNoted (events : List Event) (acc : Array Nat × Option Nat) : Prop where
  size : acc.1.size = events.length
  placed : ∀ i l, events[i]? = some (.label l) → ∃ r, acc.1[i]? = some r ∧ InRow events r i
  inside : ∀ r, acc.2 = some r → InRow events r events.length
  outside : acc.2 = none → IsRowStart events events.length

private theorem RowsNoted.push {events : List Event} {acc : Array Nat × Option Nat}
    (h : RowsNoted events acc) {e : Event} {start : Nat} {row : Option Nat}
    (hstart : ∀ l, e = .label l → InRow events start events.length)
    (hinside : ∀ r, row = some r → (∃ l, e = .label l) ∧ InRow events r events.length)
    (houtside : row = none → ∃ ins, e = .instr ins) :
    RowsNoted (events ++ [e]) (acc.1.push start, row) where
  size := by simp [h.size]
  placed i l hi := by
    have hlt : i < events.length + 1 := by
      simpa using (List.getElem?_eq_some_iff.mp hi).1
    rcases Nat.lt_or_eq_of_le (Nat.le_of_lt_succ hlt) with hlt | rfl
    · rw [List.getElem?_append_left hlt] at hi
      obtain ⟨r, hr, hin⟩ := h.placed i l hi
      refine ⟨r, ?_, hin.append _⟩
      rw [Array.getElem?_push, if_neg (by have := h.size; omega), hr]
    · refine ⟨start, ?_, (hstart l (by simpa using hi)).append _⟩
      rw [← h.size, Array.getElem?_push_size]
  inside r hr := by
    obtain ⟨⟨l, rfl⟩, hin⟩ := hinside r hr
    refine ⟨hin.isRowStart.append _, by simpa using Nat.le_succ_of_le hin.le, fun k hk hlt => ?_⟩
    rcases Nat.lt_or_eq_of_le (Nat.le_of_lt_succ (by simpa using hlt)) with hlt | rfl
    · exact (hin.append _).labels k hk hlt
    · exact ⟨l, by simp⟩
  outside hrow := by
    obtain ⟨ins, rfl⟩ := houtside hrow
    intro k hk
    obtain rfl : k = events.length := by simpa using hk
    exact ⟨ins, by simp⟩

theorem rowsNoted (events : List Event) :
    RowsNoted events (events.foldl noteRow (#[], none)) := by
  induction events using List.reverseRecOn with
  | nil => exact ⟨rfl, by simp, by simp, fun _ k hk => by simp at hk⟩
  | append_singleton events e ih =>
    rw [List.foldl_append]
    generalize events.foldl noteRow (#[], none) = acc at ih
    obtain ⟨starts, row⟩ := acc
    cases e with
    | instr ins => exact ih.push (by simp) (by simp) fun _ => ⟨ins, rfl⟩
    | label l =>
      cases row with
      | some r =>
        have hin := ih.inside r rfl
        refine ih.push (fun _ _ => hin) (fun r' hr' => ?_) (by simp)
        obtain rfl := Option.some.inj hr'
        exact ⟨⟨l, rfl⟩, hin⟩
      | none =>
        have hin : InRow events starts.size events.length := by
          rw [show starts.size = events.length from ih.size]
          exact ⟨ih.outside rfl, Nat.le_refl _, fun k hk hlt => absurd hlt (by omega)⟩
        refine ih.push (fun _ _ => hin) (fun r' hr' => ?_) (by simp)
        obtain rfl := Option.some.inj hr'
        exact ⟨⟨l, rfl⟩, hin⟩

/-- Every label is entered at the start of its row. -/
theorem rowStarts_spec {events : List Event} {i : Nat} {l : Label}
    (h : events[i]? = some (.label l)) :
    ∃ r, (rowStarts events)[i]? = some r ∧ InRow events r i := by
  rw [rowStarts_eq]
  exact (rowsNoted events).placed i l h

namespace FlowGraph

/-! ### Graphs of events -/

variable {events : List Event} {handlers : List Handler} {frames : List (Label × Frame)}
  {method : MethodContext} {g : FlowGraph}

/-- The positions of a graph are those of its events. -/
structure IsOf (g : FlowGraph) (events : List Event) (handlers : List Handler) : Prop where
  events_eq : g.events = events.toArray
  nodup : (placedLabels events).Nodup
  position : ∀ {l : Label} {r : Nat}, g.position l = .ok r →
    .label l ∈ events ∧ IsRowStart events r ∧ r < events.length ∧
      landing events l = numberAt events r
  ranges : List.Forall₂ (fun (h : Handler) (range : GuardedRange) =>
    g.position h.start = .ok range.start ∧ g.position h.stop = .ok range.stop ∧
      g.position h.target = .ok range.target) handlers g.ranges

theorem ofEvents_eq_ok : ofEvents events handlers frames method = .ok g ↔ ∃ labels ranges,
    placements events = .ok labels ∧
    handlers.mapM (guardedRange labels (rowStarts events)) = .ok ranges ∧ g = {
      method
      events := events.toArray
      labels
      runStarts := rowStarts events
      hints := hintStates labels (rowStarts events) frames
      ranges } := by
  constructor
  · intro h
    obtain ⟨labels, hlabels, h⟩ := Except.bind_eq_ok.mp h
    obtain ⟨ranges, hranges, h⟩ := Except.bind_eq_ok.mp h
    exact ⟨labels, ranges, hlabels, hranges, (Except.pure_eq_ok.mp h).symm⟩
  · rintro ⟨labels, ranges, hlabels, hranges, rfl⟩
    exact Except.bind_eq_ok.mpr ⟨labels, hlabels, Except.bind_eq_ok.mpr ⟨ranges, hranges, rfl⟩⟩

theorem isOf_of_ofEvents (h : ofEvents events handlers frames method = .ok g) :
    g.IsOf events handlers := by
  obtain ⟨labels, ranges, hlabels, hranges, rfl⟩ := ofEvents_eq_ok.mp h
  obtain ⟨hnodup, hfound⟩ := placements_spec hlabels
  refine ⟨rfl, hnodup, fun {l r} hr => ?_, ?_⟩
  · simp only [position, target] at hr
    split at hr
    · rename_i j hj
      obtain rfl := Except.ok.inj hr
      obtain ⟨i, hi, hrow⟩ := Option.bind_eq_some_iff.mp hj
      have hi := (hfound l i).mp hi
      obtain ⟨r, hr, hin⟩ := rowStarts_spec hi
      obtain rfl := Option.some.inj (hrow.symm.trans hr)
      exact ⟨List.mem_of_getElem? hi, hin.isRowStart,
        Nat.lt_of_le_of_lt hin.le (List.getElem?_eq_some_iff.mp hi).1,
        (landing_at hnodup hi).trans hin.number_eq⟩
    · simp at hr
  · refine (Except.mapM_eq_ok.mp hranges).imp fun h range hrange => ?_
    obtain ⟨start, hstart, hrange⟩ := Except.bind_eq_ok.mp hrange
    obtain ⟨stop, hstop, hrange⟩ := Except.bind_eq_ok.mp hrange
    obtain ⟨target, htarget, hrange⟩ := Except.bind_eq_ok.mp hrange
    obtain rfl := Except.pure_eq_ok.mp hrange
    exact ⟨hstart, hstop, htarget⟩

/-- The labels that are placed have positions. -/
theorem exists_position_of_mem (h : ofEvents events handlers frames method = .ok g) {l : Label}
    (hl : l ∈ placedLabels events) : ∃ r, g.position l = .ok r := by
  obtain ⟨labels, ranges, hlabels, -, rfl⟩ := ofEvents_eq_ok.mp h
  obtain ⟨i, hi⟩ := List.getElem?_of_mem (mem_placedLabels.mp hl)
  obtain ⟨r, hr, -⟩ := rowStarts_spec hi
  refine ⟨r, ?_⟩
  simp only [position, target, ((placements_spec hlabels).2 l i).mpr hi, Option.bind_some, hr]

private def noteHint (labels : Std.TreeMap Label Nat) (starts : Array Nat)
    (hints : Std.TreeMap Nat FlowState) (row : Label × Frame) : Std.TreeMap Nat FlowState :=
  match labels[row.1]?.bind (starts[·]?) with
  | some index => hints.insertIfNew index (.ofFrame row.2)
  | none => hints

/-- A row of the table is the first one for a position. -/
private def IsFirstAt (labels : Std.TreeMap Label Nat) (starts : Array Nat)
    (rows : List (Label × Frame)) (r : Nat) (l : Label) (frame : Frame) : Prop :=
  ∃ front back, rows = front ++ (l, frame) :: back ∧ labels[l]?.bind (starts[·]?) = some r ∧
    ∀ row ∈ front, labels[row.1]?.bind (starts[·]?) ≠ some r

private theorem exists_of_foldl_noteHint {labels : Std.TreeMap Label Nat} {starts : Array Nat}
    {rows : List (Label × Frame)} {hints : Std.TreeMap Nat FlowState} {r : Nat} {hint : FlowState}
    (h : (rows.foldl (noteHint labels starts) hints)[r]? = some hint) :
    hints[r]? = some hint ∨ hints[r]? = none ∧ ∃ l frame, IsFirstAt labels starts rows r l frame ∧
      hint = .ofFrame frame := by
  induction rows generalizing hints with
  | nil => exact .inl h
  | cons row rows ih =>
    have hnext := ih h
    simp only [noteHint] at hnext
    split at hnext
    · rename_i index hindex
      rw [Std.TreeMap.getElem?_insertIfNew] at hnext
      split at hnext
      · rename_i hnew
        obtain rfl := Nat.compare_eq_eq.mp hnew.1
        rcases hnext with hbefore | ⟨hnone, -⟩
        · refine .inr ⟨by simpa using hnew.2, row.1, row.2, ⟨[], rows, rfl, hindex, ?_⟩,
            (Option.some.inj hbefore).symm⟩
          simp
        · cases hnone
      · rename_i hother
        rcases hnext with hbefore | ⟨hnone, l, frame, ⟨front, back, hrows, hl, hfront⟩, heq⟩
        · exact .inl hbefore
        · refine .inr ⟨hnone, l, frame, ⟨row :: front, back, by rw [hrows]; rfl, hl, ?_⟩, heq⟩
          simp only [List.mem_cons, forall_eq_or_imp]
          refine ⟨fun hrow => ?_, hfront⟩
          obtain rfl := Option.some.inj (hindex.symm.trans hrow)
          exact hother ⟨Nat.compare_eq_eq.mpr rfl, by simpa using hnone⟩
    · rename_i hindex
      rcases hnext with hbefore | ⟨hnone, l, frame, ⟨front, back, hrows, hl, hfront⟩, heq⟩
      · exact .inl hbefore
      · refine .inr ⟨hnone, l, frame, ⟨row :: front, back, by rw [hrows]; rfl, hl, ?_⟩, heq⟩
        simp only [List.mem_cons, forall_eq_or_imp]
        exact ⟨fun hrow => (nomatch hindex.symm.trans hrow), hfront⟩

private theorem getElem?_foldl_noteHint (labels : Std.TreeMap Label Nat) (starts : Array Nat)
    (rows : List (Label × Frame)) (hints : Std.TreeMap Nat FlowState) (r : Nat) :
    (rows.foldl (noteHint labels starts) hints)[r]? = hints[r]?.or
      ((rows.find? fun row => labels[row.1]?.bind (starts[·]?) = some r).map (.ofFrame ·.2)) := by
  induction rows generalizing hints with
  | nil => simp
  | cons row rows ih =>
    rw [List.foldl_cons, ih, noteHint]
    cases hindex : labels[row.1]?.bind (starts[·]?) with
    | none => simp [hindex]
    | some index =>
      by_cases heq : index = r
      · subst heq
        have hmem : index ∈ hints ↔ hints[index]?.isSome := by
          rw [Std.TreeMap.mem_iff_isSome_getElem?]
        rw [List.find?_cons_of_pos (by simp [hindex])]
        simp only [Std.TreeMap.getElem?_insertIfNew, hmem]
        cases hints[index]? <;> simp
      · simp [Std.TreeMap.getElem?_insertIfNew, hindex, heq]

/-- The hint of a position is the first frame of a label there. -/
theorem hint_eq_find (h : ofEvents events handlers frames method = .ok g) (r : Nat) :
    g.hints[r]? =
      (frames.find? fun row => (g.position row.1).toOption = some r).map (.ofFrame ·.2) := by
  obtain ⟨labels, ranges, -, -, rfl⟩ := ofEvents_eq_ok.mp h
  have hposition (l : Label) : (target labels (rowStarts events) l).toOption =
      labels[l]?.bind ((rowStarts events)[·]?) := by
    unfold target
    split
    · rename_i index hindex
      rw [hindex]
      rfl
    · rename_i hnone
      rw [hnone]
      rfl
  change (frames.foldl (noteHint labels (rowStarts events)) ∅)[r]? = _
  rw [getElem?_foldl_noteHint]
  simp only [position, hposition, Std.TreeMap.getElem?_emptyc, Option.none_or]

/-- A hint is the first frame of a label at its position. -/
theorem exists_first_of_hint (h : ofEvents events handlers frames method = .ok g) {r : Nat}
    {hint : FlowState} (hr : g.hints[r]? = some hint) :
    ∃ front l frame back, frames = front ++ (l, frame) :: back ∧ g.position l = .ok r ∧
      (∀ row ∈ front, g.position row.1 ≠ .ok r) ∧ hint = .ofFrame frame := by
  obtain ⟨labels, ranges, -, -, rfl⟩ := ofEvents_eq_ok.mp h
  have hfold : hintStates labels (rowStarts events) frames =
      frames.foldl (noteHint labels (rowStarts events)) ∅ := rfl
  simp only [hfold] at hr
  rcases exists_of_foldl_noteHint hr with hempty
    | ⟨-, l, frame, ⟨front, back, hframes, hl, hfront⟩, heq⟩
  · simp at hempty
  · refine ⟨front, l, frame, back, hframes, ?_, fun row hrow hposition => hfront row hrow ?_, heq⟩
    · simp only [position, target, hl]
    · simp only [position, target] at hposition
      split at hposition
      · rename_i index hindex
        rw [hindex, Except.ok.inj hposition]
      · cases hposition

/-- A hint is the frame of a label at its position. -/
theorem exists_frame_of_hint (h : ofEvents events handlers frames method = .ok g) {r : Nat}
    {hint : FlowState} (hr : g.hints[r]? = some hint) :
    ∃ l frame, (l, frame) ∈ frames ∧ g.position l = .ok r ∧ hint = .ofFrame frame := by
  obtain ⟨front, l, frame, back, rfl, hl, -, heq⟩ := exists_first_of_hint h hr
  exact ⟨l, frame, by simp, hl, heq⟩

/-- Where a label with a frame is placed there is a hint. -/
theorem isSome_hint (h : ofEvents events handlers frames method = .ok g) {l : Label} {frame : Frame}
    (hmem : (l, frame) ∈ frames) {r : Nat} (hl : g.position l = .ok r) : (g.hints[r]?).isSome := by
  rw [hint_eq_find h r, Option.isSome_map]
  exact List.find?_isSome.mpr ⟨_, hmem, decide_eq_true (by rw [hl]; rfl)⟩

/-- Events that place every label once, and handlers at such labels, make a graph. -/
theorem exists_ofEvents (hnodup : (placedLabels events).Nodup)
    (hhandlers : ∀ h ∈ handlers, ∀ l ∈ [h.start, h.stop, h.target], l ∈ placedLabels events)
    (frames : List (Label × Frame)) (method : MethodContext) :
    ∃ g, ofEvents events handlers frames method = .ok g := by
  obtain ⟨labels, hlabels⟩ := exists_placements hnodup
  have htarget {l : Label} (hl : l ∈ placedLabels events) :
      ∃ r, target labels (rowStarts events) l = .ok r := by
    obtain ⟨i, hi⟩ := List.getElem?_of_mem (mem_placedLabels.mp hl)
    obtain ⟨r, hr, -⟩ := rowStarts_spec hi
    exact ⟨r, by simp only [target, ((placements_spec hlabels).2 l i).mpr hi, Option.bind_some, hr]⟩
  have hranges : ∃ ranges, handlers.mapM (guardedRange labels (rowStarts events)) = .ok ranges := by
    refine Except.exists_mapM fun h hh => ?_
    have hplaced := hhandlers h hh
    obtain ⟨start, hstart⟩ := htarget (hplaced h.start (by simp))
    obtain ⟨stop, hstop⟩ := htarget (hplaced h.stop (by simp))
    obtain ⟨handled, hhandled⟩ := htarget (hplaced h.target (by simp))
    exact ⟨_, Except.bind_eq_ok.mpr ⟨start, hstart, Except.bind_eq_ok.mpr ⟨stop, hstop,
      Except.bind_eq_ok.mpr ⟨handled, hhandled, rfl⟩⟩⟩⟩
  obtain ⟨ranges, hranges⟩ := hranges
  exact ⟨_, ofEvents_eq_ok.mpr ⟨labels, ranges, hlabels, hranges, rfl⟩⟩

/-- Where the outcome of an event is known, so are the positions of its targets. -/
theorem exists_position_of_transfer {index : Nat} {e : Event} {s : FlowState} {t : Transfer}
    (h : g.transfer index e s = .ok t) {l : Label} (hl : l ∈ e.targets) :
    ∃ r, g.position l = .ok r := by
  cases e with
  | label l' => simp [Event.targets] at hl
  | instr i =>
    cases transfer_instr_eq_ok.mp h with
    | @subroutine l' r hr | @jump _ l' r _ _ _ hr =>
      obtain rfl : l = l' := by simpa [Event.targets, Instruction.targets] using hl
      exact ⟨r, hr⟩
    | tableSwitch _ hpositions | lookupSwitch _ hpositions =>
      exact Except.exists_of_mapM hpositions l hl
    | _ => simp [Event.targets, Instruction.targets] at hl

/-! ### Visits and reachable instructions -/

variable {entry : FlowState} {p : FlowProgress}

/-- Control that comes to a position comes to an instruction. -/
theorem IsOf.reaches (hg : g.IsOf events handlers) {i : Nat} (h : g.Visits i) :
    Reaches (program events) (guards events handlers) (numberAt events i) := by
  induction h with
  | entry => exact .entry
  | @step i j _ hedge ih =>
    cases hedge with
    | @caught range _ hmem hstart hstop =>
      obtain ⟨handler, hhandler, hs, ht, hc⟩ := hg.ranges.exists_left hmem
      obtain ⟨-, -, -, hs⟩ := hg.position hs
      obtain ⟨-, hrow, -, ht⟩ := hg.position ht
      obtain ⟨-, -, -, hc⟩ := hg.position hc
      rw [← hc]
      refine .caught ⟨_, _, _⟩ ih (List.mem_map_of_mem hhandler) ?_ ?_
      · rw [hs]
        exact numberAt_mono events hstart
      · rw [ht]
        exact hrow.number_lt hstop
    | @jump _ _ e l he hl hj =>
      rw [hg.events_eq, List.getElem?_toArray] at he
      obtain ⟨-, -, -, hl'⟩ := hg.position hj
      cases e with
      | label l' => simp [Event.targets] at hl
      | instr ins =>
        rw [← hl']
        refine .jump ih (program_at he) ?_
        rw [Instruction.targets_map]
        exact List.mem_map_of_mem hl
    | @next _ e he hterminal =>
      rw [hg.events_eq, List.getElem?_toArray] at he
      cases e with
      | label l => rwa [numberAt_label he]
      | instr ins =>
        rw [numberAt_instr he]
        exact .next ih (program_at he) (by rwa [Instruction.isTerminal_map])

/-- Control goes on to everything in the row that it comes to. -/
theorem IsOf.visits_of_row (hg : g.IsOf events handlers) {r i : Nat} (h : g.Visits r)
    (hle : r ≤ i) (hi : i ≤ events.length) (heq : numberAt events r = numberAt events i) :
    g.Visits i := by
  induction hle with
  | refl => exact h
  | @step i hle ih =>
    have hnum := numberAt_le_succ events i
    have hnum' := numberAt_mono events hle
    cases he : events[i]? with
    | none => exact absurd (List.getElem?_eq_none_iff.mp he) (by omega)
    | some e =>
      cases e with
      | instr ins =>
        rw [Nat.succ_eq_add_one, numberAt_instr he] at heq
        omega
      | label l =>
        rw [Nat.succ_eq_add_one, numberAt_label he] at heq
        have hgi : g.events[i]? = some (.label l) := by
          rw [hg.events_eq, List.getElem?_toArray, he]
        exact .step (ih (Nat.le_of_succ_le hi) heq) (.next hgi rfl)

/-- Control goes on to everything that has the number of the start of a row. -/
theorem IsOf.visits_of_number (hg : g.IsOf events handlers) {r i : Nat} (h : g.Visits r)
    (hrow : IsRowStart events r) (hi : i ≤ events.length)
    (heq : numberAt events r = numberAt events i) : g.Visits i := by
  refine hg.visits_of_row h (Nat.le_of_not_lt fun hlt => ?_) hi heq
  exact absurd (hrow.number_lt hlt) (Nat.not_lt_of_le (Nat.le_of_eq heq))

/-- Control that comes to an instruction comes to the start of its row. -/
theorem IsOf.exists_visits (hg : g.IsOf events handlers) (hp : p.Complete g entry) {n : Nat}
    (h : Reaches (program events) (guards events handlers) n) :
    ∃ r, g.Visits r ∧ IsRowStart events r ∧ numberAt events r = n := by
  have hvisits {n : Nat} {ins : Instruction Nat}
      (ih : ∃ r, g.Visits r ∧ IsRowStart events r ∧ numberAt events r = n)
      (hins : (program events)[n]? = some ins) :
      ∃ i ins', events[i]? = some (.instr ins') ∧ g.Visits i ∧ numberAt events i = n ∧
        ins = ins'.map (landing events) := by
    have hlt : n < (instructions events).length := by
      simpa [program] using (List.getElem?_eq_some_iff.mp hins).1
    obtain ⟨i, ins', hi, rfl⟩ := exists_position hlt
    obtain ⟨r, hr, hrow, hn⟩ := ih
    have hle := Nat.le_of_lt (List.getElem?_eq_some_iff.mp hi).1
    exact ⟨i, ins', hi, hg.visits_of_number hr hrow hle hn, rfl,
      Option.some.inj (hins.symm.trans (program_at hi))⟩
  induction h with
  | entry => exact ⟨0, .entry, fun k hk => absurd hk (Nat.succ_ne_zero k), rfl⟩
  | next _ hins hterminal ih =>
    obtain ⟨i, ins, hi, hvisit, rfl, rfl⟩ := hvisits ih hins
    have hgi : g.events[i]? = some (.instr ins) := by
      rw [hg.events_eq, List.getElem?_toArray, hi]
    refine ⟨i + 1, .step hvisit (.next hgi ?_), fun k hk => ?_, numberAt_instr hi⟩
    · rwa [Instruction.isTerminal_map] at hterminal
    · obtain rfl := Nat.succ.inj hk
      exact ⟨ins, hi⟩
  | jump _ hins ht ih =>
    obtain ⟨i, ins, hi, hvisit, rfl, rfl⟩ := hvisits ih hins
    have hgi : g.events[i]? = some (.instr ins) := by
      rw [hg.events_eq, List.getElem?_toArray, hi]
    rw [Instruction.targets_map] at ht
    obtain ⟨l, hl, rfl⟩ := List.mem_map.mp ht
    obtain ⟨s, hs⟩ := (hp.state_iff i).mpr hvisit
    obtain ⟨e, t, hpassed⟩ := hp.passes hs
    obtain rfl := Option.some.inj (hgi.symm.trans hpassed.event)
    obtain ⟨r, hr⟩ := exists_position_of_transfer hpassed.transfer hl
    obtain ⟨-, hrow, -, hl'⟩ := hg.position hr
    exact ⟨r, .step hvisit (.jump hgi hl hr), hrow, hl'.symm⟩
  | @caught n guard hreach hguard hstart hstop ih =>
    obtain ⟨handler, hhandler, rfl⟩ := List.mem_map.mp hguard
    obtain ⟨range, hrange, hs, ht, hc⟩ := hg.ranges.exists_right hhandler
    obtain ⟨-, hrows, -, hs⟩ := hg.position hs
    obtain ⟨-, -, hlt, ht⟩ := hg.position ht
    obtain ⟨-, hrowc, -, hc⟩ := hg.position hc
    simp only [hs, ht] at hstart hstop
    obtain ⟨r, hr, hrow, rfl⟩ := ih
    have hle : range.start ≤ r :=
      Nat.le_of_not_lt fun h => absurd (hrows.number_lt h) (Nat.not_lt_of_le hstart)
    have hlt' : r < range.stop :=
      Nat.lt_of_not_le fun h => absurd (numberAt_mono events h) (Nat.not_le_of_lt hstop)
    exact ⟨range.target, .step hr (.caught hrange hle hlt'), hrowc, hc.symm⟩

/-- Control visits a position exactly if it reaches the instruction that comes next. -/
theorem IsOf.visits_iff (hg : g.IsOf events handlers) (hp : p.Complete g entry) {i : Nat}
    (hi : i ≤ events.length) :
    g.Visits i ↔ Reaches (program events) (guards events handlers) (numberAt events i) := by
  refine ⟨hg.reaches, fun h => ?_⟩
  obtain ⟨r, hr, hrow, heq⟩ := hg.exists_visits hp h
  exact hg.visits_of_number hr hrow hi heq

/-- Control that has been followed everywhere never falls off the end. -/
theorem IsOf.reaches_lt (hg : g.IsOf events handlers) (hp : p.Complete g entry) {n : Nat}
    (h : Reaches (program events) (guards events handlers) n) :
    n < (instructions events).length := by
  obtain ⟨r, hr, hrow, rfl⟩ := hg.exists_visits hp h
  obtain ⟨s, hs⟩ := (hp.state_iff r).mpr hr
  have hsize : g.events.size = events.length := by simp [hg.events_eq]
  have hlt : r < events.length := by
    have := (Array.getElem?_eq_some_iff.mp hs).1
    rw [hp.size] at this
    omega
  have hle := numberAt_mono events (Nat.le_of_lt hlt)
  rw [numberAt_length] at hle
  refine Nat.lt_of_le_of_ne hle fun heq => ?_
  have hend := hg.visits_of_number hr hrow (Nat.le_refl _)
    (heq.trans (numberAt_length events).symm)
  obtain ⟨s', hs'⟩ := (hp.state_iff _).mpr hend
  have := (Array.getElem?_eq_some_iff.mp hs').1
  rw [hp.size] at this
  omega

end FlowGraph

/-- What a solution says about control in the program of some events. -/
structure FlowSolution.Follows (solution : FlowSolution) (events : List Event)
    (handlers : List Handler) : Prop where
  nodup : (placedLabels events).Nodup
  length_eq : solution.states.toList.length = events.length
  state_iff : ∀ {i : Nat}, i < events.length → ((∃ s, solution.states[i]? = some (some s)) ↔
    Reaches (program events) (guards events handlers) (numberAt events i))
  reaches_lt : ∀ {n : Nat}, Reaches (program events) (guards events handlers) n →
    n < (instructions events).length

/-- An analysis that succeeds finds states for exactly what control reaches. -/
theorem FlowSolution.follows {events : List Event} {handlers : List Handler}
    {frames : List (Label × Frame)} {method : MethodContext} {maxLocals : UInt16}
    {solution : FlowSolution} (h : analyze events handlers frames method maxLocals = .ok solution) :
    solution.Follows events handlers := by
  obtain ⟨g, frame, p, hg, -, -, hsolution⟩ := exists_isOf h
  have hgraph := FlowGraph.isOf_of_ofEvents hg
  have hcomplete := hsolution.toComplete
  refine ⟨hgraph.nodup, ?_, fun hi => ?_, hgraph.reaches_lt hcomplete⟩
  · rw [Array.length_toList, hsolution.states, hsolution.size, hgraph.events_eq]
    exact List.size_toArray
  · rw [hsolution.states, hcomplete.state_iff]
    exact hgraph.visits_iff hcomplete (Nat.le_of_lt hi)

end ClassPatch
