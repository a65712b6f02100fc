import ClassPatch.Proofs.Patch.Rewriting

/-!
# Jumps that are marked

Which jumps are forced is a matter of positions: a jump of the kind is forced exactly if a marker
counts for it, one directly in front of it or one with neither a constant nor a jump in between. So
the machine, which remembers a single bit, replaces the marked jumps one by one and lets everything
else pass.
-/

namespace ClassPatch

/-- The events strictly between two positions. -/
def eventsBetween (events : List Event) (m k : Nat) : List Event := (events.take k).drop (m + 1)

theorem eventsBetween_self (events : List Event) (m : Nat) : eventsBetween events m (m + 1) = [] :=
  List.drop_eq_nil_of_le (List.length_take_le ..)

theorem eventsBetween_succ {events : List Event} {m k : Nat} {e : Event} (hlt : m < k)
    (he : events[k]? = some e) :
    eventsBetween events m (k + 1) = eventsBetween events m k ++ [e] := by
  have hk : k < events.length := (List.getElem?_eq_some_iff.mp he).1
  rw [eventsBetween, List.take_add_one, he, Option.toList_some,
    List.drop_append_of_le_length (by rw [List.length_take]; omega)]
  rfl

/-- The event pushes a constant or is a jump. -/
def Event.isPushOrJump : Event → Bool
  | .instr (.push _) | .instr (.jump _ _) => true
  | _ => false

namespace ForcedJump

variable (j : ForcedJump) {events : List Event} {m k : Nat}

/-- The marker at a position counts for the event at another one. -/
structure Counts (events : List Event) (m k : Nat) : Prop where
  marker : events[m]? = some (.instr (.push (.string j.marker)))
  lt : m < k
  strict : j.adjacency = .strict → k = m + 1
  lenient : j.adjacency = .lenient → ∀ e ∈ eventsBetween events m k, e.isPushOrJump = false

theorem counts_iff : j.Counts events m k ↔
    events[m]? = some (.instr (.push (.string j.marker))) ∧ m < k ∧
      (j.adjacency = .strict → k = m + 1) ∧
      (j.adjacency = .lenient → ∀ e ∈ eventsBetween events m k, e.isPushOrJump = false) :=
  ⟨fun h => ⟨h.marker, h.lt, h.strict, h.lenient⟩, fun ⟨h, h', h'', h'''⟩ => ⟨h, h', h'', h'''⟩⟩

instance : Decidable (j.Counts events m k) := decidable_of_iff' _ j.counts_iff

/-- A marker counts for the event at a position. -/
def Marked (events : List Event) (k : Nat) : Prop := ∃ m, m < k ∧ j.Counts events m k

instance : Decidable (j.Marked events k) := inferInstanceAs (Decidable (∃ m, m < k ∧ _))

/-- What takes the place of the event at a position. -/
def replacement (events : List Event) (k : Nat) (e : Event) : List Event :=
  match e with
  | .instr (.jump kind target) =>
    if kind = j.kind ∧ j.Marked events k then code target else [.instr (.jump kind target)]
  | e => [e]

/-- Whether a marker counts for what comes behind an event. -/
def marks (marked : Bool) : Event → Bool
  | .instr (.push v) => v = .string j.marker
  | .instr (.jump _ _) => false
  | _ => marked && j.adjacency = .lenient

variable {j}

/-! ### Markers -/

theorem not_marked_zero : ¬j.Marked events 0 := by
  rintro ⟨m, hm, -⟩
  exact absurd hm (Nat.not_lt_zero m)

/-- A marker counts directly behind it. -/
theorem counts_succ_self (h : events[k]? = some (.instr (.push (.string j.marker)))) :
    j.Counts events k (k + 1) where
  marker := h
  lt := Nat.lt_succ_self k
  strict _ := rfl
  lenient _ := by simp [eventsBetween_self]

/-- An earlier marker counts one event further on if anything but constants and jumps may stand in
between and the event is neither. -/
theorem counts_succ_iff {e : Event} (hlt : m < k) (he : events[k]? = some e) :
    j.Counts events m (k + 1) ↔
      j.Counts events m k ∧ j.adjacency = .lenient ∧ e.isPushOrJump = false := by
  constructor
  · intro h
    cases hadjacency : j.adjacency with
    | strict =>
      have := h.strict hadjacency
      omega
    | lenient =>
      have hbetween := h.lenient hadjacency
      rw [eventsBetween_succ hlt he, List.forall_mem_append, List.forall_mem_singleton] at hbetween
      refine ⟨⟨h.marker, hlt, ?_, fun _ => hbetween.1⟩, rfl, hbetween.2⟩
      rw [hadjacency]
      exact nofun
  · rintro ⟨h, hadjacency, hpasses⟩
    refine ⟨h.marker, Nat.lt_succ_of_lt hlt, ?_, fun _ => ?_⟩
    · rw [hadjacency]
      exact nofun
    · rw [eventsBetween_succ hlt he, List.forall_mem_append, List.forall_mem_singleton]
      exact ⟨h.lenient hadjacency, hpasses⟩

/-- Behind an event a marker counts if the event is a marker, or if one has counted for the event
and it does not end this. -/
theorem marked_succ_iff {e : Event} (he : events[k]? = some e) : j.Marked events (k + 1) ↔
    e = .instr (.push (.string j.marker)) ∨
      j.Marked events k ∧ j.adjacency = .lenient ∧ e.isPushOrJump = false := by
  constructor
  · rintro ⟨m, hm, h⟩
    rcases Nat.lt_succ_iff_lt_or_eq.mp hm with hlt | rfl
    · obtain ⟨h, hends⟩ := (counts_succ_iff hlt he).mp h
      exact .inr ⟨⟨m, hlt, h⟩, hends⟩
    · exact .inl (Option.some.inj (he.symm.trans h.marker))
  · rintro (rfl | ⟨⟨m, hlt, h⟩, hends⟩)
    · exact ⟨k, Nat.lt_succ_self k, counts_succ_self he⟩
    · exact ⟨m, Nat.lt_succ_of_lt hlt, (counts_succ_iff hlt he).mpr ⟨h, hends⟩⟩

/-- The bit of the machine says whether a marker counts. -/
theorem decide_marked_succ {e : Event} (he : events[k]? = some e) :
    decide (j.Marked events (k + 1)) = j.marks (decide (j.Marked events k)) e := by
  rw [Bool.eq_iff_iff, decide_eq_true_iff, marked_succ_iff he]
  cases e with
  | label l => simp [marks, Event.isPushOrJump]
  | instr i => cases i <;> simp [marks, Event.isPushOrJump]

/-! ### The machine -/

/-- What takes the place of an event, by the bit of the machine. -/
def piece (j : ForcedJump) (marked : Bool) : Event → List Event
  | .instr (.jump kind target) =>
    if kind = j.kind ∧ marked = true then code target else [.instr (.jump kind target)]
  | e => [e]

theorem piece_decide (e : Event) :
    j.piece (decide (j.Marked events k)) e = j.replacement events k e := by
  cases e with
  | label l => rfl
  | instr i => cases i <;> simp [piece, replacement]

/-- One event is replaced as the bit says. -/
theorem step_bit (j : ForcedJump) (method : MethodContext) (marked : Bool) (e : Event)
    (r : PatchState) : ∃ log, j.step method marked e r = .ok (j.marks marked e, j.piece marked e)
      ⟨r.labels, log⟩ := by
  cases e with
  | label l => exact ⟨r.log, rfl⟩
  | instr i =>
    cases i with
    | push v =>
      cases v with
      | string text =>
        by_cases htext : text = j.marker
        · refine ⟨r.log.push (.markerFound j.marker), ?_⟩
          simp only [marks, htext, decide_true]
          exact congrFun (if_pos rfl) r
        · refine ⟨r.log, ?_⟩
          simp only [marks, Value.string.injEq, htext, decide_false]
          exact congrFun (if_neg htext) r
      | _ => exact ⟨r.log, rfl⟩
    | jump kind target =>
      by_cases hforced : kind = j.kind ∧ marked = true
      · refine ⟨r.log.push (.forcing kind target method.className method.methodName), ?_⟩
        rw [piece, if_pos hforced]
        exact congrFun (if_pos (by simp [hforced])) r
      · refine ⟨r.log, ?_⟩
        rw [piece, if_neg hforced]
        refine congrFun (if_neg ?_) r
        rw [Bool.and_eq_true, decide_eq_true_iff]
        exact fun h => hforced h.symm
    | _ => exact ⟨r.log, rfl⟩

/-- What takes the place of events, by the bit in front of them. -/
def pieces (j : ForcedJump) : Bool → List Event → List Event
  | _, [] => []
  | marked, e :: events => j.piece marked e ++ pieces j (j.marks marked e) events

theorem pieces_append (marked : Bool) (front back : List Event) : j.pieces marked (front ++ back) =
    j.pieces marked front ++ j.pieces (front.foldl j.marks marked) back := by
  induction front generalizing marked with
  | nil => rfl
  | cons e front ih => rw [List.cons_append, pieces, ih, pieces, List.append_assoc, List.foldl_cons]

/-- Events are replaced one by one as the bit says. -/
theorem output_bit (j : ForcedJump) (method : MethodContext) (marked : Bool) (events : List Event)
    (r : PatchState) : ∃ log,
      (j.machine method).output marked events r = .ok (j.pieces marked events) ⟨r.labels, log⟩ := by
  induction events generalizing marked r with
  | nil => exact ⟨r.log, rfl⟩
  | cons e events ih =>
    obtain ⟨log₁, hstep⟩ := step_bit j method marked e r
    obtain ⟨log, hback⟩ := ih (j.marks marked e) ⟨r.labels, log₁⟩
    exact ⟨log, EStateM.bind_eq_ok.mpr ⟨_, _, hstep, EStateM.bind_eq_ok.mpr ⟨_, _, hback, rfl⟩⟩⟩

/-- Behind events from the first on the bit says whether a marker counts. -/
theorem foldl_marks_take (hk : k ≤ events.length) :
    (events.take k).foldl j.marks false = decide (j.Marked events k) := by
  induction k with
  | zero => exact (decide_eq_false not_marked_zero).symm
  | succ k ih =>
    have he := List.getElem?_eq_getElem (Nat.lt_of_succ_le hk)
    rw [List.take_add_one, he, Option.toList_some, List.foldl_concat, ih (Nat.le_of_succ_le hk),
      decide_marked_succ he]

/-- Events from a position on are replaced as their positions say. -/
theorem pieces_eq (rest : List Event) (hrest : rest = events.drop k) :
    j.pieces (decide (j.Marked events k)) rest =
      (rest.mapIdx fun n e => j.replacement events (k + n) e).flatten := by
  induction rest generalizing k with
  | nil => rfl
  | cons e rest ih =>
    have he : events[k]? = some e := by
      rw [← List.head?_drop, ← hrest]
      rfl
    have htail : rest = events.drop (k + 1) := by
      rw [← List.tail_drop, ← hrest]
      rfl
    rw [pieces, piece_decide, ← decide_marked_succ he, ih htail, List.mapIdx_cons,
      List.flatten_cons]
    simp only [Nat.add_assoc, Nat.add_comm 1]
    rfl

/-- What the machine makes of the events from a position on. -/
theorem output_eq (method : MethodContext) (rest : List Event) (hrest : rest = events.drop k)
    (r : PatchState) : ∃ log, (j.machine method).output (decide (j.Marked events k)) rest r =
      .ok (rest.mapIdx fun n e => j.replacement events (k + n) e).flatten ⟨r.labels, log⟩ := by
  rw [← pieces_eq rest hrest]
  exact output_bit j method _ rest r

/-- Exactly the marked jumps of the kind are replaced, each by a pop and a jump to the same target
that is always taken. Every other event passes once, unchanged and in its place, and no label is
taken. -/
theorem run_eq_flatten_replacement (j : ForcedJump) (method : MethodContext) (events : List Event)
    (r : PatchState) : ∃ log, (j.machine method).run events r =
      .ok (events.mapIdx (j.replacement events)).flatten ⟨r.labels, log⟩ := by
  obtain ⟨log, h⟩ := output_eq (j := j) method (k := 0) events rfl r
  refine ⟨log, ?_⟩
  rw [decide_eq_false not_marked_zero] at h
  simp only [Nat.zero_add] at h
  rw [Machine.run_eq]
  exact h

/-- A label may stand behind a lenient marker, and the jump that is forced uses the marker up. -/
example :
    let j : ForcedJump := ⟨"x", .branch .ifEq, .lenient⟩
    let jump : Event := .instr (.jump (.branch .ifEq) ⟨0⟩)
    let events := [.instr (.push (.string "x")), .label ⟨0⟩, jump, jump]
    (events.mapIdx (j.replacement events)).flatten =
      [.instr (.push (.string "x")), .label ⟨0⟩] ++ code ⟨0⟩ ++ [jump] := by
  decide

end ForcedJump
end ClassPatch
