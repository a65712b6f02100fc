import ClassPatch.Proofs.Patch.MarkedJumps

/-!
# Between a marker and its jump

A machine that is lenient forces a jump for the last marker in front of it, however far that is.
There is neither a constant nor a jump in between, so control does not go elsewhere on the way. It
may end there, though: behind a return the machine still has its marker. Control goes straight on
from the marker to the jump exactly if nothing in between ends it.
-/

namespace ClassPatch

/-- Control goes on from one event to the next, from a position to another. -/
inductive GoesOn (events : List Event) (m : Nat) : Nat → Prop
  | refl : GoesOn events m m
  | next {k : Nat} {e : Event} (h : GoesOn events m k) (he : events[k]? = some e)
      (hterminal : e.isTerminal = false) : GoesOn events m (k + 1)

/-- The method ends, an exception is thrown, or control goes where a table or an address says. -/
def Event.isExit : Event → Bool
  | .instr (.tableSwitch ..) | .instr (.lookupSwitch ..) | .instr (.leave _) | .instr (.ret _) =>
      true
  | .instr (.plain opcode) => opcode = Opcode.athrow
  | _ => false

/-- Besides jumps only exits are terminal. -/
theorem Event.isTerminal_eq_isExit {e : Event} (h : e.isPushOrJump = false) :
    e.isTerminal = e.isExit := by
  cases e with
  | label l => rfl
  | instr i =>
    cases i with
    | jump kind target => cases h
    | _ => rfl

section Between

variable {events : List Event} {m i k : Nat} {e : Event}

theorem mem_eventsBetween (hm : m < i) (hk : i < k) (he : events[i]? = some e) :
    e ∈ eventsBetween events m k := by
  have hi : ((events.take k).drop (m + 1))[i - (m + 1)]? = some e := by
    rw [List.getElem?_drop, Nat.add_sub_cancel' hm, List.getElem?_take_of_lt hk, he]
  exact List.mem_of_getElem? hi

/-- Control goes on to an event if it goes on from the first one and from all in between. -/
theorem goesOn_iff (hm : events[m]? = some e) (hterminal : e.isTerminal = false) (hlt : m < k)
    (hk : k ≤ events.length) :
    GoesOn events m k ↔ ∀ e ∈ eventsBetween events m k, e.isTerminal = false := by
  induction k, hlt using Nat.le_induction with
  | base => simpa [eventsBetween_self] using GoesOn.refl.next hm hterminal
  | succ k hlt ih =>
    have hmk : m < k := hlt
    have he := List.getElem?_eq_getElem (Nat.lt_of_succ_le hk)
    rw [eventsBetween_succ hmk he, List.forall_mem_append, List.forall_mem_singleton,
      ← ih (Nat.le_of_succ_le hk)]
    constructor
    · intro h
      cases h with
      | refl => exact absurd hmk (Nat.not_succ_lt_self)
      | next h he' hterminal =>
        obtain rfl := Option.some.inj (he.symm.trans he')
        exact ⟨h, hterminal⟩
    · rintro ⟨h, hterminal⟩
      exact h.next he hterminal

end Between

namespace ForcedJump

variable {j : ForcedJump} {method : MethodContext} {events : List Event} {m k : Nat}

/-- The machine replaces the jump at a position: behind what it makes of the events in front of it
stands the new code. -/
def Forces (j : ForcedJump) (method : MethodContext) (events : List Event) (k : Nat) : Prop :=
  ∃ kind target, events[k]? = some (.instr (.jump kind target)) ∧ ∀ r, ∃ front back s s',
    (j.machine method).run (events.take k) r = .ok front s ∧
    (j.machine method).run events r = .ok (front ++ (code target ++ back)) s'

/-- The last marker in front of a position. -/
structure LastMarker (j : ForcedJump) (events : List Event) (m k : Nat) : Prop where
  marker : events[m]? = some (.instr (.push (.string j.marker)))
  lt : m < k
  last : .instr (.push (.string j.marker)) ∉ eventsBetween events m k

/-- There is only one last marker. -/
theorem LastMarker.unique {m' : Nat} (h : j.LastMarker events m k) (h' : j.LastMarker events m' k) :
    m = m' := by
  rcases Nat.lt_trichotomy m m' with hlt | heq | hlt
  · exact absurd (mem_eventsBetween hlt h'.lt h'.marker) h.last
  · exact heq
  · exact absurd (mem_eventsBetween hlt h.lt h.marker) h'.last

/-- A lenient marker that counts is the last. -/
theorem Counts.lastMarker (hlenient : j.adjacency = .lenient) (h : j.Counts events m k) :
    j.LastMarker events m k where
  marker := h.marker
  lt := h.lt
  last hmem := Bool.false_ne_true (h.lenient hlenient _ hmem).symm

/-- What the machine makes of events with another one at a position. -/
theorem pieces_split {e : Event} (he : events[k]? = some e) : ∃ back, j.pieces false events =
    j.pieces false (events.take k) ++ (j.replacement events k e ++ back) := by
  obtain ⟨hk, rfl⟩ := List.getElem?_eq_some_iff.mp he
  refine ⟨j.pieces (j.marks (decide (j.Marked events k)) events[k]) (events.drop (k + 1)), ?_⟩
  conv_lhs => rw [← List.take_append_drop k events, List.drop_eq_getElem_cons hk, pieces_append,
    foldl_marks_take (Nat.le_of_lt hk), pieces, piece_decide]

/-- A jump that the machine replaces is marked. -/
theorem Forces.marked (h : j.Forces method events k) : j.Marked events k := by
  obtain ⟨kind, target, hjump, hrun⟩ := h
  obtain ⟨front, back, s, s', hfront, hevents⟩ := hrun ⟨⟨0⟩, #[]⟩
  rw [Machine.run_eq] at hfront hevents
  obtain ⟨log, houtput⟩ := output_bit j method false (events.take k) ⟨⟨0⟩, #[]⟩
  obtain ⟨rfl, -⟩ := EStateM.Result.ok.inj (houtput.symm.trans hfront)
  obtain ⟨log', houtput'⟩ := output_bit j method false events ⟨⟨0⟩, #[]⟩
  obtain ⟨hpieces, -⟩ := EStateM.Result.ok.inj (houtput'.symm.trans hevents)
  obtain ⟨back', hsplit⟩ := pieces_split (j := j) hjump
  have htail := List.append_cancel_left (hsplit.symm.trans hpieces)
  by_contra hunmarked
  rw [replacement, if_neg fun hforced => hunmarked hforced.2] at htail
  -- The jump would stand where the new code begins with its pop.
  cases htail

/-- A jump that a lenient machine replaces has a last marker in front of it. Neither a constant nor
a jump stands in between, and control goes straight on from the marker to the jump exactly if no
exit does. -/
theorem between_of_forces (hlenient : j.adjacency = .lenient) (h : j.Forces method events k) :
    (∃ m, j.LastMarker events m k) ∧ ∀ m, j.LastMarker events m k →
      (∀ e ∈ eventsBetween events m k, e.isPushOrJump = false) ∧
      (GoesOn events m k ↔ ∀ e ∈ eventsBetween events m k, e.isExit = false) := by
  obtain ⟨m, -, hcounts⟩ := h.marked
  refine ⟨⟨m, hcounts.lastMarker hlenient⟩, fun m' hlast => ?_⟩
  obtain rfl := hlast.unique (hcounts.lastMarker hlenient)
  have hbetween := hcounts.lenient hlenient
  obtain ⟨kind, target, hjump, -⟩ := h
  have hk : k ≤ events.length := Nat.le_of_lt (List.getElem?_eq_some_iff.mp hjump).1
  refine ⟨hbetween, (goesOn_iff hlast.marker rfl hlast.lt hk).trans (forall₂_congr fun e he => ?_)⟩
  rw [Event.isTerminal_eq_isExit (hbetween e he)]

/-- A load and a comparison may stand between a marker and its jump. -/
theorem between_of_forces_equals :
    let j : ForcedJump := ⟨"x", .branch .ifNe, .lenient⟩
    let method : MethodContext := ⟨"A", "m", "(LA;)V", true, 49⟩
    let call : Event :=
      .instr (.invoke .virtual "java/lang/String" "equals" "(Ljava/lang/Object;)Z" false)
    let events := [.instr (.push (.string "x")), .instr (.load .reference 0), call,
      .instr (.jump (.branch .ifNe) ⟨0⟩), .label ⟨0⟩, .instr (.leave none)]
    j.adjacency = .lenient ∧ j.Forces method events 3 ∧ j.LastMarker events 0 3 ∧
      eventsBetween events 0 3 = [.instr (.load .reference 0), call] ∧ GoesOn events 0 3 := by
  intro j method call events
  have hforces : j.Forces method events 3 :=
    ⟨.branch .ifNe, ⟨0⟩, rfl, fun r => ⟨_, _, _, _, rfl, rfl⟩⟩
  have hlast : j.LastMarker events 0 3 := ⟨rfl, by decide, by decide⟩
  have hstraight := ((between_of_forces rfl hforces).2 0 hlast).2
  exact ⟨rfl, hforces, hlast, rfl, hstraight.mpr (by decide)⟩

/-- Behind a return the machine still has its marker, so the jump behind the next label is replaced,
which control does not come to from the marker. -/
theorem not_goesOn_of_forces :
    let j : ForcedJump := ⟨"x", .branch .ifNonNull, .lenient⟩
    let method : MethodContext := ⟨"A", "m", "(LA;)LA;", true, 49⟩
    let leave : Event := .instr (.leave (some .reference))
    let load : Event := .instr (.load .reference 0)
    let events := [load, .instr (.jump (.branch .ifNull) ⟨0⟩), .instr (.push (.string "x")), leave,
      .label ⟨0⟩, load, .instr (.jump (.branch .ifNonNull) ⟨1⟩), load, leave, .label ⟨1⟩,
      load, leave]
    j.adjacency = .lenient ∧ j.Forces method events 6 ∧ j.LastMarker events 2 6 ∧
      leave ∈ eventsBetween events 2 6 ∧ leave.isTerminal = true ∧ ¬GoesOn events 2 6 := by
  intro j method leave load events
  have hforces : j.Forces method events 6 :=
    ⟨.branch .ifNonNull, ⟨1⟩, rfl, fun r => ⟨_, _, _, _, rfl, rfl⟩⟩
  refine ⟨rfl, hforces, ⟨rfl, by decide, by decide⟩, by decide, rfl, fun h => ?_⟩
  exact absurd ((goesOn_iff rfl rfl (by decide) (by decide)).mp h leave (by decide)) (by decide)

end ForcedJump
end ClassPatch
