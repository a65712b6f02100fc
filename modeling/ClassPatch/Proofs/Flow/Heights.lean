import ClassPatch.Proofs.Flow.Consistency
import ClassPatch.Proofs.Flow.Words

/-!
# Heights of the stack

Control is followed here with the height of the stack alone, counted in words by the instruction
set. On every such path the words that an instruction takes are there, the height is the one that
the analysis has recorded, and it never exceeds the bound that the analysis returns.
-/

namespace ClassPatch

/-- The words that an event takes from the stack and puts there. -/
def Event.words : Event → Option (Nat × Nat)
  | .label _ => some (0, 0)
  | .instr i => i.words

/-- A path through some events, from the first one and an empty stack, comes to a position with so
many words on the stack. It goes on to the event behind, to any target of a jump or a switch, and
into every handler that guards the event, where only the caught object is on the stack. -/
inductive Climbs (events : List Event) (handlers : List Handler) : Nat → Nat → Prop
  | entry : Climbs events handlers 0 0
  | next {i height taken put : Nat} {e : Event} (h : Climbs events handlers i height)
      (he : events[i]? = some e) (hterminal : e.isTerminal = false)
      (hwords : e.words = some (taken, put)) :
      Climbs events handlers (i + 1) (height - taken + put)
  | jump {i j height taken put : Nat} {e : Event} {l : Label} (h : Climbs events handlers i height)
      (he : events[i]? = some e) (hl : l ∈ e.targets) (hj : Means events l j)
      (hwords : e.words = some (taken, put)) :
      Climbs events handlers j (height - taken + put)
  | caught {i j height : Nat} {handler : Handler} (h : Climbs events handlers i height)
      (hmem : handler ∈ handlers) (hcovers : handler.Covers events i)
      (hj : Means events handler.target j) : Climbs events handlers j 1

/-- A method is entered with nothing on the stack. -/
theorem Frame.stack_of_entry {method : MethodContext} {frame : Frame}
    (h : Frame.entry method = .ok frame) : frame.stack = [] := by
  obtain ⟨d, -, h⟩ := Except.bind_eq_ok.mp h
  obtain rfl := Except.pure_eq_ok.mp h
  rfl

namespace FlowGraph

variable {g : FlowGraph} {index : Nat} {s : FlowState} {t : Transfer}

/-- What an event moves, as the instruction set has it for all events that are counted right. -/
theorem moves_of_transfer {e : Event} (h : g.transfer index e s = .ok t) :
    ∃ taken put, s.Moves t.after taken put ∧
      ((∀ i, e = .instr i → i.Counted s) → e.words = some (taken, put)) := by
  cases e with
  | label l =>
    obtain rfl := Except.ok.inj h
    exact ⟨0, 0, .refl s, fun _ => rfl⟩
  | instr i =>
    obtain ⟨taken, put, hmoves, hwords⟩ := moves_of_transferInstruction h
    exact ⟨taken, put, hmoves, fun hcounted => hwords (hcounted i rfl)⟩

/-- Except for the call of a subroutine, an event arrives at its targets in the state behind it. -/
theorem arrival_of_transfer {e : Event} (h : g.transfer index e s = .ok t)
    (hjsr : ∀ l, e ≠ .instr (.jump .jsr l)) : t.arrival = t.after := by
  cases e with
  | label l =>
    obtain rfl := Except.ok.inj h
    rfl
  | instr i =>
    cases transferInstruction_eq_ok.mp h with
    | @subroutine l => exact absurd rfl (hjsr l)
    | _ => rfl

end FlowGraph

namespace FlowSolution

variable {events : List Event} {handlers : List Handler} {frames : List (Label × Frame)}
  {method : MethodContext} {maxLocals : UInt16} {solution : FlowSolution}

/-- A position at which control arrives with so many words is recorded with this height. -/
structure Holds (solution : FlowSolution) (i height : Nat) : Prop where
  state : ∃ s, solution.state? i = some s ∧ s.stack.length = height
  le : height ≤ solution.maxStack.toNat

theorem IsOf.holds {g : FlowGraph} {entry : FlowState} {p : FlowProgress}
    (h : solution.IsOf g entry p) {j : Nat} {incoming : FlowState}
    (habsorbed : p.Absorbed g j incoming) : solution.Holds j incoming.stack.length where
  state := by
    obtain ⟨s, hs, hheight, -⟩ := habsorbed.state
    exact ⟨s, h.state?_eq_some.mpr hs, hheight⟩
  le := by
    rw [h.toNat_maxStack]
    exact habsorbed.height_le

/-- On every path the words that an event takes are on the stack, the height before it is the
recorded one, and the heights before and behind it are within the bound. -/
theorem height_of_climbs (h : analyze events handlers frames method maxLocals = .ok solution)
    (hjsr : ∀ l, .instr (.jump .jsr l) ∉ events)
    (hcounted : ∀ (i : Nat) (ins : Instruction Label) (s : FlowState),
      events[i]? = some (.instr ins) → solution.state? i = some s → ins.Counted s)
    {i height : Nat} (hclimbs : Climbs events handlers i height) :
    solution.Holds i height ∧ ∃ e taken put, events[i]? = some e ∧ e.words = some (taken, put) ∧
      taken ≤ height ∧ height - taken + put ≤ solution.maxStack.toNat := by
  obtain ⟨g, frame, p, hg, hframe, -, hsolution⟩ := exists_isOf h
  have hcomplete := hsolution.toComplete
  have hevents (i : Nat) : g.events[i]? = events[i]? := by
    rw [(FlowGraph.isOf_of_ofEvents hg).events_eq, List.getElem?_toArray]
  -- A recorded position has been passed, with the words that the instruction set says.
  have hpasses {i height : Nat} (hholds : solution.Holds i height) :
      ∃ e s t taken put, events[i]? = some e ∧ p.Passed g i s e t ∧ e.words = some (taken, put) ∧
        taken ≤ height ∧ t.after.stack.length = height - taken + put ∧ t.arrival = t.after := by
    obtain ⟨s, hs, hheight⟩ := hholds.state
    obtain ⟨e, t, hpassed⟩ := hcomplete.passes (hsolution.state?_eq_some.mp hs)
    have he : events[i]? = some e := by rw [← hevents, hpassed.event]
    obtain ⟨taken, put, hmoves, hwords⟩ := FlowGraph.moves_of_transfer hpassed.transfer
    have harrival := FlowGraph.arrival_of_transfer hpassed.transfer
      fun l hl => hjsr l (hl ▸ List.mem_of_getElem? he)
    have hwords := hwords fun ins hins => hcounted i ins s (hins ▸ he) hs
    have hle := hmoves.le
    have hafter := hmoves.height
    rw [hheight] at hle hafter
    exact ⟨e, s, t, taken, put, he, hpassed, hwords, hle, hafter, harrival⟩
  have hholds : solution.Holds i height := by
    induction hclimbs with
    | entry =>
      have hentry := hsolution.holds hcomplete.entered
      have hempty : (FlowState.ofFrame frame).stack = [] := by
        simp [FlowState.ofFrame, Frame.stack_of_entry hframe, VerificationType.toSlots]
      rwa [hempty] at hentry
    | next _ he hterminal hwords ih =>
      obtain ⟨e', s, t, taken', put', he', hpassed, hwords', -, hafter, -⟩ := hpasses ih
      obtain rfl := Option.some.inj (he.symm.trans he')
      obtain ⟨rfl, rfl⟩ := Prod.mk.inj (Option.some.inj (hwords.symm.trans hwords'))
      rw [← hafter]
      exact hsolution.holds (hpassed.absorbed
        (FlowGraph.mem_edges_of_arrives hg hpassed.transfer (.next hterminal)))
    | jump _ he hl hj hwords ih =>
      obtain ⟨e', s, t, taken', put', he', hpassed, hwords', -, hafter, harrival⟩ := hpasses ih
      obtain rfl := Option.some.inj (he.symm.trans he')
      obtain ⟨rfl, rfl⟩ := Prod.mk.inj (Option.some.inj (hwords.symm.trans hwords'))
      rw [← hafter, ← harrival]
      exact hsolution.holds (hpassed.absorbed
        (FlowGraph.mem_edges_of_arrives hg hpassed.transfer (.jump hl hj)))
    | caught _ hmem hcovers hj ih =>
      obtain ⟨e', s, t, taken', put', -, hpassed, -⟩ := hpasses ih
      exact hsolution.holds (hpassed.absorbed (FlowGraph.mem_edges_of_arrives hg hpassed.transfer
        (.caught hmem hcovers hj (.inl rfl))))
  obtain ⟨e, s, t, taken, put, he, hpassed, hwords, hle, hafter, -⟩ := hpasses hholds
  refine ⟨hholds, e, taken, put, he, hwords, hle, ?_⟩
  rw [← hafter, hsolution.toNat_maxStack]
  exact hpassed.height_le

/-- Code of two words on the stack, guarded by a handler that drops what it has caught. -/
theorem height_of_climbs_guarded :
    let method : MethodContext := ⟨"A", "m", "()V", true, 52⟩
    let events : List Event := [.label ⟨0⟩, .instr (.push (.long 2)), .instr (.plain Opcode.pop2),
      .instr (.leave none), .label ⟨1⟩, .instr (.plain Opcode.pop), .instr (.leave none)]
    let handlers : List Handler := [⟨⟨0⟩, ⟨1⟩, ⟨1⟩, some "E"⟩]
    let frames : List (Label × Frame) := [(⟨1⟩, ⟨[], [.object "E"]⟩)]
    let empty : FlowState := ⟨#[], []⟩
    let caught : FlowState := ⟨#[], [.object "E"]⟩
    let solution : FlowSolution := ⟨#[some empty, some empty, some ⟨#[], [.top, .long]⟩, some empty,
      some caught, some caught, some empty], 2, 0⟩
    analyze events handlers frames method 0 = .ok solution ∧ Climbs events handlers 5 1 ∧
      solution.Holds 5 1 ∧ ∃ e taken put, events[5]? = some e ∧ e.words = some (taken, put) ∧
        taken ≤ 1 ∧ 1 - taken + put ≤ solution.maxStack.toNat := by
  intro method events handlers frames empty caught solution
  have hanalysis : analyze events handlers frames method 0 = .ok solution := by cbv
  have hstart : Means events ⟨0⟩ 0 := ⟨0, rfl, by simp [IsRowStart], Nat.le_refl _, by omega⟩
  have hrow : IsRowStart events 4 := by
    intro k hk
    obtain rfl : k = 3 := by omega
    exact ⟨.leave none, rfl⟩
  have hstop : Means events ⟨1⟩ 4 := ⟨4, rfl, hrow, Nat.le_refl _, by omega⟩
  have hcaught : Climbs events handlers 4 1 :=
    .caught .entry (List.mem_singleton.mpr rfl)
      ⟨⟨0, hstart, Nat.le_refl _⟩, ⟨4, hstop, by decide⟩⟩ hstop
  have hclimbs : Climbs events handlers 5 1 :=
    @Climbs.next events handlers 4 1 0 0 _ hcaught rfl rfl rfl
  refine ⟨hanalysis, hclimbs, height_of_climbs hanalysis ?_ ?_ hclimbs⟩
  · intro l hmem
    simp [events] at hmem
  · intro i ins s hins hs
    have hmem : Event.instr ins ∈ events := List.mem_of_getElem? hins
    simp only [events, List.mem_cons, Event.instr.injEq, reduceCtorEq, List.not_mem_nil, or_false,
      false_or] at hmem
    rcases hmem with rfl | rfl | rfl | rfl | rfl
    all_goals simp [Instruction.Counted, Opcode.aaload, Opcode.pop, Opcode.pop2]

/-- An element that is loaded as a reference from an array of longs is counted as two words, so that
the analysis accepts a `pop2` where there is only one. -/
theorem not_height_of_climbs_longArray :
    let method : MethodContext := ⟨"A", "m", "()V", true, 52⟩
    let events : List Event := [.instr (.push (.int 1)), .instr (.newPrimitives 11),
      .instr (.push (.int 0)), .instr (.plain Opcode.aaload), .instr (.plain Opcode.pop2),
      .instr (.leave none)]
    (∃ solution, analyze events [] [] method 0 = .ok solution) ∧
      Climbs events [] 4 1 ∧ events[4]? = some (.instr (.plain Opcode.pop2)) ∧
        (Event.instr (.plain Opcode.pop2)).words = some (2, 0) := by
  intro method events
  have hanalysis : ∃ solution, analyze events [] [] method 0 = .ok solution := ⟨_, by cbv⟩
  have hone : Climbs events [] 1 1 := @Climbs.next events [] 0 0 0 1 _ .entry rfl rfl rfl
  have harray : Climbs events [] 2 1 := @Climbs.next events [] 1 1 1 1 _ hone rfl rfl rfl
  have hindex : Climbs events [] 3 2 := @Climbs.next events [] 2 1 0 1 _ harray rfl rfl rfl
  have helement : Climbs events [] 4 1 := @Climbs.next events [] 3 2 2 1 _ hindex rfl rfl rfl
  exact ⟨hanalysis, helement, rfl, rfl⟩

end FlowSolution
end ClassPatch
