import ClassPatch.Proofs.Flow.Reachability

/-!
# Solutions are consistent

An analysis is read here without its graph and without its search: over the events, a label means
the start of the row of labels that it stands in, and a frame is declared at what its label means. A
solution has a state for exactly the events that control reaches, and whatever arrives at an event
has been merged into its state, unless the state is declared.
-/

namespace ClassPatch

/-- A label means the start of the row of labels that it stands in. -/
def Means (events : List Event) (l : Label) (r : Nat) : Prop :=
  ∃ i, events[i]? = some (.label l) ∧ InRow events r i

/-- The handler guards an event. -/
structure Handler.Covers (h : Handler) (events : List Event) (i : Nat) : Prop where
  start : ∃ r, Means events h.start r ∧ r ≤ i
  stop : ∃ r, Means events h.stop r ∧ i < r

/-- What a handler finds on the stack. -/
def Handler.caught (h : Handler) : VerificationType :=
  .object (h.catchType.getD FlowGraph.throwable)

/-- Control can come to a position from the first event on. -/
inductive Comes (events : List Event) (handlers : List Handler) : Nat → Prop
  | entry : Comes events handlers 0
  | next {i : Nat} {e : Event} (h : Comes events handlers i) (he : events[i]? = some e)
      (hterminal : e.isTerminal = false) : Comes events handlers (i + 1)
  | jump {i j : Nat} {e : Event} {l : Label} (h : Comes events handlers i)
      (he : events[i]? = some e) (hl : l ∈ e.targets) (hj : Means events l j) :
      Comes events handlers j
  | caught {i j : Nat} {handler : Handler} (h : Comes events handlers i)
      (hmem : handler ∈ handlers) (hcovers : handler.Covers events i)
      (hj : Means events handler.target j) : Comes events handlers j

/-- Where control goes on from an event, and in which states: with the outcome of the event at the
event behind and at its targets, and in every handler that guards it with the locals from before it
or from after it and nothing but the caught object on the stack. -/
inductive Arrives (events : List Event) (handlers : List Handler) (i : Nat) (e : Event)
    (before : FlowState) (t : Transfer) : Nat → FlowState → Prop
  | next (hterminal : e.isTerminal = false) : Arrives events handlers i e before t (i + 1) t.after
  | jump {j : Nat} {l : Label} (hl : l ∈ e.targets) (hj : Means events l j) :
      Arrives events handlers i e before t j t.arrival
  | caught {j : Nat} {handler : Handler} {locals : Array VerificationType}
      (hmem : handler ∈ handlers) (hcovers : handler.Covers events i)
      (hj : Means events handler.target j)
      (hlocals : locals = before.locals ∨ locals = t.after.locals) :
      Arrives events handlers i e before t j ⟨locals, [handler.caught]⟩

/-- A state is declared at a position by the first frame for it. -/
def Declared (events : List Event) (frames : List (Label × Frame)) (r : Nat) (s : FlowState) :
    Prop :=
  ∃ front l frame back, frames = front ++ (l, frame) :: back ∧ Means events l r ∧
    (∀ row ∈ front, ¬Means events row.1 r) ∧ s = .ofFrame frame

/-- The state of a position agrees with a state in which control arrives. -/
structure FlowSolution.Absorbs (solution : FlowSolution) (events : List Event)
    (frames : List (Label × Frame)) (j : Nat) (incoming : FlowState) : Prop where
  state : ∃ s, solution.state? j = some s ∧ s.stack.length = incoming.stack.length ∧
    (Declared events frames j s ∨ s.merge j incoming = .ok s)

/-- A solution is consistent: it has a state for exactly the events that control comes to, and all
that arrives at an event, on entry or from another event, agrees with the state there. -/
structure FlowSolution.Consistent (solution : FlowSolution) (g : FlowGraph) (entry : Frame)
    (events : List Event) (handlers : List Handler) (frames : List (Label × Frame)) : Prop where
  reached (i : Nat) : (∃ s, solution.state? i = some s) ↔ Comes events handlers i
  entered : solution.Absorbs events frames 0 (.ofFrame entry)
  passed (i : Nat) (s : FlowState) : solution.state? i = some s →
    ∃ e t, events[i]? = some e ∧ g.transfer i e s = .ok t ∧ ∀ j incoming,
      Arrives events handlers i e s t j incoming → solution.Absorbs events frames j incoming

/-! ### Positions in the graph -/

/-- A position belongs to one row. -/
theorem InRow.start_unique {events : List Event} {r r' i : Nat} (h : InRow events r i)
    (h' : InRow events r' i) : r = r' := by
  have hle {a b : Nat} (ha : InRow events a i) (hb : InRow events b i) : b ≤ a := by
    by_contra hlt
    obtain ⟨k, rfl⟩ : ∃ k, b = k + 1 := ⟨b - 1, by omega⟩
    obtain ⟨ins, hins⟩ := hb.isRowStart k rfl
    obtain ⟨l, hl⟩ := ha.labels k (by omega) hb.le
    cases hins.symm.trans hl
  exact Nat.le_antisymm (hle h' h) (hle h h')

namespace FlowGraph

variable {events : List Event} {handlers : List Handler} {frames : List (Label × Frame)}
  {method : MethodContext} {g : FlowGraph}

/-- The graph finds what labels mean. -/
theorem position_eq_ok_iff (h : ofEvents events handlers frames method = .ok g) {l : Label}
    {r : Nat} : g.position l = .ok r ↔ Means events l r := by
  obtain ⟨labels, hlabels, h⟩ := Except.bind_eq_ok.mp h
  obtain ⟨ranges, -, h⟩ := Except.bind_eq_ok.mp h
  obtain rfl := Except.pure_eq_ok.mp h
  have hfound := (placements_spec hlabels).2
  simp only [position, target]
  constructor
  · intro hr
    split at hr
    · rename_i j hj
      obtain rfl := Except.ok.inj hr
      obtain ⟨i, hi, hrow⟩ := Option.bind_eq_some_iff.mp hj
      have hi := (hfound l i).mp hi
      obtain ⟨r, hr, hin⟩ := rowStarts_spec hi
      obtain rfl := Option.some.inj (hrow.symm.trans hr)
      exact ⟨i, hi, hin⟩
    · cases hr
  · rintro ⟨i, hi, hin⟩
    obtain ⟨r', hr', hin'⟩ := rowStarts_spec hi
    obtain rfl := hin.start_unique hin'
    rw [(hfound l i).mpr hi, Option.bind_some, hr']

/-- The guarded ranges are those of the handlers. -/
theorem forall₂_ranges (h : ofEvents events handlers frames method = .ok g) :
    List.Forall₂ (fun (handler : Handler) (range : GuardedRange) =>
      Means events handler.start range.start ∧ Means events handler.stop range.stop ∧
        Means events handler.target range.target ∧ range.caught = handler.caught)
      handlers g.ranges := by
  have hposition {l : Label} {r : Nat} := @position_eq_ok_iff _ _ _ _ _ h l r
  obtain ⟨labels, -, h⟩ := Except.bind_eq_ok.mp h
  obtain ⟨ranges, hranges, h⟩ := Except.bind_eq_ok.mp h
  obtain rfl := Except.pure_eq_ok.mp h
  refine (Except.mapM_eq_ok.mp hranges).imp fun handler range hrange => ?_
  obtain ⟨start, hstart, hrange⟩ := Except.bind_eq_ok.mp hrange
  obtain ⟨stop, hstop, hrange⟩ := Except.bind_eq_ok.mp hrange
  obtain ⟨target, htarget, hrange⟩ := Except.bind_eq_ok.mp hrange
  obtain rfl := Except.pure_eq_ok.mp hrange
  exact ⟨hposition.mp hstart, hposition.mp hstop, hposition.mp htarget, rfl⟩

theorem declared_of_hint (h : ofEvents events handlers frames method = .ok g) {r : Nat}
    {hint : FlowState} (hr : g.hints[r]? = some hint) : Declared events frames r hint := by
  obtain ⟨front, l, frame, back, hframes, hl, hfront, heq⟩ := exists_first_of_hint h hr
  refine ⟨front, l, frame, back, hframes, (position_eq_ok_iff h).mp hl, fun row hrow hmeans =>
    ?_, heq⟩
  exact hfront row hrow ((position_eq_ok_iff h).mpr hmeans)

/-- A label means one position. -/
theorem means_unique (h : ofEvents events handlers frames method = .ok g) {l : Label} {r r' : Nat}
    (hr : Means events l r) (hr' : Means events l r') : r = r' := by
  rw [← position_eq_ok_iff h] at hr hr'
  exact Except.ok.inj (hr.symm.trans hr')

/-- A handler guards exactly the positions of its range. -/
theorem covers_iff (h : ofEvents events handlers frames method = .ok g) {handler : Handler}
    {range : GuardedRange} (hstart : Means events handler.start range.start)
    (hstop : Means events handler.stop range.stop) {i : Nat} :
    handler.Covers events i ↔ range.start ≤ i ∧ i < range.stop := by
  constructor
  · rintro ⟨⟨r, hr, hle⟩, ⟨r', hr', hlt⟩⟩
    rw [means_unique h hstart hr, means_unique h hstop hr']
    exact ⟨hle, hlt⟩
  · rintro ⟨hle, hlt⟩
    exact ⟨⟨_, hstart, hle⟩, ⟨_, hstop, hlt⟩⟩

/-- Control comes to the positions that the graph visits. -/
theorem visits_iff_comes (h : ofEvents events handlers frames method = .ok g) {i : Nat} :
    g.Visits i ↔ Comes events handlers i := by
  have hevents {i : Nat} : g.events[i]? = events[i]? := by
    rw [(isOf_of_ofEvents h).events_eq, List.getElem?_toArray]
  constructor
  · intro hvisits
    induction hvisits with
    | entry => exact .entry
    | step _ hedge ih =>
      cases hedge with
      | caught hrange hle hlt =>
        obtain ⟨handler, hmem, hstart, hstop, htarget, -⟩ := (forall₂_ranges h).exists_left hrange
        exact ih.caught hmem ((covers_iff h hstart hstop).mpr ⟨hle, hlt⟩) htarget
      | jump he hl hj => exact ih.jump (hevents ▸ he) hl ((position_eq_ok_iff h).mp hj)
      | next he hterminal => exact ih.next (hevents ▸ he) hterminal
  · intro hcomes
    induction hcomes with
    | entry => exact .entry
    | next _ he hterminal ih => exact ih.step (.next (hevents ▸ he) hterminal)
    | jump _ he hl hj ih => exact ih.step (.jump (hevents ▸ he) hl ((position_eq_ok_iff h).mpr hj))
    | caught _ hmem hcovers hj ih =>
      obtain ⟨range, hrange, hstart, hstop, htarget, -⟩ := (forall₂_ranges h).exists_right hmem
      obtain ⟨hle, hlt⟩ := (covers_iff h hstart hstop).mp hcovers
      rw [means_unique h hj htarget]
      exact ih.step (.caught hrange hle hlt)

/-- Whatever arrives somewhere flows along an edge. -/
theorem mem_edges_of_arrives (h : ofEvents events handlers frames method = .ok g) {i j : Nat}
    {e : Event} {s incoming : FlowState} {t : Transfer} (ht : g.transfer i e s = .ok t)
    (harrives : Arrives events handlers i e s t j incoming) :
    (j, incoming) ∈ g.edges i e s t := by
  rw [carries_iff]
  cases harrives with
  | next hterminal => exact .next hterminal
  | jump hl hj =>
    exact .jump ((targets_of_transfer ht j).mpr ⟨_, hl, (position_eq_ok_iff h).mpr hj⟩)
  | @caught _ handler locals hmem hcovers hj hlocals =>
    obtain ⟨range, hrange, hstart, hstop, htarget, hcaught⟩ := (forall₂_ranges h).exists_right hmem
    obtain ⟨hle, hlt⟩ := (covers_iff h hstart hstop).mp hcovers
    rw [means_unique h hj htarget, ← hcaught]
    exact .caught hrange hle hlt hlocals

end FlowGraph

/-! ### Solutions -/

namespace FlowSolution

variable {events : List Event} {handlers : List Handler} {frames : List (Label × Frame)}
  {method : MethodContext} {g : FlowGraph} {solution : FlowSolution} {entry : FlowState}
  {p : FlowProgress}

theorem IsOf.state?_eq_some (h : solution.IsOf g entry p) {i : Nat} {s : FlowState} :
    solution.state? i = some s ↔ p.states[i]? = some (some s) := by
  rw [state?, h.states, Option.join_eq_some_iff]

theorem IsOf.absorbs (hg : FlowGraph.ofEvents events handlers frames method = .ok g)
    (h : solution.IsOf g entry p) {j : Nat} {incoming : FlowState}
    (habsorbed : p.Absorbed g j incoming) : solution.Absorbs events frames j incoming := by
  obtain ⟨s, hs, hheight, hcovers⟩ := habsorbed.state
  refine ⟨s, h.state?_eq_some.mpr hs, hheight, ?_⟩
  cases hhint : g.hints[j]? with
  | none => exact .inr (FlowState.merge_eq_self.mpr (hcovers hhint))
  | some hint =>
    obtain rfl := h.hinted hs hhint
    exact .inl (FlowGraph.declared_of_hint hg hhint)

/-- What an analysis returns is consistent. -/
theorem consistent_of_analyze {maxLocals : UInt16}
    (h : analyze events handlers frames method maxLocals = .ok solution) :
    ∃ g entry, FlowGraph.ofEvents events handlers frames method = .ok g ∧
      Frame.entry method = .ok entry ∧ solution.Consistent g entry events handlers frames := by
  obtain ⟨g, entry, p, hg, hentry, -, hsolution⟩ := exists_isOf h
  have hcomplete := hsolution.toComplete
  refine ⟨g, entry, hg, hentry, ?reached, hsolution.absorbs hg hcomplete.entered, ?passed⟩
  case reached =>
    intro i
    rw [← FlowGraph.visits_iff_comes hg, ← hcomplete.state_iff]
    simp only [hsolution.state?_eq_some]
  case passed =>
    intro i s hs
    obtain ⟨e, t, hpassed⟩ := hcomplete.passes (hsolution.state?_eq_some.mp hs)
    have he := hpassed.event
    rw [(FlowGraph.isOf_of_ofEvents hg).events_eq, List.getElem?_toArray] at he
    refine ⟨e, t, he, hpassed.transfer, ?_⟩
    intro j incoming harrives
    have hedge := FlowGraph.mem_edges_of_arrives hg hpassed.transfer harrives
    exact hsolution.absorbs hg (hpassed.absorbed hedge)

/-- A loop whose head declares a state, with an instruction behind the return that control does not
come to. -/
theorem consistent_of_analyze_loop :
    let method : MethodContext := ⟨"A", "m", "(I)V", true, 52⟩
    let events : List Event := [.label ⟨0⟩, .instr (.increment 0 1), .instr (.load .int 0),
      .instr (.jump (.branch .ifEq) ⟨0⟩), .instr (.leave none), .instr (.plain Opcode.athrow)]
    let frames : List (Label × Frame) := [(⟨0⟩, ⟨[.integer], []⟩)]
    let solution : FlowSolution :=
      ⟨#[some ⟨#[.integer], []⟩, some ⟨#[.integer], []⟩, some ⟨#[.integer], []⟩,
        some ⟨#[.integer], [.integer]⟩, some ⟨#[.integer], []⟩, none], 1, 1⟩
    analyze events [] frames method 1 = .ok solution ∧
      ∃ g entry, FlowGraph.ofEvents events [] frames method = .ok g ∧
        Frame.entry method = .ok entry ∧ solution.Consistent g entry events [] frames := by
  intro method events frames solution
  have hanalysis : analyze events [] frames method 1 = .ok solution := by cbv
  exact ⟨hanalysis, consistent_of_analyze hanalysis⟩

end FlowSolution
end ClassPatch
