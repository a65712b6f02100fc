import ClassPatch.Proofs.Flow.Safety
import ClassPatch.Proofs.Flow.Standing

/-!
# Analyses of copies

A copy has the instructions that an analysis has left, with other names for its labels. Whatever its
frames say, its analysis finds the heights of the first one, and so the same bound on the stack. If
all that control jumps to is declared with the height that it has, the analysis of the copy
succeeds: what is not declared is only come to from the position in front, in one state.
-/

namespace ClassPatch

/-- Only the instruction matters for whether a reference is loaded from an array. -/
theorem Event.loadsWord_map {i : Instruction Label} {f : Label → Label} {s : FlowState} :
    (Event.instr (i.map f)).LoadsWord s ↔ (Event.instr i).LoadsWord s := by
  have hplain : (Event.instr (i.map f) = .instr (.plain Opcode.aaload)) ↔
      (Event.instr i = .instr (.plain Opcode.aaload)) := by
    cases i <;> simp [Instruction.map]
  unfold LoadsWord
  rw [hplain]

/-- The state that a position declares, or else has from the entry or from the event in front of
it. -/
def FlowGraph.straight (g : FlowGraph) (entry : FlowState) : Nat → Option FlowState
  | 0 => some (g.hints[0]?.getD entry)
  | i + 1 =>
    match g.hints[i + 1]? with
    | some hint => some hint
    | none => do
      let e ← g.events[i]?
      let t ← (g.transfer i e (← g.straight entry i)).toOption
      return t.after

/-- Events have the instructions that are left of others, with other names of labels, and guard the
same of them. -/
structure FlowSolution.Copied (solution : FlowSolution) (events : List Event)
    (handlers : List Handler) (f : Label → Label) (events' : List Event)
    (handlers' : List Handler) : Prop where
  instructions_eq : instructions events' = (instructions (solution.prune events)).map (·.map f)
  target : ∀ i ∈ instructions (solution.prune events), ∀ l ∈ i.targets,
    f l ∈ placedLabels events' ∧ landing events' (f l) = landing (solution.prune events) l
  handler : ∀ h' ∈ handlers', ∃ h ∈ handlers,
    landing events' h'.start = landing (solution.prune events) h.start ∧
    landing events' h'.stop = landing (solution.prune events) h.stop ∧
    landing events' h'.target = landing (solution.prune events) h.target
  marked : ∀ j className, events'[j]? = some (.instr (.typeUse .newObject className)) →
    ∃ k l, j = k + 1 ∧ events'[k]? = some (.label l)

namespace FlowSolution.Copied

open FlowGraph

variable {solution : FlowSolution} {events events' : List Event} {handlers handlers' : List Handler}
  {f : Label → Label} {frames frames' : List (Label × Frame)} {method : MethodContext}
  {g g' : FlowGraph} {entry : FlowState} {p p' : FlowProgress} {maxLocals : Nat}
  (h : solution.Copied events handlers f events' handlers')
  (hg : FlowGraph.ofEvents events handlers frames method = .ok g)
  (hsolution : solution.IsOf g entry p)
  (hg' : FlowGraph.ofEvents events' handlers' frames' method = .ok g')
include h hg hsolution hg'

/-- Only positions inside the copy have the height of an instruction. -/
theorem lt_of_isLevel {j : Nat} {s : FlowState}
    (hs : solution.IsLevel events (numberAt events' j) s) : j < g'.events.size := by
  obtain ⟨i, s₀, hstands, -⟩ := hs
  have hlt := (List.getElem?_eq_some_iff.mp
    (hstands.instructions (FlowGraph.size_eq_length hg hsolution))).1
  have hlength := congrArg List.length h.instructions_eq
  rw [List.length_map] at hlength
  rw [(isOf_of_ofEvents hg').events_eq, List.size_toArray]
  by_contra hle
  have hmono := numberAt_mono events' (Nat.le_of_not_lt hle)
  rw [numberAt_length] at hmono
  omega

omit hg hsolution in
/-- A label in the copy of what an instruction jumps to is placed. -/
theorem exists_position {i : Instruction Label} (hi : i ∈ instructions (solution.prune events))
    {l : Label} (hl : l ∈ i.targets) : ∃ r, g'.position (f l) = .ok r :=
  exists_position_of_mem hg' (h.target i hi l hl).1

omit hg hsolution in
/-- Where an edge to a handler leads there is one word on the stack. -/
theorem isLevel_of_handlerEdges {j : Nat} {i : Instruction Label} {t : Transfer}
    (hgoes : solution.Goes events handlers (numberAt events' j) i t) (s after : FlowState) :
    ∀ edge ∈ g'.handlerEdges j s after, solution.IsLevel events
      (numberAt events' edge.1) edge.2 := by
  rintro ⟨k, incoming⟩ hedge
  obtain ⟨range, hrange, hfront, hback, rfl, hcaught⟩ := mem_handlerEdges.mp hedge
  have hgraph := isOf_of_ofEvents hg'
  obtain ⟨h', hmem', hfrom, hto, htarget⟩ := hgraph.ranges.exists_left hrange
  obtain ⟨-, -, -, hfrom⟩ := hgraph.position hfrom
  obtain ⟨-, hrow, -, hto⟩ := hgraph.position hto
  obtain ⟨-, -, -, htarget⟩ := hgraph.position htarget
  obtain ⟨handler, hmem, hstart, hstop, hlanding⟩ := h.handler h' hmem'
  have hfront := numberAt_mono events' hfront
  have hback := hrow.number_lt hback
  have hlevel {s : FlowState} (hheight : s.stack.length = 1) :
      solution.IsLevel events (numberAt events' range.target) s := by
    rw [← htarget, hlanding]
    exact hgoes.caught handler hmem (by omega) (by omega) s hheight
  rcases hcaught with rfl | rfl
  · exact hlevel rfl
  · exact hlevel rfl

/-- An event of the copy is permitted in every state of the right height, and hands such states
on. -/
theorem exists_transfer
    (hloads : ∀ n i s, solution.Stands events n i s → (Event.instr i).LoadsWord s) {j : Nat}
    {e : Event} {s : FlowState} (hs : solution.IsLevel events (numberAt events' j) s)
    (he : events'[j]? = some e) (hload : e.LoadsWord s) : ∃ t, g'.transfer j e s = .ok t ∧
      ∀ edge ∈ g'.edges j e s t, solution.IsLevel events (numberAt events' edge.1) edge.2 := by
  obtain ⟨i, s₀, hstands, hlevel⟩ := hs
  obtain ⟨k, t, ht, hgoes⟩ := hstands.goes hg hsolution
  have hinstr := hstands.instructions (FlowGraph.size_eq_length hg hsolution)
  have hhandlers := h.isLevel_of_handlerEdges hg' hgoes s
  cases e with
  | label l =>
    refine ⟨.straight s, rfl, fun edge hedge => ?_⟩
    rw [edges_label, List.mem_append, List.mem_singleton] at hedge
    rcases hedge with hedge | rfl
    · exact hhandlers _ edge hedge
    · rw [numberAt_label he]
      exact ⟨i, s₀, hstands, hlevel⟩
  | instr i' =>
    obtain rfl : i' = i.map f := by
      have hat := instructions_at he
      rw [h.instructions_eq, List.getElem?_map, hinstr] at hat
      exact (Option.some.inj hat).symm
    have hmem := List.mem_of_getElem? hinstr
    have htargets : ∀ l ∈ i.targets, ∃ r, g'.position (f l) = .ok r :=
      fun l hl => h.exists_position hg' hmem hl
    have hnew :
        ∀ className, i = .typeUse .newObject className → ∃ l, g'.labelBefore? j = some l := by
      rintro className rfl
      obtain ⟨k, l, rfl, hl⟩ := h.marked j className he
      refine ⟨l, ?_⟩
      simp only [labelBefore?, (isOf_of_ofEvents hg').events_eq, List.getElem?_toArray, hl]
    obtain ⟨t', ht', hlevel'⟩ := exists_transferInstruction hlevel ht htargets hnew
      (hloads _ _ _ hstands) (Event.loadsWord_map.mp hload)
    have htransfer : g'.transfer j (.instr (i.map f)) s = .ok t' := ht'
    refine ⟨t', htransfer, ?_⟩
    rintro ⟨r, incoming⟩ hedge
    cases carries_iff.mp hedge with
    | caught hrange hstart hstop hlocals =>
      refine hhandlers t'.after _ (mem_handlerEdges.mpr ⟨_, hrange, hstart, hstop, rfl, ?_⟩)
      exact hlocals.imp (congrArg (caughtState _)) (congrArg (caughtState _))
    | jump hr =>
      obtain ⟨l', hl', hposition⟩ := (targets_of_transfer htransfer r).mp hr
      rw [Event.targets, Instruction.targets_map] at hl'
      obtain ⟨l, hl, rfl⟩ := List.mem_map.mp hl'
      obtain ⟨-, -, -, hlanding⟩ := (isOf_of_ofEvents hg').position hposition
      rw [← hlanding, (h.target i hmem l hl).2]
      exact (hgoes.jump l hl).congr hlevel'.arrival
    | next hterminal =>
      rw [numberAt_instr he]
      refine (hgoes.next ?_).congr hlevel'.after
      simpa [Event.isTerminal] using hterminal

section Searched

variable (hloads : ∀ n i s, solution.Stands events n i s → (Event.instr i).LoadsWord s)
  (hloads' : ∀ j e s, g'.Computes entry maxLocals j s → events'[j]? = some e → e.LoadsWord s)
include hloads hloads'

/-- The analysis of the copy has the heights of the first one. -/
theorem allStates {q : FlowProgress} (hq : g'.Searches entry maxLocals q) :
    AllStates (fun j s => solution.IsLevel events (numberAt events' j) s) q := by
  refine (receptive_isLevel _).allStates (isLevel_entry hg hsolution) ?_ hq
  intro j e s t hcomputes hs he ht
  rw [(isOf_of_ofEvents hg').events_eq, List.getElem?_toArray] at he
  obtain ⟨t', ht', hedges⟩ :=
    h.exists_transfer hg hsolution hg' hloads hs he (hloads' j e s hcomputes he)
  obtain rfl := Except.ok.inj (ht.symm.trans ht')
  exact hedges

/-- The analysis of a copy that control comes to all of finds the same bound on the stack. -/
theorem maxStack_eq {maxLocals₀ : Nat} (hsearch : g.search entry maxLocals₀ = .ok p)
    (hsearch' : g'.search entry maxLocals = .ok p')
    (hreaches : ∀ n < (instructions events').length,
      Reaches (program events') (guards events' handlers') n) : p'.maxStack = p.maxStack := by
  have hall := h.allStates hg hsolution hg' hloads hloads' (searches_of_search hsearch')
  have hcomplete := complete_of_search hsearch'
  refine Nat.le_antisymm ((searches_of_search hsearch').maxStack_le fun j s hs => ?_)
    ((searches_of_search hsearch).maxStack_le fun k s hs => ?_)
  · exact (hall j s hs).height_le hsolution
  · have hsize := FlowGraph.size_eq_length hg hsolution
    obtain ⟨i, s₀, hstands, hlevel⟩ :=
      isLevel_of_state hg hsolution (hsolution.state?_eq_some.mpr hs)
    have hlt := (List.getElem?_eq_some_iff.mp (hstands.instructions hsize)).1
    have hlength := congrArg List.length h.instructions_eq
    rw [List.length_map] at hlength
    obtain ⟨r, hvisits, -, hnumber⟩ :=
      (isOf_of_ofEvents hg').exists_visits hcomplete (hreaches _ (hlength ▸ hlt))
    obtain ⟨s', hs'⟩ := (hcomplete.state_iff r).mpr hvisits
    have hlevel' : solution.IsLevel events (numberAt events' r) s' := hall r s' hs'
    rw [hnumber] at hlevel'
    have hheight : s'.stack.length = s.stack.length :=
      hlevel'.level hsize ⟨i, s₀, hstands, hlevel⟩
    exact Nat.le_trans (Nat.le_of_eq hheight.symm) (hcomplete.height_le hs')

end Searched
/-! ### Copies that declare what is jumped to -/

section Declared

variable (hloads : ∀ n i s, solution.Stands events n i s → (Event.instr i).LoadsWord s)
  (hloads' : ∀ j e s, g'.Computes entry maxLocals j s → events'[j]? = some e → e.LoadsWord s)
  (hlevel : ∀ r hint, g'.hints[r]? = some hint → solution.IsLevel events (numberAt events' r) hint)
  (htargets : ∀ e ∈ events', ∀ l ∈ e.targets, ∀ r, g'.position l = .ok r → (g'.hints[r]?).isSome)
  (hcatches : ∀ range ∈ g'.ranges, (g'.hints[range.target]?).isSome)
include hloads hloads' hlevel htargets hcatches

omit h hg hsolution hg' hloads hloads' hlevel in
/-- Edges only lead to what is declared, or to the event behind. -/
theorem declared_or_next {j : Nat} {e : Event} {s : FlowState} {t : Transfer}
    (he : e ∈ events') (ht : g'.transfer j e s = .ok t) :
    ∀ edge ∈ g'.edges j e s t, (g'.hints[edge.1]?).isSome ∨ edge = (j + 1, t.after) := by
  rintro ⟨r, incoming⟩ hedge
  cases carries_iff.mp hedge with
  | caught hrange => exact .inl (hcatches _ hrange)
  | jump hr =>
    obtain ⟨l, hl, hposition⟩ := (targets_of_transfer ht r).mp hr
    exact .inl (htargets e he l hl r hposition)
  | next => exact .inr rfl

/-- The analysis of a copy that declares what is jumped to does not fail. -/
theorem exists_search : ∃ p', g'.search entry maxLocals = .ok p' := by
  let I (j : Nat) (s : FlowState) : Prop := solution.IsLevel events (numberAt events' j) s ∧
    (g'.hints[j]? = none → g'.straight entry j = some s)
  have hsize := FlowGraph.size_eq_length hg hsolution
  have hadmits : g'.Admits I := by
    refine ⟨fun hs => h.lt_of_isLevel hg hsolution hg' hs.1, fun {j s hint} hs hhint => ?hint,
      fun {j s s'} hnone hs hs' => ?merge⟩
    case hint =>
      have hdeclared := hlevel j hint hhint
      refine ⟨hdeclared.level hsize hs.1, hdeclared, fun hnone => ?_⟩
      rw [hhint] at hnone
      cases hnone
    case merge =>
      obtain rfl := Option.some.inj ((hs.2 hnone).symm.trans (hs'.2 hnone))
      exact ⟨s, FlowState.merge_eq_self.mpr (FlowState.covers_refl s), hs⟩
  have hentry : I 0 entry := by
    refine ⟨isLevel_entry hg hsolution, fun hnone => ?_⟩
    rw [straight, hnone, Option.getD_none]
  obtain ⟨p', hp', -⟩ := hadmits.exists_search hentry
    fun {j e s} (hcomputes : g'.Computes entry maxLocals j s) hs he => by
      have he' : events'[j]? = some e := by
        rw [← List.getElem?_toArray, ← (isOf_of_ofEvents hg').events_eq, he]
      obtain ⟨t, ht, hedges⟩ :=
        h.exists_transfer hg hsolution hg' hloads hs.1 he' (hloads' j e s hcomputes he')
      refine ⟨t, ht, fun {j' incoming} hedge => ⟨hedges _ hedge, fun hnone => ?_⟩⟩
      rcases declared_or_next htargets hcatches (List.mem_of_getElem? he') ht _ hedge with
        hsome | hnext
      · rw [show g'.hints[j']? = none from hnone] at hsome
        cases hsome
      · obtain ⟨rfl, rfl⟩ := Prod.mk.inj hnext
        -- the state in front is the declared one, or the only one that has come to it
        have hstraight : g'.straight entry j = some s := by
          cases hhint : g'.hints[j]? with
          | none => exact hs.2 hhint
          | some hint =>
            obtain ⟨q, hsearches, hq⟩ := hcomputes
            obtain rfl := hsearches.sound.hinted hq hhint
            cases j with
            | zero => rw [straight, hhint, Option.getD_some]
            | succ j => rw [straight, hhint]
        rw [straight, hnone]
        simp only [he, hstraight, ht, Except.toOption, Option.bind_eq_bind, Option.bind_some]
        rfl
  exact ⟨p', hp'⟩

end Declared

end FlowSolution.Copied
end ClassPatch
