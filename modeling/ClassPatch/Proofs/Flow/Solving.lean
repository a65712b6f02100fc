import ClassPatch.Flow.Solution
import ClassPatch.Proofs.Flow.Merging
import ClassPatch.Proofs.Flow.Operations
import ClassPatch.Proofs.Outcome

/-!
# What a solution of the flow satisfies

`FlowGraph.Edge` says where control may go from a position, whatever the types are, and `Visits`
where it may come to from the entry. The search keeps `FlowProgress.Sound`: only visited positions
have states, a hint is the state where there is one, and whatever has a state is pending or has been
`Passed`, which means that its outcome has been absorbed along all its edges. When nothing is
pending any more, the positions with a state are exactly the visited ones.
-/

namespace ClassPatch

namespace FlowGraph

variable {g : FlowGraph}

/-- Control may go from one position to another. -/
inductive Edge (g : FlowGraph) : Nat → Nat → Prop
  | caught {range : GuardedRange} {i : Nat} (h : range ∈ g.ranges) (hstart : range.start ≤ i)
      (hstop : i < range.stop) : Edge g i range.target
  | jump {i j : Nat} {e : Event} {l : Label} (he : g.events[i]? = some e) (hl : l ∈ e.targets)
      (hj : g.position l = .ok j) : Edge g i j
  | next {i : Nat} {e : Event} (he : g.events[i]? = some e) (h : e.isTerminal = false) :
      Edge g i (i + 1)

/-- Control may come to a position from the entry. -/
inductive Visits (g : FlowGraph) : Nat → Prop
  | entry : Visits g 0
  | step {i j : Nat} (hi : Visits g i) (h : g.Edge i j) : Visits g j

theorem mem_targets_of_mapM {labels : List Label} {positions : List Nat}
    (h : labels.mapM g.position = .ok positions) (j : Nat) :
    j ∈ positions ↔ ∃ l ∈ labels, g.position l = .ok j := by
  replace h := Except.mapM_eq_ok.mp h
  induction h with
  | nil => simp
  | @cons l position _ _ hl _ ih =>
    constructor
    · intro hmem
      rcases List.mem_cons.mp hmem with rfl | hmem
      · exact ⟨l, List.mem_cons_self .., hl⟩
      · obtain ⟨l', hl', hj⟩ := ih.mp hmem
        exact ⟨l', List.mem_cons_of_mem _ hl', hj⟩
    · rintro ⟨l', hmem, hj⟩
      rcases List.mem_cons.mp hmem with rfl | hmem
      · rw [hl] at hj
        exact Except.ok.inj hj ▸ List.mem_cons_self ..
      · exact List.mem_cons_of_mem _ (ih.mpr ⟨l', hmem, hj⟩)

/-- The targets of an outcome are the positions of the labels that an event jumps to. -/
theorem targets_of_transfer {index : Nat} {event : Event} {s : FlowState} {t : Transfer}
    (h : g.transfer index event s = .ok t) (j : Nat) :
    j ∈ t.targets ↔ ∃ l ∈ event.targets, g.position l = .ok j := by
  cases event with
  | label l =>
    obtain rfl := Except.ok.inj h
    simp [Transfer.straight, Event.targets]
  | instr i =>
    cases transferInstruction_eq_ok.mp h with
    | subroutine hr | jump _ _ hr =>
      simp [Event.targets, Instruction.targets, hr, eq_comm]
    | tableSwitch _ hpositions | lookupSwitch _ hpositions =>
      exact mem_targets_of_mapM hpositions j
    | _ => simp [Transfer.straight, Event.targets, Instruction.targets]

/-- What goes along an edge: into a handler the locals from before the event or from behind it, to a
target the state of arrival, and to the next position the state behind the event. -/
inductive Carries (g : FlowGraph) (i : Nat) (e : Event) (s : FlowState) (t : Transfer) :
    Nat → FlowState → Prop
  | caught {range : GuardedRange} {locals : Array VerificationType} (hrange : range ∈ g.ranges)
      (hstart : range.start ≤ i) (hstop : i < range.stop)
      (hlocals : locals = s.locals ∨ locals = t.after.locals) :
      Carries g i e s t range.target (caughtState range locals)
  | jump {j : Nat} (hj : j ∈ t.targets) : Carries g i e s t j t.arrival
  | next (hterminal : e.isTerminal = false) : Carries g i e s t (i + 1) t.after

theorem mem_handlerEdges {i j : Nat} {s s' incoming : FlowState} :
    (j, incoming) ∈ g.handlerEdges i s s' ↔ ∃ range ∈ g.ranges, range.start ≤ i ∧ i < range.stop ∧
      j = range.target ∧
      (incoming = caughtState range s.locals ∨ incoming = caughtState range s'.locals) := by
  rw [handlerEdges, List.mem_flatMap]
  refine exists_congr fun range => and_congr_right fun _ => ?_
  split
  · rename_i hcovers
    simp only [Bool.and_eq_true, decide_eq_true_eq] at hcovers
    simp only [List.mem_cons, Prod.mk.injEq, List.not_mem_nil, or_false, hcovers, true_and]
    rw [← and_or_left]
  · rename_i hcovers
    simp only [Bool.and_eq_true, decide_eq_true_eq] at hcovers
    exact iff_of_false List.not_mem_nil fun h => hcovers ⟨h.1, h.2.1⟩

theorem carries_iff {i j : Nat} {e : Event} {s incoming : FlowState} {t : Transfer} :
    (j, incoming) ∈ g.edges i e s t ↔ g.Carries i e s t j incoming := by
  simp only [edges, List.mem_append, mem_handlerEdges, List.mem_map]
  constructor
  · rintro ((⟨range, hrange, hstart, hstop, rfl, hcaught⟩ | ⟨target, htarget, heq⟩) | hnext)
    · rcases hcaught with rfl | rfl
      · exact .caught hrange hstart hstop (.inl rfl)
      · exact .caught hrange hstart hstop (.inr rfl)
    · obtain ⟨rfl, rfl⟩ := Prod.mk.inj heq
      exact .jump htarget
    · split at hnext
      · cases hnext
      · rename_i hterminal
        obtain ⟨rfl, rfl⟩ := Prod.mk.inj (List.mem_singleton.mp hnext)
        exact .next (Bool.eq_false_iff.mpr hterminal)
  · intro hcarries
    cases hcarries with
    | caught hrange hstart hstop hlocals =>
      refine .inl (.inl ⟨_, hrange, hstart, hstop, rfl, ?_⟩)
      exact hlocals.imp (congrArg (caughtState _)) (congrArg (caughtState _))
    | jump hj => exact .inl (.inr ⟨j, hj, rfl⟩)
    | next hterminal =>
      rw [hterminal]
      exact .inr (List.mem_singleton_self _)

/-- The outcome of an event flows exactly along the edges of its position. -/
theorem mem_edges {i j : Nat} {e : Event} {s : FlowState} {t : Transfer}
    (he : g.events[i]? = some e) (h : g.transfer i e s = .ok t) :
    (∃ incoming, (j, incoming) ∈ g.edges i e s t) ↔ g.Edge i j := by
  simp only [carries_iff]
  constructor
  · rintro ⟨incoming, hcarries⟩
    cases hcarries with
    | caught hrange hstart hstop => exact .caught hrange hstart hstop
    | jump hj =>
      obtain ⟨l, hl, hposition⟩ := (targets_of_transfer h j).mp hj
      exact .jump he hl hposition
    | next hterminal => exact .next he hterminal
  · intro hedge
    cases hedge with
    | caught hrange hstart hstop => exact ⟨_, .caught hrange hstart hstop (.inl rfl)⟩
    | jump he' hl hj =>
      obtain rfl := Option.some.inj (he.symm.trans he')
      exact ⟨t.arrival, .jump ((targets_of_transfer h j).mpr ⟨_, hl, hj⟩)⟩
    | next he' hterminal =>
      obtain rfl := Option.some.inj (he.symm.trans he')
      exact ⟨t.after, .next hterminal⟩

end FlowGraph
/-! ### The invariant of the search -/

namespace FlowProgress

/-- A state that arrives at a position has left its trace there. -/
structure Absorbed (g : FlowGraph) (p : FlowProgress) (index : Nat) (incoming : FlowState) :
    Prop where
  height_le : incoming.stack.length ≤ p.maxStack
  state : ∃ s, p.states[index]? = some (some s) ∧ s.stack.length = incoming.stack.length ∧
    (g.hints[index]? = none → s.Covers incoming)

/-- The outcome of a position in its state has been absorbed. -/
structure Passed (g : FlowGraph) (p : FlowProgress) (index : Nat) (s : FlowState) (e : Event)
    (t : Transfer) : Prop where
  event : g.events[index]? = some e
  transfer : g.transfer index e s = .ok t
  height_le : t.after.stack.length ≤ p.maxStack
  locals_le : t.after.locals.size ≤ p.maxLocals
  absorbed : ∀ {j : Nat} {incoming : FlowState}, (j, incoming) ∈ g.edges index e s t →
    Absorbed g p j incoming

/-- What the search keeps at every step. -/
structure Kept (g : FlowGraph) (p : FlowProgress) : Prop where
  size : p.states.size = g.events.size
  queued : ∀ {i : Nat}, p.queued[i]? = some true → i ∈ p.pending
  visits : ∀ {i : Nat} {s : FlowState}, p.states[i]? = some (some s) → g.Visits i
  hinted : ∀ {i : Nat} {s hint : FlowState}, p.states[i]? = some (some s) →
    g.hints[i]? = some hint → s = hint

/-- What the search keeps between visits. -/
structure Sound (g : FlowGraph) (p : FlowProgress) : Prop extends Kept g p where
  passed : ∀ {i : Nat} {s : FlowState}, p.states[i]? = some (some s) →
    i ∈ p.pending ∨ ∃ e t, Passed g p i s e t

/-- States only ever come to cover more, and so do the bounds. -/
structure Extends (g : FlowGraph) (p q : FlowProgress) : Prop where
  stack_le : p.maxStack ≤ q.maxStack
  locals_le : p.maxLocals ≤ q.maxLocals
  pending : ∀ {i : Nat}, i ∈ p.pending → i ∈ q.pending
  states : ∀ {i : Nat} {s : FlowState}, p.states[i]? = some (some s) →
    ∃ s', q.states[i]? = some (some s') ∧ s'.Covers s
  changed : ∀ {i : Nat}, i ∈ q.pending ∨ q.states[i]? = p.states[i]?

variable {g : FlowGraph} {p q r : FlowProgress}

namespace Extends

theorem refl (p : FlowProgress) : Extends g p p where
  stack_le := Nat.le_refl _
  locals_le := Nat.le_refl _
  pending := id
  states h := ⟨_, h, FlowState.covers_refl _⟩
  changed := .inr rfl

theorem trans (h : Extends g p q) (h' : Extends g q r) : Extends g p r where
  stack_le := Nat.le_trans h.stack_le h'.stack_le
  locals_le := Nat.le_trans h.locals_le h'.locals_le
  pending hi := h'.pending (h.pending hi)
  states hs := by
    obtain ⟨s', hs', hcovers⟩ := h.states hs
    obtain ⟨s'', hs'', hcovers'⟩ := h'.states hs'
    exact ⟨s'', hs'', hcovers'.trans hcovers⟩
  changed {i} := by
    rcases h'.changed (i := i) with hi | hi
    · exact .inl hi
    · rcases h.changed (i := i) with hi' | hi'
      · exact .inl (h'.pending hi')
      · exact .inr (hi.trans hi')

end Extends

theorem Absorbed.mono {index : Nat} {incoming : FlowState} (h : Absorbed g p index incoming)
    (hq : Extends g p q) : Absorbed g q index incoming where
  height_le := Nat.le_trans h.height_le hq.stack_le
  state := by
    obtain ⟨s, hs, hheight, hcovers⟩ := h.state
    obtain ⟨s', hs', hcovers'⟩ := hq.states hs
    exact ⟨s', hs', hcovers'.stack.length_eq.trans hheight,
      fun hhint => hcovers'.trans (hcovers hhint)⟩

theorem Passed.mono {index : Nat} {s : FlowState} {e : Event} {t : Transfer}
    (h : Passed g p index s e t) (hq : Extends g p q) : Passed g q index s e t where
  event := h.event
  transfer := h.transfer
  height_le := Nat.le_trans h.height_le hq.stack_le
  locals_le := Nat.le_trans h.locals_le hq.locals_le
  absorbed hmem := (h.absorbed hmem).mono hq

/-! ### One step -/

theorem extends_raiseStack (height : Nat) : Extends g p (p.raiseStack height) where
  stack_le := Nat.le_max_left _ _
  locals_le := Nat.le_refl _
  pending := id
  states h := ⟨_, h, FlowState.covers_refl _⟩
  changed := .inr rfl

theorem extends_raiseLocals (count : Nat) : Extends g p (p.raiseLocals count) where
  stack_le := Nat.le_refl _
  locals_le := Nat.le_max_left _ _
  pending := id
  states h := ⟨_, h, FlowState.covers_refl _⟩
  changed := .inr rfl

theorem Kept.raiseStack (h : Kept g p) (height : Nat) : Kept g (p.raiseStack height) :=
  ⟨h.size, h.queued, h.visits, h.hinted⟩

theorem Kept.raiseLocals (h : Kept g p) (count : Nat) : Kept g (p.raiseLocals count) :=
  ⟨h.size, h.queued, h.visits, h.hinted⟩

theorem mem_pending_reach (h : Kept g p) (index : Nat) (s : FlowState) :
    index ∈ (p.reach index s).pending ∧ ∀ {i}, i ∈ p.pending → i ∈ (p.reach index s).pending := by
  unfold reach
  split
  · rename_i hqueued
    refine ⟨h.queued ?_, id⟩
    cases hget : p.queued[index]? with
    | none => simp [hget] at hqueued
    | some b => simpa [hget] using hqueued
  · exact ⟨List.mem_cons_self .., List.mem_cons_of_mem _⟩

theorem bounds_reach (index : Nat) (s : FlowState) :
    (p.reach index s).maxStack = p.maxStack ∧ (p.reach index s).maxLocals = p.maxLocals := by
  unfold reach
  split <;> exact ⟨rfl, rfl⟩

theorem getElem?_states_reach {index : Nat} (s : FlowState) (hlt : index < p.states.size)
    (i : Nat) :
    (p.reach index s).states[i]? = if index = i then some (some s) else p.states[i]? := by
  rw [states_reach, Array.getElem?_setIfInBounds]
  simp [hlt]

/-- Giving a position a state that covers the one that it had, if any. -/
theorem extends_reach (h : Kept g p) {index : Nat} {s : FlowState} (hlt : index < p.states.size)
    (hcovers : ∀ s', p.states[index]? = some (some s') → s.Covers s') :
    Extends g p (p.reach index s) where
  stack_le := Nat.le_of_eq (bounds_reach index s).1.symm
  locals_le := Nat.le_of_eq (bounds_reach index s).2.symm
  pending := (mem_pending_reach h index s).2
  states {i s'} hs' := by
    rw [getElem?_states_reach s hlt]
    split
    · rename_i heq
      subst heq
      exact ⟨s, rfl, hcovers s' hs'⟩
    · exact ⟨s', hs', FlowState.covers_refl _⟩
  changed {i} := by
    rw [getElem?_states_reach s hlt]
    split
    · rename_i heq
      exact .inl (heq ▸ (mem_pending_reach h index s).1)
    · exact .inr rfl

theorem Kept.reach (h : Kept g p) {index : Nat} {s : FlowState} (hlt : index < p.states.size)
    (hvisits : g.Visits index) (hhint : ∀ hint, g.hints[index]? = some hint → s = hint) :
    Kept g (p.reach index s) where
  size := by
    rw [states_reach, Array.size_setIfInBounds]
    exact h.size
  queued {i} hi := by
    by_cases heq : index = i
    · exact heq ▸ (mem_pending_reach h index s).1
    · refine (mem_pending_reach h index s).2 (h.queued ?_)
      unfold FlowProgress.reach at hi
      split at hi
      · exact hi
      · simpa [Array.getElem?_setIfInBounds, heq] using hi
  visits {i s'} hs' := by
    rw [getElem?_states_reach s hlt] at hs'
    split at hs'
    · rename_i heq
      exact heq ▸ hvisits
    · exact h.visits hs'
  hinted {i s' hint} hs' hi := by
    rw [getElem?_states_reach s hlt] at hs'
    split at hs'
    · rename_i heq
      subst heq
      obtain rfl := Option.some.inj (Option.some.inj hs')
      exact hhint hint hi
    · exact h.hinted hs' hi

end FlowProgress
namespace FlowGraph

open FlowProgress

variable {g : FlowGraph} {p q : FlowProgress}

/-- What one edge does to the search. -/
structure Flowed (g : FlowGraph) (p q : FlowProgress) (index : Nat) (incoming : FlowState) :
    Prop where
  kept : Kept g q
  extends' : Extends g p q
  absorbed : Absorbed g q index incoming

theorem flowed_of_flowTo {index : Nat} {incoming : FlowState} (hp : Kept g p)
    (hvisits : g.Visits index) (h : g.flowTo index incoming p = .ok q) :
    Flowed g p q index incoming := by
  let raised := p.raiseStack incoming.stack.length
  have hraised : Kept g raised := hp.raiseStack _
  have hextends : Extends g p raised := extends_raiseStack _
  have hle : incoming.stack.length ≤ raised.maxStack := Nat.le_max_right _ _
  have hle' (s : FlowState) : incoming.stack.length ≤ (raised.reach index s).maxStack :=
    Nat.le_trans hle (Nat.le_of_eq (bounds_reach index s).1.symm)
  unfold flowTo at h
  split at h
  · simp at h
  · rename_i state hstate
    have hlt : index < raised.states.size := (Array.getElem?_eq_some_iff.mp hstate).1
    have hget (s : FlowState) : (raised.reach index s).states[index]? = some (some s) := by
      rw [getElem?_states_reach s hlt, if_pos rfl]
    split at h
    · rename_i hint hhint
      have hother {P : Prop} (hnone : g.hints[index]? = none) : P := by simp [hhint] at hnone
      split at h
      · rename_i hheight
        split at h
        · obtain rfl := Except.ok.inj h
          refine ⟨hraised.reach hlt hvisits fun hint' h' => ?_,
            hextends.trans (extends_reach hraised hlt fun s' hs' => ?_),
            hle' hint, hint, hget hint, hheight, hother⟩
          · exact Option.some.inj (hhint.symm.trans h')
          · cases hstate.symm.trans hs'
        · rename_i s
          obtain rfl := Except.ok.inj h
          obtain rfl := hp.hinted hstate hhint
          exact ⟨hraised, hextends, hle, s, hstate, hheight, hother⟩
      · simp at h
    · rename_i hhint
      split at h
      · obtain rfl := Except.ok.inj h
        refine ⟨hraised.reach hlt hvisits fun hint' h' => ?_,
          hextends.trans (extends_reach hraised hlt fun s' hs' => ?_),
          hle' incoming, incoming, hget incoming, rfl, fun _ => FlowState.covers_refl _⟩
        · simp [hhint] at h'
        · cases hstate.symm.trans hs'
      · rename_i existing
        split at h
        · rename_i merged hmerge
          obtain ⟨hexisting, hincoming⟩ := FlowState.covers_of_merge hmerge
          split at h
          · rename_i heq
            obtain rfl := Except.ok.inj h
            subst heq
            exact ⟨hraised, hextends, hle, merged, hstate, hincoming.stack.length_eq,
              fun _ => hincoming⟩
          · obtain rfl := Except.ok.inj h
            refine ⟨hraised.reach hlt hvisits fun hint' h' => ?_,
              hextends.trans (extends_reach hraised hlt fun s' hs' => ?_),
              hle' merged, merged, hget merged, hincoming.stack.length_eq, fun _ => hincoming⟩
            · simp [hhint] at h'
            · obtain rfl := Option.some.inj (Option.some.inj (hstate.symm.trans hs'))
              exact hexisting
        · simp at h

theorem flowed_of_flowAlong {edges : List (Nat × FlowState)} (hp : Kept g p)
    (hvisits : ∀ edge ∈ edges, g.Visits edge.1) (h : g.flowAlong edges p = .ok q) :
    Kept g q ∧ Extends g p q ∧ ∀ edge ∈ edges, Absorbed g q edge.1 edge.2 := by
  induction edges generalizing p with
  | nil =>
    obtain rfl := Except.ok.inj h
    exact ⟨hp, .refl p, by simp⟩
  | cons edge edges ih =>
    obtain ⟨index, incoming⟩ := edge
    simp only [flowAlong] at h
    split at h
    · rename_i p₁ hflow
      have hone := flowed_of_flowTo hp (hvisits _ (List.mem_cons_self ..)) hflow
      obtain ⟨hkept, hextends, habsorbed⟩ :=
        ih hone.kept (fun edge he => hvisits edge (List.mem_cons_of_mem _ he)) h
      refine ⟨hkept, hone.extends'.trans hextends, ?_⟩
      simp only [List.mem_cons, forall_eq_or_imp]
      exact ⟨hone.absorbed.mono hextends, habsorbed⟩
    · simp at h

theorem kept_dequeue {index : Nat} {rest : List Nat} (hp : Kept g p)
    (hpending : p.pending = index :: rest) : Kept g (p.dequeue index rest) where
  size := hp.size
  queued {i} hi := by
    simp only [dequeue, Array.getElem?_setIfInBounds] at hi
    split at hi
    · split at hi
      · simp at hi
      · simp at hi
    · rename_i hne
      have hmem := hp.queued hi
      rw [hpending] at hmem
      exact (List.mem_cons.mp hmem).resolve_left (Ne.symm hne)
  visits := hp.visits
  hinted := hp.hinted

/-- Flowing along all edges of a position passes it. -/
theorem passed_of_flowAlong {index : Nat} {e : Event} {s : FlowState} {t : Transfer}
    (hp : Kept g p) (he : g.events[index]? = some e) (hs : p.states[index]? = some (some s))
    (ht : g.transfer index e s = .ok t)
    (h : g.flowAlong (g.edges index e s t)
      ((p.raiseStack t.after.stack.length).raiseLocals t.after.locals.size) = .ok q) :
    Kept g q ∧ Extends g p q ∧ Passed g q index s e t := by
  let raised := (p.raiseStack t.after.stack.length).raiseLocals t.after.locals.size
  have hraised : Kept g raised := (hp.raiseStack _).raiseLocals _
  have hextends : Extends g p raised := (extends_raiseStack _).trans (extends_raiseLocals _)
  have hvisits : ∀ edge ∈ g.edges index e s t, g.Visits edge.1 := fun edge hmem =>
    .step (hp.visits hs) ((mem_edges he ht).mp ⟨edge.2, hmem⟩)
  obtain ⟨hkept, hextends', habsorbed⟩ := flowed_of_flowAlong hraised hvisits h
  refine ⟨hkept, hextends.trans hextends', he, ht, ?_, ?_, fun hmem => habsorbed _ hmem⟩
  · exact Nat.le_trans (Nat.le_max_right _ _) hextends'.stack_le
  · exact Nat.le_trans (Nat.le_max_right _ _) hextends'.locals_le

/-- The visit of a position that has a state. -/
theorem visit_eq {index : Nat} {e : Event} {s : FlowState} {t : Transfer}
    (he : g.events[index]? = some e) (hs : p.states[index]? = some (some s))
    (ht : g.transfer index e s = .ok t) :
    g.visit index p = g.flowAlong (g.edges index e s t)
      ((p.raiseStack t.after.stack.length).raiseLocals t.after.locals.size) := by
  unfold visit
  rw [he, hs]
  simp only [Option.join_some, ht]

/-- What a visit of a position does to a search. -/
inductive Expands (g : FlowGraph) (index : Nat) (p : FlowProgress) : FlowProgress → Prop
  | along {e : Event} {s : FlowState} {t : Transfer} {q : FlowProgress}
      (he : g.events[index]? = some e) (hs : p.states[index]? = some (some s))
      (ht : g.transfer index e s = .ok t)
      (hflow : g.flowAlong (g.edges index e s t)
        ((p.raiseStack t.after.stack.length).raiseLocals t.after.locals.size) = .ok q) :
      Expands g index p q
  | nowhere (hnone : ∀ e s, g.events[index]? = some e → p.states[index]? ≠ some (some s)) :
      Expands g index p p

theorem visit_eq_ok {index : Nat} : g.visit index p = .ok q ↔ g.Expands index p q := by
  constructor
  · intro h
    unfold visit at h
    split at h
    · rename_i e s he hs
      split at h
      · rename_i t ht
        exact .along he (Option.join_eq_some_iff.mp hs) ht h
      · cases h
    · rename_i hnone
      obtain rfl := Except.ok.inj h
      exact .nowhere fun e s he hs => hnone e s he (Option.join_eq_some_iff.mpr hs)
  · intro h
    cases h with
    | along he hs ht hflow => rwa [visit_eq he hs ht]
    | nowhere hnone =>
      unfold visit
      split
      · rename_i e s he hs
        exact absurd (Option.join_eq_some_iff.mp hs) (hnone e s he)
      · rfl

/-- A visit keeps the search sound. -/
theorem sound_of_visit {index : Nat} {rest : List Nat} (hp : Sound g p)
    (hpending : p.pending = index :: rest)
    (h : g.visit index (p.dequeue index rest) = .ok q) :
    Sound g q ∧ Extends g (p.dequeue index rest) q := by
  have hdequeued := kept_dequeue hp.toKept hpending
  -- Whatever has a state other than the visited position is still pending or has been passed.
  have hothers {i : Nat} {s : FlowState} (hs : p.states[i]? = some (some s)) (hne : i ≠ index) :
      i ∈ rest ∨ ∃ e t, Passed g (p.dequeue index rest) i s e t := by
    rcases hp.passed hs with hmem | ⟨e, t, hpassed⟩
    · rw [hpending] at hmem
      exact .inl ((List.mem_cons.mp hmem).resolve_left hne)
    · exact .inr ⟨e, t, hpassed.event, hpassed.transfer, hpassed.height_le, hpassed.locals_le,
        fun hmem => ⟨(hpassed.absorbed hmem).height_le, (hpassed.absorbed hmem).state⟩⟩
  cases visit_eq_ok.mp h with
  | @along e s t _ he hs ht hflow =>
    obtain ⟨hkept, hextends, hpassed⟩ := passed_of_flowAlong hdequeued he hs ht hflow
    refine ⟨⟨hkept, fun {i s'} hs' => ?_⟩, hextends⟩
    rcases hextends.changed (i := i) with hmem | hsame
    · exact .inl hmem
    · rw [hsame] at hs'
      by_cases hne : i = index
      · subst hne
        obtain rfl := Option.some.inj (Option.some.inj (hs.symm.trans hs'))
        exact .inr ⟨e, t, hpassed⟩
      · rcases hothers hs' hne with hmem | ⟨e', t', hpassed'⟩
        · exact .inl (hextends.pending hmem)
        · exact .inr ⟨e', t', hpassed'.mono hextends⟩
  | nowhere hnone =>
    refine ⟨⟨hdequeued, fun {i s} hs => ?_⟩, .refl _⟩
    by_cases hne : i = index
    · subst hne
      have hlt : i < g.events.size := hp.size ▸ (Array.getElem?_eq_some_iff.mp hs).1
      exact absurd hs (hnone _ s (Array.getElem?_eq_getElem hlt))
    · exact hothers hs hne

/-- The bound on the locals is never lowered. -/
theorem locals_le_of_solveFrom (hp : Sound g p) (h : g.solveFrom p = .ok q) :
    p.maxLocals ≤ q.maxLocals := by
  fun_induction solveFrom g p with
  | case1 p hpending =>
    obtain rfl := Except.ok.inj h
    exact Nat.le_refl _
  | case2 p index rest hpending p₁ hvisit ih =>
    obtain ⟨hsound, hextends⟩ := sound_of_visit hp hpending hvisit
    exact Nat.le_trans hextends.locals_le (ih hsound h)
  | case3 p index rest hpending e hvisit => cases h

/-- The search ends in a sound state with nothing pending. -/
theorem sound_of_solveFrom (hp : Sound g p) (h : g.solveFrom p = .ok q) :
    Sound g q ∧ q.pending = [] ∧ ∀ {index : Nat} {incoming : FlowState},
      Absorbed g p index incoming → Absorbed g q index incoming := by
  fun_induction solveFrom g p with
  | case1 p hpending =>
    obtain rfl := Except.ok.inj h
    exact ⟨hp, hpending, id⟩
  | case2 p index rest hpending p₁ hvisit ih =>
    obtain ⟨hsound, hextends⟩ := sound_of_visit hp hpending hvisit
    obtain ⟨hsound', hnone, habsorbed⟩ := ih hsound h
    refine ⟨hsound', hnone, fun {i incoming} ha => habsorbed ?_⟩
    have hdequeued : Absorbed g (p.dequeue index rest) i incoming := ⟨ha.height_le, ha.state⟩
    exact hdequeued.mono hextends
  | case3 p index rest hpending e hvisit => simp at h

end FlowGraph

/-- A progress with nothing left to visit. -/
structure FlowProgress.Complete (g : FlowGraph) (entry : FlowState) (p : FlowProgress) :
    Prop extends FlowProgress.Sound g p where
  done : p.pending = []
  entered : FlowProgress.Absorbed g p 0 entry

namespace FlowProgress.Complete

variable {g : FlowGraph} {entry : FlowState} {p : FlowProgress}

theorem passes (h : Complete g entry p) {i : Nat} {s : FlowState}
    (hs : p.states[i]? = some (some s)) : ∃ e t, Passed g p i s e t :=
  (h.passed hs).resolve_left (by simp [h.done])

/-- The positions with a state are those that control may come to. -/
theorem state_iff (h : Complete g entry p) (i : Nat) :
    (∃ s, p.states[i]? = some (some s)) ↔ g.Visits i := by
  constructor
  · rintro ⟨s, hs⟩
    exact h.visits hs
  · intro hvisits
    induction hvisits with
    | entry =>
      obtain ⟨s, hs, -⟩ := h.entered.state
      exact ⟨s, hs⟩
    | step _ hedge ih =>
      obtain ⟨s, hs⟩ := ih
      obtain ⟨e, t, hpassed⟩ := h.passes hs
      obtain ⟨incoming, hmem⟩ := (FlowGraph.mem_edges hpassed.event hpassed.transfer).mpr hedge
      obtain ⟨s', hs', -⟩ := (hpassed.absorbed hmem).state
      exact ⟨s', hs'⟩

/-- The bound on the stack covers the height of every state. -/
theorem height_le (h : Complete g entry p) {i : Nat} {s : FlowState}
    (hs : p.states[i]? = some (some s)) : s.stack.length ≤ p.maxStack := by
  have habsorbed {incoming : FlowState} (habsorbed : p.Absorbed g i incoming) :
      s.stack.length ≤ p.maxStack := by
    obtain ⟨s', hs', hheight, -⟩ := habsorbed.state
    obtain rfl := Option.some.inj (Option.some.inj (hs.symm.trans hs'))
    rw [hheight]
    exact habsorbed.height_le
  cases h.visits hs with
  | entry => exact habsorbed h.entered
  | @step j _ hvisits hedge =>
    obtain ⟨s₀, hs₀⟩ := (h.state_iff j).mpr hvisits
    obtain ⟨e, t, hpassed⟩ := h.passes hs₀
    obtain ⟨incoming, hmem⟩ := (FlowGraph.mem_edges hpassed.event hpassed.transfer).mpr hedge
    exact habsorbed (hpassed.absorbed hmem)

end FlowProgress.Complete
namespace FlowSolution

theorem bound_eq_ok {n : Nat} {limit : Nat → Limit} {b : UInt16} (h : bound n limit = .ok b) :
    n ≤ 65535 ∧ b = UInt16.ofNat n := by
  unfold bound at h
  split at h
  · exact ⟨‹_›, (Except.ok.inj h).symm⟩
  · simp at h

/-- The most locals of any state are no more than a bound that all states keep to. -/
theorem mostLocals_le_iff {states : Array (Option FlowState)} {n : Nat} :
    mostLocals states ≤ n ↔
      ∀ (i : Nat) (s : FlowState), states[i]? = some (some s) → s.locals.size ≤ n := by
  have hfold (rows : List (Option FlowState)) (most : Nat) :
      rows.foldl (fun most s => max most ((s.map fun s => s.locals.size).getD 0)) most ≤ n ↔
        most ≤ n ∧ ∀ s, some s ∈ rows → s.locals.size ≤ n := by
    induction rows generalizing most with
    | nil => simp
    | cons row rows ih =>
      rw [List.foldl_cons, ih, Nat.max_le, and_assoc]
      cases row <;> simp
  unfold mostLocals
  rw [← Array.foldl_toList, hfold, and_iff_right (Nat.zero_le n)]
  constructor
  · intro h i s hs
    exact h s (Array.mem_toList_iff.mpr (Array.mem_of_getElem? hs))
  · intro h s hs
    obtain ⟨i, hi⟩ := List.getElem?_of_mem hs
    exact h i s (by rwa [← Array.getElem?_toList])

theorem le_mostLocals {states : Array (Option FlowState)} {i : Nat} {s : FlowState}
    (h : states[i]? = some (some s)) : s.locals.size ≤ mostLocals states :=
  mostLocals_le_iff.mp (Nat.le_refl _) i s h

/-- The solution comes from a search that has been completed. -/
structure IsOf (solution : FlowSolution) (g : FlowGraph) (entry : FlowState) (p : FlowProgress) :
    Prop extends FlowProgress.Complete g entry p where
  states : solution.states = p.states
  stack_le : p.maxStack ≤ 65535
  maxStack : solution.maxStack = UInt16.ofNat p.maxStack
  locals_le : max p.maxLocals (mostLocals p.states) ≤ 65535
  maxLocals : solution.maxLocals = UInt16.ofNat (max p.maxLocals (mostLocals p.states))

theorem IsOf.toNat_maxStack {solution : FlowSolution} {g : FlowGraph} {entry : FlowState}
    {p : FlowProgress} (h : solution.IsOf g entry p) : solution.maxStack.toNat = p.maxStack := by
  rw [h.maxStack, UInt16.toNat_ofNat_of_lt' (Nat.lt_succ_of_le h.stack_le)]

theorem IsOf.toNat_maxLocals {solution : FlowSolution} {g : FlowGraph} {entry : FlowState}
    {p : FlowProgress} (h : solution.IsOf g entry p) :
    solution.maxLocals.toNat = max p.maxLocals (mostLocals p.states) := by
  rw [h.maxLocals, UInt16.toNat_ofNat_of_lt' (Nat.lt_succ_of_le h.locals_le)]

/-- The solution that a search ends with. -/
def ofProgress (p : FlowProgress) : Except Error FlowSolution := do
  return {
    states := p.states
    maxStack := ← bound p.maxStack .maxStack
    maxLocals := ← bound (max p.maxLocals (mostLocals p.states)) .maxLocals }

end FlowSolution

namespace FlowGraph

variable {g : FlowGraph} {entry : FlowState} {p : FlowProgress}

/-- The search for states from the entry on. -/
def search (g : FlowGraph) (entry : FlowState) (maxLocals : Nat) : Except Error FlowProgress := do
  g.solveFrom (← g.flowTo 0 entry (.start g.events.size (max entry.locals.size maxLocals)))

/-- A progress in which nothing has been reached is sound. -/
theorem sound_start (g : FlowGraph) (maxLocals : Nat) :
    FlowProgress.Sound g (.start g.events.size maxLocals) where
  size := Array.size_replicate
  queued {i} h := by simp [FlowProgress.start, Array.getElem?_replicate] at h
  visits {i s} h := by simp [FlowProgress.start, Array.getElem?_replicate] at h
  hinted {i s hint} h := by simp [FlowProgress.start, Array.getElem?_replicate] at h
  passed {i s} h := by simp [FlowProgress.start, Array.getElem?_replicate] at h

/-- An edge between visits keeps the search sound. -/
theorem sound_of_flowTo {index : Nat} {incoming : FlowState} {p q : FlowProgress}
    (hp : FlowProgress.Sound g p) (hvisits : g.Visits index)
    (h : g.flowTo index incoming p = .ok q) :
    FlowProgress.Sound g q ∧ Flowed g p q index incoming := by
  have hflowed := flowed_of_flowTo hp.toKept hvisits h
  refine ⟨⟨hflowed.kept, fun {i s} hs => ?_⟩, hflowed⟩
  rcases hflowed.extends'.changed (i := i) with hmem | hsame
  · exact .inl hmem
  · rw [hsame] at hs
    exact hp.passed hs |>.elim (fun hmem => .inl (hflowed.extends'.pending hmem))
      fun ⟨e, t, hpassed⟩ => .inr ⟨e, t, hpassed.mono hflowed.extends'⟩

/-- A search that succeeds is complete. -/
theorem complete_of_search {maxLocals : Nat} (h : g.search entry maxLocals = .ok p) :
    p.Complete g entry := by
  obtain ⟨p₁, hp₁, h⟩ := Except.bind_eq_ok.mp h
  obtain ⟨hsound, hflowed⟩ := sound_of_flowTo (sound_start g _) .entry hp₁
  obtain ⟨hsound', hnone, habsorbed⟩ := sound_of_solveFrom hsound h
  exact ⟨hsound', hnone, habsorbed hflowed.absorbed⟩

/-- A search ends with no smaller bound on the locals than it has begun with. -/
theorem locals_le_of_search {maxLocals : Nat} (h : g.search entry maxLocals = .ok p) :
    max entry.locals.size maxLocals ≤ p.maxLocals := by
  obtain ⟨p₁, hp₁, h⟩ := Except.bind_eq_ok.mp h
  obtain ⟨hsound, hflowed⟩ := sound_of_flowTo (sound_start g _) .entry hp₁
  exact Nat.le_trans hflowed.extends'.locals_le (locals_le_of_solveFrom hsound h)

end FlowGraph

namespace FlowSolution

variable {events : List Event} {handlers : List Handler} {frames : List (Label × Frame)}
  {method : MethodContext} {maxLocals : UInt16}

/-- An analysis searches the graph of the events. -/
theorem analyze_eq {g : FlowGraph} {frame : Frame} (hne : events ≠ [])
    (hg : FlowGraph.ofEvents events handlers frames method = .ok g)
    (hframe : Frame.entry method = .ok frame) :
    analyze events handlers frames method maxLocals =
      (do ofProgress (← g.search (.ofFrame frame) maxLocals.toNat)) := by
  unfold analyze FlowGraph.search
  rw [hg, hframe]
  simp only [Bind.bind, Except.bind, List.isEmpty_eq_false_iff.mpr hne, Bool.false_eq_true,
    if_false]
  cases g.flowTo 0 _ _ with
  | error e => rfl
  | ok p => rfl

/-- An analysis that succeeds has searched the graph of the events. -/
theorem exists_search {solution : FlowSolution}
    (h : analyze events handlers frames method maxLocals = .ok solution) :
    ∃ g frame p, FlowGraph.ofEvents events handlers frames method = .ok g ∧
      Frame.entry method = .ok frame ∧ events ≠ [] ∧
      g.search (.ofFrame frame) maxLocals.toNat = .ok p ∧ solution.IsOf g (.ofFrame frame) p := by
  have hne : events ≠ [] := by
    rintro rfl
    obtain ⟨g, hg, h⟩ := Except.bind_eq_ok.mp h
    obtain ⟨frame, hframe, h⟩ := Except.bind_eq_ok.mp h
    exact Except.throw_ne_ok h
  obtain ⟨g, hg, hrest⟩ := Except.bind_eq_ok.mp h
  obtain ⟨frame, hframe, -⟩ := Except.bind_eq_ok.mp hrest
  rw [analyze_eq hne hg hframe] at h
  obtain ⟨p, hp, h⟩ := Except.bind_eq_ok.mp h
  obtain ⟨maxStack, hstack, h⟩ := Except.bind_eq_ok.mp h
  obtain ⟨maxLocals', hlocals, h⟩ := Except.bind_eq_ok.mp h
  obtain rfl := Except.pure_eq_ok.mp h
  obtain ⟨hle, rfl⟩ := bound_eq_ok hstack
  obtain ⟨hle', rfl⟩ := bound_eq_ok hlocals
  exact ⟨g, frame, p, hg, hframe, hne, hp, FlowGraph.complete_of_search hp, rfl, hle, rfl,
    hle', rfl⟩

/-- Where an analysis succeeds, the graph of the events has been searched completely. -/
theorem exists_isOf {solution : FlowSolution}
    (h : analyze events handlers frames method maxLocals = .ok solution) :
    ∃ g frame p, FlowGraph.ofEvents events handlers frames method = .ok g ∧
      Frame.entry method = .ok frame ∧ events ≠ [] ∧
      solution.IsOf g (.ofFrame frame) p := by
  obtain ⟨g, frame, p, hg, hframe, hne, -, hsolution⟩ := exists_search h
  exact ⟨g, frame, p, hg, hframe, hne, hsolution⟩

end FlowSolution

/-! ### Searches that are run

The search runs along a well-founded order, which does not compute. With a number of visits that it
needs no more of, it does. -/

/-- What the search ends with, if it takes no more than a number of visits. -/
def FlowGraph.solveWithin (g : FlowGraph) : Nat → FlowProgress → Option FlowProgress
  | 0, _ => none
  | visits + 1, p =>
    match p.pending with
    | [] => some p
    | index :: rest =>
      match g.visit index (p.dequeue index rest) with
      | .ok q => g.solveWithin visits q
      | .error _ => none

theorem FlowGraph.solveFrom_of_solveWithin {g : FlowGraph} {visits : Nat} {p q : FlowProgress}
    (h : g.solveWithin visits p = some q) : g.solveFrom p = .ok q := by
  induction visits generalizing p with
  | zero => cases h
  | succ visits ih =>
    unfold solveWithin at h
    rw [solveFrom.eq_1]
    split
    · rename_i hp
      simp only [hp] at h
      exact congrArg _ (Option.some.inj h)
    · rename_i index rest hp
      simp only [hp] at h
      split
      · rename_i p₁ hvisit
        simp only [hvisit] at h
        exact ih h
      · rename_i e hvisit
        simp [hvisit] at h

namespace FlowSolution

/-- The solution that is found with no more than a number of visits. -/
def within (visits : Nat) (events : List Event) (handlers : List Handler)
    (frames : List (Label × Frame)) (method : MethodContext) (maxLocals : UInt16) :
    Option FlowSolution := do
  let g ← (FlowGraph.ofEvents events handlers frames method).toOption
  let entry ← (Frame.entry method).toOption
  let start :=
    FlowProgress.start g.events.size (max (FlowState.ofFrame entry).locals.size maxLocals.toNat)
  let p ← (g.flowTo 0 (.ofFrame entry) start).toOption
  (ofProgress (← g.solveWithin visits p)).toOption

/-- A solution that has been found is that of the analysis. -/
theorem analyze_of_within {visits : Nat} {events : List Event} {handlers : List Handler}
    {frames : List (Label × Frame)} {method : MethodContext} {maxLocals : UInt16}
    {solution : FlowSolution} (hne : events ≠ [])
    (h : within visits events handlers frames method maxLocals = some solution) :
    analyze events handlers frames method maxLocals = .ok solution := by
  have hok {α : Type} {x : Except Error α} {y : α} (h : x.toOption = some y) : x = .ok y := by
    cases x with
    | error e => cases h
    | ok y' => exact congrArg _ (Option.some.inj h)
  obtain ⟨g, hg, h⟩ := Option.bind_eq_some_iff.mp h
  obtain ⟨entry, hentry, h⟩ := Option.bind_eq_some_iff.mp h
  obtain ⟨p, hp, h⟩ := Option.bind_eq_some_iff.mp h
  obtain ⟨q, hq, h⟩ := Option.bind_eq_some_iff.mp h
  rw [analyze_eq hne (hok hg) (hok hentry)]
  exact Except.bind_eq_ok.mpr ⟨q, Except.bind_eq_ok.mpr ⟨p, hok hp,
    FlowGraph.solveFrom_of_solveWithin hq⟩, hok h⟩

end FlowSolution
end ClassPatch
