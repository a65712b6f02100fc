import ClassPatch.Proofs.Flow.Receiving
import ClassPatch.Proofs.Flow.Words

/-!
# The course of a search

A search comes from visit to visit, and the states that it has at any time are those that it
computes. The bound on the stack is the height of some state in the end, whatever the types are: an
event that goes on leaves its height to the position where it goes on, and one that does not puts
nothing on the stack. The bound on the locals is kept by every visit that stores nothing behind it.
-/

namespace ClassPatch

namespace FlowGraph

open FlowProgress

/-- The search comes from one progress to another by visits. -/
inductive Comes (g : FlowGraph) (p : FlowProgress) : FlowProgress → Prop
  | refl : Comes g p p
  | visit {q r : FlowProgress} {index : Nat} {rest : List Nat} (h : Comes g p q)
      (hpending : q.pending = index :: rest)
      (hvisit : g.visit index (q.dequeue index rest) = .ok r) : Comes g p r

variable {g : FlowGraph} {p q r : FlowProgress}

theorem Comes.head {index : Nat} {rest : List Nat} (hpending : p.pending = index :: rest)
    (hvisit : g.visit index (p.dequeue index rest) = .ok q) (h : g.Comes q r) : g.Comes p r := by
  induction h with
  | refl => exact .visit .refl hpending hvisit
  | visit _ hpending' hvisit' ih => exact .visit ih hpending' hvisit'

theorem comes_of_solveFrom (h : g.solveFrom p = .ok q) : g.Comes p q := by
  fun_induction solveFrom g p with
  | case1 p =>
    obtain rfl := Except.ok.inj h
    exact .refl
  | case2 p index rest hpending p₁ hvisit ih => exact .head hpending hvisit (ih h)
  | case3 p index rest hpending e hvisit => cases h

/-- A search whose visits all succeed ends. -/
theorem exists_solveFrom (h : ∀ {q : FlowProgress} {index : Nat} {rest : List Nat}, g.Comes p q →
    q.pending = index :: rest → ∃ r, g.visit index (q.dequeue index rest) = .ok r) :
    ∃ q, g.solveFrom p = .ok q := by
  fun_induction solveFrom g p with
  | case1 p => exact ⟨p, rfl⟩
  | case2 p index rest hpending p₁ hvisit ih =>
    exact ih fun hcomes => h (.head hpending hvisit hcomes)
  | case3 p index rest hpending e hvisit =>
    obtain ⟨r, hr⟩ := h .refl hpending
    cases hvisit.symm.trans hr

/-- The search from the entry on comes to a progress. -/
def Searches (g : FlowGraph) (entry : FlowState) (maxLocals : Nat) (q : FlowProgress) : Prop :=
  ∃ p, g.flowTo 0 entry (.start g.events.size (max entry.locals.size maxLocals)) = .ok p ∧
    g.Comes p q

/-- The search from the entry on has a state for a position at some time. -/
def Computes (g : FlowGraph) (entry : FlowState) (maxLocals index : Nat) (s : FlowState) : Prop :=
  ∃ q, g.Searches entry maxLocals q ∧ q.states[index]? = some (some s)

variable {entry : FlowState} {maxLocals : Nat}

theorem searches_of_search (h : g.search entry maxLocals = .ok q) :
    g.Searches entry maxLocals q := by
  obtain ⟨p, hp, h⟩ := Except.bind_eq_ok.mp h
  exact ⟨p, hp, comes_of_solveFrom h⟩

theorem Comes.sound (h : g.Comes p q) (hp : Sound g p) : Sound g q := by
  induction h with
  | refl => exact hp
  | visit _ hpending hvisit ih => exact (sound_of_visit ih hpending hvisit).1

/-- Whatever the search comes to is sound. -/
theorem Searches.sound (h : g.Searches entry maxLocals q) : Sound g q := by
  obtain ⟨p, hp, hcomes⟩ := h
  exact hcomes.sound (sound_of_flowTo (sound_start g _) .entry hp).1

/-! ### States that are computed -/

/-- All states that there are so far satisfy an invariant. -/
def AllStates (I : Nat → FlowState → Prop) (p : FlowProgress) : Prop :=
  ∀ (i : Nat) (s : FlowState), p.states[i]? = some (some s) → I i s

/-- What a position makes of what arrives there satisfies an invariant that what arrives
satisfies. -/
structure Receptive (g : FlowGraph) (I : Nat → FlowState → Prop) : Prop where
  hint : ∀ {i : Nat} {hint incoming : FlowState}, g.hints[i]? = some hint →
    hint.stack.length = incoming.stack.length → I i incoming → I i hint
  merge : ∀ {i : Nat} {existing incoming merged : FlowState}, g.hints[i]? = none → I i existing →
    I i incoming → existing.merge i incoming = .ok merged → I i merged

variable {I : Nat → FlowState → Prop}

namespace Receptive

variable (h : g.Receptive I)
include h

theorem flowTo (hp : AllStates I p) {i : Nat} {incoming : FlowState} (hincoming : I i incoming)
    (hflow : g.flowTo i incoming p = .ok q) : AllStates I q := by
  obtain ⟨state, new, hstate, hreceives, rfl⟩ := flowTo_eq_ok.mp hflow
  intro j s hs
  rw [states_receive (Array.getElem?_eq_some_iff.mp hstate).1] at hs
  split at hs
  · rename_i hnew
    obtain ⟨rfl, -⟩ := hnew
    obtain rfl := Option.some.inj hs
    cases hreceives with
    | declared hhint hheight => exact h.hint hhint hheight hincoming
    | first => exact hincoming
    | merged hhint hmerge => exact h.merge hhint (hp _ _ hstate) hincoming (hmerge _)
  · exact hp j s hs

theorem flowAlong {edges : List (Nat × FlowState)} (hp : AllStates I p)
    (hedges : ∀ edge ∈ edges, I edge.1 edge.2) (hflow : g.flowAlong edges p = .ok q) :
    AllStates I q := by
  induction edges generalizing p with
  | nil =>
    obtain rfl := Except.ok.inj hflow
    exact hp
  | cons edge edges ih =>
    rw [List.forall_mem_cons] at hedges
    simp only [FlowGraph.flowAlong] at hflow
    split at hflow
    · exact ih (h.flowTo hp hedges.1 ‹_›) hedges.2 hflow
    · cases hflow

/-- An invariant of what arrives is one of all states that are computed, if every visit hands it
on. -/
theorem allStates (hentry : I 0 entry)
    (hstep : ∀ {i : Nat} {e : Event} {s : FlowState} {t : Transfer},
      g.Computes entry maxLocals i s → I i s → g.events[i]? = some e → g.transfer i e s = .ok t →
        ∀ edge ∈ g.edges i e s t, I edge.1 edge.2)
    (hsearches : g.Searches entry maxLocals q) : AllStates I q := by
  obtain ⟨p, hp, hcomes⟩ := hsearches
  have hstart : AllStates I p := h.flowTo
    (fun i s hs => by simp [FlowProgress.start, Array.getElem?_replicate] at hs) hentry hp
  induction hcomes with
  | refl => exact hstart
  | @visit q r index rest hcomes hpending hvisit ih =>
    cases visit_eq_ok.mp hvisit with
    | @along e s t _ he hs ht hflow =>
      have hedges := hstep ⟨q, ⟨p, hp, hcomes⟩, hs⟩ (ih index s hs) he ht
      exact h.flowAlong
        (p := ((q.dequeue index rest).raiseStack t.after.stack.length).raiseLocals
          t.after.locals.size)
        ih hedges hflow
    | nowhere => exact ih

end Receptive

/-! ### Courses that are run -/

/-- What the search comes to, if it takes no more than a number of visits. -/
def courseWithin (g : FlowGraph) : Nat → FlowProgress → Option (List FlowProgress)
  | 0, _ => none
  | visits + 1, p =>
    match p.pending with
    | [] => some [p]
    | index :: rest =>
      match g.visit index (p.dequeue index rest) with
      | .ok q => (g.courseWithin visits q).map (p :: ·)
      | .error _ => some [p]

/-- A search has not begun, or the first visit is behind it. -/
theorem Comes.eq_or_exists (h : g.Comes p r) : r = p ∨ ∃ index rest q, p.pending = index :: rest ∧
    g.visit index (p.dequeue index rest) = .ok q ∧ g.Comes q r := by
  induction h with
  | refl => exact .inl rfl
  | @visit q r index rest _ hpending hvisit ih =>
    obtain rfl | ⟨index₁, rest₁, q₁, hpending₁, hvisit₁, hcomes⟩ := ih
    · exact .inr ⟨index, rest, r, hpending, hvisit, .refl⟩
    · exact .inr ⟨index₁, rest₁, q₁, hpending₁, hvisit₁, .visit hcomes hpending hvisit⟩

/-- Whatever the search comes to is in the course. -/
theorem Comes.mem_courseWithin {visits : Nat} {course : List FlowProgress} (h : g.Comes p q)
    (hcourse : g.courseWithin visits p = some course) : q ∈ course := by
  induction visits generalizing p course with
  | zero => cases hcourse
  | succ visits ih =>
    unfold courseWithin at hcourse
    rcases h.eq_or_exists with rfl | ⟨index, rest, r, hpending, hvisit, hcomes⟩
    · split at hcourse
      · obtain rfl := Option.some.inj hcourse
        exact List.mem_singleton_self _
      · split at hcourse
        · obtain ⟨course, -, rfl⟩ := Option.map_eq_some_iff.mp hcourse
          exact List.mem_cons_self
        · obtain rfl := Option.some.inj hcourse
          exact List.mem_singleton_self _
    · simp only [hpending, hvisit] at hcourse
      obtain ⟨later, hlater, rfl⟩ := Option.map_eq_some_iff.mp hcourse
      exact List.mem_cons_of_mem _ (ih hcomes hlater)

/-! ### Bounds -/

theorem maxStack_le_of_flowAlong {edges : List (Nat × FlowState)} {n : Nat} (hp : p.maxStack ≤ n)
    (hedges : ∀ edge ∈ edges, edge.2.stack.length ≤ n) (h : g.flowAlong edges p = .ok q) :
    q.maxStack ≤ n := by
  induction edges generalizing p with
  | nil =>
    obtain rfl := Except.ok.inj h
    exact hp
  | cons edge edges ih =>
    rw [List.forall_mem_cons] at hedges
    simp only [flowAlong] at h
    split at h
    · rename_i p₁ hflow
      obtain ⟨state, new, -, -, rfl⟩ := flowTo_eq_ok.mp hflow
      refine ih ?_ hedges.2 h
      rw [maxStack_receive]
      exact Nat.max_le.mpr ⟨hp, hedges.1⟩
    · cases h

theorem maxLocals_of_flowAlong {edges : List (Nat × FlowState)} (h : g.flowAlong edges p = .ok q) :
    q.maxLocals = p.maxLocals := by
  induction edges generalizing p with
  | nil =>
    obtain rfl := Except.ok.inj h
    rfl
  | cons edge edges ih =>
    simp only [flowAlong] at h
    split at h
    · rename_i p₁ hflow
      obtain ⟨state, new, -, -, rfl⟩ := flowTo_eq_ok.mp hflow
      rw [ih h, maxLocals_receive]
    · cases h

/-- An event that control does not go on from leaves no more words than there were. -/
theorem height_le_of_isTerminal {index : Nat} {e : Event} {s : FlowState} {t : Transfer}
    (hterminal : e.isTerminal = true) (h : g.transfer index e s = .ok t) :
    t.after.stack.length ≤ s.stack.length := by
  cases e with
  | label l => cases hterminal
  | instr i =>
    obtain ⟨taken, put, hmoves, hwords⟩ := moves_of_transferInstruction h
    have hput : put = 0 := by
      cases i with
      | jump | tableSwitch | lookupSwitch | leave | ret =>
        exact (Prod.mk.inj (Option.some.inj (hwords trivial))).2.symm
      | plain opcode =>
        obtain rfl : opcode = Opcode.athrow := by
          simpa [Event.isTerminal, Instruction.isTerminal] using hterminal
        exact (Prod.mk.inj (Option.some.inj (hwords fun hload => absurd hload (by decide)))).2.symm
      | _ => cases hterminal
    have hheight := hmoves.height
    omega

/-- The bound on the stack is reached: no height of a state is needed to be larger. -/
theorem Searches.maxStack_le {n : Nat} (h : g.Searches entry maxLocals q)
    (hall : AllStates (fun _ s => s.stack.length ≤ n) q) : q.maxStack ≤ n := by
  obtain ⟨p, hp, hcomes⟩ := h
  have hflowed := (sound_of_flowTo (sound_start g _) .entry hp).2
  induction hcomes with
  | refl =>
    obtain ⟨state, new, -, -, rfl⟩ := flowTo_eq_ok.mp hp
    obtain ⟨s, hs, hheight, -⟩ := hflowed.absorbed.state
    rw [maxStack_receive]
    exact Nat.max_le.mpr ⟨Nat.zero_le _, hheight ▸ hall 0 s hs⟩
  | @visit q r index rest hcomes hpending hvisit ih =>
    have hsound := Searches.sound ⟨p, hp, hcomes⟩
    have hextends := (sound_of_visit hsound hpending hvisit).2
    have hbefore : AllStates (fun _ s => s.stack.length ≤ n) q := by
      intro i s hs
      obtain ⟨s', hs', hcovers⟩ := hextends.states hs
      exact hcovers.stack.length_eq ▸ hall i s' hs'
    cases visit_eq_ok.mp hvisit with
    | @along e s t _ he hs ht hflow =>
      obtain ⟨-, -, hpassed⟩ :=
        passed_of_flowAlong (kept_dequeue hsound.toKept hpending) he hs ht hflow
      have hedges : ∀ edge ∈ g.edges index e s t, edge.2.stack.length ≤ n := by
        intro edge hedge
        obtain ⟨s', hs', hheight, -⟩ := (hpassed.absorbed hedge).state
        exact hheight ▸ hall _ s' hs'
      have hafter : t.after.stack.length ≤ n := by
        cases hterminal : e.isTerminal with
        | true => exact Nat.le_trans (height_le_of_isTerminal hterminal ht) (hbefore index s hs)
        | false => exact hedges (index + 1, t.after) (by simp [edges, hterminal])
      exact maxStack_le_of_flowAlong (Nat.max_le.mpr ⟨ih hbefore, hafter⟩) hedges hflow
    | nowhere => exact ih hbefore

/-- No more locals are needed than on entry, than asked for, and behind any visit. -/
theorem Searches.maxLocals_le {n : Nat} (h : g.Searches entry maxLocals q)
    (hentry : max entry.locals.size maxLocals ≤ n)
    (hstep : ∀ {i : Nat} {e : Event} {s : FlowState} {t : Transfer},
      g.Computes entry maxLocals i s → g.events[i]? = some e → g.transfer i e s = .ok t →
        t.after.locals.size ≤ n) : q.maxLocals ≤ n := by
  obtain ⟨p, hp, hcomes⟩ := h
  induction hcomes with
  | refl =>
    obtain ⟨state, new, -, -, rfl⟩ := flowTo_eq_ok.mp hp
    rw [maxLocals_receive]
    exact hentry
  | @visit q r index rest hcomes hpending hvisit ih =>
    cases visit_eq_ok.mp hvisit with
    | along he hs ht hflow =>
      rw [maxLocals_of_flowAlong hflow]
      exact Nat.max_le.mpr ⟨ih, hstep ⟨q, ⟨p, hp, hcomes⟩, hs⟩ he ht⟩
    | nowhere => exact ih

end FlowGraph
end ClassPatch
