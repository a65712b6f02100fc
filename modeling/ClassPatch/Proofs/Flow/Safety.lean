import ClassPatch.Proofs.Flow.Course

/-!
# When the search for states succeeds

The search fails at an event that its state does not permit, at an edge out of the code, or where
states meet that do not fit. If it fails, one of these has happened. It does not fail if the states
have an invariant that every event permits and hands on along its edges, and under which states that
meet fit together.
-/

namespace ClassPatch

namespace FlowState

/-- States that do not fit together are a fault of the code. -/
theorem error_of_merge {index : Nat} {s s' : FlowState} {e : Error}
    (h : s.merge index s' = .error e) : ∃ fault, e = .malformed (.flow fault) := by
  unfold merge at h
  split at h
  · split at h
    · exact ⟨_, (Except.error.inj h).symm⟩
    · simp at h
  · exact ⟨_, (Except.error.inj h).symm⟩

end FlowState

namespace FlowGraph

open FlowProgress

variable {g : FlowGraph} {p q : FlowProgress}

/-! ### Failures -/

/-- What the search fails with. -/
def Fails (g : FlowGraph) (e : Error) : Prop :=
  (∃ fault, e = .malformed (.flow fault)) ∨
    ∃ i event s, g.events[i]? = some event ∧ g.transfer i event s = .error e

theorem fails_of_flowTo {index : Nat} {incoming : FlowState} {e : Error}
    (h : g.flowTo index incoming p = .error e) : g.Fails e := by
  refine .inl ?_
  unfold flowTo at h
  split at h
  · exact ⟨_, (Except.error.inj h).symm⟩
  · split at h
    · split at h
      · split at h <;> simp at h
      · exact ⟨_, (Except.error.inj h).symm⟩
    · split at h
      · simp at h
      · split at h
        · split at h <;> simp at h
        · rename_i e' hmerge
          obtain rfl := Except.error.inj h
          exact FlowState.error_of_merge hmerge

theorem fails_of_flowAlong {edges : List (Nat × FlowState)} {e : Error}
    (h : g.flowAlong edges p = .error e) : g.Fails e := by
  induction edges generalizing p with
  | nil => simp [flowAlong] at h
  | cons edge edges ih =>
    simp only [flowAlong] at h
    split at h
    · exact ih h
    · rename_i e' hflow
      obtain rfl := Except.error.inj h
      exact fails_of_flowTo hflow

theorem fails_of_visit {index : Nat} {e : Error} (h : g.visit index p = .error e) :
    g.Fails e := by
  unfold visit at h
  split at h
  · rename_i event s hevent _
    split at h
    · exact fails_of_flowAlong h
    · rename_i e' htransfer
      obtain rfl := Except.error.inj h
      exact .inr ⟨index, event, s, hevent, htransfer⟩
  · simp at h

theorem fails_of_solveFrom {e : Error} (h : g.solveFrom p = .error e) : g.Fails e := by
  fun_induction solveFrom g p with
  | case1 => simp at h
  | case2 p index rest hpending q hvisit ih => exact ih h
  | case3 p index rest hpending e' hvisit =>
    obtain rfl := Except.error.inj h
    exact fails_of_visit hvisit

/-! ### Invariants -/

/-- States that satisfy an invariant may arrive: they are no fault where they meet. -/
structure Admits (g : FlowGraph) (I : Nat → FlowState → Prop) : Prop where
  lt : ∀ {i : Nat} {s : FlowState}, I i s → i < g.events.size
  hint : ∀ {i : Nat} {s hint : FlowState}, I i s → g.hints[i]? = some hint →
    hint.stack.length = s.stack.length ∧ I i hint
  merge : ∀ {i : Nat} {s s' : FlowState}, g.hints[i]? = none → I i s → I i s' →
    ∃ merged, s.merge i s' = .ok merged ∧ I i merged

/-- The states that satisfy an invariant go on in such states. -/
structure Safe (g : FlowGraph) (I : Nat → FlowState → Prop) : Prop extends Admits g I where
  step : ∀ {i : Nat} {s : FlowState} {e : Event}, I i s → g.events[i]? = some e →
    ∃ t, g.transfer i e s = .ok t ∧
      ∀ {j : Nat} {incoming : FlowState}, (j, incoming) ∈ g.edges i e s t → I j incoming

/-- All states that have been found satisfy an invariant. -/
structure Keeps (g : FlowGraph) (I : Nat → FlowState → Prop) (p : FlowProgress) : Prop where
  size : p.states.size = g.events.size
  states : ∀ {i : Nat} {s : FlowState}, p.states[i]? = some (some s) → I i s

variable {I : Nat → FlowState → Prop}

theorem Keeps.raiseStack (h : g.Keeps I p) (height : Nat) : g.Keeps I (p.raiseStack height) :=
  ⟨h.size, h.states⟩

theorem Keeps.reach (h : g.Keeps I p) {index : Nat} {s : FlowState} (hs : I index s) :
    g.Keeps I (p.reach index s) where
  size := by
    rw [states_reach, Array.size_setIfInBounds]
    exact h.size
  states {i s'} hs' := by
    rw [states_reach, Array.getElem?_setIfInBounds] at hs'
    split at hs'
    · rename_i heq
      subst heq
      split at hs'
      · obtain rfl := Option.some.inj (Option.some.inj hs')
        exact hs
      · simp at hs'
    · exact h.states hs'

theorem Admits.exists_flowTo (h : g.Admits I) (hp : g.Keeps I p) {index : Nat}
    {incoming : FlowState} (hi : I index incoming) : ∃ q, g.flowTo index incoming p = .ok q ∧
      g.Keeps I q := by
  have hraised := hp.raiseStack incoming.stack.length
  have hlt : index < p.states.size := hp.size ▸ h.lt hi
  unfold flowTo
  rw [Array.getElem?_eq_getElem hlt]
  dsimp only
  cases hhint : g.hints[index]? with
  | some hint =>
    obtain ⟨hheight, hkeep⟩ := h.hint hi hhint
    dsimp only
    rw [if_pos hheight]
    split
    · exact ⟨_, rfl, hraised.reach hkeep⟩
    · exact ⟨_, rfl, hraised⟩
  | none =>
    dsimp only
    split
    · exact ⟨_, rfl, hraised.reach hi⟩
    · rename_i existing hexisting
      obtain ⟨merged, hmerge, hkeep⟩ := h.merge hhint
        (hp.states (by rw [Array.getElem?_eq_getElem hlt, hexisting])) hi
      rw [hmerge]
      dsimp only
      split
      · exact ⟨_, rfl, hraised⟩
      · exact ⟨_, rfl, hraised.reach hkeep⟩

theorem Admits.exists_flowAlong (h : g.Admits I) {edges : List (Nat × FlowState)}
    (hedges : ∀ edge ∈ edges, I edge.1 edge.2) (hp : g.Keeps I p) :
    ∃ q, g.flowAlong edges p = .ok q ∧ g.Keeps I q := by
  induction edges generalizing p with
  | nil => exact ⟨p, rfl, hp⟩
  | cons edge edges ih =>
    simp only [List.mem_cons, forall_eq_or_imp] at hedges
    obtain ⟨q, hq, hkeeps⟩ := h.exists_flowTo hp hedges.1
    obtain ⟨r, hr, hkeeps⟩ := ih hedges.2 hkeeps
    refine ⟨r, ?_, hkeeps⟩
    simp only [flowAlong, hq]
    exact hr

theorem Admits.exists_visit (h : g.Admits I) (hp : g.Keeps I p) {index : Nat}
    (hstep : ∀ {e : Event} {s : FlowState}, g.events[index]? = some e →
      p.states[index]? = some (some s) → ∃ t, g.transfer index e s = .ok t ∧
        ∀ {j : Nat} {incoming : FlowState}, (j, incoming) ∈ g.edges index e s t → I j incoming) :
    ∃ q, g.visit index p = .ok q ∧ g.Keeps I q := by
  unfold visit
  split
  · rename_i e s he hs
    obtain ⟨t, ht, hedges⟩ := hstep he (Option.join_eq_some_iff.mp hs)
    rw [ht]
    exact h.exists_flowAlong (fun edge hedge => hedges hedge) ⟨hp.size, hp.states⟩
  · exact ⟨p, rfl, hp⟩

/-- A search from the entry on fails for one of the reasons that there are. -/
theorem fails_of_search {entry : FlowState} {maxLocals : Nat} {e : Error}
    (h : g.search entry maxLocals = .error e) : g.Fails e := by
  unfold search at h
  cases hflow : g.flowTo 0 entry (.start g.events.size (max entry.locals.size maxLocals)) with
  | error e' =>
    rw [hflow] at h
    obtain rfl := Except.error.inj h
    exact fails_of_flowTo hflow
  | ok p =>
    rw [hflow] at h
    exact fails_of_solveFrom h

/-- A search ends if every state that is computed goes on in states that may arrive. -/
theorem Admits.exists_search (h : g.Admits I) {entry : FlowState} (hentry : I 0 entry)
    {maxLocals : Nat} (hstep : ∀ {i : Nat} {e : Event} {s : FlowState},
      g.Computes entry maxLocals i s → I i s → g.events[i]? = some e →
        ∃ t, g.transfer i e s = .ok t ∧
          ∀ {j : Nat} {incoming : FlowState}, (j, incoming) ∈ g.edges i e s t → I j incoming) :
    ∃ p, g.search entry maxLocals = .ok p ∧ g.Keeps I p := by
  have hstart : g.Keeps I (.start g.events.size (max entry.locals.size maxLocals)) := by
    refine ⟨Array.size_replicate, fun {i s} hs => ?_⟩
    simp [FlowProgress.start, Array.getElem?_replicate] at hs
  obtain ⟨p₀, hp₀, hkeeps₀⟩ := h.exists_flowTo hstart hentry
  have hvisit {q : FlowProgress} {index : Nat} {rest : List Nat}
      (hsearches : g.Searches entry maxLocals q) (hkeeps : g.Keeps I q) :
      ∃ r, g.visit index (q.dequeue index rest) = .ok r ∧ g.Keeps I r :=
    h.exists_visit (p := q.dequeue index rest) ⟨hkeeps.size, hkeeps.states⟩ fun he hs =>
      hstep ⟨q, hsearches, hs⟩ (hkeeps.states hs) he
  have hall {q : FlowProgress} (hcomes : g.Comes p₀ q) : g.Keeps I q := by
    induction hcomes with
    | refl => exact hkeeps₀
    | visit hcomes hpending hvisited ih =>
      obtain ⟨r, hr, hkeeps⟩ := hvisit ⟨p₀, hp₀, hcomes⟩ ih
      exact Except.ok.inj (hr.symm.trans hvisited) ▸ hkeeps
  obtain ⟨q, hq⟩ := exists_solveFrom (g := g) (p := p₀) fun hcomes hpending =>
    (hvisit ⟨p₀, hp₀, hcomes⟩ (hall hcomes)).imp fun r hr => hr.1
  exact ⟨q, Except.bind_eq_ok.mpr ⟨p₀, hp₀, hq⟩, hall (comes_of_solveFrom hq)⟩

/-- A search that keeps an invariant ends with states that satisfy it. -/
theorem Safe.exists_search (h : g.Safe I) {entry : FlowState} (hentry : I 0 entry)
    (maxLocals : Nat) : ∃ p, g.search entry maxLocals = .ok p ∧ g.Keeps I p :=
  h.toAdmits.exists_search hentry fun _ hs he => h.step hs he

end FlowGraph

namespace FlowSolution

/-- Where a search has succeeded, only a bound can be too large. -/
theorem ofProgress_cases (p : FlowProgress) :
    (∃ solution, ofProgress p = .ok solution) ∨
      ∃ limit, ofProgress p = .error (.limitExceeded limit) := by
  unfold ofProgress bound
  split
  · split
    · exact .inl ⟨_, rfl⟩
    · exact .inr ⟨_, rfl⟩
  · exact .inr ⟨_, rfl⟩

end FlowSolution
end ClassPatch
