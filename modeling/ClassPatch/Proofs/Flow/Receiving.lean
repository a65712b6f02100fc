import ClassPatch.Proofs.Flow.Solving

/-!
# What a position receives

An edge of the flow either leaves the state of its position as it is or gives it a new one.
`Receives` says which, from the hint of the position and its state alone, so that what happens at
one position can be compared with what happens at another. A state that has been replaced sinks:
merging the new state into it gives the new one again.
-/

namespace ClassPatch

namespace VerificationType

/-- What covers a type is what merging it into that type gives. -/
theorem merge_of_covers {t u : VerificationType} (h : t.Covers u) : u.merge t = t := by
  rcases covers_iff.mp h with rfl | rfl | ⟨rfl, name, rfl⟩ | ⟨rfl, name, rfl⟩
  · exact merge_self t
  · cases u <;> simp [merge]
  · simp [merge]
  · by_cases hname : name = rootClass <;> simp [merge, hname]

end VerificationType

namespace FlowState

/-- A merge only refers to its position where it fails. -/
theorem merge_index {index : Nat} {s incoming merged : FlowState}
    (h : s.merge index incoming = .ok merged) (index' : Nat) :
    s.merge index' incoming = .ok merged := merge_eq_ok.mpr (merge_eq_ok.mp h)

/-- A state that another one has come to by merging: the locals are as many, every type covers the
one that it was, and no word of the stack has become unusable. -/
structure Sinks (s s' : FlowState) : Prop where
  size : s'.locals.size = s.locals.size
  covers : s'.Covers s
  solid : List.Forall₂ (fun t u => t = .top → u = .top) s'.stack s.stack

/-- A merge without a conflict spoils no word. -/
private theorem solid_of_conflict? {ts us : List VerificationType} (hlen : ts.length = us.length)
    (h : conflict? ts us = none) :
    List.Forall₂ (fun t u => t = .top → u = .top) (ts.zipWith VerificationType.merge us) ts := by
  have hall : ∀ pair ∈ ts.zip us, pair.1.merge pair.2 = .top → pair.1 = .top := by
    intro pair hpair htop
    by_contra hne
    have hfound := List.find?_eq_none.mp h pair (List.mem_reverse.mpr hpair)
    simp [htop, hne] at hfound
  clear h
  induction ts generalizing us with
  | nil => simp
  | cons t ts ih =>
    cases us with
    | nil => simp at hlen
    | cons u us =>
      simp only [List.zip_cons_cons, List.mem_cons, forall_eq_or_imp] at hall
      exact .cons hall.1 (ih (by simpa using hlen) hall.2)

theorem sinks_of_merge {index : Nat} {s incoming s' : FlowState}
    (h : s.merge index incoming = .ok s') : s.Sinks s' := by
  have hcovers := (covers_of_merge h).1
  obtain ⟨hheight, hnone, rfl⟩ := merge_eq_ok.mp h
  exact ⟨by simp [mergeLocals], hcovers, solid_of_conflict? hheight hnone⟩

/-- Words that cover those below them without spoiling any are no conflict. -/
private theorem conflict?_of_covers {ts us : List VerificationType}
    (h : List.Forall₂ VerificationType.Covers us ts)
    (hsolid : List.Forall₂ (fun u t => u = .top → t = .top) us ts) : conflict? ts us = none := by
  unfold conflict?
  rw [List.find?_eq_none]
  rintro ⟨t, u⟩ hmem
  replace hmem := List.mem_reverse.mp hmem
  have hboth : t.merge u = u ∧ (u = .top → t = .top) := by
    induction h with
    | nil => simp at hmem
    | cons hcovers _ ih =>
      cases hsolid with
      | cons hsolid hrest =>
        rcases List.mem_cons.mp hmem with heq | hmem
        · obtain ⟨rfl, rfl⟩ := Prod.mk.inj heq
          exact ⟨VerificationType.merge_of_covers hcovers, hsolid⟩
        · exact ih hrest hmem
  dsimp only
  rw [hboth.1]
  simpa using hboth.2

private theorem zipWith_of_covers {ts us : List VerificationType}
    (h : List.Forall₂ VerificationType.Covers us ts) :
    ts.zipWith VerificationType.merge us = us := by
  induction h with
  | nil => rfl
  | cons hcovers _ ih =>
    rw [List.zipWith_cons_cons, ih, VerificationType.merge_of_covers hcovers]

namespace Sinks

variable {s s' s'' : FlowState}

theorem trans (h : s.Sinks s') (h' : s'.Sinks s'') : s.Sinks s'' where
  size := h'.size.trans h.size
  covers := h'.covers.trans h.covers
  solid := by
    have hcompose {ts us vs : List VerificationType}
        (h : List.Forall₂ (fun t u => t = .top → u = .top) ts us)
        (h' : List.Forall₂ (fun t u => t = .top → u = .top) us vs) :
        List.Forall₂ (fun t u : VerificationType => t = .top → u = .top) ts vs := by
      induction h generalizing vs with
      | nil => exact h'
      | cons ht _ ih =>
        cases h' with
        | cons hu h' => exact .cons (fun htop => hu (ht htop)) (ih h')
    exact hcompose h'.solid h.solid

/-- Merging the new state into the old one gives the new one. -/
theorem merge_eq (h : s.Sinks s') (index : Nat) : s.merge index s' = .ok s' := by
  have hstack := h.covers.stack
  have hconflict := conflict?_of_covers hstack h.solid
  have hzip := zipWith_of_covers hstack
  have hlocals : mergeLocals s.locals s'.locals = s'.locals := by
    refine Array.ext (by simp [mergeLocals, h.size]) fun slot hslot hslot' => ?_
    have hget : s'.locals[slot]? = some s'.locals[slot] := Array.getElem?_eq_getElem hslot'
    have hcovers := h.covers.locals hget
    have hlt : slot < s.locals.size := h.size ▸ hslot'
    rw [localAt, Array.getElem?_eq_getElem hlt, Option.getD_some] at hcovers
    simp only [mergeLocals, Array.getElem_mapIdx, hget, Option.getD_some]
    exact VerificationType.merge_of_covers hcovers
  refine merge_eq_ok.mpr ⟨hstack.length_eq.symm, hconflict, ?_⟩
  rw [hzip, hlocals]

/-- A state that has sunk has sunk for good. -/
theorem rank_lt (h : s.Sinks s') (hne : s' ≠ s) : s'.rank < s.rank :=
  rank_lt_of_merge (h.merge_eq 0) hne

end Sinks
end FlowState

/-! ### One edge -/

/-- What a position with a hint and a state comes to when a state arrives: the new state, or none if
there is nothing new. -/
inductive Receives (hint : Option FlowState) (incoming : FlowState) :
    Option FlowState → Option FlowState → Prop
  | declared {s : FlowState} (hhint : hint = some s)
      (hheight : s.stack.length = incoming.stack.length) : Receives hint incoming none (some s)
  | known {s existing : FlowState} (hhint : hint = some s)
      (hheight : s.stack.length = incoming.stack.length) :
      Receives hint incoming (some existing) none
  | first (hhint : hint = none) : Receives hint incoming none (some incoming)
  | same {existing : FlowState} (hhint : hint = none)
      (hmerge : ∀ index, existing.merge index incoming = .ok existing) :
      Receives hint incoming (some existing) none
  | merged {existing s : FlowState} (hhint : hint = none)
      (hmerge : ∀ index, existing.merge index incoming = .ok s) (hne : s ≠ existing) :
      Receives hint incoming (some existing) (some s)

/-- A new state has sunk from the one before. -/
theorem Receives.sinks {hint : Option FlowState} {incoming s s' : FlowState}
    (h : Receives hint incoming (some s) (some s')) : s.Sinks s' ∧ s' ≠ s := by
  cases h with
  | merged _ hmerge hne => exact ⟨FlowState.sinks_of_merge (hmerge 0), hne⟩

namespace FlowProgress

/-- The progress after something has arrived at a position. -/
def receive (index : Nat) (incoming : FlowState) (new : Option FlowState) (p : FlowProgress) :
    FlowProgress :=
  match new with
  | none => p.raiseStack incoming.stack.length
  | some s => (p.raiseStack incoming.stack.length).reach index s

variable {p : FlowProgress} {index : Nat} {incoming : FlowState} {new : Option FlowState}

@[simp] theorem maxStack_receive :
    (p.receive index incoming new).maxStack = max p.maxStack incoming.stack.length := by
  cases new with
  | none => rfl
  | some s => exact (bounds_reach index s).1

@[simp] theorem maxLocals_receive : (p.receive index incoming new).maxLocals = p.maxLocals := by
  cases new with
  | none => rfl
  | some s => exact (bounds_reach index s).2

theorem receive_none (h : incoming.stack.length ≤ p.maxStack) :
    p.receive index incoming none = p := by
  change p.raiseStack incoming.stack.length = p
  rw [raiseStack, Nat.max_eq_left h]

theorem states_receive (hlt : index < p.states.size) (i : Nat) :
    (p.receive index incoming new).states[i]? =
      if index = i ∧ new.isSome then some new else p.states[i]? := by
  cases new with
  | none => simp [receive, raiseStack]
  | some s =>
    simp only [Option.isSome_some, and_true]
    exact getElem?_states_reach (p := p.raiseStack incoming.stack.length) s hlt i

theorem size_states_receive : (p.receive index incoming new).states.size = p.states.size := by
  cases new <;> simp [receive, raiseStack]

theorem size_queued_receive : (p.receive index incoming new).queued.size = p.queued.size := by
  cases new with
  | none => rfl
  | some s =>
    simp only [receive, reach]
    split <;> simp [raiseStack]

theorem queued_reach (s : FlowState) (hlt : index < p.queued.size) (i : Nat) :
    (p.reach index s).queued[i]? = if index = i then some true else p.queued[i]? := by
  unfold reach
  split
  · rename_i hqueued
    by_cases heq : index = i
    · subst heq
      rw [Array.getElem?_eq_getElem hlt, Option.getD_some] at hqueued
      rw [if_pos rfl, Array.getElem?_eq_getElem hlt, hqueued]
    · rw [if_neg heq]
  · rw [Array.getElem?_setIfInBounds, if_pos hlt]

theorem queued_receive (hlt : index < p.queued.size) (i : Nat) :
    (p.receive index incoming new).queued[i]? =
      if index = i ∧ new.isSome then some true else p.queued[i]? := by
  cases new with
  | none => simp [receive, raiseStack]
  | some s =>
    simp only [Option.isSome_some, and_true]
    exact queued_reach (p := p.raiseStack incoming.stack.length) s hlt i

theorem pending_receive : (p.receive index incoming new).pending =
    if new.isSome ∧ p.queued[index]?.getD false = false then index :: p.pending else p.pending := by
  have hreach (p : FlowProgress) (s : FlowState) : (p.reach index s).pending =
      if p.queued[index]?.getD false = false then index :: p.pending else p.pending := by
    unfold reach
    split
    · rename_i hqueued
      rw [if_neg (by simp [hqueued])]
    · rename_i hqueued
      rw [if_pos (by simpa using hqueued)]
  cases new with
  | none => simp [receive, raiseStack]
  | some s =>
    simp only [Option.isSome_some, true_and]
    exact hreach _ s

end FlowProgress

namespace FlowGraph

open FlowProgress

variable {g : FlowGraph} {p q : FlowProgress}

/-- An edge makes its position receive what arrives. -/
theorem flowTo_eq_ok {index : Nat} {incoming : FlowState} : g.flowTo index incoming p = .ok q ↔
      ∃ state new, p.states[index]? = some state ∧
        Receives g.hints[index]? incoming state new ∧ q = p.receive index incoming new := by
  constructor
  · intro h
    unfold flowTo at h
    split at h
    · cases h
    · rename_i state hstate
      refine ⟨state, ?_⟩
      split at h
      · rename_i hint hhint
        split at h
        · rename_i hheight
          split at h
          · exact ⟨some hint, hstate, .declared hhint hheight, (Except.ok.inj h).symm⟩
          · exact ⟨none, hstate, .known hhint hheight, (Except.ok.inj h).symm⟩
        · cases h
      · rename_i hhint
        split at h
        · exact ⟨some incoming, hstate, .first hhint, (Except.ok.inj h).symm⟩
        · rename_i existing
          split at h
          · rename_i merged hmerge
            split at h
            · rename_i heq
              subst heq
              exact ⟨none, hstate, .same hhint fun _ => FlowState.merge_index hmerge _,
                (Except.ok.inj h).symm⟩
            · rename_i hne
              exact ⟨some merged, hstate,
                .merged hhint (fun _ => FlowState.merge_index hmerge _) hne, (Except.ok.inj h).symm⟩
          · cases h
  · rintro ⟨state, new, hstate, hreceives, rfl⟩
    unfold flowTo
    rw [hstate]
    cases hreceives with
    | declared hhint hheight | known hhint hheight =>
      rw [hhint]
      dsimp only
      rw [if_pos hheight]
      rfl
    | first hhint =>
      rw [hhint]
      rfl
    | same hhint hmerge =>
      rw [hhint]
      dsimp only
      rw [hmerge]
      exact if_pos rfl
    | merged hhint hmerge hne =>
      rw [hhint]
      dsimp only
      rw [hmerge]
      exact if_neg hne

/-- What has been absorbed changes nothing when it arrives again. -/
theorem flowTo_of_absorbed {index : Nat} {incoming : FlowState} (h : Absorbed g p index incoming)
    (hheight : ∀ hint, g.hints[index]? = some hint →
      hint.stack.length = incoming.stack.length) : g.flowTo index incoming p = .ok p := by
  obtain ⟨s, hs, -, hcovers⟩ := h.state
  refine flowTo_eq_ok.mpr ⟨some s, none, hs, ?_, (receive_none h.height_le).symm⟩
  cases hhint : g.hints[index]? with
  | none => exact .same rfl fun _ => FlowState.merge_eq_self.mpr (hcovers hhint)
  | some hint => exact .known rfl (hheight hint hhint)

/-! ### Edges and visits -/

theorem flowAlong_append_eq_ok {front back : List (Nat × FlowState)} :
    g.flowAlong (front ++ back) p = .ok q ↔
      ∃ m, g.flowAlong front p = .ok m ∧ g.flowAlong back m = .ok q := by
  induction front generalizing p with
  | nil => simp [flowAlong]
  | cons edge front ih =>
    obtain ⟨index, incoming⟩ := edge
    simp only [List.cons_append, flowAlong]
    cases g.flowTo index incoming p with
    | error e => simp
    | ok p₁ => exact ih

theorem flowAlong_singleton {index : Nat} {incoming : FlowState} :
    g.flowAlong [(index, incoming)] p = g.flowTo index incoming p := by
  simp only [flowAlong]
  cases g.flowTo index incoming p <;> rfl

/-- Edges that change nothing one by one change nothing. -/
theorem flowAlong_eq_self {edges : List (Nat × FlowState)}
    (h : ∀ edge ∈ edges, g.flowTo edge.1 edge.2 p = .ok p) : g.flowAlong edges p = .ok p := by
  induction edges with
  | nil => rfl
  | cons edge edges ih =>
    simp only [List.mem_cons, forall_eq_or_imp] at h
    obtain ⟨index, incoming⟩ := edge
    simp only [flowAlong, h.1]
    exact ih h.2

theorem exists_of_visit {index : Nat} {e : Event} {s : FlowState}
    (he : g.events[index]? = some e) (hs : p.states[index]? = some (some s))
    (h : g.visit index p = .ok q) : ∃ t, g.transfer index e s = .ok t ∧
      g.flowAlong (g.edges index e s t)
        ((p.raiseStack t.after.stack.length).raiseLocals t.after.locals.size) = .ok q := by
  cases visit_eq_ok.mp h with
  | along he' hs' ht hflow =>
    obtain rfl := Option.some.inj (he.symm.trans he')
    obtain rfl := Option.some.inj (Option.some.inj (hs.symm.trans hs'))
    exact ⟨_, ht, hflow⟩
  | nowhere hnone => exact absurd hs (hnone e s he)

/-- A label hands its state on to handlers and to the position behind. -/
theorem edges_label (index : Nat) (l : Label) (s : FlowState) :
    g.edges index (.label l) s (.straight s) = g.handlerEdges index s s ++ [(index + 1, s)] := by
  simp [edges, Transfer.straight, Event.isTerminal]

/-- The search goes on where the next visit has led to. -/
theorem solveFrom_of_visit {index : Nat} {rest : List Nat} (hpending : p.pending = index :: rest)
    (hvisit : g.visit index (p.dequeue index rest) = .ok q) : g.solveFrom p = g.solveFrom q := by
  rw [solveFrom]
  split
  · rename_i hnil
    cases hpending.symm.trans hnil
  · rename_i index' rest' hpending'
    obtain ⟨rfl, rfl⟩ := List.cons.inj (hpending.symm.trans hpending')
    split
    · rename_i q' hvisit'
      rw [Except.ok.inj (hvisit.symm.trans hvisit')]
    · rename_i e hvisit'
      cases hvisit.symm.trans hvisit'

end FlowGraph
end ClassPatch
