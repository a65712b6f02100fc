import ClassPatch.Flow.Transfer

/-!
# Solving the flow of types

The states of all positions are found with a worklist: control enters in the frame of the method,
and whenever the state of a position is new or changed, the position is visited and its outcome
flows along its edges. Where a hint is given, it is the state, whatever arrives.

The search ends because every visit that is asked for again has been paid for: a position is
reached for the first time once, and from then on its state only changes by merges, which lower
its rank. `FlowProgress.Settles` collects this into the order along which the worklist is run.
-/

namespace ClassPatch

/-- How far the search has come. -/
structure FlowProgress where
  states : Array (Option FlowState)
  /-- The positions to visit, the next one first. -/
  pending : List Nat
  /-- Which positions are pending. -/
  queued : Array Bool
  maxStack : Nat
  maxLocals : Nat

namespace FlowProgress

/-- Nothing is reached yet. -/
def start (size maxLocals : Nat) : FlowProgress where
  states := Array.replicate size none
  pending := []
  queued := Array.replicate size false
  maxStack := 0
  maxLocals

/-- Gives a position a state and asks for a visit. -/
def reach (index : Nat) (state : FlowState) (p : FlowProgress) : FlowProgress :=
  if p.queued[index]?.getD false then
    { p with states := p.states.setIfInBounds index (some state) }
  else
    { p with
      states := p.states.setIfInBounds index (some state)
      pending := index :: p.pending
      queued := p.queued.setIfInBounds index true }

def raiseStack (height : Nat) (p : FlowProgress) : FlowProgress :=
  { p with maxStack := max p.maxStack height }

def raiseLocals (count : Nat) (p : FlowProgress) : FlowProgress :=
  { p with maxLocals := max p.maxLocals count }

/-- The progress after the next visit has been taken from the list. -/
def dequeue (index : Nat) (rest : List Nat) (p : FlowProgress) : FlowProgress :=
  { p with pending := rest, queued := p.queued.setIfInBounds index false }

end FlowProgress

namespace FlowGraph

/-- Control reaches a position in the state `incoming`. -/
def flowTo (g : FlowGraph) (index : Nat) (incoming : FlowState) (p : FlowProgress) :
    Except Error FlowProgress :=
  match p.states[index]? with
  | none => .error (.malformed (.flow (.fallsOff g.method.className g.method.methodName)))
  | some state =>
    match g.hints[index]? with
    | some hint =>
      if hint.stack.length = incoming.stack.length then
        match state with
        | none => .ok ((p.raiseStack incoming.stack.length).reach index hint)
        | some _ => .ok (p.raiseStack incoming.stack.length)
      else
        .error (.malformed (.flow
          (.declaredHeight incoming.stack.length hint.stack.length index)))
    | none =>
      match state with
      | none => .ok ((p.raiseStack incoming.stack.length).reach index incoming)
      | some existing =>
        match existing.merge index incoming with
        | .ok merged =>
          if merged = existing then .ok (p.raiseStack incoming.stack.length)
          else .ok ((p.raiseStack incoming.stack.length).reach index merged)
        | .error e => .error e

/-- Control flows along edges, one after the other. -/
def flowAlong (g : FlowGraph) (edges : List (Nat × FlowState)) (p : FlowProgress) :
    Except Error FlowProgress :=
  match edges with
  | [] => .ok p
  | (index, incoming) :: edges =>
    match g.flowTo index incoming p with
    | .ok p => flowAlong g edges p
    | .error e => .error e

/-- Visits a position that has been reached. -/
def visit (g : FlowGraph) (index : Nat) (p : FlowProgress) : Except Error FlowProgress :=
  match g.events[index]?, p.states[index]?.join with
  | some event, some state =>
    match g.transfer index event state with
    | .ok t =>
      let p := (p.raiseStack t.after.stack.length).raiseLocals t.after.locals.size
      g.flowAlong (g.edges index event state t) p
    | .error e => .error e
  | _, _ => .ok p

end FlowGraph

/-! ### The search ends -/

namespace FlowProgress

private theorem total_set {α : Type} (f : α → Nat) (xs : List α) (i : Nat) (x : α)
    (h : i < xs.length) : total f (xs.set i x) + f xs[i] = total f xs + f x := by
  induction xs generalizing i with
  | nil => simp at h
  | cons y xs ih =>
    cases i with
    | zero => simp [total]; omega
    | succ i =>
      have := ih i (by simpa using h)
      simp only [List.set_cons_succ, total, List.getElem_cons_succ]
      omega

/-- The number of positions that have not been reached. -/
def unreached (p : FlowProgress) : Nat :=
  total (fun s => if s.isNone then 1 else 0) p.states.toList

/-- How often merging can still change the states that have been reached. -/
def height (p : FlowProgress) : Nat :=
  total (fun s => (s.map FlowState.rank).getD 0) p.states.toList

/-- Either fewer changes are left than before, or no visit has been asked for. -/
def Settles (p q : FlowProgress) : Prop :=
  q.unreached < p.unreached ∨ q.unreached = p.unreached ∧ q.height < p.height ∨
    q.unreached = p.unreached ∧ q.height = p.height ∧ q.pending = p.pending

namespace Settles

theorem refl (p : FlowProgress) : Settles p p := .inr (.inr ⟨rfl, rfl, rfl⟩)

theorem trans {p q r : FlowProgress} (h₁ : Settles p q) (h₂ : Settles q r) : Settles p r := by
  rcases h₁ with h₁ | ⟨h₁, h₁'⟩ | ⟨h₁, h₁', h₁''⟩ <;>
    rcases h₂ with h₂ | ⟨h₂, h₂'⟩ | ⟨h₂, h₂', h₂''⟩
  · exact .inl (by omega)
  · exact .inl (by omega)
  · exact .inl (by omega)
  · exact .inl (by omega)
  · exact .inr (.inl ⟨by omega, by omega⟩)
  · exact .inr (.inl ⟨by omega, by omega⟩)
  · exact .inl (by omega)
  · exact .inr (.inl ⟨by omega, by omega⟩)
  · exact .inr (.inr ⟨by omega, by omega, h₂''.trans h₁''⟩)

end Settles

@[simp] theorem states_reach (index : Nat) (state : FlowState) (p : FlowProgress) :
    (p.reach index state).states = p.states.setIfInBounds index (some state) := by
  unfold reach
  split <;> rfl

theorem settles_raiseStack (count : Nat) (p : FlowProgress) : Settles p (p.raiseStack count) :=
  .inr (.inr ⟨rfl, rfl, rfl⟩)

/-- Giving a position a state changes a sum over the states by what the position adds to it. -/
private theorem total_states_reach (measure : Option FlowState → Nat) {p : FlowProgress}
    {index : Nat} {old : Option FlowState} (state : FlowState) (h : p.states[index]? = some old) :
    total measure (p.reach index state).states.toList + measure old =
      total measure p.states.toList + measure (some state) := by
  obtain ⟨hlt, rfl⟩ := Array.getElem?_eq_some_iff.mp h
  rw [states_reach, Array.toList_setIfInBounds]
  exact total_set measure p.states.toList index (some state) (by simpa using hlt)

section Reach

variable {p : FlowProgress} {index : Nat} {existing : FlowState} (state : FlowState)

theorem unreached_reach_new (h : p.states[index]? = some none) :
    (p.reach index state).unreached + 1 = p.unreached :=
  total_states_reach (fun s => if s.isNone then 1 else 0) state h

theorem unreached_reach_known (h : p.states[index]? = some (some existing)) :
    (p.reach index state).unreached = p.unreached :=
  total_states_reach (fun s => if s.isNone then 1 else 0) state h

theorem height_reach_new (h : p.states[index]? = some none) :
    (p.reach index state).height = p.height + state.rank :=
  total_states_reach (fun s => (s.map FlowState.rank).getD 0) state h

theorem height_reach_known (h : p.states[index]? = some (some existing)) :
    (p.reach index state).height + existing.rank = p.height + state.rank :=
  total_states_reach (fun s => (s.map FlowState.rank).getD 0) state h

end Reach

theorem settles_reach_new {p : FlowProgress} {index : Nat} (state : FlowState)
    (h : p.states[index]? = some none) : Settles p (p.reach index state) := by
  have hunreached := unreached_reach_new state h
  exact .inl (by omega)

theorem settles_reach_lower {p : FlowProgress} {index : Nat} {existing state : FlowState}
    (h : p.states[index]? = some (some existing)) (hrank : state.rank < existing.rank) :
    Settles p (p.reach index state) := by
  have hheight := height_reach_known state h
  exact .inr (.inl ⟨unreached_reach_known state h, by omega⟩)

end FlowProgress

namespace FlowGraph

open FlowProgress

theorem settles_of_flowTo {g : FlowGraph} {index : Nat} {incoming : FlowState}
    {p q : FlowProgress} (h : g.flowTo index incoming p = .ok q) : Settles p q := by
  unfold flowTo at h
  split at h
  · simp at h
  · rename_i state hstate
    have hraise := settles_raiseStack incoming.stack.length p
    split at h
    · split at h
      · split at h
        · obtain rfl := by simpa using h
          exact hraise.trans (settles_reach_new _ hstate)
        · obtain rfl := by simpa using h
          exact hraise
      · simp at h
    · split at h
      · obtain rfl := by simpa using h
        exact hraise.trans (settles_reach_new _ hstate)
      · split at h
        · rename_i merged hmerge
          split at h
          · obtain rfl := by simpa using h
            exact hraise
          · rename_i hne
            obtain rfl := by simpa using h
            exact hraise.trans
              (settles_reach_lower hstate (FlowState.rank_lt_of_merge hmerge hne))
        · simp at h

theorem settles_of_flowAlong {g : FlowGraph} {edges : List (Nat × FlowState)}
    {p q : FlowProgress} (h : g.flowAlong edges p = .ok q) : Settles p q := by
  induction edges generalizing p with
  | nil =>
    obtain rfl := by simpa [flowAlong] using h
    exact .refl _
  | cons edge edges ih =>
    simp only [flowAlong] at h
    split at h
    · rename_i hflow
      exact (settles_of_flowTo hflow).trans (ih h)
    · simp at h

theorem settles_of_visit {g : FlowGraph} {index : Nat} {p q : FlowProgress}
    (h : g.visit index p = .ok q) : Settles p q := by
  unfold visit at h
  split at h
  · split at h
    · rename_i t _
      have := settles_of_flowAlong h
      exact Settles.trans (.inr (.inr ⟨rfl, rfl, rfl⟩)) this
    · simp at h
  · obtain rfl := by simpa using h
    exact .refl _

/-- Visits pending positions until none is left. -/
def solveFrom (g : FlowGraph) (p : FlowProgress) : Except Error FlowProgress :=
  match _hp : p.pending with
  | [] => .ok p
  | index :: rest =>
    match _h : g.visit index (p.dequeue index rest) with
    | .ok q => solveFrom g q
    | .error e => .error e
termination_by (p.unreached, p.height, p.pending.length)
decreasing_by
  have hs := settles_of_visit _h
  have hu : (p.dequeue index rest).unreached = p.unreached := rfl
  have hh : (p.dequeue index rest).height = p.height := rfl
  have hq : (p.dequeue index rest).pending = rest := rfl
  rw [Settles, hu, hh, hq] at hs
  rcases hs with hs | ⟨hs, hs'⟩ | ⟨hs, hs', hs''⟩
  · exact .left _ _ hs
  · rw [hs]
    exact .right _ (.left _ _ hs')
  · rw [hs, hs', hs'', _hp]
    exact .right _ (.right _ (Nat.lt_succ_self _))

end FlowGraph

/-- The states of all positions, with bounds on the stack and the locals. -/
structure FlowSolution where
  states : Array (Option FlowState)
  maxStack : UInt16
  maxLocals : UInt16

namespace FlowSolution

/-- The state before an event, unless control never reaches it. -/
def state? (solution : FlowSolution) (index : Nat) : Option FlowState :=
  solution.states[index]?.join

/-- The most locals of any state. -/
def mostLocals (states : Array (Option FlowState)) : Nat :=
  states.foldl (fun most s => max most ((s.map fun s => s.locals.size).getD 0)) 0

/-- A bound in 16 bits. -/
def bound (n : Nat) (limit : Nat → Limit) : Except Error UInt16 :=
  if n ≤ 65535 then .ok (UInt16.ofNat n) else .error (.limitExceeded (limit n))

end FlowSolution

/-- Solves the flow of types through some events. -/
def analyze (events : List Event) (handlers : List Handler) (frames : List (Label × Frame))
    (method : MethodContext) (maxLocals : UInt16) : Except Error FlowSolution := do
  let g ← FlowGraph.ofEvents events handlers frames method
  let entry := FlowState.ofFrame (← Frame.entry method)
  if events.isEmpty then
    throw (.malformed (.flow (.empty method.className method.methodName)))
  let start := FlowProgress.start g.events.size (max entry.locals.size maxLocals.toNat)
  let p ← g.flowTo 0 entry start
  let p ← g.solveFrom p
  return {
    states := p.states
    maxStack := ← FlowSolution.bound p.maxStack .maxStack
    maxLocals := ←
      FlowSolution.bound (max p.maxLocals (FlowSolution.mostLocals p.states)) .maxLocals }

end ClassPatch
