import ClassPatch.Proofs.Flow.Receiving
import ClassPatch.Proofs.Flow.Safety

/-!
# Searches in step

Where positions that control does not come to are taken out of a graph, the others may find labels
in front of them that have lost what stood behind them: what enters the position enters at the first
of these labels and goes through all of them. `Thinned` says what the two graphs have in common
then. The search of the thinned graph keeps in step with the other one: for each visit of a position
it visits the labels in front and the position itself, and nothing else is in between, because what
these visits send to handlers has been absorbed at the first of them.
-/

namespace ClassPatch

namespace FlowGraph

/-- A property of states that a search hands on. -/
structure Inherits (g : FlowGraph) (Good : FlowState → Prop) : Prop where
  edges : ∀ {i : Nat} {e : Event} {s : FlowState} {t : Transfer}, g.Visits i →
    g.events[i]? = some e → Good s → g.transfer i e s = .ok t →
    ∀ edge ∈ g.edges i e s t, Good edge.2
  hint : ∀ {i : Nat} {hint : FlowState}, g.Visits i → g.hints[i]? = some hint → Good hint
  merge : ∀ {index : Nat} {s s' merged : FlowState}, Good s → Good s' →
    s.merge index s' = .ok merged → Good merged

/-- What control comes to in one graph is left in another one. A position `i` that control comes to
is at `place i`, and whatever leads to it leads to `enter i`, with only labels between. -/
structure Thinned (g g' : FlowGraph) (Good : FlowState → Prop) (enter place : Nat → Nat) :
    Prop where
  enter_zero : enter 0 = 0
  enter_le : ∀ {i : Nat}, g.Visits i → enter i ≤ place i
  enter_succ : ∀ {i : Nat}, g.Visits i → enter (i + 1) = place i + 1
  apart : ∀ {i j : Nat}, g.Visits i → g.Visits j → i < j → place i < enter j
  lt : ∀ {i : Nat}, g.Visits i → i < g.events.size
  event : ∀ {i : Nat}, g.Visits i → g'.events[place i]? = g.events[i]?
  front : ∀ {i c : Nat}, g.Visits i → enter i ≤ c → c < place i →
    ∃ l, g'.events[c]? = some (.label l)
  label : ∀ {i : Nat}, g.Visits i → enter i < place i → ∃ l, g.events[i]? = some (.label l)
  hint : ∀ {i : Nat}, g.Visits i → g'.hints[enter i]? = g.hints[i]?
  unhinted : ∀ {i c : Nat}, g.Visits i → enter i < c → c ≤ place i → g'.hints[c]? = none
  handlerEdges : ∀ {i c : Nat} (before after : FlowState), g.Visits i → enter i ≤ c → c ≤ place i →
    g'.handlerEdges c before after = (g.handlerEdges i before after).map fun edge =>
      (enter edge.1, edge.2)
  transfer : ∀ {i : Nat} {e : Event} {s : FlowState} {t : Transfer}, g.Visits i →
    g.events[i]? = some e → Good s → g.transfer i e s = .ok t →
      g'.transfer (place i) e s = .ok { t with targets := t.targets.map enter }

namespace Thinned

variable {g g' : FlowGraph} {Good : FlowState → Prop} {enter place : Nat → Nat}

theorem enter_injective (h : g.Thinned g' Good enter place) {i j : Nat} (hi : g.Visits i)
    (hj : g.Visits j) (heq : enter i = enter j) : i = j := by
  rcases Nat.lt_trichotomy i j with hlt | heq | hlt
  · have := h.apart hi hj hlt
    have := h.enter_le hi
    omega
  · exact heq
  · have := h.apart hj hi hlt
    have := h.enter_le hj
    omega

/-- The labels behind the entry of a position are entered from nowhere else. -/
theorem ne_enter (h : g.Thinned g' Good enter place) {i j c : Nat} (hi : g.Visits i)
    (hlt : enter i < c) (hle : c ≤ place i) (hj : g.Visits j) : c ≠ enter j := by
  rintro rfl
  rcases Nat.lt_trichotomy i j with hij | rfl | hij
  · have := h.apart hi hj hij
    omega
  · omega
  · have := h.apart hj hi hij
    have := h.enter_le hj
    omega

/-- The positions with what stands between their entries and them are apart. -/
theorem eq_of_between (h : g.Thinned g' Good enter place) {i j c : Nat} (hi : g.Visits i)
    (hj : g.Visits j) (hlt : enter i < c) (hle : c ≤ place i) (hlt' : enter j < c)
    (hle' : c ≤ place j) : i = j := by
  rcases Nat.lt_trichotomy i j with hij | rfl | hij
  · have := h.apart hi hj hij
    omega
  · rfl
  · have := h.apart hj hi hij
    omega

/-- What flows along the edges of a position flows along those of the place that it is at. -/
theorem edges_eq (h : g.Thinned g' Good enter place) {i : Nat} (hi : g.Visits i) {e : Event}
    {s : FlowState} {t : Transfer} :
    g'.edges (place i) e s { t with targets := t.targets.map enter } =
      (g.edges i e s t).map fun edge => (enter edge.1, edge.2) := by
  unfold edges
  rw [h.handlerEdges _ _ hi (h.enter_le hi) (Nat.le_refl _)]
  cases e.isTerminal <;> simp [h.enter_succ hi, Function.comp_def]

end Thinned
end FlowGraph

namespace FlowProgress

/-! ### One search by itself -/

/-- What is pending is what is queued, once each. -/
structure Orderly (p : FlowProgress) : Prop where
  size : p.queued.size = p.states.size
  nodup : p.pending.Nodup
  queued : ∀ {i : Nat}, i ∈ p.pending → p.queued[i]? = some true
  reached : ∀ {i : Nat}, i ∈ p.pending → ∃ s, p.states[i]? = some (some s)

/-- A state that a position has had, if any, before it came to another one. -/
def Precedes (o : Option FlowState) (s : FlowState) : Prop :=
  ∀ s₀, o = some s₀ → s₀.Sinks s ∧ s ≠ s₀

/-- A position has had a state when it was visited: it has it still, or it has come to another one
and waits for a visit. -/
def Lags (p : FlowProgress) (i : Nat) (o : Option FlowState) : Prop :=
  if p.queued[i]? = some true then ∃ s, p.states[i]? = some (some s) ∧ Precedes o s
  else p.states[i]? = some o

variable {p : FlowProgress} {index : Nat} {incoming : FlowState} {state new : Option FlowState}
  {hint : Option FlowState}

theorem Precedes.receives {s s' : FlowState} {o : Option FlowState} (h : Precedes o s)
    (hreceives : Receives hint incoming (some s) (some s')) : Precedes o s' := by
  rintro s₀ rfl
  obtain ⟨hsinks, hne⟩ := h s₀ rfl
  obtain ⟨hsinks', hne'⟩ := hreceives.sinks
  refine ⟨hsinks.trans hsinks', ?_⟩
  rintro rfl
  have hlt := hsinks.rank_lt hne
  have hlt' := hsinks'.rank_lt hne'
  omega

theorem Orderly.receive (h : p.Orderly) (hstate : p.states[index]? = some state) :
    (p.receive index incoming new).Orderly := by
  have hlt : index < p.states.size := (Array.getElem?_eq_some_iff.mp hstate).1
  have hlt' : index < p.queued.size := h.size ▸ hlt
  have hmem {i : Nat} (hi : i ∈ (p.receive index incoming new).pending) :
      index = i ∧ new.isSome ∨ i ∈ p.pending := by
    rw [pending_receive] at hi
    split at hi
    · rename_i hnew
      rcases List.mem_cons.mp hi with rfl | hi
      · exact .inl ⟨rfl, hnew.1⟩
      · exact .inr hi
    · exact .inr hi
  refine ⟨?size, ?nodup, ?queued, ?reached⟩
  case size => rw [size_queued_receive, size_states_receive, h.size]
  case nodup =>
    rw [pending_receive]
    split
    · rename_i hnew
      refine List.nodup_cons.mpr ⟨fun hpending => ?_, h.nodup⟩
      simp [h.queued hpending] at hnew
    · exact h.nodup
  case queued =>
    intro i hi
    rw [queued_receive hlt']
    rcases hmem hi with hnew | hi
    · rw [if_pos hnew]
    · split
      · rfl
      · exact h.queued hi
  case reached =>
    intro i hi
    rw [states_receive hlt]
    rcases hmem hi with hnew | hi
    · rw [if_pos hnew]
      exact (Option.isSome_iff_exists.mp hnew.2).imp fun s hs => by rw [hs]
    · split
      · rename_i hnew
        exact (Option.isSome_iff_exists.mp hnew.2).imp fun s hs => by rw [hs]
      · exact h.reached hi

theorem Orderly.dequeue (h : p.Orderly) {rest : List Nat} (hpending : p.pending = index :: rest) :
    (p.dequeue index rest).Orderly := by
  have hnodup := h.nodup
  rw [hpending, List.nodup_cons] at hnodup
  have hmem {i : Nat} (hi : i ∈ rest) : i ∈ p.pending := hpending ▸ List.mem_cons_of_mem _ hi
  refine ⟨by simpa [FlowProgress.dequeue] using h.size, hnodup.2, fun {i} hi => ?_, fun hi =>
    h.reached (hmem hi)⟩
  have hne : index ≠ i := by
    rintro rfl
    exact hnodup.1 hi
  simp only [FlowProgress.dequeue, Array.getElem?_setIfInBounds, if_neg hne]
  exact h.queued (hmem hi)

theorem Lags.receive {i : Nat} {o : Option FlowState} (h : p.Lags i o) (hp : p.Orderly)
    (hstate : p.states[index]? = some state) (hreceives : Receives hint incoming state new) :
    (p.receive index incoming new).Lags i o := by
  have hlt : index < p.states.size := (Array.getElem?_eq_some_iff.mp hstate).1
  unfold Lags at h ⊢
  rw [queued_receive (hp.size ▸ hlt), states_receive hlt]
  by_cases hnew : index = i ∧ new.isSome
  · obtain ⟨rfl, hsome⟩ := hnew
    obtain ⟨s', rfl⟩ := Option.isSome_iff_exists.mp hsome
    simp only [Option.isSome_some, and_self, if_true]
    refine ⟨s', rfl, ?_⟩
    split at h
    · obtain ⟨s, hs, hprecedes⟩ := h
      obtain rfl := Option.some.inj (hs.symm.trans hstate)
      exact hprecedes.receives hreceives
    · obtain rfl := Option.some.inj (h.symm.trans hstate)
      rintro s₀ rfl
      exact hreceives.sinks
  · simp only [if_neg hnew]
    exact h

end FlowProgress

namespace FlowGraph

open FlowProgress

variable {g g' : FlowGraph} {Good : FlowState → Prop} {enter place : Nat → Nat}
  {p p' q q' r r' : FlowProgress}

theorem Keeps.receive {index : Nat} {incoming : FlowState} {state new : Option FlowState}
    (h : g.Keeps (fun _ => Good) p) (hgood : g.Inherits Good) (hvisits : g.Visits index)
    (hstate : p.states[index]? = some state) (hincoming : Good incoming)
    (hreceives : Receives g.hints[index]? incoming state new) :
    g.Keeps (fun _ => Good) (p.receive index incoming new) := by
  have hraised := h.raiseStack incoming.stack.length
  cases hreceives with
  | known | same => exact hraised
  | declared hhint => exact hraised.reach (hgood.hint hvisits hhint)
  | first => exact hraised.reach hincoming
  | merged _ hmerge => exact hraised.reach (hgood.merge (h.states hstate) hincoming (hmerge 0))

/-! ### Two searches -/

/-- A search has come as far as another one has, at the entries of its positions. -/
structure Mirrors (g : FlowGraph) (Good : FlowState → Prop) (enter place : Nat → Nat)
    (p p' : FlowProgress) : Prop where
  orderly : p.Orderly
  keeps : g.Keeps (fun _ => Good) p
  size : p'.queued.size = p'.states.size
  maxStack : p'.maxStack = p.maxStack
  maxLocals : p'.maxLocals = p.maxLocals
  pending : p'.pending = p.pending.map enter
  states : ∀ {i : Nat}, g.Visits i → p'.states[enter i]? = p.states[i]?
  queued : ∀ {i : Nat}, g.Visits i → p'.queued[enter i]? = p.queued[i]?
  only : ∀ {c : Nat} {s : FlowState}, p'.states[c]? = some (some s) →
    ∃ i, g.Visits i ∧ enter i ≤ c ∧ c ≤ place i

/-- Two searches have gone on together, the second at entries only. -/
structure Advances (g : FlowGraph) (Good : FlowState → Prop) (enter place : Nat → Nat)
    (p p' q q' : FlowProgress) : Prop where
  mirrors : g.Mirrors Good enter place q q'
  aside : ∀ {c : Nat}, (∀ j, g.Visits j → c ≠ enter j) →
    q'.states[c]? = p'.states[c]? ∧ q'.queued[c]? = p'.queued[c]?
  lags : ∀ {i : Nat} {o : Option FlowState}, p.Lags i o → q.Lags i o

theorem Advances.trans (h : g.Advances Good enter place p p' q q')
    (h' : g.Advances Good enter place q q' r r') : g.Advances Good enter place p p' r r' where
  mirrors := h'.mirrors
  aside hc := ⟨(h'.aside hc).1.trans (h.aside hc).1, (h'.aside hc).2.trans (h.aside hc).2⟩
  lags ho := h'.lags (h.lags ho)

section InStep

variable (hthin : g.Thinned g' Good enter place) (hgood : g.Inherits Good)
include hthin hgood

/-- What flows to a position flows to its entry. -/
theorem Mirrors.exists_flowTo (h : g.Mirrors Good enter place p p') {index : Nat}
    {incoming : FlowState} (hvisits : g.Visits index) (hincoming : Good incoming)
    (hflow : g.flowTo index incoming p = .ok q) :
    ∃ q', g'.flowTo (enter index) incoming p' = .ok q' ∧ g.Advances Good enter place p p' q q' := by
  obtain ⟨state, new, hstate, hreceives, rfl⟩ := flowTo_eq_ok.mp hflow
  have hstate' := h.states hvisits
  rw [hstate] at hstate'
  have hlt : index < p.states.size := (Array.getElem?_eq_some_iff.mp hstate).1
  have hlt' : enter index < p'.states.size := (Array.getElem?_eq_some_iff.mp hstate').1
  have hqueued : index < p.queued.size := h.orderly.size ▸ hlt
  have hqueued' : enter index < p'.queued.size := h.size ▸ hlt'
  have hiff {i : Nat} (hi : g.Visits i) : enter index = enter i ↔ index = i :=
    ⟨hthin.enter_injective hvisits hi, congrArg enter⟩
  refine ⟨p'.receive (enter index) incoming new,
    flowTo_eq_ok.mpr ⟨state, new, hstate', (hthin.hint hvisits).symm ▸ hreceives, rfl⟩, ?_⟩
  refine ⟨⟨h.orderly.receive hstate, h.keeps.receive hgood hvisits hstate hincoming hreceives,
    ?_, ?_, ?_, ?_, fun hi => ?_, fun hi => ?_, fun {c s} hs => ?_⟩, fun {c} hc => ?_, fun ho =>
    ho.receive h.orderly hstate hreceives⟩
  · rw [size_queued_receive, size_states_receive, h.size]
  · rw [maxStack_receive, maxStack_receive, h.maxStack]
  · rw [maxLocals_receive, maxLocals_receive, h.maxLocals]
  · rw [pending_receive, pending_receive, h.queued hvisits, h.pending]
    split <;> rfl
  · simp only [states_receive hlt, states_receive hlt', hiff hi, h.states hi]
  · simp only [queued_receive hqueued, queued_receive hqueued', hiff hi, h.queued hi]
  · rw [states_receive hlt'] at hs
    split at hs
    · rename_i heq
      exact ⟨index, hvisits, Nat.le_of_eq heq.1, heq.1 ▸ hthin.enter_le hvisits⟩
    · exact h.only hs
  · have hne : ¬(enter index = c ∧ new.isSome) := fun heq => hc index hvisits heq.1.symm
    rw [states_receive hlt', queued_receive hqueued', if_neg hne, if_neg hne]
    exact ⟨rfl, rfl⟩

/-- What flows along edges flows along their images. -/
theorem Mirrors.exists_flowAlong (h : g.Mirrors Good enter place p p')
    {edges : List (Nat × FlowState)} (hedges : ∀ edge ∈ edges, g.Visits edge.1 ∧ Good edge.2)
    (hflow : g.flowAlong edges p = .ok q) :
    ∃ q', g'.flowAlong (edges.map fun edge => (enter edge.1, edge.2)) p' = .ok q' ∧
      g.Advances Good enter place p p' q q' := by
  induction edges generalizing p p' with
  | nil =>
    obtain rfl := Except.ok.inj hflow
    exact ⟨p', rfl, h, fun _ => ⟨rfl, rfl⟩, id⟩
  | cons edge edges ih =>
    obtain ⟨index, incoming⟩ := edge
    simp only [List.mem_cons, forall_eq_or_imp] at hedges
    simp only [flowAlong] at hflow
    split at hflow
    · rename_i p₁ hone
      obtain ⟨p₁', hone', hadvances⟩ := h.exists_flowTo hthin hgood hedges.1.1 hedges.1.2 hone
      obtain ⟨q', hrest', hadvances'⟩ := ih hadvances.mirrors hedges.2 hflow
      refine ⟨q', ?_, hadvances.trans hadvances'⟩
      simp only [List.map_cons, flowAlong, hone']
      exact hrest'
    · cases hflow

end InStep

/-! ### Between visits -/

/-- What stands between the entry of a position and its place has the state that the position had
when it was visited, and is not pending. -/
def Trails (enter place : Nat → Nat) (p p' : FlowProgress) (i : Nat) : Prop :=
  ∀ c, enter i < c → c ≤ place i → p'.queued[c]? = some false ∧
    ∃ o, p'.states[c]? = some o ∧ p.Lags i o

/-- Two searches are in step between visits. -/
structure InStep (g : FlowGraph) (Good : FlowState → Prop) (enter place : Nat → Nat)
    (p p' : FlowProgress) : Prop extends g.Mirrors Good enter place p p' where
  trails : ∀ i, g.Visits i → Trails enter place p p' i

/-- While the first search visits a position in a state, the second one is on its way from the entry
of the position to its place: it has come as far as `c₀`. -/
structure Amid (g : FlowGraph) (Good : FlowState → Prop) (enter place : Nat → Nat) (v : Nat)
    (s : FlowState) (c₀ : Nat) (p p' : FlowProgress) :
    Prop extends g.Mirrors Good enter place p p' where
  others : ∀ i, g.Visits i → i ≠ v → Trails enter place p p' i
  lags : p.Lags v (some s)
  behind : ∀ c, enter v < c → c ≤ c₀ → p'.queued[c]? = some false ∧ p'.states[c]? = some (some s)
  ahead : ∀ c, c₀ < c → c ≤ place v → p'.queued[c]? = some false ∧
    ∃ o, p'.states[c]? = some o ∧ Precedes o s

theorem Amid.inStep {v : Nat} {s : FlowState} (h : g.Amid Good enter place v s (place v) p p') :
    g.InStep Good enter place p p' where
  toMirrors := h.toMirrors
  trails i hi := by
    by_cases hv : i = v
    · subst hv
      intro c hlt hle
      obtain ⟨hqueued, hstate⟩ := h.behind c hlt hle
      exact ⟨hqueued, some s, hstate, h.lags⟩
    · exact h.others i hi hv

theorem Mirrors.raise (h : g.Mirrors Good enter place p p') (height count : Nat) :
    g.Mirrors Good enter place ((p.raiseStack height).raiseLocals count)
      ((p'.raiseStack height).raiseLocals count) :=
  { h with
    orderly := ⟨h.orderly.size, h.orderly.nodup, h.orderly.queued, h.orderly.reached⟩
    keeps := ⟨h.keeps.size, h.keeps.states⟩
    maxStack := congrArg (max · height) h.maxStack
    maxLocals := congrArg (max · count) h.maxLocals }

theorem Amid.raise {v : Nat} {s : FlowState} {c₀ : Nat} (h : g.Amid Good enter place v s c₀ p p')
    (height count : Nat) :
    g.Amid Good enter place v s c₀ ((p.raiseStack height).raiseLocals count)
      ((p'.raiseStack height).raiseLocals count) :=
  { h with toMirrors := h.toMirrors.raise height count }

section Visit

variable (hthin : g.Thinned g' Good enter place)
include hthin

theorem Trails.advance {i : Nat} (h : Trails enter place p p' i) (hi : g.Visits i)
    (hadvances : g.Advances Good enter place p p' q q') : Trails enter place q q' i := by
  intro c hlt hle
  obtain ⟨hqueued, o, hstate, hlags⟩ := h c hlt hle
  obtain ⟨hstate', hqueued'⟩ := hadvances.aside fun j hj => hthin.ne_enter hi hlt hle hj
  exact ⟨hqueued' ▸ hqueued, o, hstate' ▸ hstate, hadvances.lags hlags⟩

theorem InStep.advance (h : g.InStep Good enter place p p')
    (hadvances : g.Advances Good enter place p p' q q') : g.InStep Good enter place q q' :=
  ⟨hadvances.mirrors, fun i hi => (h.trails i hi).advance hthin hi hadvances⟩

theorem Amid.advance {v : Nat} {s : FlowState} {c₀ : Nat} (hv : g.Visits v)
    (hle : enter v ≤ c₀) (hle' : c₀ ≤ place v) (h : g.Amid Good enter place v s c₀ p p')
    (hadvances : g.Advances Good enter place p p' q q') : g.Amid Good enter place v s c₀ q q' where
  toMirrors := hadvances.mirrors
  others i hi hne := (h.others i hi hne).advance hthin hi hadvances
  lags := hadvances.lags h.lags
  behind c hlt hc := by
    obtain ⟨hstate, hqueued⟩ :=
      hadvances.aside fun j hj => hthin.ne_enter hv hlt (Nat.le_trans hc hle') hj
    exact hqueued ▸ hstate ▸ h.behind c hlt hc
  ahead c hlt hc := by
    obtain ⟨hstate, hqueued⟩ :=
      hadvances.aside fun j hj => hthin.ne_enter hv (Nat.lt_of_le_of_lt hle hlt) hc hj
    exact hqueued ▸ hstate ▸ h.ahead c hlt hc

/-- The visit of a position begins for both searches. -/
theorem InStep.amid {v : Nat} {rest : List Nat} {s : FlowState}
    (h : g.InStep Good enter place p p') (hv : g.Visits v) (hpending : p.pending = v :: rest)
    (hs : p.states[v]? = some (some s)) :
    g.Amid Good enter place v s (enter v) (p.dequeue v rest)
      (p'.dequeue (enter v) (rest.map enter)) := by
  have hqueued : p.queued[v]? = some true :=
    h.orderly.queued (hpending ▸ List.mem_cons_self ..)
  have haside {c : Nat} (hc : c ≠ enter v) :
      (p'.dequeue (enter v) (rest.map enter)).queued[c]? = p'.queued[c]? := by
    simp [dequeue, Ne.symm hc]
  have hlags {i : Nat} {o : Option FlowState} (hne : i ≠ v) (ho : p.Lags i o) :
      (p.dequeue v rest).Lags i o := by
    unfold Lags at ho ⊢
    simpa [dequeue, Array.getElem?_setIfInBounds, Ne.symm hne] using ho
  refine ⟨⟨h.orderly.dequeue hpending, ⟨h.keeps.size, h.keeps.states⟩, ?size, h.maxStack,
    h.maxLocals, rfl, h.states, ?queued, h.only⟩, ?others, ?lags, ?behind, ?ahead⟩
  case size =>
    simpa [dequeue] using h.size
  case queued =>
    intro i hi
    have hget := h.queued hi
    have hiff : enter v = enter i ↔ v = i := ⟨hthin.enter_injective hv hi, congrArg enter⟩
    have hlt := (Array.getElem?_eq_some_iff.mp hqueued).1
    have hlt' := (Array.getElem?_eq_some_iff.mp ((h.queued hv).trans hqueued)).1
    simp only [dequeue, Array.getElem?_setIfInBounds, hiff, hget, hlt, hlt']
  case others =>
    intro i hi hne c hlt hle
    obtain ⟨hfalse, o, hstate, ho⟩ := h.trails i hi c hlt hle
    exact ⟨(haside (hthin.ne_enter hi hlt hle hv)).trans hfalse, o, hstate, hlags hne ho⟩
  case lags =>
    have hlt := (Array.getElem?_eq_some_iff.mp hqueued).1
    simp [Lags, dequeue, hlt, hs]
  case behind =>
    intro c hlt hle
    omega
  case ahead =>
    intro c hlt hle
    obtain ⟨hfalse, o, hstate, ho⟩ := h.trails v hv c hlt hle
    refine ⟨(haside (Nat.ne_of_gt hlt)).trans hfalse, o, hstate, ?_⟩
    rw [Lags, if_pos hqueued] at ho
    obtain ⟨s', hs', hprecedes⟩ := ho
    obtain rfl := Option.some.inj (Option.some.inj (hs.symm.trans hs'))
    exact hprecedes

/-- What a visit sends to handlers changes nothing when it is sent again from behind. -/
theorem Mirrors.flowTo_eq_self (h : g.Mirrors Good enter place p p') (hp : Kept g p) {index : Nat}
    {incoming : FlowState} (hvisits : g.Visits index) (habsorbed : Absorbed g p index incoming) :
    g'.flowTo (enter index) incoming p' = .ok p' := by
  obtain ⟨s, hs, hheight, hcovers⟩ := habsorbed.state
  refine flowTo_of_absorbed ⟨?_, s, ?_, hheight, ?_⟩ fun hint hhint => ?_
  · rw [h.maxStack]
    exact habsorbed.height_le
  · rw [h.states hvisits, hs]
  · rw [hthin.hint hvisits]
    exact hcovers
  · rw [hthin.hint hvisits] at hhint
    rw [← hp.hinted hs hhint, hheight]

/-- The second search takes one more step on its way to the place of a position. -/
theorem Amid.step {v : Nat} {s : FlowState} {c₀ : Nat} (hv : g.Visits v) (hle : enter v ≤ c₀)
    (hlt : c₀ < place v) (h : g.Amid Good enter place v s c₀ p p')
    (hheight : s.stack.length ≤ p.maxStack) :
    ∃ q', g'.flowTo (c₀ + 1) s p' = .ok q' ∧ q'.pending = (c₀ + 1) :: p'.pending ∧
      q'.states[c₀ + 1]? = some (some s) ∧
      g.Amid Good enter place v s (c₀ + 1) p (q'.dequeue (c₀ + 1) p'.pending) := by
  obtain ⟨hfalse, o, hstate, hprecedes⟩ := h.ahead (c₀ + 1) (Nat.lt_succ_self _) hlt
  have hslt := (Array.getElem?_eq_some_iff.mp hstate).1
  have hqlt := (Array.getElem?_eq_some_iff.mp hfalse).1
  have hnone := hthin.unhinted hv (Nat.lt_succ_of_le hle) hlt
  have hentry {j : Nat} (hj : g.Visits j) : c₀ + 1 ≠ enter j :=
    hthin.ne_enter hv (Nat.lt_succ_of_le hle) hlt hj
  have hreceives : Receives g'.hints[c₀ + 1]? s o (some s) := by
    cases o with
    | none => exact .first hnone
    | some s₀ =>
      obtain ⟨hsinks, hne⟩ := hprecedes s₀ rfl
      exact .merged hnone hsinks.merge_eq hne
  refine ⟨p'.receive (c₀ + 1) s (some s), flowTo_eq_ok.mpr ⟨o, some s, hstate, hreceives, rfl⟩,
    ?pending, ?state, ?amid⟩
  case pending => simp [pending_receive, hfalse]
  case state => simp [states_receive hslt]
  case amid =>
    -- Only the state of the position that the step has come to differs.
    have hstates (c : Nat) :
        ((p'.receive (c₀ + 1) s (some s)).dequeue (c₀ + 1) p'.pending).states[c]? =
          if c₀ + 1 = c then some (some s) else p'.states[c]? := by
      simpa [dequeue] using @states_receive p' (c₀ + 1) s (some s) hslt c
    have hqueued (c : Nat) :
        ((p'.receive (c₀ + 1) s (some s)).dequeue (c₀ + 1) p'.pending).queued[c]? =
          p'.queued[c]? := by
      simp only [dequeue, Array.getElem?_setIfInBounds, size_queued_receive, hqlt, if_true,
        queued_receive hqlt]
      by_cases heq : c₀ + 1 = c
      · subst heq
        rw [if_pos rfl, hfalse]
      · simp [heq]
    have hother {c : Nat} (hne : c₀ + 1 ≠ c) :
        ((p'.receive (c₀ + 1) s (some s)).dequeue (c₀ + 1) p'.pending).states[c]? =
          p'.states[c]? := by
      rw [hstates, if_neg hne]
    refine ⟨⟨h.orderly, h.keeps, ?_, ?_, ?_, h.pending, fun hi => ?_, fun hi => ?_,
      fun {c s'} hs' => ?_⟩, ?_, h.lags, ?_, ?_⟩
    · simp [dequeue, size_queued_receive, size_states_receive, h.size]
    · simp [dequeue, h.maxStack, hheight]
    · simp [dequeue, h.maxLocals]
    · rw [hother (hentry hi), h.states hi]
    · rw [hqueued, h.queued hi]
    · rw [hstates] at hs'
      split at hs'
      · rename_i heq
        exact ⟨v, hv, by omega, by omega⟩
      · exact h.only hs'
    · intro i hi hne c hic hci
      have hne' : c₀ + 1 ≠ c := by
        rintro rfl
        exact hne (hthin.eq_of_between hi hv hic hci (Nat.lt_succ_of_le hle) hlt)
      rw [hqueued, hother hne']
      exact h.others i hi hne c hic hci
    · intro c hc hc'
      rw [hqueued, hstates]
      by_cases heq : c₀ + 1 = c
      · subst heq
        exact ⟨hfalse, if_pos rfl⟩
      · rw [if_neg heq]
        exact h.behind c hc (by omega)
    · intro c hc hc'
      rw [hqueued, hother (Nat.ne_of_lt hc)]
      exact h.ahead c (by omega) hc'

variable (hgood : g.Inherits Good)
include hgood

/-- On its way to the place of a position the second search passes labels only, which change nothing
that the first search knows of, and then goes on behind the place. -/
theorem Amid.exists_solveFrom {v : Nat} {s : FlowState} {c₀ : Nat} (hv : g.Visits v)
    (hlabel : ∃ l, g.events[v]? = some (.label l)) (hgoods : Good s) (hle : enter v ≤ c₀)
    (hle' : c₀ ≤ place v) (h : g.Amid Good enter place v s c₀ p p') (hp : Kept g p)
    (hheight : s.stack.length ≤ p.maxStack) (hsize : s.locals.size ≤ p.maxLocals)
    (habsorbed : ∀ edge ∈ g.handlerEdges v s s, g.Visits edge.1 ∧ Absorbed g p edge.1 edge.2)
    (hnext : g.Visits (v + 1)) (hflow : g.flowTo (v + 1) s p = .ok q) :
    ∃ p₁' q', g'.flowTo (c₀ + 1) s p' = .ok p₁' ∧ g'.solveFrom p₁' = g'.solveFrom q' ∧
      g.InStep Good enter place q q' := by
  induction hn : place v - c₀ generalizing c₀ p' with
  | zero =>
    obtain rfl : c₀ = place v := by omega
    obtain ⟨q', hq', hadvances⟩ := h.toMirrors.exists_flowTo hthin hgood hnext hgoods hflow
    rw [hthin.enter_succ hv] at hq'
    exact ⟨q', q', hq', rfl, (h.advance hthin hv hle hle' hadvances).inStep⟩
  | succ n ih =>
    have hlt : c₀ < place v := by omega
    obtain ⟨p₁', hp₁', hpending, hstate, hamid⟩ := h.step hthin hv hle hlt hheight
    obtain ⟨p₂', q', hp₂', hsolve, hinStep⟩ := ih (by omega) hlt hamid (by omega)
    refine ⟨p₁', q', hp₁', ?_, hinStep⟩
    rw [← hsolve]
    refine solveFrom_of_visit hpending ?_
    obtain ⟨l, hl⟩ : ∃ l, g'.events[c₀ + 1]? = some (.label l) := by
      rcases Nat.eq_or_lt_of_le hlt with heq | hlt
      · rw [show c₀ + 1 = place v from heq, hthin.event hv]
        exact hlabel
      · exact hthin.front hv (by omega) hlt
    have hraise : ((p₁'.dequeue (c₀ + 1) p'.pending).raiseStack s.stack.length).raiseLocals
        s.locals.size = p₁'.dequeue (c₀ + 1) p'.pending := by
      have hstack := hamid.maxStack
      have hlocals := hamid.maxLocals
      simp only [raiseStack, raiseLocals]
      rw [hstack, hlocals, Nat.max_eq_left hheight, Nat.max_eq_left hsize, ← hstack, ← hlocals]
    rw [visit_eq (p := p₁'.dequeue (c₀ + 1) p'.pending) hl hstate (t := .straight s) rfl,
      edges_label, flowAlong_append_eq_ok]
    refine ⟨_, flowAlong_eq_self fun edge hedge => ?_, ?_⟩
    · rw [hthin.handlerEdges s s hv (by omega) hlt] at hedge
      obtain ⟨edge', hedge', rfl⟩ := List.mem_map.mp hedge
      obtain ⟨hvisits, habs⟩ := habsorbed edge' hedge'
      exact hraise.symm ▸ hamid.toMirrors.flowTo_eq_self hthin hp hvisits habs
    · rw [flowAlong_singleton]
      exact hraise.symm ▸ hp₂'

/-- For a visit of the first search the second one visits the entry of the position and whatever
stands between it and the place of the position. -/
theorem InStep.exists_visit {v : Nat} {rest : List Nat} (h : g.InStep Good enter place p p')
    (hp : Kept g p) (hpending : p.pending = v :: rest)
    (hvisit : g.visit v (p.dequeue v rest) = .ok q) :
    ∃ q', g'.solveFrom p' = g'.solveFrom q' ∧ g.InStep Good enter place q q' := by
  obtain ⟨s, hs⟩ := h.orderly.reached (hpending ▸ List.mem_cons_self ..)
  have hv := hp.visits hs
  have hpending' : p'.pending = enter v :: rest.map enter := by rw [h.pending, hpending]; rfl
  have hs' : p'.states[enter v]? = some (some s) := (h.states hv).trans hs
  have hgoods : Good s := h.keeps.states hs
  have hkept := kept_dequeue hp hpending
  obtain ⟨e, he⟩ : ∃ e, g.events[v]? = some e := ⟨_, Array.getElem?_eq_getElem (hthin.lt hv)⟩
  obtain ⟨t, ht, hflow⟩ := exists_of_visit (p := p.dequeue v rest) he hs hvisit
  have hedges : ∀ edge ∈ g.edges v e s t, g.Visits edge.1 ∧ Good edge.2 := fun edge hmem =>
    ⟨.step hv ((mem_edges he ht).mp ⟨edge.2, hmem⟩), hgood.edges hv he hgoods ht edge hmem⟩
  have hamid := ((h.amid hthin hv hpending hs).raise t.after.stack.length t.after.locals.size)
  rcases Nat.eq_or_lt_of_le (hthin.enter_le hv) with heq | hlt
  · have he' : g'.events[enter v]? = some e := by rw [heq, hthin.event hv, he]
    have ht' := hthin.transfer hv he hgoods ht
    obtain ⟨q', hq', hadvances⟩ := hamid.toMirrors.exists_flowAlong hthin hgood hedges hflow
    refine ⟨q', solveFrom_of_visit hpending' ?_, ?_⟩
    · rw [← hthin.edges_eq hv, ← heq] at hq'
      rw [← heq] at ht'
      rw [visit_eq (p := p'.dequeue (enter v) (rest.map enter)) he' hs' ht']
      exact hq'
    · have hdone := hamid.advance hthin hv (Nat.le_refl _) (Nat.le_of_eq heq) hadvances
      exact (heq ▸ hdone).inStep
  · obtain ⟨l, hl⟩ := hthin.label hv hlt
    obtain rfl : e = .label l := Option.some.inj (he.symm.trans hl)
    obtain rfl : .straight s = t := Except.ok.inj ht
    obtain ⟨l', hl'⟩ := hthin.front hv (Nat.le_refl _) hlt
    rw [edges_label] at hflow hedges
    obtain ⟨m, hm, hnext⟩ := flowAlong_append_eq_ok.mp hflow
    rw [flowAlong_singleton] at hnext
    have hhandlers : ∀ edge ∈ g.handlerEdges v s s, g.Visits edge.1 ∧ Good edge.2 :=
      fun edge hmem =>
      hedges edge (List.mem_append_left _ hmem)
    obtain ⟨hkeptm, hextends, habsorbed⟩ :=
      flowed_of_flowAlong ((hkept.raiseStack _).raiseLocals _)
        (fun edge hmem => (hhandlers edge hmem).1) hm
    obtain ⟨m', hm', hadvances⟩ := hamid.toMirrors.exists_flowAlong hthin hgood hhandlers hm
    have hle := hthin.enter_le hv
    obtain ⟨p₁', q', hp₁', hsolve, hinStep⟩ :=
      (hamid.advance hthin hv (Nat.le_refl _) hle hadvances).exists_solveFrom hthin hgood hv ⟨l, hl⟩
        hgoods (Nat.le_refl _) hle hkeptm
        (Nat.le_trans (Nat.le_max_right _ _) hextends.stack_le)
        (Nat.le_trans (Nat.le_max_right _ _) hextends.locals_le)
        (fun edge hmem => ⟨(hhandlers edge hmem).1, habsorbed edge hmem⟩)
        (hedges _ (List.mem_append_right _ (List.mem_singleton.mpr rfl))).1 hnext
    refine ⟨q', ?_, hinStep⟩
    rw [← hsolve]
    refine solveFrom_of_visit hpending' ?_
    rw [visit_eq (p := p'.dequeue (enter v) (rest.map enter)) hl' hs' (t := .straight s) rfl,
      edges_label, hthin.handlerEdges s s hv (Nat.le_refl _) hle]
    refine flowAlong_append_eq_ok.mpr ⟨m', hm', ?_⟩
    rw [flowAlong_singleton]
    exact hp₁'

/-- The searches are in step to the end. -/
theorem InStep.exists_solveFrom (h : g.InStep Good enter place p p') (hp : Sound g p)
    (hsolve : g.solveFrom p = .ok q) :
    ∃ q', g'.solveFrom p' = .ok q' ∧ g.InStep Good enter place q q' := by
  fun_induction solveFrom g p generalizing p' with
  | case1 p hpending =>
    obtain rfl := Except.ok.inj hsolve
    have hpending' : p'.pending = [] := by rw [h.pending, hpending]; rfl
    refine ⟨p', ?_, h⟩
    rw [solveFrom]
    split
    · rfl
    · rename_i hcons
      cases hpending'.symm.trans hcons
  | case2 p v rest hpending p₁ hvisit ih =>
    obtain ⟨p₁', heq, hinStep⟩ := h.exists_visit hthin hgood hp.toKept hpending hvisit
    obtain ⟨hsound, -⟩ := sound_of_visit hp hpending hvisit
    obtain ⟨q', hq', hdone⟩ := ih hinStep hsound hsolve
    exact ⟨q', heq.trans hq', hdone⟩
  | case3 p v rest hpending e hvisit => cases hsolve

omit hgood in
/-- Two searches begin in step. -/
theorem Thinned.inStep_start (maxLocals : Nat) :
    g.InStep Good enter place (.start g.events.size maxLocals)
      (.start g'.events.size maxLocals) := by
  have hlt {i c : Nat} (hi : g.Visits i) (hle : c ≤ place i) : c < g'.events.size := by
    have hevent := hthin.event hi
    rw [Array.getElem?_eq_getElem (hthin.lt hi)] at hevent
    exact Nat.lt_of_le_of_lt hle (Array.getElem?_eq_some_iff.mp hevent).1
  refine ⟨⟨⟨by simp [start], List.nodup_nil, by simp [start], by simp [start]⟩,
    ⟨Array.size_replicate, fun {i s} hs => ?_⟩, by simp [start], rfl, rfl, rfl, fun hi => ?_,
    fun hi => ?_, fun {c s} hs => ?_⟩, fun i hi c _ hle => ?_⟩
  · simp [start, Array.getElem?_replicate] at hs
  · simp [start, hthin.lt hi, hlt hi (hthin.enter_le hi)]
  · simp [start, hthin.lt hi, hlt hi (hthin.enter_le hi)]
  · simp [start, Array.getElem?_replicate] at hs
  · simp [start, hlt hi hle, Lags, hthin.lt hi]

/-- A search that succeeds succeeds in the thinned graph, with the same bounds and the same states
at the places of the positions. -/
theorem Thinned.exists_search {entry : FlowState} {maxLocals : Nat} (hentry : Good entry)
    (hsearch : g.search entry maxLocals = .ok q) :
    ∃ q', g'.search entry maxLocals = .ok q' ∧ q'.maxStack = q.maxStack ∧
      q'.maxLocals = q.maxLocals ∧ (∀ i, g.Visits i → q'.states[place i]? = q.states[i]?) ∧
      FlowSolution.mostLocals q'.states = FlowSolution.mostLocals q.states := by
  have hcomplete := complete_of_search hsearch
  obtain ⟨p, hflow, hsolve⟩ := Except.bind_eq_ok.mp hsearch
  have hstart := hthin.inStep_start (max entry.locals.size maxLocals)
  obtain ⟨p', hflow', hadvances⟩ := hstart.toMirrors.exists_flowTo hthin hgood .entry hentry hflow
  rw [hthin.enter_zero] at hflow'
  obtain ⟨hsound, -⟩ := sound_of_flowTo (sound_start g _) .entry hflow
  obtain ⟨q', hsolve', hdone⟩ :=
    (hstart.advance hthin hadvances).exists_solveFrom hthin hgood hsound hsolve
  have hplace : ∀ i c, g.Visits i → enter i ≤ c → c ≤ place i → q'.states[c]? = q.states[i]? := by
    intro i c hi hle hle'
    rcases Nat.eq_or_lt_of_le hle with rfl | hlt
    · exact hdone.states hi
    · obtain ⟨-, o, hstate, hlags⟩ := hdone.trails i hi c hlt hle'
      -- nothing waits for a visit any more
      have hqueued : q.queued[i]? ≠ some true := fun hqueued => by
        simpa [hcomplete.done] using hcomplete.queued hqueued
      rw [Lags, if_neg hqueued] at hlags
      rw [hstate, hlags]
  refine ⟨q', Except.bind_eq_ok.mpr ⟨p', hflow', hsolve'⟩, hdone.maxStack, hdone.maxLocals,
    fun i hi => hplace i _ hi (hthin.enter_le hi) (Nat.le_refl _), Nat.le_antisymm ?_ ?_⟩
  · refine FlowSolution.mostLocals_le_iff.mpr fun c s hs => ?_
    obtain ⟨i, hi, hle, hle'⟩ := hdone.only hs
    rw [hplace i c hi hle hle'] at hs
    exact FlowSolution.le_mostLocals hs
  · refine FlowSolution.mostLocals_le_iff.mpr fun i s hs => ?_
    have hi := hcomplete.visits hs
    rw [← hplace i _ hi (hthin.enter_le hi) (Nat.le_refl _)] at hs
    exact FlowSolution.le_mostLocals hs

end Visit
end FlowGraph
end ClassPatch
