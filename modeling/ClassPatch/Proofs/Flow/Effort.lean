import ClassPatch.Proofs.Flow.Heights
import ClassPatch.Proofs.Flow.Locals
import Mathlib.Data.List.MinMax
import Mathlib.Order.Nat

/-!
# How long a search takes

The order along which the search is run says that it ends, but not when. Here the search is cut off
after a number of visits, and from the events, the frames and the method a number is computed after
which it has always ended, with a solution or with an error.

Every visit is paid for when it is asked for. A position that is reached for the first time pays for
its own visit and for all the merges that can still change its state, and a merge that changes a
state pays with the rank that it takes away. So it counts how large a state can become. Its locals
come from a frame or from an instruction, and a stack is higher than all stacks before it only where
a position is reached for the first time, by two words at most.
-/

namespace ClassPatch

/-- The most that a measure comes to in a list. -/
def most {α : Type} (measure : α → Nat) (xs : List α) : Nat := (xs.map measure).foldr max 0

theorem le_most {α : Type} (measure : α → Nat) {xs : List α} {x : α} (h : x ∈ xs) :
    measure x ≤ most measure xs :=
  List.le_max_of_le (List.mem_map_of_mem h) (Nat.le_refl _)

theorem total_le {α : Type} {measure : α → Nat} {xs : List α} {n : Nat}
    (h : ∀ x ∈ xs, measure x ≤ n) : total measure xs ≤ n * xs.length := by
  induction xs with
  | nil => exact Nat.le_refl _
  | cons x xs ih =>
    rw [List.forall_mem_cons] at h
    have hx := h.1
    have hxs := ih h.2
    rw [total, List.length_cons, Nat.mul_succ]
    omega

/-! ### What an event adds to a stack -/

theorem VerificationType.width_le (t : VerificationType) : t.width ≤ 2 := by
  unfold width
  split <;> omega

theorem ValueKind.slots_le (kind : ValueKind) : kind.slots ≤ 2 := by
  cases kind <;> decide

theorem Value.words_le (v : Value) : v.words ≤ 2 := by
  cases v with
  | dynamic index descriptor =>
    rw [words]
    split
    · exact Nat.le_refl _
    · exact Nat.le_succ _
  | _ => exact Nat.le_of_ble_eq_true rfl

theorem MethodDescriptor.resultWords_le (d : MethodDescriptor) : d.resultWords ≤ 2 := by
  unfold resultWords
  cases d.result with
  | none => exact Nat.zero_le _
  | some t =>
    rw [Option.map_some, Option.getD_some, ← FieldType.width_verification]
    exact t.verification.width_le

/-- No instruction puts more than two words on top of those that it has taken. -/
theorem Instruction.put_le_of_words {i : Instruction Label} {taken put : Nat}
    (h : i.words = some (taken, put)) : put ≤ taken + 2 := by
  have hput {a b : Nat} (h : some (a, b) = some (taken, put)) (hb : b ≤ a + 2) :
      put ≤ taken + 2 := by
    obtain ⟨rfl, rfl⟩ := Prod.mk.inj (Option.some.inj h)
    exact hb
  cases i with
  | push value => exact hput h (Nat.le_add_left_of_le value.words_le)
  | load kind slot => exact hput h (Nat.le_add_left_of_le kind.slots_le)
  | field access owner name descriptor =>
    have hvalue : (if descriptor ∈ ["J", "D"] then 2 else 1) ≤ 2 := by split <;> omega
    cases access with
    | getStatic | getField => exact hput h (Nat.le_add_left_of_le hvalue)
    | putStatic | putField => exact hput h (Nat.zero_le _)
  | invoke kind owner name descriptor ofInterface =>
    rw [words] at h
    split at h
    · exact hput h (Nat.le_add_left_of_le (MethodDescriptor.resultWords_le _))
    · cases h
  | invokeDynamic bootstrap name descriptor =>
    rw [words] at h
    split at h
    · exact hput h (Nat.le_add_left_of_le (MethodDescriptor.resultWords_le _))
    · cases h
  | typeUse use className => cases use <;> exact hput h (by omega)
  | plain opcode =>
    have hall : ∀ n : Fin 256, ∀ row ∈ Opcode.words (UInt8.ofNat n), row.2 ≤ row.1 + 2 := by
      decide +kernel
    have hopcode := hall ⟨opcode.toNat, opcode.toNat_lt⟩
    rw [UInt8.ofNat_toNat] at hopcode
    exact hopcode _ h
  | _ => exact hput h (by omega)

theorem FlowState.Moves.height_le {s s' : FlowState} {taken put : Nat} (h : s.Moves s' taken put)
    (hput : put ≤ taken + 2) : s'.stack.length ≤ s.stack.length + 2 := by
  have hle := h.le
  have hheight := h.height
  omega

namespace FlowGraph

open FlowState

variable {g : FlowGraph} {index : Nat} {s : FlowState} {e : Event} {t : Transfer}

/-- An event leaves at most two words more than there were, counted right or not. -/
theorem height_le_of_transfer (h : g.transfer index e s = .ok t) :
    t.after.stack.length ≤ s.stack.length + 2 := by
  cases e with
  | label l =>
    obtain rfl := Except.ok.inj h
    exact Nat.le_add_right _ _
  | instr i =>
    by_cases hcounted : i.Counted s
    · obtain ⟨taken, put, hmoves, hwords⟩ := moves_of_transferInstruction h
      exact hmoves.height_le (Instruction.put_le_of_words (hwords hcounted))
    · cases transferInstruction_eq_ok.mp h with
      | invoke hcall =>
        obtain ⟨d, taken, -, hmoves, -⟩ := moves_of_call hcall
        exact hmoves.height_le (Nat.le_add_left_of_le d.resultWords_le)
      | @invokeDynamic _ _ _ d _ _ hpop =>
        exact ((moves_of_pop hpop).pushResult d).height_le (Nat.le_add_left_of_le d.resultWords_le)
      | @plain opcode _ hplain =>
        -- only a load from an array of references can be counted wrong
        obtain rfl : opcode = Opcode.aaload := by
          by_contra hne
          exact hcounted fun heq => absurd heq hne
        obtain ⟨⟨array, s₂⟩, hpop, hload⟩ := Except.bind_eq_ok.mp hplain
        obtain rfl := Except.pure_eq_ok.mp hload
        exact ((moves_of_popValue hpop).push _).height_le
          (Nat.le_add_left_of_le (VerificationType.width_le _))
      | _ => exact absurd trivial hcounted

/-- Along no edge there are more than two words more than before the event, or than the one that a
handler catches. -/
theorem height_le_of_mem_edges (h : g.transfer index e s = .ok t) :
    ∀ edge ∈ g.edges index e s t, edge.2.stack.length ≤ s.stack.length + 2 := by
  have hafter := height_le_of_transfer h
  have harrival : t.arrival.stack.length ≤ s.stack.length + 2 := by
    by_cases hjsr : ∃ l, e = .instr (.jump .jsr l)
    · obtain ⟨l, rfl⟩ := hjsr
      cases transfer_instr_eq_ok.mp h with
      | subroutine =>
        exact ((Moves.refl s).push .top).height_le
          (Nat.le_add_left_of_le (VerificationType.width_le _))
      | jump hkind => exact absurd rfl hkind
    · rw [arrival_of_transfer h (not_exists.mp hjsr)]
      exact hafter
  rintro ⟨j, incoming⟩ hedge
  cases carries_iff.mp hedge with
  | caught => exact Nat.le_add_left_of_le (Nat.le_succ 1)
  | jump => exact harrival
  | next => exact hafter

end FlowGraph

/-! ### What a search can still spend -/

theorem VerificationType.rank_le (t : VerificationType) : t.rank ≤ 3 := by
  unfold rank
  split
  · exact Nat.zero_le _
  · split <;> omega
  · exact Nat.le_refl _
  · omega

theorem FlowState.rank_le (s : FlowState) : s.rank ≤ 3 * (s.locals.size + s.stack.length) := by
  have hlocals := total_le fun t (_ : t ∈ s.locals.toList) => t.rank_le
  have hstack := total_le fun t (_ : t ∈ s.stack) => t.rank_le
  rw [Array.length_toList] at hlocals
  unfold rank
  omega

namespace FlowProgress

/-- A state has no more locals than there are slots, and its stack leaves two words for every
position that has not been reached. -/
structure Fits (slots words : Nat) (p : FlowProgress) (s : FlowState) : Prop where
  size : s.locals.size ≤ slots
  height : s.stack.length + 2 * p.unreached ≤ words

/-- The visits that a search can still take: those that are asked for, one for every position that
has not been reached, and one for every change of a state. -/
def effort (slots words : Nat) (p : FlowProgress) : Nat :=
  p.pending.length + p.unreached * (1 + 3 * (slots + words)) + p.height

variable {slots words : Nat} {p q : FlowProgress} {s : FlowState}

theorem Fits.rank_le (h : p.Fits slots words s) : s.rank ≤ 3 * (slots + words) := by
  have hrank := s.rank_le
  have hsize := h.size
  have hheight := h.height
  omega

/-- A state fits all the better when more positions have been reached. -/
theorem Fits.mono (h : p.Fits slots words s) (hle : q.unreached ≤ p.unreached) :
    q.Fits slots words s where
  size := h.size
  height := by
    have hheight := h.height
    omega

theorem total_replicate {α : Type} (measure : α → Nat) (count : Nat) (x : α) :
    total measure (List.replicate count x) = count * measure x := by
  induction count with
  | zero => exact (Nat.zero_mul _).symm
  | succ count ih =>
    rw [List.replicate_succ, total, ih, Nat.succ_mul, Nat.add_comm]

/-- A search begins with nothing to do but to reach all positions. -/
theorem unreached_start (size maxLocals : Nat) : (start size maxLocals).unreached = size := by
  unfold unreached start
  rw [Array.toList_replicate, total_replicate]
  exact Nat.mul_one _

theorem height_start (size maxLocals : Nat) : (start size maxLocals).height = 0 := by
  unfold height start
  rw [Array.toList_replicate, total_replicate]
  rfl

theorem effort_start (size maxLocals : Nat) :
    (start size maxLocals).effort slots words = size * (1 + 3 * (slots + words)) := by
  unfold effort
  rw [unreached_start, height_start]
  exact Nat.zero_add _

theorem length_pending_reach (index : Nat) (s : FlowState) (p : FlowProgress) :
    (p.reach index s).pending.length ≤ p.pending.length + 1 := by
  unfold reach
  split
  · exact Nat.le_succ _
  · exact Nat.le_refl _

end FlowProgress

namespace FlowGraph

open FlowProgress

variable {g : FlowGraph} {slots words : Nat} {p q : FlowProgress}

/-- A search goes on from one progress to another at no cost: all states still fit, no position is
given up, and what there is to do has not become more. -/
structure Affords (slots words : Nat) (p q : FlowProgress) : Prop where
  fits : AllStates (fun _ => q.Fits slots words) q
  unreached_le : q.unreached ≤ p.unreached
  effort_le : q.effort slots words ≤ p.effort slots words

theorem Affords.trans {r : FlowProgress} (h : Affords slots words p q)
    (h' : Affords slots words q r) : Affords slots words p r where
  fits := h'.fits
  unreached_le := Nat.le_trans h'.unreached_le h.unreached_le
  effort_le := Nat.le_trans h'.effort_le h.effort_le

/-- Where a state that fits is put, all states fit as they did before. -/
theorem fits_reach {index : Nat} {s : FlowState} (hp : AllStates (fun _ => p.Fits slots words) p)
    (hindex : index < p.states.size) (hle : (p.reach index s).unreached ≤ p.unreached)
    (hs : (p.reach index s).Fits slots words s) :
    AllStates (fun _ => (p.reach index s).Fits slots words) (p.reach index s) := by
  intro i s' hs'
  rw [getElem?_states_reach s hindex] at hs'
  split at hs'
  · obtain rfl := Option.some.inj (Option.some.inj hs')
    exact hs
  · exact (hp i s' hs').mono hle

/-- A position that is reached for the first time pays for what can become of its state. -/
theorem affords_reach_new {index : Nat} {s : FlowState}
    (hp : AllStates (fun _ => p.Fits slots words) p) (hnew : p.states[index]? = some none)
    (hs : p.Fits slots (words + 2) s) : Affords slots words p (p.reach index s) := by
  have hindex := (Array.getElem?_eq_some_iff.mp hnew).1
  have hunreached := unreached_reach_new s hnew
  have hle : (p.reach index s).unreached ≤ p.unreached := by omega
  have hfits : (p.reach index s).Fits slots words s := by
    have hstack := hs.height
    exact ⟨hs.size, by omega⟩
  refine ⟨fits_reach hp hindex hle hfits, hle, ?_⟩
  have hpending := length_pending_reach index s p
  have hheight := height_reach_new s hnew
  have hrank := hfits.rank_le
  have hpaid : p.unreached * (1 + 3 * (slots + words)) =
      (p.reach index s).unreached * (1 + 3 * (slots + words)) + (1 + 3 * (slots + words)) := by
    rw [← hunreached, Nat.succ_mul]
  unfold effort
  omega

/-- A merge that changes a state pays with its rank. -/
theorem affords_reach_known {index : Nat} {existing s : FlowState}
    (hp : AllStates (fun _ => p.Fits slots words) p)
    (hknown : p.states[index]? = some (some existing)) (hsinks : existing.Sinks s)
    (hne : s ≠ existing) : Affords slots words p (p.reach index s) := by
  have hindex := (Array.getElem?_eq_some_iff.mp hknown).1
  have hunreached := unreached_reach_known s hknown
  have hfits : (p.reach index s).Fits slots words s := by
    have hexisting := hp _ _ hknown
    constructor
    · rw [hsinks.size]
      exact hexisting.size
    · rw [hsinks.covers.stack.length_eq, hunreached]
      exact hexisting.height
  refine ⟨fits_reach hp hindex (Nat.le_of_eq hunreached) hfits, Nat.le_of_eq hunreached, ?_⟩
  have hpending := length_pending_reach index s p
  have hheight := height_reach_known s hknown
  have hrank := hsinks.rank_lt hne
  unfold effort
  rw [hunreached]
  omega

/-- The slots are enough for the locals that frames declare, and for what instructions store. -/
structure Provides (g : FlowGraph) (slots : Nat) : Prop where
  hints : ∀ (r : Nat) (hint : FlowState), g.hints[r]? = some hint → hint.locals.size ≤ slots
  stores : ∀ (i : Nat) (ins : Instruction Label), g.events[i]? = some (.instr ins) →
    ins.storesBelow + 1 ≤ slots

variable (hslots : g.Provides slots)
include hslots

/-- An edge costs nothing beyond the visit that it is taken on. -/
theorem affords_of_flowTo {index : Nat} {incoming : FlowState}
    (hp : AllStates (fun _ => p.Fits slots words) p) (hincoming : p.Fits slots (words + 2) incoming)
    (h : g.flowTo index incoming p = .ok q) : Affords slots words p q := by
  obtain ⟨state, new, hstate, hreceives, rfl⟩ := flowTo_eq_ok.mp h
  have hraised : Affords slots words p (p.raiseStack incoming.stack.length) :=
    ⟨fun i s hs => (hp i s hs).mono (Nat.le_refl _), Nat.le_refl _, Nat.le_refl _⟩
  cases hreceives with
  | declared hhint hheight =>
    exact hraised.trans (affords_reach_new hraised.fits hstate
      ⟨hslots.hints index _ hhint, hheight ▸ hincoming.height⟩)
  | first =>
    exact hraised.trans (affords_reach_new hraised.fits hstate ⟨hincoming.size, hincoming.height⟩)
  | merged hhint hmerge hne =>
    exact hraised.trans
      (affords_reach_known hraised.fits hstate (FlowState.sinks_of_merge (hmerge 0)) hne)
  | known | same => exact hraised

theorem affords_of_flowAlong {edges : List (Nat × FlowState)}
    (hp : AllStates (fun _ => p.Fits slots words) p)
    (hedges : ∀ edge ∈ edges, p.Fits slots (words + 2) edge.2)
    (h : g.flowAlong edges p = .ok q) : Affords slots words p q := by
  induction edges generalizing p with
  | nil =>
    obtain rfl := Except.ok.inj h
    exact ⟨hp, Nat.le_refl _, Nat.le_refl _⟩
  | cons edge edges ih =>
    rw [List.forall_mem_cons] at hedges
    simp only [flowAlong] at h
    split at h
    · rename_i p₁ hflow
      have hone := affords_of_flowTo hslots hp hedges.1 hflow
      exact hone.trans (ih hone.fits (fun edge he => (hedges.2 edge he).mono hone.unreached_le) h)
    · cases h

/-- What leaves a state that fits has slots enough, and two words more at most. -/
theorem fits_of_mem_edges {index : Nat} {e : Event} {s : FlowState} {t : Transfer}
    (hs : p.Fits slots words s) (he : g.events[index]? = some e)
    (ht : g.transfer index e s = .ok t) :
    ∀ edge ∈ g.edges index e s t, p.Fits slots (words + 2) edge.2 := by
  have hafter : t.after.locals.size ≤ slots := by
    cases e with
    | label l =>
      obtain rfl := Except.ok.inj ht
      exact hs.size
    | instr i =>
      exact Nat.le_trans (leaves_of_transferInstruction ht).1.size_le_succ
        (Nat.max_le.mpr ⟨hs.size, hslots.stores index i he⟩)
  intro edge hedge
  constructor
  · rcases locals_of_mem_edges ht edge hedge with hlocals | hlocals
    · exact hlocals ▸ hs.size
    · exact hlocals ▸ hafter
  · have hbefore := hs.height
    have hheight := height_le_of_mem_edges ht edge hedge
    omega

/-- A visit takes one from what a search can still spend. -/
theorem affords_of_visit {index : Nat} {rest : List Nat}
    (hp : AllStates (fun _ => p.Fits slots words) p) (hpending : p.pending = index :: rest)
    (h : g.visit index (p.dequeue index rest) = .ok q) :
    AllStates (fun _ => q.Fits slots words) q ∧ q.effort slots words < p.effort slots words := by
  have hpaid : (p.dequeue index rest).effort slots words < p.effort slots words := by
    unfold effort
    rw [hpending, List.length_cons]
    have hunreached : (p.dequeue index rest).unreached = p.unreached := rfl
    have hheight : (p.dequeue index rest).height = p.height := rfl
    have hrest : (p.dequeue index rest).pending = rest := rfl
    rw [hunreached, hheight, hrest]
    omega
  cases visit_eq_ok.mp h with
  | @along e s t _ he hs ht hflow =>
    have hedges := fits_of_mem_edges hslots (hp index s hs) he ht
    have haffords := affords_of_flowAlong
      (p := ((p.dequeue index rest).raiseStack t.after.stack.length).raiseLocals
        t.after.locals.size)
      hslots (fun i s hs => (hp i s hs).mono (Nat.le_refl _))
      (fun edge hedge => (hedges edge hedge).mono (Nat.le_refl _)) hflow
    exact ⟨haffords.fits, Nat.lt_of_le_of_lt haffords.effort_le hpaid⟩
  | nowhere => exact ⟨fun i s hs => (hp i s hs).mono (Nat.le_refl _), hpaid⟩

end FlowGraph

/-! ### Searches that are cut off -/

namespace FlowGraph

/-- What a search has ended with after no more than a number of visits, if it has ended by then. -/
def outcomeWithin (g : FlowGraph) (visits : Nat) (p : FlowProgress) :
    Option (Except Error FlowProgress) :=
  match p.pending, visits with
  | [], _ => some (.ok p)
  | _ :: _, 0 => none
  | index :: rest, visits + 1 =>
    match g.visit index (p.dequeue index rest) with
    | .ok q => g.outcomeWithin visits q
    | .error e => some (.error e)

variable {g : FlowGraph} {slots words : Nat} {p : FlowProgress}

/-- A search that has as many visits as it can spend ends. -/
theorem outcomeWithin_of_effort_le (hslots : g.Provides slots)
    (hp : AllStates (fun _ => p.Fits slots words) p) {visits : Nat}
    (hvisits : p.effort slots words ≤ visits) :
    g.outcomeWithin visits p = some (g.solveFrom p) := by
  have hmore {p : FlowProgress} {index : Nat} {rest : List Nat} {visits : Nat}
      (hpending : p.pending = index :: rest) (hvisits : p.effort slots words ≤ visits) :
      ∃ more, visits = more + 1 := by
    unfold FlowProgress.effort at hvisits
    rw [hpending, List.length_cons] at hvisits
    exact ⟨visits - 1, by omega⟩
  fun_induction solveFrom g p generalizing visits with
  | case1 p hpending =>
    unfold outcomeWithin
    rw [hpending]
  | case2 p index rest hpending q hvisit ih =>
    obtain ⟨more, rfl⟩ := hmore hpending hvisits
    obtain ⟨hq, hlt⟩ := affords_of_visit hslots hp hpending hvisit
    unfold outcomeWithin
    simp only [hpending, hvisit]
    exact ih hq (by omega)
  | case3 p index rest hpending e hvisit =>
    obtain ⟨more, rfl⟩ := hmore hpending hvisits
    unfold outcomeWithin
    simp only [hpending, hvisit]

/-- The graph of some events, and the search in it in front of its first visit. -/
def enter (events : List Event) (handlers : List Handler) (frames : List (Label × Frame))
    (method : MethodContext) (maxLocals : UInt16) : Except Error (FlowGraph × FlowProgress) := do
  let g ← ofEvents events handlers frames method
  let entry := FlowState.ofFrame (← Frame.entry method)
  if events.isEmpty then
    throw (.malformed (.flow (.empty method.className method.methodName)))
  let p ← g.flowTo 0 entry (.start g.events.size (max entry.locals.size maxLocals.toNat))
  return (g, p)

end FlowGraph

namespace FlowSolution

/-- The slots that the values of a frame take among the locals. -/
def slotsOf (frame : Frame) : Nat := (VerificationType.toSlots frame.locals).length

/-- The slots that there are behind an event that stores there, at most. -/
def slotsBehind : Event → Nat
  | .label _ => 0
  | .instr i => i.storesBelow + 1

/-- The most slots that the locals of a state can take. -/
def mostSlots (events : List Event) (frames : List (Label × Frame)) (method : MethodContext) :
    Nat :=
  max (most slotsOf ((Frame.entry method).toOption.toList ++ frames.map (·.2)))
    (most slotsBehind events)

/-- The most visits that an analysis can take: one for every position, and one for every change of a
state, in which every slot and every word changes at most three times. -/
def mostVisits (events : List Event) (frames : List (Label × Frame)) (method : MethodContext) :
    Nat :=
  events.length * (1 + 3 * (mostSlots events frames method + 2 * events.length))

/-- An analysis that is cut off after a number of visits: its outcome, if it has come to one by
then. -/
def analyzeWithin (visits : Nat) (events : List Event) (handlers : List Handler)
    (frames : List (Label × Frame)) (method : MethodContext) (maxLocals : UInt16) :
    Option (Except Error FlowSolution) :=
  match FlowGraph.enter events handlers frames method maxLocals with
  | .ok (g, p) => (g.outcomeWithin visits p).map (· >>= ofProgress)
  | .error e => some (.error e)

variable {events : List Event} {handlers : List Handler} {frames : List (Label × Frame)}
  {method : MethodContext} {maxLocals : UInt16}

/-- An analysis enters the graph, and searches it from there. -/
theorem analyze_eq_enter : analyze events handlers frames method maxLocals =
    (do let (g, p) ← FlowGraph.enter events handlers frames method maxLocals
        ofProgress (← g.solveFrom p)) := by
  unfold analyze FlowGraph.enter
  cases FlowGraph.ofEvents events handlers frames method with
  | error e => rfl
  | ok g =>
    cases Frame.entry method with
    | error e => rfl
    | ok frame =>
      simp only [Bind.bind, Except.bind]
      cases events.isEmpty with
      | true => rfl
      | false =>
        cases g.flowTo 0 _ _ with
        | error e => rfl
        | ok p => rfl

/-! ### What an analysis begins with -/

/-- The locals of a frame, declared or on entry, have slots enough. -/
theorem size_ofFrame_le {frame : Frame}
    (h : Frame.entry method = .ok frame ∨ ∃ l, (l, frame) ∈ frames) :
    (FlowState.ofFrame frame).locals.size ≤ mostSlots events frames method := by
  have hmem : frame ∈ (Frame.entry method).toOption.toList ++ frames.map (·.2) := by
    rcases h with hentry | ⟨l, hframe⟩
    · exact List.mem_append_left _ (by rw [hentry]; exact List.mem_singleton_self _)
    · exact List.mem_append_right _ (List.mem_map_of_mem hframe)
  exact Nat.le_trans (le_most slotsOf hmem) (Nat.le_max_left _ _)

/-- Whatever an instruction stores to has slots enough. -/
theorem storesBelow_lt_mostSlots {ins : Instruction Label} (h : .instr ins ∈ events) :
    ins.storesBelow + 1 ≤ mostSlots events frames method :=
  Nat.le_trans (le_most slotsBehind h) (Nat.le_max_right _ _)

/-- An analysis begins with no more to spend than has been computed for it. -/
theorem affords_of_enter {g : FlowGraph} {p : FlowProgress}
    (h : FlowGraph.enter events handlers frames method maxLocals = .ok (g, p)) :
    g.Provides (mostSlots events frames method) ∧
    FlowGraph.AllStates (fun _ => p.Fits (mostSlots events frames method) (2 * events.length)) p ∧
    p.effort (mostSlots events frames method) (2 * events.length) ≤
      mostVisits events frames method := by
  obtain ⟨g', hg, h⟩ := Except.bind_eq_ok.mp h
  obtain ⟨frame, hframe, h⟩ := Except.bind_eq_ok.mp h
  split at h
  · exact absurd h Except.throw_ne_ok
  obtain ⟨p', hp, h⟩ := Except.bind_eq_ok.mp h
  obtain ⟨rfl, rfl⟩ := Prod.mk.inj (Except.pure_eq_ok.mp h)
  have hevents := (FlowGraph.isOf_of_ofEvents hg).events_eq
  have hsize : g'.events.size = events.length := by rw [hevents, List.size_toArray]
  have hslots : g'.Provides (mostSlots events frames method) := by
    refine ⟨fun r hint hhint => ?_, fun i ins hins => ?_⟩
    · obtain ⟨l, frame, hmem, -, rfl⟩ := FlowGraph.exists_frame_of_hint hg hhint
      exact size_ofFrame_le (.inr ⟨l, hmem⟩)
    · rw [hevents, List.getElem?_toArray] at hins
      exact storesBelow_lt_mostSlots (List.mem_of_getElem? hins)
  rw [hsize] at hp
  let begun :=
    FlowProgress.start events.length (max (FlowState.ofFrame frame).locals.size maxLocals.toNat)
  have hnone : FlowGraph.AllStates
      (fun _ => begun.Fits (mostSlots events frames method) (2 * events.length)) begun := by
    intro i s hs
    simp [begun, FlowProgress.start, Array.getElem?_replicate] at hs
  have hentry : begun.Fits (mostSlots events frames method) (2 * events.length + 2)
      (FlowState.ofFrame frame) := by
    refine ⟨size_ofFrame_le (.inl hframe), ?_⟩
    have hheight : (FlowState.ofFrame frame).stack.length = 0 := by
      rw [FlowState.ofFrame, Frame.stack_of_entry hframe]
      rfl
    rw [FlowProgress.unreached_start, hheight]
    omega
  have haffords := FlowGraph.affords_of_flowTo hslots hnone hentry hp
  refine ⟨hslots, haffords.fits, Nat.le_trans haffords.effort_le ?_⟩
  rw [FlowProgress.effort_start]
  exact Nat.le_refl _

/-- An analysis ends, whatever the events, the handlers, the frames and the method are: its search
takes no more visits than have been computed for it, and then there is a solution or an error. -/
theorem analyzeWithin_mostVisits (events : List Event) (handlers : List Handler)
    (frames : List (Label × Frame)) (method : MethodContext) (maxLocals : UInt16) :
    analyzeWithin (mostVisits events frames method) events handlers frames method maxLocals =
      some (analyze events handlers frames method maxLocals) := by
  rw [analyze_eq_enter]
  unfold analyzeWithin
  cases henter : FlowGraph.enter events handlers frames method maxLocals with
  | error e => rfl
  | ok entered =>
    obtain ⟨g, p⟩ := entered
    obtain ⟨hslots, hfits, hvisits⟩ := affords_of_enter henter
    have houtcome := FlowGraph.outcomeWithin_of_effort_le hslots hfits hvisits
    simp only [houtcome, Option.map_some]
    rfl

end FlowSolution
end ClassPatch
