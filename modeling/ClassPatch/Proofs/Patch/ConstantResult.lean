import ClassPatch.Proofs.Code.Limits
import ClassPatch.Proofs.Code.Recoding

/-!
# Methods that return a constant

The code that returns a constant stands between the labels that were in front of the first
instruction and all others. Control never comes to the labels behind it unless a handler guards the
new code, that is unless a handler guards the first instruction of the method: then the method
cannot be encoded any more. Otherwise nothing but a limit stands in the way.
-/

namespace ClassPatch

open PoolM

/-! ### The new code -/

namespace ConstantResult

variable {r : ConstantResult} {before behind : List Event}

/-- The new code between labels. -/
def codeBetween (r : ConstantResult) (before behind : List Event) : List Event :=
  before ++ (r.code ++ behind)

private theorem output_placed (context : MethodContext) (events : List Event) (s : PatchState) :
    (r.machine context).output true events s = .ok (events.filter (·.isLabel)) s := by
  induction events with
  | nil => rfl
  | cons e events ih =>
    cases e with
    | label l =>
      refine EStateM.bind_eq_ok.mpr ⟨_, s, rfl, EStateM.bind_eq_ok.mpr ⟨_, s, ih, rfl⟩⟩
    | instr i =>
      refine EStateM.bind_eq_ok.mpr ⟨_, s, rfl, EStateM.bind_eq_ok.mpr ⟨_, s, ih, rfl⟩⟩

/-- Labels stay, and the new code takes the place of the first instruction. -/
theorem run_eq (context : MethodContext) (hbefore : instructions before = [])
    (i : Instruction Label) (after : List Event) (s : PatchState) :
    (r.machine context).run (before ++ .instr i :: after) s =
      .ok (r.codeBetween before (after.filter (·.isLabel)))
        { s with log := s.log.push (.replacing context.className context.methodName) } := by
  rw [Machine.run_eq]
  show (r.machine context).output false _ s = _
  induction before with
  | nil =>
    exact EStateM.bind_eq_ok.mpr ⟨_, _, rfl,
      EStateM.bind_eq_ok.mpr ⟨_, _, output_placed context after _, rfl⟩⟩
  | cons e before ih =>
    cases e with
    | label l =>
      exact EStateM.bind_eq_ok.mpr ⟨_, s, rfl, EStateM.bind_eq_ok.mpr ⟨_, _, ih hbefore, rfl⟩⟩
    | instr i => simp at hbefore

variable (hbefore : instructions before = []) (hbehind : instructions behind = [])
include hbefore hbehind

theorem instructions_codeBetween :
    instructions (r.codeBetween before behind) = [.push r.value, .leave r.kind] := by
  simp [codeBetween, code, hbefore, hbehind]

theorem isConstantCode : ∀ e ∈ r.codeBetween before behind, e.IsConstantCode := by
  intro e he
  cases e with
  | label l => trivial
  | instr i =>
    have hi := mem_instructions.mpr he
    rw [instructions_codeBetween hbefore hbehind] at hi
    simp only [List.mem_cons, List.not_mem_nil, or_false] at hi
    rcases hi with rfl | rfl <;> trivial

omit hbehind

/-- The number of instructions in front of a position of the new code. -/
theorem numberAt_codeBetween {i : Nat} (hi : i < before.length + 2) :
    numberAt (r.codeBetween before behind) i = if i ≤ before.length then 0 else 1 := by
  unfold codeBetween numberAt
  rw [List.take_append, instructions_append, List.length_append]
  have hfront : instructions (before.take i) = [] :=
    List.eq_nil_iff_forall_not_mem.mpr fun ins hins => by
      have := mem_instructions.mpr (List.mem_of_mem_take (mem_instructions.mp hins))
      simp [hbefore] at this
  rw [hfront]
  split
  · rename_i hle
    simp [Nat.sub_eq_zero_of_le hle]
  · rename_i hlt
    obtain rfl : i = before.length + 1 := by omega
    simp [code]

omit hbefore

/-- What stands at a position of the new code. -/
theorem getElem?_codeBetween (hbefore : instructions before = []) {i : Nat} {e : Event}
    (hi : i < before.length + 2) (h : (r.codeBetween before behind)[i]? = some e) :
    (i < before.length ∧ ∃ l, e = .label l) ∨ (i = before.length ∧ e = .instr (.push r.value)) ∨
      (i = before.length + 1 ∧ e = .instr (.leave r.kind)) := by
  unfold codeBetween at h
  rcases Nat.lt_trichotomy i before.length with hlt | rfl | hlt
  · rw [List.getElem?_append_left hlt] at h
    refine .inl ⟨hlt, ?_⟩
    cases e with
    | label l => exact ⟨l, rfl⟩
    | instr ins =>
      have := mem_instructions.mpr (List.mem_of_getElem? h)
      simp [hbefore] at this
  · refine .inr (.inl ⟨rfl, ?_⟩)
    simpa [code, eq_comm] using h
  · obtain rfl : i = before.length + 1 := by omega
    refine .inr (.inr ⟨rfl, ?_⟩)
    simpa [code, eq_comm] using h

/-! ### Its analysis -/

open FlowGraph

/-- The words of a constant on the stack. -/
def words (t : VerificationType) : List VerificationType :=
  if t.isWide then [.top, t] else [t]

/-- A constant that does not come from the pool by an index has a type of its size. -/
theorem exists_verification {v : Value} (h : ¬v.IsIndexed) :
    ∃ t, v.verification = .ok t ∧ (words t).length = v.words := by
  cases v with
  | methodHandle index => exact absurd trivial h
  | dynamic index descriptor => exact absurd trivial h
  | _ => exact ⟨_, rfl, rfl⟩

variable {handlers : List Handler} {frames : List (Label × Frame)} {method : MethodContext}
  {g : FlowGraph}

theorem placedLabels_codeBetween : placedLabels (r.codeBetween before behind) =
    placedLabels before ++ placedLabels behind := by
  simp [codeBetween, code]

/-- Labels in front of the new code stand for its first instruction. -/
theorem landing_of_before (hbefore : instructions before = []) {l : Label}
    (hl : l ∈ placedLabels before) : landing (r.codeBetween before behind) l = 0 :=
  (landing_eq_zero_iff hbefore).mpr hl

/-- Labels behind the new code stand for its end. -/
theorem landing_of_behind (hbefore : instructions before = []) (hbehind : instructions behind = [])
    (hnodup : (placedLabels (r.codeBetween before behind)).Nodup) {l : Label}
    (hl : l ∈ placedLabels behind) : landing (r.codeBetween before behind) l = 2 := by
  obtain ⟨i, hi⟩ := List.getElem?_of_mem (mem_placedLabels.mp hl)
  have hat : (r.codeBetween before behind)[before.length + (i + 2)]? = some (.label l) := by
    rw [codeBetween, List.getElem?_append_right (Nat.le_add_right _ _), Nat.add_sub_cancel_left]
    exact hi
  have hleave :
      (r.codeBetween before behind)[before.length + 1]? = some (.instr (.leave r.kind)) := by
    simp [codeBetween, code]
  have hlower := numberAt_mono (r.codeBetween before behind)
    (show before.length + 1 + 1 ≤ before.length + (i + 2) by omega)
  rw [numberAt_instr hleave, numberAt_codeBetween hbefore (by omega), if_neg (by omega)] at hlower
  have hupper := numberAt_mono (r.codeBetween before behind)
    (Nat.le_of_lt (List.getElem?_eq_some_iff.mp hat).1)
  rw [numberAt_length, instructions_codeBetween hbefore hbehind] at hupper
  rw [landing_at hnodup hat]
  exact Nat.le_antisymm hupper hlower

/-- The states in the new code: nothing is on the stack until the constant is. -/
def Expects (before : List Event) (t : VerificationType) (i : Nat) (s : FlowState) : Prop :=
  i < before.length + 2 ∧ s.stack = if i ≤ before.length then [] else words t

section Safe

variable (hbefore : instructions before = []) (hbehind : instructions behind = [])
  (hg : FlowGraph.ofEvents (r.codeBetween before behind) handlers frames method = .ok g)
include hbefore hbehind hg

/-- Handlers behind the new code guard nothing of it. -/
private theorem handlerEdges_codeBetween
    (hunguarded : ∀ h ∈ handlers, h.start ∈ placedLabels behind) {i : Nat}
    (hi : i < before.length + 2) (s s' : FlowState) : g.handlerEdges i s s' = [] := by
  have hgraph := isOf_of_ofEvents hg
  refine List.flatMap_eq_nil_iff.mpr fun range hrange => if_neg fun hguarded => ?_
  simp only [Bool.and_eq_true, decide_eq_true_eq] at hguarded
  obtain ⟨h, hh, hstart, -, -⟩ := hgraph.ranges.exists_left hrange
  obtain ⟨-, -, -, hlanding⟩ := hgraph.position hstart
  rw [landing_of_behind hbefore hbehind hgraph.nodup (hunguarded h hh)] at hlanding
  have hle := numberAt_mono (r.codeBetween before behind) hguarded.1
  rw [← hlanding, numberAt_codeBetween hbefore hi] at hle
  split at hle <;> omega

/-- Frames in the new code are in front of the constant and have nothing on the stack. -/
private theorem expects_hint {t : VerificationType}
    (hframes : ∀ row ∈ frames, row.1 ∈ placedLabels before → row.2.stack = []) {i : Nat}
    {hint : FlowState} (hi : i < before.length + 2) (hhint : g.hints[i]? = some hint) :
    i ≤ before.length ∧ hint.stack = [] ∧ Expects before t i hint := by
  have hgraph := isOf_of_ofEvents hg
  obtain ⟨l, frame, hmem, hl, rfl⟩ := exists_frame_of_hint hg hhint
  obtain ⟨hplaced, -, -, hlanding⟩ := hgraph.position hl
  rw [numberAt_codeBetween hbefore hi] at hlanding
  have hplaced := mem_placedLabels.mpr hplaced
  rw [placedLabels_codeBetween, List.mem_append] at hplaced
  rcases hplaced with hl' | hl'
  · rw [landing_of_before hbefore hl'] at hlanding
    have hle : i ≤ before.length := by
      by_contra hnot
      rw [if_neg hnot] at hlanding
      omega
    have hempty : (FlowState.ofFrame frame).stack = [] := by
      rw [FlowState.ofFrame, show frame.stack = [] from hframes _ hmem hl']
      rfl
    exact ⟨hle, hempty, hi, by rw [hempty, if_pos hle]⟩
  · rw [landing_of_behind hbefore hbehind hgraph.nodup hl'] at hlanding
    split at hlanding <;> omega

/-- Labels change nothing, the constant is pushed and then returned. -/
private theorem exists_transfer_codeBetween {t : VerificationType}
    (ht : r.value.verification = .ok t) (hwords : (words t).length = resultWords r.kind)
    (hunguarded : ∀ h ∈ handlers, h.start ∈ placedLabels behind) {i : Nat} {s : FlowState}
    {e : Event} (hs : Expects before t i s) (he : g.events[i]? = some e) :
    ∃ t', g.transfer i e s = .ok t' ∧ ∀ {j : Nat} {incoming : FlowState},
      (j, incoming) ∈ g.edges i e s t' → Expects before t j incoming := by
  rw [(isOf_of_ofEvents hg).events_eq, List.getElem?_toArray] at he
  obtain ⟨hi, hstack⟩ := hs
  have hnone (s') : g.handlerEdges i s s' = [] :=
    handlerEdges_codeBetween hbefore hbehind hg hunguarded hi s s'
  rcases getElem?_codeBetween hbefore hi he with ⟨hlt, l, rfl⟩ | ⟨rfl, rfl⟩ | ⟨rfl, rfl⟩
  · refine ⟨.straight s, rfl, fun {j incoming} hmem => ?_⟩
    simp only [edges, hnone, Transfer.straight, Event.isTerminal] at hmem
    obtain ⟨rfl, rfl⟩ : j = i + 1 ∧ incoming = s := by simpa using hmem
    rw [if_pos (by omega)] at hstack
    exact ⟨by omega, by rw [if_pos (by omega), hstack]⟩
  · refine ⟨.straight (s.push t), transfer_instr_eq_ok.mpr (.push ht), fun {j incoming} hmem => ?_⟩
    simp only [edges, hnone, Transfer.straight, Event.isTerminal, Instruction.isTerminal] at hmem
    obtain ⟨rfl, rfl⟩ : j = before.length + 1 ∧ incoming = s.push t := by simpa using hmem
    rw [if_pos (Nat.le_refl _)] at hstack
    refine ⟨by omega, ?_⟩
    rw [if_neg (by omega), FlowState.push, hstack, words]
  · rw [if_neg (by omega)] at hstack
    have hpop : s.pop (resultWords r.kind) =
        .ok { s with stack := s.stack.drop (resultWords r.kind) } :=
      FlowState.pop_of_le (Nat.le_of_eq (by rw [hstack, hwords]))
    refine ⟨.straight _, transfer_instr_eq_ok.mpr (.leave hpop), fun {j incoming} hmem => ?_⟩
    simp [edges, hnone, Transfer.straight, Event.isTerminal, Instruction.isTerminal] at hmem

end Safe

/-- The new code is safe if it is not guarded and expects nothing on the stack. -/
theorem safe_codeBetween {t : VerificationType} (hbefore : instructions before = [])
    (hbehind : instructions behind = [])
    (hg : FlowGraph.ofEvents (r.codeBetween before behind) handlers frames method = .ok g)
    (ht : r.value.verification = .ok t) (hwords : (words t).length = resultWords r.kind)
    (hunguarded : ∀ h ∈ handlers, h.start ∈ placedLabels behind)
    (hframes : ∀ row ∈ frames, row.1 ∈ placedLabels before → row.2.stack = []) :
    g.Safe (Expects before t) where
  lt {i s} hs := by
    have hi := hs.1
    rw [(isOf_of_ofEvents hg).events_eq]
    simp [codeBetween, code]
    omega
  hint {i s hint} hs hhint := by
    obtain ⟨hle, hempty, hexpects⟩ := expects_hint hbefore hbehind hg hframes hs.1 hhint
    have hstack := hs.2
    rw [if_pos hle] at hstack
    exact ⟨by rw [hempty, hstack], hexpects⟩
  merge {i s s'} _ hs hs' := by
    refine ⟨_, FlowState.merge_of_stack ?_, hs.1, hs.2⟩
    rw [hs.2, hs'.2]
    exact List.forall₂_same.mpr fun t _ => VerificationType.covers_refl t
  step hs he := exists_transfer_codeBetween hbefore hbehind hg ht hwords hunguarded hs he

/-- Events of the new code fail only on their states. -/
theorem fault_of_transfer {t : VerificationType} (ht : r.value.verification = .ok t)
    (hbefore : instructions before = []) (hbehind : instructions behind = []) {i : Nat} {e : Event}
    {s : FlowState} {error : Error} (he : e ∈ r.codeBetween before behind)
    (h : g.transfer i e s = .error error) : ∃ fault, error = .malformed (.flow fault) := by
  cases e with
  | label l => cases h
  | instr ins =>
    have hins := mem_instructions.mpr he
    rw [instructions_codeBetween hbefore hbehind] at hins
    simp only [List.mem_cons, List.not_mem_nil, or_false] at hins
    rcases hins with rfl | rfl
    · simp only [transfer, transferInstruction, ht] at h
      cases h
    · simp only [transfer, transferInstruction, FlowState.pop] at h
      split at h
      · cases h
      · exact ⟨_, (Except.error.inj h).symm⟩

/-- A handler that guards the new code is entered, and control falls off the end behind it. -/
theorem search_ne_ok (hbefore : instructions before = []) (hbehind : instructions behind = [])
    (hg : FlowGraph.ofEvents (r.codeBetween before behind) handlers frames method = .ok g)
    {entry : FlowState} (hentry : entry.stack = []) {h : Handler} (hh : h ∈ handlers)
    (hstart : h.start ∈ placedLabels before) (hstop : h.stop ∈ placedLabels behind)
    {maxLocals : Nat} {p : FlowProgress} : g.search entry maxLocals ≠ .ok p := by
  intro hsearch
  have hcomplete := complete_of_search hsearch
  have hgraph := isOf_of_ofEvents hg
  have hzero {l : Label} {i : Nat} (hl : l ∈ placedLabels before) (hi : g.position l = .ok i) :
      i = 0 := by
    obtain ⟨-, hrow, -, hlanding⟩ := hgraph.position hi
    rw [landing_of_before hbefore hl] at hlanding
    cases i with
    | zero => rfl
    | succ i =>
      obtain ⟨ins, hins⟩ := hrow i rfl
      rw [numberAt_instr hins] at hlanding
      omega
  obtain ⟨range, hrange, hrstart, hrstop, hrtarget⟩ := hgraph.ranges.exists_right hh
  have hstart := hzero hstart hrstart
  have hstop : 0 < range.stop := by
    obtain ⟨-, -, -, hlanding⟩ := hgraph.position hrstop
    rw [landing_of_behind hbefore hbehind hgraph.nodup hstop] at hlanding
    exact Nat.pos_of_ne_zero fun heq => by simp [heq] at hlanding
  obtain ⟨s, hs, hheight, -⟩ := hcomplete.entered.state
  obtain ⟨e, t, hpassed⟩ := hcomplete.passes hs
  have hedge : (range.target, caughtState range s.locals) ∈ g.edges 0 e s t := by
    refine List.mem_append_left _
      (List.mem_append_left _ (List.mem_flatMap.mpr ⟨range, hrange, ?_⟩))
    rw [if_pos (by simp [hstart, hstop])]
    exact List.mem_cons_self ..
  obtain ⟨s', hs', hheight', -⟩ := (hpassed.absorbed hedge).state
  obtain ⟨hplaced, -, -, hlanding⟩ := hgraph.position hrtarget
  have hplaced := mem_placedLabels.mpr hplaced
  rw [placedLabels_codeBetween, List.mem_append] at hplaced
  rcases hplaced with htarget | htarget
  · rw [hzero htarget hrtarget, hs] at hs'
    obtain rfl := Option.some.inj (Option.some.inj hs')
    rw [hheight, hentry] at hheight'
    cases hheight'
  · have hlt := hgraph.reaches_lt hcomplete (hgraph.reaches (hcomplete.visits hs'))
    rw [← hlanding, landing_of_behind hbefore hbehind hgraph.nodup htarget,
      instructions_codeBetween hbefore hbehind] at hlt
    exact Nat.lt_irrefl 2 hlt

variable {maxLocals : UInt16} {frame : Frame}

theorem codeBetween_ne_nil : r.codeBetween before behind ≠ [] := by
  simp [codeBetween, code]

/-- New code that is guarded is at fault. -/
theorem analyze_of_guarded {t : VerificationType} (ht : r.value.verification = .ok t)
    (hbefore : instructions before = []) (hbehind : instructions behind = [])
    (hg : FlowGraph.ofEvents (r.codeBetween before behind) handlers frames method = .ok g)
    (hframe : Frame.entry method = .ok frame) {h : Handler} (hh : h ∈ handlers)
    (hstart : h.start ∈ placedLabels before) (hstop : h.stop ∈ placedLabels behind)
    (maxLocals : UInt16) :
    ∃ fault, analyze (r.codeBetween before behind) handlers frames method maxLocals =
      .error (.malformed (.flow fault)) := by
  have hentry : (FlowState.ofFrame frame).stack = [] := by
    obtain ⟨d, -, hpure⟩ := Except.bind_eq_ok.mp hframe
    obtain rfl := Except.pure_eq_ok.mp hpure
    rfl
  rw [FlowSolution.analyze_eq codeBetween_ne_nil hg hframe]
  cases hsearch : g.search (.ofFrame frame) maxLocals.toNat with
  | ok p => exact absurd hsearch (search_ne_ok hbefore hbehind hg hentry hh hstart hstop)
  | error e =>
    rcases fails_of_search hsearch with ⟨fault, rfl⟩ | ⟨i, event, s, hevent, htransfer⟩
    · exact ⟨fault, rfl⟩
    · rw [(isOf_of_ofEvents hg).events_eq, List.getElem?_toArray] at hevent
      obtain ⟨fault, rfl⟩ :=
        fault_of_transfer ht hbefore hbehind (List.mem_of_getElem? hevent) htransfer
      exact ⟨fault, rfl⟩

/-- New code that is not guarded keeps to what the limits permit. -/
theorem limit_of_analyze {t : VerificationType} (ht : r.value.verification = .ok t)
    (hwords : (words t).length = resultWords r.kind) (hbefore : instructions before = [])
    (hbehind : instructions behind = [])
    (hg : FlowGraph.ofEvents (r.codeBetween before behind) handlers frames method = .ok g)
    (hframe : Frame.entry method = .ok frame)
    (hunguarded : ∀ h ∈ handlers, h.start ∈ placedLabels behind)
    (hframes : ∀ row ∈ frames, row.1 ∈ placedLabels before → row.2.stack = []) {e : Error}
    (h : analyze (r.codeBetween before behind) handlers frames method maxLocals = .error e) :
    ∃ limit, e = .limitExceeded limit := by
  have hentry : Expects before t 0 (.ofFrame frame) := by
    obtain ⟨d, -, hpure⟩ := Except.bind_eq_ok.mp hframe
    obtain rfl := Except.pure_eq_ok.mp hpure
    exact ⟨by omega, by rw [if_pos (Nat.zero_le _)]; rfl⟩
  have hsafe := safe_codeBetween hbefore hbehind hg ht hwords hunguarded hframes
  obtain ⟨p, hp, -⟩ := hsafe.exists_search hentry maxLocals.toNat
  rw [FlowSolution.analyze_eq codeBetween_ne_nil hg hframe, hp] at h
  rcases FlowSolution.ofProgress_cases p with ⟨solution, hok⟩ | ⟨limit, herror⟩
  · cases hok.symm.trans h
  · exact ⟨limit, Except.error.inj (h.symm.trans herror)⟩

end ConstantResult

/-! ### Encoding it -/

namespace ConstantResult

/-- A body that has the new code, with its labels in order. -/
structure IsCodeOf (r : ConstantResult) (before behind : List Event) (body : Body)
    (method : MethodContext) : Prop where
  events : body.events = r.codeBetween before behind
  front : instructions before = []
  back : instructions behind = []
  nodup : (placedLabels body.events).Nodup
  placed : ∀ l ∈ body.references, l ∈ placedLabels body.events
  verification : ∃ t, r.value.verification = .ok t ∧ (words t).length = resultWords r.kind
  frames : ∀ row ∈ body.frames, row.1 ∈ placedLabels before → row.2.stack = []
  entry : ∃ frame, Frame.entry method = .ok frame

namespace IsCodeOf

variable {r : ConstantResult} {before behind : List Event} {body : Body} {method : MethodContext}
  {pool : ConstantPool}

theorem exists_graph (h : r.IsCodeOf before behind body method) :
    ∃ g, FlowGraph.ofEvents (r.codeBetween before behind) body.handlers body.frames method =
      .ok g := by
  have hnodup := h.nodup
  have hplaced := h.placed
  rw [h.events] at hnodup hplaced
  refine FlowGraph.exists_ofEvents hnodup (fun handler hh l hl => hplaced l ?_) _ _
  simp only [Body.references, List.mem_append, List.mem_flatMap]
  exact .inl (.inl (.inr ⟨handler, hh, hl⟩))

theorem map_event (h : r.IsCodeOf before behind body method) :
    (body.events.map fun e => (⟨e, false⟩ : LayoutEvent)).map (·.event) =
      r.codeBetween before behind := by
  simp [Function.comp_def, h.events]

theorem looseCount_eq_zero (h : r.IsCodeOf before behind body method) :
    looseCount (body.events.map fun e => ⟨e, false⟩) = 0 := by
  refine List.countP_eq_zero.mpr fun e he => ?_
  obtain ⟨event, hevent, rfl⟩ := List.mem_map.mp he
  rw [h.events] at hevent
  have hconstant := isConstantCode h.front h.back event hevent
  cases event with
  | label l => simp [LayoutEvent.isLoose]
  | instr i =>
    cases i with
    | push _ | leave _ => simp [LayoutEvent.isLoose]
    | _ => exact hconstant.elim

theorem checkLabels (h : r.IsCodeOf before behind body method) : body.checkLabels = .ok () :=
  Body.checkLabels_of_placed h.nodup h.placed

/-- If the new code is guarded it cannot be encoded, and the pool stays as it is. -/
theorem encode_of_guarded (h : r.IsCodeOf before behind body method) {handler : Handler}
    (hh : handler ∈ body.handlers) (hstart : handler.start ∈ placedLabels before)
    (hstop : handler.stop ∈ placedLabels behind) :
    ∃ fault, body.encode method pool = .error (.malformed (.flow fault)) pool := by
  obtain ⟨g, hg⟩ := h.exists_graph
  obtain ⟨t, ht, -⟩ := h.verification
  obtain ⟨frame, hframe⟩ := h.entry
  obtain ⟨fault, hfault⟩ := analyze_of_guarded ht h.front h.back hg hframe hh hstart hstop
    body.maxLocals
  refine ⟨fault, ?_⟩
  unfold Body.encode
  rw [h.checkLabels, Layout.ofBody, Layout.ofEvents_eq, h.map_event, hfault]
  rfl

/-- If nothing guards the new code it is laid out as it is. -/
theorem madeIn (h : r.IsCodeOf before behind body method) {p : ConstantPool} (hp : p.WellFormed)
    {layout : Layout} (hlayout : Finds (Layout.ofBody body method) p layout) :
    layout.MadeIn p ∧ layout.placed.map (·.event) = r.codeBetween before behind := by
  obtain ⟨solution, sized, hisOf⟩ := Layout.isOf_of_not_loose hp h.looseCount_eq_zero hlayout
  refine ⟨hisOf.madeIn hp, ?_⟩
  have hplaced := hisOf.map_settle hp
  rw [hisOf.settled, Layout.map_prune_of_reached (FlowSolution.follows hisOf.analyzed)] at hplaced
  · rw [← h.map_event, ← hplaced, List.map_map]
    rfl
  · rw [h.map_event, instructions_codeBetween h.front h.back]
    have hprogram : program (r.codeBetween before behind) = [.push r.value, .leave r.kind] := by
      rw [program, instructions_codeBetween h.front h.back]
      rfl
    intro n hn
    have hfirst : Reaches (program (r.codeBetween before behind))
      (guards (r.codeBetween before behind) body.handlers) 0 := .entry
    have hn : n = 0 ∨ n = 1 := by
      simp at hn
      omega
    rcases hn with rfl | rfl
    · exact hfirst
    · exact hfirst.next (by rw [hprogram]; rfl) rfl

/-- Handlers that do not guard the new code guard nothing. -/
theorem not_lt (h : r.IsCodeOf before behind body method) {p : ConstantPool} {layout : Layout}
    (hmade : layout.MadeIn p) (hplaced : layout.placed.map (·.event) = r.codeBetween before behind)
    (hunguarded : ∀ handler ∈ body.handlers, handler.start ∈ placedLabels behind) :
    ∀ handler ∈ body.handlers, ¬layout.offset handler.start < layout.offset handler.stop := by
  intro handler hh hlt
  have hend : layout.placed.map (·.event) = (before ++ r.code) ++ behind := by
    rw [hplaced, codeBetween, List.append_assoc]
  rw [hmade.offset_eq_length hend h.back (hunguarded handler hh)] at hlt
  exact absurd (hmade.offset_le handler.stop) (Nat.not_le_of_lt hlt)

theorem resolves (h : r.IsCodeOf before behind body method) {p : ConstantPool} {layout : Layout}
    (hmade : layout.MadeIn p)
    (hplaced : layout.placed.map (·.event) = r.codeBetween before behind) :
    ∀ l ∈ body.references, layout.Resolves l := by
  intro l hl
  refine hmade.resolves ?_
  rw [hplaced, ← h.events]
  exact h.placed l hl

/-- If nothing guards the new code only a limit keeps it from being encoded. -/
theorem limited_encode (h : r.IsCodeOf before behind body method)
    (hunguarded : ∀ handler ∈ body.handlers, handler.start ∈ placedLabels behind)
    (hattributes : ∀ a ∈ body.attributes, CodeAttribute.IsOther pool a) :
    Limited pool (body.encode method) := by
  obtain ⟨g, hg⟩ := h.exists_graph
  obtain ⟨t, ht, hwords⟩ := h.verification
  obtain ⟨frame, hframe⟩ := h.entry
  have hlayout : Limited pool (Layout.ofBody body method) :=
    Layout.limited_ofEvents h.looseCount_eq_zero fun e he => by
      rw [h.map_event] at he
      exact limit_of_analyze ht hwords h.front h.back hg hframe hunguarded h.frames he
  refine Body.failsBy_encode (fun limit => ⟨limit, rfl⟩) (.of_eq_ok h.checkLabels) hlayout
    fun {q layout} hq hwf _ hfinds => ?_
  obtain ⟨hmade, hplaced⟩ := h.madeIn hwf hfinds
  refine CodeWriter.limited_payload (fun e he => ?_) (h.resolves hmade hplaced)
    (h.not_lt hmade hplaced hunguarded) fun a ha => (hattributes a ha).mono hq
  have hmem : e.event ∈ r.codeBetween before behind := hplaced ▸ List.mem_map_of_mem he
  exact isConstantCode h.front h.back _ hmem

/-- What is written of the new code has its two instructions and no handlers. -/
theorem exists_decode (h : r.IsCodeOf before behind body method)
    (hunguarded : ∀ handler ∈ body.handlers, handler.start ∈ placedLabels behind)
    {p : ConstantPool} (hp : p.WellFormed) (hproper : body.ProperIn p) {code : Bytes}
    (hencode : Finds (body.encode method) p code) :
    ∃ result, Body.decode code p method = .ok result ∧
      instructions result.events = [.push r.value, .leave r.kind] ∧ result.handlers = [] := by
  obtain ⟨layout, parts, hencoded⟩ := Body.exists_encodedAs hp hproper hencode
  obtain ⟨marks, frames, -, hmarks, htable, hdecode⟩ := hencoded.decode hp hproper
  obtain ⟨hmade, hplaced⟩ := h.madeIn hp hencoded.ofBody
  refine ⟨_, hdecode, ?_, ?_⟩
  · have hprogram := Layout.program_reread (q := p) hencoded.made hencoded.written hmarks htable
    rw [hplaced, program, program, instructions_codeBetween h.front h.back] at hprogram
    obtain ⟨push, rest, hinstructions, hpush, hrest⟩ := List.map_eq_cons_iff.mp hprogram
    obtain ⟨leave, rest, rfl, hleave, hrest⟩ := List.map_eq_cons_iff.mp hrest
    obtain rfl := List.map_eq_nil_iff.mp hrest
    rw [hinstructions, Instruction.map_eq_push.mp hpush, Instruction.map_eq_leave.mp hleave]
  · obtain ⟨placed, hplacedHandlers, hhandlers⟩ := hencoded.areOf.handlers
    have hresolves := h.resolves hmade hplaced
    simp only [Body.references, List.mem_append, List.mem_flatMap, or_imp, forall_and,
      forall_exists_index, and_imp] at hresolves
    rw [CodeWriter.mapM_placeHandler_of_not_lt (fun handler hh l hl =>
      hresolves.1.1.2 l handler hh hl) (h.not_lt hmade hplaced hunguarded)] at hplacedHandlers
    obtain rfl := finds_pure.mp hplacedHandlers
    have hnil : parts.handlers = [] := by simp [hhandlers]
    simp [Layout.reread, hnil]

end IsCodeOf

theorem placedLabels_filter (events : List Event) :
    placedLabels (events.filter (·.isLabel)) = placedLabels events := by
  induction events with
  | nil => rfl
  | cons e events ih =>
    cases e with
    | label l => exact congrArg (l :: ·) ih
    | instr i => exact ih

theorem instructions_filter (events : List Event) :
    instructions (events.filter (·.isLabel)) = [] := by
  induction events with
  | nil => rfl
  | cons e events ih => cases e <;> exact ih

/-- A decoded body becomes one with the new code. -/
theorem isCodeOf_of_decode {r : ConstantResult} {data : Bytes} {pool : ConstantPool} {body : Body}
    {method : MethodContext} (hdecoded : Body.decode data pool method = .ok body)
    {before after : List Event} {i : Instruction Label}
    (hevents : body.events = before ++ .instr i :: after) (hbefore : instructions before = [])
    (hvalue : ¬r.value.IsIndexed) (hwords : r.value.words = resultWords r.kind)
    (hframes : ∀ row ∈ body.frames, landing body.events row.1 = 0 → row.2.stack = []) :
    r.IsCodeOf before (after.filter (·.isLabel))
      { body with events := r.codeBetween before (after.filter (·.isLabel)) } method := by
  have hlabelled := Body.labelled_of_decode hdecoded
  have hlabels : placedLabels (r.codeBetween before (after.filter (·.isLabel))) =
      placedLabels body.events := by
    rw [placedLabels_codeBetween, placedLabels_filter, hevents]
    simp
  obtain ⟨t, ht, hlength⟩ := exists_verification hvalue
  refine ⟨rfl, hbefore, instructions_filter after, ?_, fun l hl => ?_,
    ⟨t, ht, hlength.trans hwords⟩, fun row hrow hl => ?_, Body.exists_entry_of_decode hdecoded⟩
  · rw [hlabels]
    exact hlabelled.nodup
  · rw [hlabels]
    refine hlabelled.placed l ?_
    simp only [Body.references, List.append_assoc, List.mem_append] at hl ⊢
    refine hl.elim (fun hl => ?_) .inr
    obtain ⟨e, he, hl⟩ := List.mem_flatMap.mp hl
    rw [(isConstantCode hbefore (instructions_filter after) e he).targets_eq] at hl
    simp at hl
  · refine hframes row hrow ?_
    rw [hevents]
    exact (landing_eq_zero_iff hbefore).mpr hl

end ConstantResult

/-- A decoded body can be made to return any constant that does not come from the pool by an index,
as long as it takes the words of the result. The body that this makes cannot be encoded if a handler
guards the first instruction: then it is at fault. Otherwise only a limit keeps it from being
encoded, and what is written has the new instructions and no handlers. -/
theorem Body.encode_constantResult {r : ConstantResult} {data : Bytes} {pool : ConstantPool}
    {body : Body} {method context : MethodContext} (log : Log) (hpool : pool.WellFormed)
    (hdecoded : Body.decode data pool method = .ok body) (hvalue : ¬r.value.IsIndexed)
    (hwords : r.value.words = resultWords r.kind)
    (hframes : ∀ row ∈ body.frames, landing body.events row.1 = 0 → row.2.stack = []) :
    ∃ events state,
      (Strategy.constantResult r).run context body.events ⟨body.labels, log⟩ = .ok events state ∧
      let replaced : Body := { body with events, labels := state.labels }
      ((∃ h ∈ body.handlers, landing body.events h.start = 0) →
        ∃ fault, replaced.encode method pool = .error (.malformed (.flow fault)) pool) ∧
      ((∀ h ∈ body.handlers, landing body.events h.start ≠ 0) →
        (∃ limit pool', replaced.encode method pool = .error (.limitExceeded limit) pool') ∨
        ∃ code pool' result, replaced.encode method pool = .ok code pool' ∧
          Body.decode code pool' method = .ok result ∧
          instructions result.events = [.push r.value, .leave r.kind] ∧ result.handlers = []) := by
  have hlabelled := Body.labelled_of_decode hdecoded
  obtain ⟨before, i, after, hevents, hbefore, hfirst⟩ := hlabelled.first
  have hcode := ConstantResult.isCodeOf_of_decode hdecoded hevents hbefore hvalue hwords hframes
  have hhandlers {h : Handler} (hh : h ∈ body.handlers) {l : Label}
      (hl : l ∈ [h.start, h.stop, h.target]) (hnot : l ∉ ClassPatch.placedLabels before) :
      l ∈ ClassPatch.placedLabels (after.filter (·.isLabel)) := by
    have hmem : l ∈ ClassPatch.placedLabels body.events := by
      refine hlabelled.placed l ?_
      simp only [Body.references, List.mem_append, List.mem_flatMap]
      exact .inl (.inl (.inr ⟨h, hh, hl⟩))
    rw [hevents, placedLabels_append, placedLabels_instr] at hmem
    rw [ConstantResult.placedLabels_filter]
    exact (List.mem_append.mp hmem).resolve_left hnot
  refine ⟨_, _, by rw [hevents]; exact ConstantResult.run_eq context hbefore i after _, ?_⟩
  simp only [hevents, ne_eq, landing_eq_zero_iff hbefore]
  constructor
  · rintro ⟨h, hh, hstart⟩
    refine hcode.encode_of_guarded hh hstart (hhandlers hh (by simp) fun hstop => ?_)
    -- All labels in front of the first instruction are one.
    have heq := (hfirst _ hstart).symm.trans (hfirst _ hstop)
    exact hlabelled.guarded h hh (by simpa using heq)
  · intro hunguarded
    have hunguarded' : ∀ h ∈ body.handlers,
        h.start ∈ ClassPatch.placedLabels (after.filter (·.isLabel)) :=
      fun h hh => hhandlers hh (by simp) (hunguarded h hh)
    have hproper := Body.properIn_of_decode hdecoded
    have hlimited := hcode.limited_encode hunguarded' hproper.attributes
    have hle := ConstantPool.le_refl pool
    cases hencode : Body.encode _ method pool with
    | error e pool' =>
      obtain ⟨limit, rfl⟩ := hlimited.fails hle hpool hencode
      exact .inl ⟨limit, pool', rfl⟩
    | ok code pool' =>
      have hrun :
          (Strategy.constantResult r).run context body.events ⟨body.labels, log⟩ = .ok _ _ :=
        hevents ▸ ConstantResult.run_eq context hbefore i after _
      have hpushes : (Strategy.constantResult r).PushesNoIndex := hvalue
      have hrewritten := Body.Rewritten.refl.step hpushes hrun
      obtain ⟨result, hdecode, hinstructions, hnil⟩ := hcode.exists_decode hunguarded'
        (hlimited.steady.wellFormed hpool hencode)
        ((hrewritten.properIn hproper).mono (hlimited.steady.le hpool hencode))
        (hlimited.steady.finds hpool hencode)
      exact .inr ⟨code, pool', result, rfl, hdecode, hinstructions, hnil⟩

/-- The code `iconst_2 ireturn athrow`, whose `ireturn` is guarded by a handler at the `athrow`, is
made to return seven: the handler is left out. -/
theorem Body.encode_constantResult_unguarded :
    let method : MethodContext := ⟨"A", "m", "()I", true, 52⟩
    let r : ConstantResult := ⟨.int 7, some .int⟩
    let body : Body := ⟨1, 0, [.instr (.push (.int 2)), .label ⟨0⟩, .instr (.leave (some .int)),
      .label ⟨1⟩, .instr (.plain Opcode.athrow)], [⟨⟨0⟩, ⟨1⟩, ⟨1⟩, none⟩], [], [], [], [], [], ⟨2⟩⟩
    (∀ h ∈ body.handlers, landing body.events h.start ≠ 0) ∧ ∃ events state,
      (Strategy.constantResult r).run method body.events ⟨body.labels, #[]⟩ = .ok events state ∧
      let replaced : Body := { body with events, labels := state.labels }
      ((∃ h ∈ body.handlers, landing body.events h.start = 0) →
        ∃ fault, replaced.encode method .empty = .error (.malformed (.flow fault)) .empty) ∧
      ((∀ h ∈ body.handlers, landing body.events h.start ≠ 0) →
        (∃ limit pool', replaced.encode method .empty = .error (.limitExceeded limit) pool') ∨
        ∃ code pool' result, replaced.encode method .empty = .ok code pool' ∧
          Body.decode code pool' method = .ok result ∧
          instructions result.events = [.push r.value, .leave r.kind] ∧ result.handlers = []) := by
  intro method r body
  have hdecoded :
      Body.decode [0, 1, 0, 0, 0, 0, 0, 3, 5, 172, 191, 0, 1, 0, 1, 0, 2, 0, 2, 0, 0, 0, 0] .empty
        method = .ok body := by
    cbv
  exact ⟨by decide, Body.encode_constantResult #[] ConstantPool.wellFormed_empty hdecoded
    (fun h => h) rfl (by decide)⟩

/-- The same code cannot be made to return seven if the handler also guards the `iconst_2`. -/
theorem Body.encode_constantResult_guarded :
    let method : MethodContext := ⟨"A", "m", "()I", true, 52⟩
    let r : ConstantResult := ⟨.int 7, some .int⟩
    ¬r.value.IsIndexed ∧ r.value.words = resultWords r.kind ∧ ∃ body events state,
      Body.decode [0, 1, 0, 0, 0, 0, 0, 3, 5, 172, 191, 0, 1, 0, 0, 0, 2, 0, 2, 0, 0, 0, 0]
        .empty method = .ok body ∧ body.frames = [] ∧
      (Strategy.constantResult r).run method body.events ⟨body.labels, #[]⟩ = .ok events state ∧
      ∃ fault, { body with events, labels := state.labels }.encode method .empty =
        .error (.malformed (.flow fault)) .empty := by
  intro method r
  let body : Body := ⟨1, 0, [.label ⟨0⟩, .instr (.push (.int 2)), .instr (.leave (some .int)),
    .label ⟨1⟩, .instr (.plain Opcode.athrow)], [⟨⟨0⟩, ⟨1⟩, ⟨1⟩, none⟩], [], [], [], [], [], ⟨2⟩⟩
  have hdecoded :
      Body.decode [0, 1, 0, 0, 0, 0, 0, 3, 5, 172, 191, 0, 1, 0, 0, 0, 2, 0, 2, 0, 0, 0, 0] .empty
        method = .ok body := by
    cbv
  have hrun : (Strategy.constantResult r).run method body.events ⟨body.labels, #[]⟩ =
      .ok (r.codeBetween [.label ⟨0⟩] [.label ⟨1⟩]) ⟨⟨2⟩, #[.replacing "A" "m"]⟩ := by
    cbv
  have hvalue : ¬r.value.IsIndexed := fun h => h
  have hevents : body.events = [.label ⟨0⟩] ++ .instr (.push (.int 2)) ::
      [.instr (.leave (some .int)), .label ⟨1⟩, .instr (.plain Opcode.athrow)] := rfl
  have hcode := ConstantResult.isCodeOf_of_decode hdecoded hevents rfl hvalue rfl (by decide)
  exact ⟨hvalue, rfl, body, _, _, hdecoded, rfl, hrun,
    hcode.encode_of_guarded (List.mem_singleton.mpr rfl) (by decide) (by decide)⟩

end ClassPatch
