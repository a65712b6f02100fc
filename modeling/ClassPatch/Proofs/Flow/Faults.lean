import ClassPatch.Proofs.Code.LabelSupply
import ClassPatch.Proofs.Flow.Reachability
import ClassPatch.Proofs.Flow.Safety

/-!
# What an analysis fails with

Where every label that events refer to is placed once, and one stands in front of every `new`, an
analysis fails only at faults of the code and at limits. If a label is placed twice, that is the
error.
-/

namespace ClassPatch

/-- The error is a fault of the code. -/
abbrev Error.IsFault (e : Error) : Prop := ∃ fault, e = .malformed fault

open Except (FailsBy)
open Error (IsFault)

/-! ### Descriptors -/

namespace FieldType

theorem failsBy_readClass (text rest : List Char) : FailsBy IsFault (readClass text rest) := by
  unfold readClass
  split
  · exact .error ⟨_, rfl⟩
  · exact .error ⟨_, rfl⟩
  · exact .ok _

theorem failsBy_read (text : List Char) : FailsBy IsFault (read text) := by
  fun_induction read text with
  | case1 => exact .error ⟨_, rfl⟩
  | case10 rest => exact failsBy_readClass _ _
  | case12 rest e herror ih => exact .error (ih e herror)
  | case13 => exact .error ⟨_, rfl⟩
  | _ => exact .ok _

theorem failsBy_parse (text : String) : FailsBy IsFault (parse text) := by
  unfold parse
  split
  · exact .ok _
  · exact .error ⟨_, rfl⟩
  · rename_i e herror
    exact .error (failsBy_read _ e herror)

end FieldType

namespace MethodDescriptor

theorem failsBy_readParameters (before : List FieldType) (text : List Char) :
    FailsBy IsFault (readParameters before text) := by
  fun_induction readParameters before text with
  | case1 => exact .ok _
  | case2 before text hopen t rest hread ih => exact ih
  | case3 before text hopen e herror => exact .error (FieldType.failsBy_read text e herror)

theorem failsBy_readResult (text : List Char) : FailsBy IsFault (readResult text) := by
  unfold readResult
  split
  · exact .ok _
  · exact (FieldType.failsBy_parse _).map _

theorem failsBy_parse (text : String) : FailsBy IsFault (parse text) := by
  unfold parse
  split
  · exact (failsBy_readParameters [] _).bind fun _ _ => (failsBy_readResult _).bind fun _ _ =>
      .pure _
  · exact .error ⟨_, rfl⟩

end MethodDescriptor

theorem Value.failsBy_verification (v : Value) : FailsBy IsFault v.verification := by
  cases v with
  | dynamic index descriptor => exact (FieldType.failsBy_parse descriptor).map _
  | _ => exact .ok _

/-! ### Instructions -/

namespace FlowState

variable {s : FlowState}

theorem failsBy_pop (count : Nat) (s : FlowState) : FailsBy IsFault (s.pop count) := by
  unfold pop
  split
  · exact .ok _
  · exact .error ⟨_, rfl⟩

theorem failsBy_popValue (count : Nat) (s : FlowState) : FailsBy IsFault (s.popValue count) :=
  (failsBy_pop count s).bind fun _ _ => .pure _

theorem failsBy_duplicate (count depth : Nat) (s : FlowState) :
    FailsBy IsFault (s.duplicate count depth) := by
  unfold duplicate
  split
  · exact .ok _
  · exact .error ⟨_, rfl⟩

theorem failsBy_swap (s : FlowState) : FailsBy IsFault s.swap := by
  unfold swap
  split
  · exact .ok _
  · exact .error ⟨_, rfl⟩

theorem failsBy_plain (op : UInt8) (s : FlowState) : FailsBy IsFault (s.plain op) := by
  unfold plain
  split
  · exact failsBy_duplicate _ _ s
  · exact failsBy_duplicate _ _ s
  · exact failsBy_duplicate _ _ s
  · exact failsBy_duplicate _ _ s
  · exact failsBy_duplicate _ _ s
  · exact failsBy_duplicate _ _ s
  · exact failsBy_swap s
  · exact (failsBy_popValue 2 s).bind fun _ _ => .pure _
  · split
    · exact (failsBy_pop _ s).bind fun _ _ => .pure _
    · exact .error ⟨_, rfl⟩

theorem failsBy_useField (access : FieldAccess) (descriptor : String) (s : FlowState) :
    FailsBy IsFault (s.useField access descriptor) := by
  refine (FieldType.failsBy_parse descriptor).bind fun t _ => ?_
  cases access with
  | getStatic => exact .pure _
  | putStatic | putField => exact failsBy_pop _ s
  | getField => exact (failsBy_pop 1 s).bind fun _ _ => .pure _

theorem failsBy_call (g : FlowGraph) (kind : InvokeKind) (owner name descriptor : String)
    (s : FlowState) : FailsBy IsFault (s.call g kind owner name descriptor) := by
  refine (MethodDescriptor.failsBy_parse descriptor).bind fun d _ =>
    (failsBy_pop _ s).bind fun s _ => ?_
  split
  · exact .pure _
  · exact (failsBy_popValue 1 s).bind fun _ _ => .pure _

/-- An object can be made where a label stands in front. -/
theorem failsBy_useType {g : FlowGraph} {index : Nat} {use : TypeUse}
    (hnew : use = .newObject → ∃ l, g.labelBefore? index = some l) (className : String)
    (s : FlowState) : FailsBy IsFault (s.useType g index use className) := by
  cases use with
  | newObject =>
    obtain ⟨l, hl⟩ := hnew rfl
    rw [useType, hl]
    exact .ok _
  | _ => exact (failsBy_pop 1 s).bind fun _ _ => .pure _

end FlowState

namespace FlowGraph

open FlowState

variable {g : FlowGraph} {index : Nat} {s : FlowState} {events : List Event}
    {handlers : List Handler}
  {frames : List (Label × Frame)} {method : MethodContext}

/-- An instruction whose targets have positions fails only if it is not permitted. -/
theorem failsBy_transferInstruction {i : Instruction Label}
    (htargets : ∀ l ∈ i.targets, ∃ r, g.position l = .ok r)
    (hnew : (Event.instr i).isNew = true → ∃ l, g.labelBefore? index = some l) :
    FailsBy IsFault (g.transferInstruction index s i) := by
  have hposition {l : Label} (hl : l ∈ i.targets) : FailsBy IsFault (g.position l) := by
    obtain ⟨r, hr⟩ := htargets l hl
    rw [hr]
    exact .ok r
  cases i with
  | push v => exact v.failsBy_verification.bind fun _ _ => .pure _
  | load | increment | ret => exact .pure _
  | store kind => exact (failsBy_popValue kind.slots s).bind fun _ _ => .pure _
  | jump kind l =>
    have hl := hposition (List.mem_singleton_self l)
    cases kind with
    | jsr => exact hl.bind fun _ _ => .pure _
    | goto | branch => exact (failsBy_pop _ s).bind fun _ _ => hl.bind fun _ _ => .pure _
  | tableSwitch | lookupSwitch =>
    refine (failsBy_pop 1 s).bind fun _ _ => FailsBy.bind (.mapM fun l hl => ?_) fun _ _ => .pure _
    exact hposition hl
  | field access _ _ descriptor =>
    exact (failsBy_useField access descriptor s).bind fun _ _ => .pure _
  | invoke kind owner name descriptor =>
    exact (failsBy_call g kind owner name descriptor s).bind fun _ _ => .pure _
  | invokeDynamic _ _ descriptor =>
    exact (MethodDescriptor.failsBy_parse descriptor).bind fun _ _ =>
      (failsBy_pop _ s).bind fun _ _ => .pure _
  | typeUse use className =>
    refine (failsBy_useType (fun huse => hnew ?_) className s).bind fun _ _ => .pure _
    rw [huse]
    rfl
  | newPrimitives | newArrays => exact (failsBy_pop _ s).bind fun _ _ => .pure _
  | leave result => exact (failsBy_pop _ s).bind fun _ _ => .pure _
  | plain op => exact (failsBy_plain op s).bind fun _ _ => .pure _

/-! ### Graphs -/

theorem failsBy_placements (events : List Event) :
    FailsBy (fun e => ∃ l, e = .duplicateLabel l) (placements events) := by
  refine .foldlM (fun labels row => ?_) ∅ _
  obtain ⟨event, index⟩ := row
  cases event with
  | label l =>
    dsimp only
    split
    · exact .error ⟨l, rfl⟩
    · exact .ok _
  | instr i => exact .ok _

/-- A label that is placed twice is the error. -/
theorem failsBy_ofEvents (hnodup : ¬(placedLabels events).Nodup) :
    FailsBy (fun e => ∃ l, e = .duplicateLabel l) (ofEvents events handlers frames method) :=
  (failsBy_placements events).bind fun _ hlabels => absurd (placements_spec hlabels).1 hnodup

/-- The label in front of a `new` is found. -/
theorem exists_labelBefore (hg : ofEvents events handlers frames method = .ok g)
    (hnews : NewsMarked false events) {i : Instruction Label}
    (hi : g.events[index]? = some (.instr i)) (hnew : (Event.instr i).isNew = true) :
    ∃ l, g.labelBefore? index = some l := by
  have hevents := (isOf_of_ofEvents hg).events_eq
  rw [hevents, List.getElem?_toArray] at hi
  unfold Event.isNew at hnew
  split at hnew
  · rename_i className heq
    rw [heq] at hi
    rcases newsMarked_iff.mp hnews index className hi with ⟨-, hmarked⟩ | ⟨k, l, rfl, hl⟩
    · cases hmarked
    · refine ⟨l, ?_⟩
      simp only [labelBefore?, hevents, List.getElem?_toArray, hl]
  · cases hnew

/-- A search fails at a fault of the code. -/
theorem isFault_of_fails (hg : ofEvents events handlers frames method = .ok g)
    (htargets : ∀ e ∈ events, ∀ l ∈ e.targets, l ∈ placedLabels events)
    (hnews : NewsMarked false events) {e : Error} (h : g.Fails e) : e.IsFault := by
  rcases h with ⟨fault, rfl⟩ | ⟨index, event, s, hevent, htransfer⟩
  · exact ⟨_, rfl⟩
  · cases event with
    | label l => cases htransfer
    | instr i =>
      have hi := hevent
      rw [(isOf_of_ofEvents hg).events_eq, List.getElem?_toArray] at hi
      refine failsBy_transferInstruction (fun l hl => ?_) (exists_labelBefore hg hnews hevent) e
        htransfer
      exact exists_position_of_mem hg (htargets _ (List.mem_of_getElem? hi) l hl)

end FlowGraph

/-! ### Analyses -/

/-- An analysis of events with labels in order fails only at faults and limits. -/
theorem FlowSolution.failsBy_analyze {events : List Event} {handlers : List Handler}
    {method : MethodContext} (hnodup : (placedLabels events).Nodup)
    (htargets : ∀ e ∈ events, ∀ l ∈ e.targets, l ∈ placedLabels events)
    (hhandlers : ∀ h ∈ handlers, ∀ l ∈ [h.start, h.stop, h.target], l ∈ placedLabels events)
    (hnews : NewsMarked false events) (frames : List (Label × Frame)) (maxLocals : UInt16) :
    FailsBy (fun e => e.IsFault ∨ ∃ limit, e = .limitExceeded limit)
      (analyze events handlers frames method maxLocals) := by
  obtain ⟨g, hg⟩ := FlowGraph.exists_ofEvents hnodup hhandlers frames method
  cases hentry : Frame.entry method with
  | error e =>
    have hfault : e.IsFault :=
      (MethodDescriptor.failsBy_parse method.descriptor).bind (fun _ _ => .pure _) e hentry
    unfold analyze
    rw [hg, hentry]
    exact FailsBy.error (.inl hfault)
  | ok entry =>
    by_cases hempty : events = []
    · unfold analyze
      rw [hg, hentry, hempty]
      exact FailsBy.error (.inl ⟨_, rfl⟩)
    · rw [analyze_eq hempty hg hentry]
      refine FailsBy.bind (fun e he => ?_) fun p _ => ?_
      · exact .inl (FlowGraph.isFault_of_fails hg htargets hnews (FlowGraph.fails_of_search he))
      · rcases ofProgress_cases p with ⟨solution, hp⟩ | ⟨limit, hp⟩
        · rw [hp]
          exact .ok solution
        · rw [hp]
          exact .error (.inr ⟨limit, rfl⟩)

end ClassPatch
