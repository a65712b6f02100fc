import ClassPatch.Proofs.Code.Emission
import ClassPatch.Proofs.Code.Limits
import ClassPatch.Proofs.Code.TableCodec
import ClassPatch.Proofs.Code.Widening

/-!
# Layouts agree with what is written

Once a body has been laid out, its instructions are written where the layout has put them, each in
the room that it has been given. What may still go wrong is little: a constant may not fit into the
pool, and an interface call may take more words of arguments, or a switch have more cases, than its
instruction can count. Distances fit, since the layout has not ended before they did.
-/

namespace ClassPatch

open PoolM CodeWriter

/-! ### Instructions that are written -/

/-- The distances that 32 bits hold. -/
def IsFarDistance (distance : Int) : Prop := -2147483648 ≤ distance ∧ distance ≤ 2147483647

/-- The distance fits into 32 bits, or it is expected not to. -/
def FarOr (E : Error → Prop) (distance : Int) : Prop :=
  ¬IsFarDistance distance → E (.limitExceeded (.displacement distance))

section Bytes

variable {E : Error → Prop} {p : ConstantPool} {offset : Nat}

theorem failsBy_farDisplacement {distance : Int} (h : FarOr E distance) :
    FailsBy E p (farDisplacement distance) := by
  unfold farDisplacement
  split
  · exact .pure _
  · rename_i hnot
    exact .throw (h (by simpa [IsFarDistance] using hnot))

theorem failsBy_nearDisplacement {distance : Int} (h : isNear distance = true) :
    FailsBy E p (nearDisplacement distance) := by
  unfold nearDisplacement
  rw [if_pos h]
  exact .pure _

namespace Instruction

theorem failsBy_jumpBytes {wide : Bool} {kind : Jump} {target : Nat}
    (hconditional : kind.isConditional = true → wide = false)
    (hnear : wide = false → isNear (target - offset) = true)
    (hfar : FarOr E (target - offset)) : FailsBy E p (jumpBytes offset wide kind target) := by
  have hfar' (op : UInt8) : FailsBy E p (do return op :: (← farDisplacement (target - offset))) :=
    (failsBy_farDisplacement hfar).andThen fun _ => .pure _
  cases wide with
  | false => exact (failsBy_nearDisplacement (hnear rfl)).andThen fun _ => .pure _
  | true =>
    cases kind with
    | branch c => exact absurd (hconditional rfl) nofun
    | goto | jsr => exact hfar' _

theorem failsBy_tableSwitchBytes {low high : Int32} {default : Nat} {targets : List Nat}
    (hfar : ∀ target ∈ default :: targets, FarOr E (target - offset)) :
    FailsBy E p (tableSwitchBytes offset low high default targets) := by
  simp only [List.mem_cons, forall_eq_or_imp] at hfar
  refine (failsBy_farDisplacement hfar.1).andThen fun _ => FailsBy.andThen ?_ fun _ => .pure _
  exact .mapM fun target htarget => failsBy_farDisplacement (hfar.2 target htarget)

theorem failsBy_caseBytes {cases : List (Int32 × Nat)}
    (hfar : ∀ case ∈ cases, FarOr E (case.2 - offset)) :
    FailsBy E p (cases.mapM fun (key, target) => do
      return Word.encode key ++ (← caseBytes offset target)) :=
  .mapM fun case hcase => (failsBy_farDisplacement (hfar case hcase)).andThen fun _ => .pure _

theorem failsBy_lookupSwitchBytes {default : Nat} {cases : List (Int32 × Nat)}
    (hcount : 2147483647 < cases.length → E (.limitExceeded (.switchCases cases.length)))
    (hfar : ∀ target ∈ default :: cases.map (·.2), FarOr E (target - offset)) :
    FailsBy E p (lookupSwitchBytes offset default cases) := by
  simp only [List.mem_cons, forall_eq_or_imp, List.forall_mem_map] at hfar
  have hrows := failsBy_caseBytes (p := p) hfar.2
  refine (failsBy_farDisplacement hfar.1).andThen fun _ => ?_
  by_cases hmany : cases.length > 2147483647
  · rw [if_pos hmany]
    exact (FailsBy.throw (hcount hmany)).andThen fun _ => hrows.andThen fun _ => .pure _
  · rw [if_neg hmany]
    exact hrows.andThen fun _ => .pure _

/-- The arguments of an interface call are counted unless there are too many. -/
theorem failsBy_interfaceArguments {descriptor : String} {d : MethodDescriptor}
    (hd : MethodDescriptor.parse descriptor = .ok d)
    (hmany : 255 < d.parameterSlots + 1 →
      E (.limitExceeded (.interfaceArguments (d.parameterSlots + 1).toNat))) :
    FailsBy E p (interfaceArguments descriptor) := by
  unfold interfaceArguments
  rw [hd]
  dsimp only
  split
  · exact .pure _
  · rename_i hcount
    exact .throw (hmany (UInt16.not_le.mp hcount))

theorem failsBy_invokeBytes (hfull : E (.limitExceeded .poolFull)) {kind : InvokeKind}
    {owner name descriptor : String} {ofInterface : Bool}
    (hcount : kind = .interface → FailsBy E p (interfaceArguments descriptor)) :
    FailsBy E p (invokeBytes kind owner name descriptor ofInterface) := by
  refine (failsBy_member hfull _ _ _ _).andThen fun index => ?_
  split
  · exact (hcount ‹_›).andThen fun _ => .pure _
  · exact .pure _

/-- What keeps an instruction from being written, if its distances fit. -/
theorem failsBy_bytes (hfull : E (.limitExceeded .poolFull)) {wide : Bool} {i : Instruction Label}
    {place : Label → Nat}
    (hjump : ∀ kind l, i = .jump kind l → (kind.isConditional = true → wide = false) ∧
      (wide = false → isNear (place l - offset) = true))
    (hfar : ∀ l ∈ i.targets, FarOr E (place l - offset))
    (hcases : ∀ default cases, i = .lookupSwitch default cases → 2147483647 < cases.length →
      E (.limitExceeded (.switchCases cases.length)))
    (hcount : ∀ owner name descriptor ofInterface,
      i = .invoke .interface owner name descriptor ofInterface →
        FailsBy E p (interfaceArguments descriptor)) :
    FailsBy E p ((i.map place).bytes offset wide) := by
  have hplaces : ∀ target ∈ (i.map place).targets, FarOr E (target - offset) := by
    rw [targets_map]
    exact List.forall_mem_map.mpr hfar
  cases i with
  | push value => exact value.failsBy_bytes hfull
  | jump kind l =>
    obtain ⟨hconditional, hnear⟩ := hjump kind l rfl
    exact failsBy_jumpBytes hconditional hnear (hfar l (List.mem_singleton_self l))
  | tableSwitch low high default targets => exact failsBy_tableSwitchBytes hplaces
  | lookupSwitch default cases =>
    exact failsBy_lookupSwitchBytes (by simpa using hcases default cases rfl) hplaces
  | field access owner name descriptor =>
    exact (failsBy_member hfull _ _ _ _).andThen fun _ => .pure _
  | invoke kind owner name descriptor ofInterface =>
    exact failsBy_invokeBytes hfull fun hkind =>
      hcount owner name descriptor ofInterface (by rw [hkind])
  | typeUse use className => exact (failsBy_classRef hfull _).andThen fun _ => .pure _
  | newArrays className dimensions => exact (failsBy_classRef hfull _).andThen fun _ => .pure _
  | _ => exact .pure _

end Instruction

end Bytes

/-! ### What is left has targets and descriptors -/

/-- A call that has an outcome has a descriptor. -/
theorem FlowGraph.exists_parse_of_transfer {g : FlowGraph} {index : Nat} {s : FlowState}
    {t : Transfer} {kind : InvokeKind} {owner name descriptor : String} {ofInterface : Bool}
    (h : g.transfer index (.instr (.invoke kind owner name descriptor ofInterface)) s = .ok t) :
    ∃ d, MethodDescriptor.parse descriptor = .ok d := by
  obtain ⟨s', hcall, -⟩ := Except.bind_eq_ok.mp h
  obtain ⟨d, hd, -⟩ := Except.bind_eq_ok.mp hcall
  exact ⟨d, hd⟩

/-- What is jumped to after lowering is placed by a bridge, or has been jumped to before. -/
theorem Lowers.target_cases {live far : Nat → Prop} {n : Nat} {events : List Event}
    {widths : List Nat} {lowered : List LayoutEvent} (h : Lowers live far n events widths lowered)
    {e : LayoutEvent} (he : e ∈ lowered) {l : Label} (hl : l ∈ e.event.targets) :
    l ∈ placedLabels (lowered.map (·.event)) ∨ ∃ i, .instr i ∈ events ∧ l ∈ i.targets := by
  have hbehind {first : Event} {events : List Event} :
      (∃ i, .instr i ∈ events ∧ l ∈ i.targets) → ∃ i, .instr i ∈ first :: events ∧ l ∈ i.targets :=
    fun ⟨i, hi, hl⟩ => ⟨i, List.mem_cons_of_mem _ hi, hl⟩
  induction h with
  | nil => cases he
  | label rest ih =>
    rcases List.mem_cons.mp he with rfl | he
    · cases hl
    · exact (ih he).imp (List.mem_cons_of_mem _) hbehind
  | drop h rest ih => exact (ih he).imp_right hbehind
  | @keep n i events widths lowered h rest ih =>
    rcases List.mem_cons.mp he with rfl | he
    · exact .inr ⟨i, List.mem_cons_self .., hl⟩
    · exact (ih he).imp_right hbehind
  | @bridge n c l₀ l' events widths lowered h hfar rest ih =>
    simp only [List.mem_cons] at he
    rcases he with rfl | rfl | rfl | he
    · obtain rfl := List.mem_singleton.mp hl
      exact .inl (List.mem_cons_self ..)
    · exact .inr ⟨_, List.mem_cons_self .., hl⟩
    · cases hl
    · exact (ih he).imp (List.mem_cons_of_mem _) hbehind

namespace Layout

variable {body : Body} {method : MethodContext} {p p' : ConstantPool} {layout : Layout}

/-- Every instruction that is left has an outcome in the flow of types. -/
theorem IsOf.exists_transfer (hp : p.WellFormed) {events : List LayoutEvent}
    {solution : FlowSolution} {sized : List SizedEvent}
    (h : layout.IsOf body method events solution sized p) {e : PlacedEvent} (he : e ∈ layout.placed)
    {i : Instruction Label} (hevent : e.event = .instr i) :
    ∃ g index s t, FlowGraph.transfer g index (.instr i) s = .ok t := by
  obtain ⟨⟨row, state⟩, hrow, hsame, -, -⟩ := (h.forall₂_placed hp).exists_left he
  obtain ⟨hmem, hkept⟩ := List.mem_filter.mp hrow
  obtain ⟨index, hindex⟩ := List.getElem?_of_mem hmem
  obtain ⟨hat, hstate⟩ := List.getElem?_zip_eq_some.mp hindex
  obtain rfl : e.toLayoutEvent = row := hsame
  obtain ⟨s, rfl⟩ : ∃ s, state = some s := by
    simpa [hevent, Event.isLabel, Option.isSome_iff_exists] using hkept
  obtain ⟨g, frame, progress, hg, -, -, hsolution⟩ := FlowSolution.exists_isOf h.analyzed
  rw [Array.getElem?_toList, hsolution.states] at hstate
  obtain ⟨e', t, hpassed⟩ := hsolution.passes hstate
  have hsame := hpassed.event
  rw [(FlowGraph.isOf_of_ofEvents hg).events_eq, List.getElem?_toArray, List.getElem?_map,
    hat] at hsame
  obtain rfl : .instr i = e' := hevent ▸ Option.some.inj hsame
  exact ⟨g, index, s, t, hpassed.transfer⟩

/-- What is jumped to in a layout has a place. -/
theorem resolves_of_target (hp : p.WellFormed) (hlabels : body.checkLabels = .ok ())
    (h : Finds (ofBody body method) p layout) (hmade : layout.MadeIn p) {e : PlacedEvent}
    (he : e ∈ layout.placed) {l : Label} (hl : l ∈ e.event.targets) : layout.Resolves l := by
  obtain ⟨-, widths, hlowers⟩ := lowers_of_finds hp hlabels h
  have hmem : e.toLayoutEvent ∈ layout.placed.map (·.toLayoutEvent) := List.mem_map_of_mem he
  refine hmade.resolves (map_event_placed layout ▸ ?_)
  rcases hlowers.target_cases hmem hl with hplaced | ⟨i, hi, hl⟩
  · exact hplaced
  · exact hlowers.placed l (Body.mem_of_checkLabels hlabels (Body.mem_references_of_target hi hl))

theorem MadeIn.mono (hp : p.WellFormed) (hmade : layout.MadeIn p) (hq : p ≤ p') :
    layout.MadeIn p' :=
  { hmade with measured := fun e he => (hmade.measured e he).mono (Extent.steady_ofEvent _) hp hq }

/-- A narrow jump that reaches its target is near it. -/
theorem MadeIn.isNear (hmade : layout.MadeIn p) {e : PlacedEvent} (he : e ∈ layout.placed)
    (hreaches : e.overshoots (labelOffsets layout.placed) = false) {kind : Jump} {target : Label}
    (hevent : e.event = .instr (.jump kind target)) (htarget : layout.Resolves target)
    (hwide : e.wide = false) : isNear (layout.offset target - e.offset) = true := by
  obtain ⟨e', he', hlabel, hoffset⟩ := htarget.exists_placed
  have hextent := (Extent.eq_jump_iff (hmade.measured e he) kind target).mp hevent
  unfold PlacedEvent.overshoots at hreaches
  rw [hextent] at hreaches
  dsimp only at hreaches
  rw [labelOffsets_of_mem hmade.nodup he' hlabel] at hreaches
  simpa [hwide, hoffset] using hreaches

/-- In code that is not too long every distance fits into 32 bits. -/
theorem MadeIn.isFarDistance (hmade : layout.MadeIn p) (hlength : layout.length ≤ 2147483647)
    {e : PlacedEvent} (he : e ∈ layout.placed) (l : Label) :
    IsFarDistance (layout.offset l - e.offset) := by
  have hlabel := hmade.offset_le l
  have hevent := Nat.le_trans (Nat.le_add_right _ _) (hmade.laid.le_stop e he)
  constructor <;> omega

end Layout

/-! ### What a layout promises -/

/-- The distance fits into the field that the event has for it. -/
def PlacedEvent.Fits (e : PlacedEvent) (distance : Int) : Prop :=
  match e.event, e.wide with
  | .instr (.jump _ _), false => isNear distance = true
  | _, _ => IsFarDistance distance

namespace Layout

/-- The errors that writing the instructions of a layout may end with. -/
inductive MayFail (layout : Layout) : Error → Prop
  /-- A constant does not fit into the pool. -/
  | full : MayFail layout (.limitExceeded .poolFull)
  /-- An interface call takes more words of arguments, with its receiver, than eight bits count. -/
  | call {e : PlacedEvent} {owner name descriptor : String} {ofInterface : Bool}
      {d : MethodDescriptor} (he : e ∈ layout.placed)
      (hevent : e.event = .instr (.invoke .interface owner name descriptor ofInterface))
      (hd : MethodDescriptor.parse descriptor = .ok d) (hmany : 255 < d.parameterSlots + 1) :
      MayFail layout (.limitExceeded (.interfaceArguments (d.parameterSlots + 1).toNat))
  /-- A switch has more cases than 31 bits count. -/
  | cases {e : PlacedEvent} {default : Label} {cases : List (Int32 × Label)}
      (he : e ∈ layout.placed) (hevent : e.event = .instr (.lookupSwitch default cases))
      (hmany : 2147483647 < cases.length) :
      MayFail layout (.limitExceeded (.switchCases cases.length))
  /-- The code is so long that 32 bits do not hold its distances. -/
  | far (hlength : 2147483647 < layout.length) (distance : Int) :
      MayFail layout (.limitExceeded (.displacement distance))

/-- A layout that has been made over a pool agrees with what is written for it in larger pools. -/
structure Agrees (layout : Layout) (p : ConstantPool) : Prop where
  /-- No conditional jump is left wide. -/
  narrow : ∀ e ∈ layout.placed, ∀ c l, e.event = .instr (.jump (.branch c) l) → e.wide = false
  /-- Every target has an offset, at a distance that fits. -/
  fits : layout.length ≤ 2147483647 → ∀ e ∈ layout.placed, ∀ l ∈ e.event.targets,
    layout.Resolves l ∧ e.Fits (layout.offset l - e.offset)
  /-- What is written is as long as has been computed, with every instruction at its offset. -/
  written : ∀ {q q' : ConstantPool} {code : Bytes}, p ≤ q → q.WellFormed →
    instructionBytes layout.places layout q = .ok code q' →
      code.length = layout.length ∧ Emits q' 0 layout.code code
  /-- Little keeps the instructions from being written. -/
  fails : FailsBy layout.MayFail p (instructionBytes layout.places layout)

variable {body : Body} {method : MethodContext} {p p' : ConstantPool} {layout : Layout}

/-- Conditional jumps have no wide form. -/
theorem MadeIn.narrow (hmade : layout.MadeIn p) {e : PlacedEvent} (he : e ∈ layout.placed)
    {kind : Jump} {target : Label} (hevent : e.event = .instr (.jump kind target))
    (hconditional : kind.isConditional = true) : e.wide = false := by
  by_contra hwide
  obtain ⟨kind', target', hjump, hcan⟩ := hmade.wide e he (Bool.not_eq_false _ ▸ hwide)
  obtain ⟨rfl, -⟩ := Extent.jump.inj
    (((Extent.eq_jump_iff (hmade.measured e he) kind target).mp hevent).symm.trans hjump)
  exact absurd (hconditional.symm.trans hcan) (by decide)

/-- What has been made agrees with what is written if its jumps reach their targets. -/
theorem IsOf.agrees (hp : p.WellFormed) {events : List LayoutEvent} {solution : FlowSolution}
    {sized : List SizedEvent} (h : layout.IsOf body method events solution sized p)
    (hresolves : ∀ e ∈ layout.placed, ∀ l ∈ e.event.targets, layout.Resolves l)
    (hreaches : ∀ e ∈ layout.placed, e.overshoots (labelOffsets layout.placed) = false) :
    layout.Agrees p := by
  have hmade := h.madeIn hp
  refine ⟨fun e he c l hevent => hmade.narrow he hevent rfl, fun hlength e he l hl => ?fits,
    fun {q q' code} hq hwf hcode => ?written, ?fails⟩
  case fits =>
    refine ⟨hresolves e he l hl, ?_⟩
    unfold PlacedEvent.Fits
    split
    · rename_i kind target hevent hwide
      rw [hevent] at hl
      obtain rfl := List.mem_singleton.mp hl
      exact hmade.isNear he (hreaches e he) hevent
        (hresolves e he l (hevent ▸ List.mem_singleton_self l)) hwide
    · exact hmade.isFarDistance hlength he l
  case written =>
    have hwf' := steady_instructionBytes.wellFormed hwf hcode
    have hfinds := steady_instructionBytes.finds hwf hcode
    have hmade' := hmade.mono hp (ConstantPool.le_trans hq (steady_instructionBytes.le hwf hcode))
    obtain ⟨rows, hrows, hflat⟩ := (finds_bind (Steady.mapM steady_eventBytes _)
      (fun _ => .pure _) hwf').mp hfinds
    obtain rfl := finds_pure.mp hflat
    obtain ⟨hemits, hstop⟩ := emits_of_rows hwf' hmade' hmade'.laid (fun _ he => he)
      ((finds_mapM steady_eventBytes hwf').mp hrows)
    exact ⟨(Nat.zero_add _).symm.trans hstop, hemits⟩
  case fails =>
    refine (FailsBy.mapM fun e he => ?_).andThen fun _ => .pure _
    unfold eventBytes
    cases hevent : e.event with
    | label l => exact .pure _
    | instr i =>
      dsimp only
      have htargets : ∀ l ∈ i.targets, layout.Resolves l := fun l hl =>
        hresolves e he l (hevent ▸ hl)
      rw [Instruction.mapTargets_eq_map fun l hl => (htargets l hl).offsetOf_eq]
      refine Instruction.failsBy_bytes MayFail.full
        (fun kind l hi => ⟨fun hconditional => ?_, fun hwide => ?_⟩)
        (fun l _ hnot =>
          .far (Nat.lt_of_not_le fun hlength => hnot (hmade.isFarDistance hlength he l)) _)
        (fun default cases hi hmany => .cases he (hi ▸ hevent) hmany)
        fun owner name descriptor ofInterface hi => ?_
      · exact hmade.narrow he (hi ▸ hevent) hconditional
      · exact hmade.isNear he (hreaches e he) (hi ▸ hevent)
          (htargets l (by simp [hi, Instruction.targets])) hwide
      · subst hi
        obtain ⟨g, index, s, t, htransfer⟩ := h.exists_transfer hp he hevent
        obtain ⟨d, hd⟩ := FlowGraph.exists_parse_of_transfer htransfer
        exact Instruction.failsBy_interfaceArguments hd fun hmany => .call he hevent hd hmany

/-- The loops of layout end for every body whose labels are placed, and a layout that they return
agrees with what is written for it. -/
theorem agrees_of_ofBody (hp : p.WellFormed) (hlabels : body.checkLabels = .ok ()) :
    Runs body method (body.events.map (⟨·, false⟩)) body.labels p (ofBody body method p) ∧
      ∀ {layout : Layout} {p' : ConstantPool}, ofBody body method p = .ok layout p' →
        layout.Agrees p' := by
  have hruns : Runs body method (body.events.map (⟨·, false⟩)) body.labels p
      (ofBody body method p) :=
    runs_ofBody hp hlabels
  refine ⟨hruns, fun {layout p'} h => ?_⟩
  have hp' := (steady_ofEvents _ _).wellFormed hp h
  have hfinds := (steady_ofEvents _ _).finds hp h
  obtain ⟨events, solution, sized, -, hisOf⟩ := exists_isOf hp' hfinds .refl
  have hmade := hisOf.madeIn hp'
  exact hisOf.agrees hp' (fun e he l hl => resolves_of_target hp' hlabels hfinds hmade he hl)
    (hruns.reaches h)

end Layout

/-! ### Bodies that are laid out -/

/-- Without conditional jumps a layout can be computed, and checked. -/
theorem Layout.exists_ofBody (body : Body) (method : MethodContext) (p : ConstantPool)
    (check : Layout → ConstantPool → Bool) (visits : Nat) (hne : body.events ≠ [])
    (hloose : looseCount (body.events.map (⟨·, false⟩)) = 0)
    (hrun : ((FlowSolution.within visits body.events body.handlers body.frames method
      body.maxLocals).any fun solution =>
        match measure (prune (body.events.map (⟨·, false⟩)) solution) p with
        | .ok sized q =>
          check ⟨(settle sized).1, (settle sized).2, solution.maxStack, solution.maxLocals⟩ q
        | .error _ _ => false) = true) :
    ∃ layout q, ofBody body method p = .ok layout q ∧ check layout q = true := by
  obtain ⟨solution, hsolution, hrun⟩ := (Option.any_eq_true ..).mp hrun
  have hanalyzed := FlowSolution.analyze_of_within hne hsolution
  rw [← map_event_plain body.events] at hanalyzed
  split at hrun
  · rename_i sized q hsized
    exact ⟨_, q, ofEvents_of_not_loose hloose hanalyzed hsized, hrun⟩
  · cases hrun

/-- A body that jumps over an instruction. -/
def jumpingCode : Body where
  maxStack := 0
  maxLocals := 0
  events := [.instr (.jump .goto ⟨0⟩), .instr (.plain Opcode.nop), .label ⟨0⟩, .instr (.leave none)]
  handlers := []
  lines := []
  localVariables := []
  localVariableTypes := []
  frames := []
  attributes := []
  labels := ⟨1⟩

theorem Layout.agrees_of_ofBody_jumping :
    let method : MethodContext := ⟨"A", "m", "()V", true, 49⟩
    ∃ layout p, Layout.ofBody jumpingCode method .empty = .ok layout p ∧ layout.length = 4 ∧
      layout.Agrees p := by
  intro method
  have hlabels : jumpingCode.checkLabels = .ok () :=
    Body.checkLabels_of_placed (by decide) (by decide)
  obtain ⟨layout, p, hlayout, hlength⟩ := Layout.exists_ofBody jumpingCode method .empty
    (fun layout _ => layout.length = 4) 10 (List.cons_ne_nil _ _) (by decide) (by decide +kernel)
  exact ⟨layout, p, hlayout, of_decide_eq_true hlength,
    (Layout.agrees_of_ofBody ConstantPool.wellFormed_empty hlabels).2 hlayout⟩

/-- The parameters of a call that take 255 words. -/
def crowdedDescriptor : String := String.ofList ('(' :: List.replicate 127 'J' ++ ['I', ')', 'V'])

/-- A body that calls a method of an interface with 256 words, the receiver included. -/
def crowdedCall : Body where
  maxStack := 0
  maxLocals := 0
  events := .instr (.push .null) :: List.replicate 127 (.instr (.push (.long 0))) ++
    [.instr (.push (.int 0)), .instr (.invoke .interface "B" "m" crowdedDescriptor true),
      .instr (.leave none)]
  handlers := []
  lines := []
  localVariables := []
  localVariableTypes := []
  frames := []
  attributes := []
  labels := ⟨0⟩

/-- The code is short and the pool has room for its call, but the call is not written. -/
private def refuses (layout : Layout) (p : ConstantPool) : Bool :=
  layout.length ≤ 65535 &&
    (match PoolM.member .interfaceMethod "B" "m" crowdedDescriptor p with
    | .ok _ _ => true
    | .error _ _ => false) &&
    match instructionBytes layout.places layout p with
    | .error (.limitExceeded (.interfaceArguments count)) _ => count = 256
    | _ => false

/-- The body is laid out, and all that it refers to enters the pool, but its call is not written. -/
theorem Layout.not_written_crowdedCall :
    let method : MethodContext := ⟨"A", "m", "()V", true, 49⟩
    crowdedCall.checkLabels = .ok () ∧ ∃ layout p,
      Layout.ofBody crowdedCall method .empty = .ok layout p ∧
      layout.length ≤ 65535 ∧
      (∃ index p', PoolM.member .interfaceMethod "B" "m" crowdedDescriptor p = .ok index p') ∧
      ∃ p', instructionBytes layout.places layout p =
        .error (.limitExceeded (.interfaceArguments 256)) p' := by
  intro method
  have hlabels : crowdedCall.checkLabels = .ok () :=
    Body.checkLabels_of_placed (by decide +kernel) (by decide +kernel)
  obtain ⟨layout, p, hlayout, hrefused⟩ :=
    Layout.exists_ofBody crowdedCall method .empty refuses 200 (List.cons_ne_nil _ _)
      (by decide +kernel) (by decide +kernel)
  refine ⟨hlabels, layout, p, hlayout, ?_⟩
  simp only [refuses, Bool.and_eq_true, decide_eq_true_eq] at hrefused
  obtain ⟨⟨hlength, hmember⟩, hwritten⟩ := hrefused
  refine ⟨hlength, ?_, ?_⟩
  · split at hmember
    · exact ⟨_, _, ‹_›⟩
    · cases hmember
  · split at hwritten
    · obtain rfl := of_decide_eq_true hwritten
      exact ⟨_, ‹_›⟩
    · cases hwritten

end ClassPatch
