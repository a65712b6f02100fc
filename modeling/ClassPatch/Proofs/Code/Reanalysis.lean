import ClassPatch.Proofs.Code.Repeating
import ClassPatch.Proofs.Flow.Copies
import ClassPatch.Proofs.Flow.Locals

/-!
# The second analysis

What is read back is a copy of what the first analysis has left, with frames where control jumps to.
Its analysis finds the same bound on the stack. It finds the same bound on the locals, if no value
on a stack is separated from its second half, and it succeeds, if none has been separated in the
first one either.
-/

namespace ClassPatch

open PoolM CodeWriter FlowState

/-- The analysis of a body has a state for a position at some time. -/
def Body.Computes (body : Body) (method : MethodContext) (i : Nat) (s : FlowState) : Prop :=
  ∃ g entry, FlowGraph.ofEvents body.events body.handlers body.frames method = .ok g ∧
    Frame.entry method = .ok entry ∧ g.Computes (.ofFrame entry) body.maxLocals.toNat i s

/-- The states that the analysis of a body has for any position, if it takes no more than a number
of visits. -/
def Body.statesWithin (body : Body) (method : MethodContext) (visits : Nat) :
    Option (List (Option FlowState)) := do
  let g ← (FlowGraph.ofEvents body.events body.handlers body.frames method).toOption
  let entry ← (Frame.entry method).toOption
  let start := FlowProgress.start g.events.size
    (max (FlowState.ofFrame entry).locals.size body.maxLocals.toNat)
  let p ← (g.flowTo 0 (.ofFrame entry) start).toOption
  let course ← g.courseWithin visits p
  return course.flatMap (·.states.toList)

theorem Body.Computes.mem_statesWithin {body : Body} {method : MethodContext} {visits i : Nat}
    {s : FlowState} {states : List (Option FlowState)} (h : body.Computes method i s)
    (hstates : body.statesWithin method visits = some states) : some s ∈ states := by
  obtain ⟨g, entry, hg, hentry, q, ⟨p, hp, hcomes⟩, hs⟩ := h
  simp only [statesWithin, hg, hentry, hp, Except.toOption, Option.bind_eq_bind, Option.bind_some,
    Option.bind_eq_some_iff, Option.pure_def, Option.some.injEq] at hstates
  obtain ⟨course, hcourse, rfl⟩ := hstates
  exact List.mem_flatMap.mpr ⟨q, hcomes.mem_courseWithin hcourse,
    List.mem_of_getElem? (Array.getElem?_toList.symm ▸ hs)⟩

@[simp] theorem Instruction.storesBelow_map {τ υ : Type} (f : τ → υ) (i : Instruction τ) :
    (i.map f).storesBelow = i.storesBelow := by
  cases i <;> rfl

/-! ### What has been left -/

namespace Layout

variable {layout : Layout} {body : Body} {method : MethodContext} {events : List LayoutEvent}
  {solution : FlowSolution} {sized : List SizedEvent} {p : ConstantPool}

/-- What has been placed is what the analysis has left. -/
theorem IsOf.map_event_placed (hp : p.WellFormed)
    (h : layout.IsOf body method events solution sized p) :
    layout.placed.map (·.event) = solution.prune (events.map (·.event)) := by
  have hsettled := congrArg (List.map (·.event)) (h.map_settle hp)
  rw [h.settled, List.map_map, List.map_map] at hsettled
  rw [← FlowSolution.prune_eq]
  exact hsettled

/-- The states of instructions that are left are those of what has been placed. -/
theorem IsOf.exists_placed (hp : p.WellFormed)
    (h : layout.IsOf body method events solution sized p) {n : Nat} {i : Instruction Label}
    {s : FlowState} (hstands : solution.Stands (events.map (·.event)) n i s) :
    ∃ e ∈ layout.placed, e.event = .instr i ∧ e.state = some s := by
  obtain ⟨k, hk, hs, -⟩ := hstands
  rw [List.getElem?_map, Option.map_eq_some_iff] at hk
  obtain ⟨e₀, he₀, hevent₀⟩ := hk
  have hstate : solution.states.toList[k]? = some (some s) := by
    rw [Array.getElem?_toList]
    exact Option.join_eq_some_iff.mp hs
  have hrow : (e₀, some s) ∈ prune events solution :=
    List.mem_filter.mpr
      ⟨List.mem_of_getElem? (List.getElem?_zip_eq_some.mpr ⟨he₀, hstate⟩), by simp⟩
  obtain ⟨e, he, hevent, hstate, -⟩ := (h.forall₂_placed hp).exists_right hrow
  exact ⟨e, he, (congrArg LayoutEvent.event hevent).trans hevent₀, hstate⟩

/-- The bound on the locals covers what placed instructions store. -/
theorem IsOf.storesBelow_le (hp : p.WellFormed)
    (h : layout.IsOf body method events solution sized p) {e : PlacedEvent} (he : e ∈ layout.placed)
    {i : Instruction Label} (hi : e.event = .instr i) : i.storesBelow ≤ layout.maxLocals.toNat := by
  obtain ⟨k, hk, hstate, hkept⟩ := h.exists_position hp he
  rw [hi] at hk hkept
  obtain ⟨s, hs⟩ := Option.isSome_iff_exists.mp (hkept.resolve_left (by simp [Event.isLabel]))
  rw [h.maxLocals]
  exact ((FlowSolution.locals_le_of_analyze h.analyzed).2.2 k i s hk (hs ▸ hstate)).2

end Layout

namespace Body.ReadBack

variable {body : Body} {method : MethodContext} {p : ConstantPool} {code : Bytes} {layout : Layout}
  {parts : Parts} {marks : List Nat} {table : LabelTable} {frames : List (Nat × Frame)}
  {events : List LayoutEvent} {solution : FlowSolution} {sized : List SizedEvent}
  (h : body.ReadBack method p code layout parts marks table frames) (hp : p.WellFormed)
  (hisOf : layout.IsOf body method events solution sized p)
include h hp hisOf

/-- What is read back is a copy of what has been left. -/
theorem copied : solution.Copied (events.map (·.event)) body.handlers (layout.relabel table)
    (layout.reread body parts p table frames).events
    (layout.reread body parts p table frames).handlers := by
  have hplaced := hisOf.map_event_placed hp
  have hnumber {l : Label} (hl : layout.Resolves l) :=
    h.made.numberOf_offset h.written.size_pos hl
  rw [hplaced] at hnumber
  refine ⟨?instructions, fun i hi l hl => ?target, fun handler' hhandler' => ?handler,
    fun j className hj => ?marked⟩
  case instructions => rw [Layout.instructions_reread, hplaced]
  case target =>
    rw [← hplaced] at hi ⊢
    obtain ⟨e, he, hevent⟩ := List.mem_map.mp (mem_instructions.mp hi)
    obtain ⟨hresolves, hmark⟩ := h.mark_of_target he (l := l) (by rw [hevent]; exact hl)
    exact ⟨h.labelAt_mem hmark, h.landing_relabel hresolves hmark⟩
  case handler =>
    obtain ⟨placed, hmem, rfl⟩ := List.mem_map.mp hhandler'
    obtain ⟨handler, hhandler, hhandles⟩ := Layout.handles_of_mem hp h.areOf hmem
    obtain ⟨hstart, hstop, htarget⟩ := h.hasMarks.handlers placed hmem
    refine ⟨handler, hhandler, ?_, ?_, ?_⟩
    · rw [h.landing_labelAt hstart, hhandles.start_eq, hnumber hhandles.start_resolves]
    · rw [h.landing_labelAt hstop, hhandles.stop_eq, hnumber hhandles.stop_resolves]
    · rw [h.landing_labelAt htarget, ← Layout.offset_of_places hhandles.target,
        hnumber (.of_places hhandles.target)]
  case marked =>
    refine Disassembly.exists_label_of_new layout.code (fun row hrow className hnew => ?_) hj
    rw [h.hasTable.get?
      (h.hasMarks.code row hrow row.1 (by rw [hnew]; exact List.mem_singleton_self _))]
    rfl

omit h in
theorem loadsWord_of_stands (hloads : ∀ e ∈ layout.placed, ∀ s, e.state = some s →
      e.event.LoadsWord s)
    {n : Nat} {i : Instruction Label} {s : FlowState}
    (hstands : solution.Stands (events.map (·.event)) n i s) : (Event.instr i).LoadsWord s := by
  obtain ⟨e, he, hevent, hs⟩ := hisOf.exists_placed hp hstands
  exact hevent ▸ hloads e he s hs

/-- A hint is the frame of a state that a label has had, where the label has come to. -/
theorem exists_state_of_hint {g' : FlowGraph}
    (hg' : FlowGraph.ofEvents (layout.reread body parts p table frames).events
      (layout.reread body parts p table frames).handlers
      (layout.reread body parts p table frames).frames method = .ok g')
    {r : Nat} {hint : FlowState} (hhint : g'.hints[r]? = some hint) :
    ∃ k s, solution.state? k = some s ∧ s.WholeLocals ∧
      hint = .ofFrame (s.toFrame.map (layout.relabel table)) ∧
      numberAt (layout.reread body parts p table frames).events r =
        solution.numberOf (events.map (·.event)) k ∧ ∃ e ∈ layout.placed, e.state = some s := by
  obtain ⟨l', frame', hmem', hposition, rfl⟩ := FlowGraph.exists_frame_of_hint hg' hhint
  obtain ⟨row, hrow, heq⟩ := List.mem_map.mp hmem'
  obtain ⟨rfl, rfl⟩ := Prod.mk.inj heq
  have hfound := h.hasFrames
  unfold Layout.HasFrames at hfound
  split at hfound
  · subst hfound
    cases hrow
  obtain ⟨l, -, e, s, he, hs, rfl⟩ := Layout.mem_frames hfound row hrow
  obtain ⟨hmem, hevent⟩ := Layout.mem_of_places he
  obtain ⟨k, hk, hstate, -⟩ := hisOf.exists_position hp hmem
  rw [hevent] at hk
  have hsome : solution.state? k = some s := by
    rw [FlowSolution.state?, hstate, hs]
    rfl
  obtain ⟨g, entry, q, hg, -, -, hsearch, hsolution⟩ := FlowSolution.exists_search hisOf.analyzed
  refine ⟨k, s, hsome, ?whole, rfl, ?number, e, hmem, hs⟩
  case whole =>
    exact FlowGraph.wholeLocals_of_searches hg (wholeLocals_ofFrame entry)
      (FlowGraph.searches_of_search hsearch) k s (hsolution.state?_eq_some.mp hsome)
  case number =>
    obtain ⟨-, -, -, hlanding⟩ := (FlowGraph.isOf_of_ofEvents hg').position hposition
    rw [← hlanding, h.landing_labelAt (h.hasMarks.starts _ hrow), ← Layout.offset_of_places he,
      h.made.numberOf_offset h.written.size_pos (.of_places he), hisOf.map_event_placed hp]
    exact FlowSolution.landing_eq_numberOf (FlowGraph.size_eq_length hg hsolution)
      (FlowGraph.isOf_of_ofEvents hg).nodup hk

/-! ### Bounds -/

section Bounds

variable (hloads : ∀ e ∈ layout.placed, ∀ s, e.state = some s → e.event.LoadsWord s)
  (hloads' : ∀ i e s, (layout.reread body parts p table frames).events[i]? = some e →
    (layout.reread body parts p table frames).Computes method i s → e.LoadsWord s)

include hloads hloads' in
/-- The second search finds the bound on the stack that the first one has found. -/
theorem maxStack_of_search {g' : FlowGraph} {entry : Frame} {q' : FlowProgress}
    (hg' : FlowGraph.ofEvents (layout.reread body parts p table frames).events
      (layout.reread body parts p table frames).handlers
      (layout.reread body parts p table frames).frames method = .ok g')
    (hentry : Frame.entry method = .ok entry)
    (hsearch' : g'.search (.ofFrame entry)
      (layout.reread body parts p table frames).maxLocals.toNat = .ok q') :
    q'.maxStack = layout.maxStack.toNat := by
  obtain ⟨g, entry₀, q, hg, hentry₀, -, hsearch, hsolution⟩ :=
    FlowSolution.exists_search hisOf.analyzed
  obtain rfl := Except.ok.inj (hentry.symm.trans hentry₀)
  rw [hisOf.maxStack, hsolution.toNat_maxStack]
  exact (h.copied hp hisOf).maxStack_eq hg hsolution hg'
    (fun n i s => loadsWord_of_stands hp hisOf hloads)
    (fun j e s hcomputes he => hloads' j e s he ⟨g', entry, hg', hentry, hcomputes⟩) hsearch
    hsearch'
    fun n hn => h.reaches_reread hp hn

omit hloads hloads'

/-- The second search finds no larger bound on the locals, if no value on a stack is separated from
its second half, and one that is larger by one at most otherwise. -/
theorem maxLocals_of_search {g' : FlowGraph} {entry : Frame} {q' : FlowProgress}
    (hg' : FlowGraph.ofEvents (layout.reread body parts p table frames).events
      (layout.reread body parts p table frames).handlers
      (layout.reread body parts p table frames).frames method = .ok g')
    (hentry : Frame.entry method = .ok entry)
    (hsearch' : g'.search (.ofFrame entry)
      (layout.reread body parts p table frames).maxLocals.toNat = .ok q')
    {n : Nat} (hn : layout.maxLocals.toNat ≤ n)
    (hroom : (∀ i s, (layout.reread body parts p table frames).Computes method i s → s.WholeStack) ∨
      layout.maxLocals.toNat < n) :
    max q'.maxLocals (FlowSolution.mostLocals q'.states) ≤ n := by
  obtain ⟨-, hentered, -⟩ := FlowSolution.locals_le_of_analyze hisOf.analyzed
  have hhints : ∀ (r : Nat) (hint : FlowState), g'.hints[r]? = some hint →
      hint.locals.size ≤ n := by
    intro r hint hhint
    obtain ⟨k, s, hs, hwholeLocals, rfl, -⟩ := h.exists_state_of_hint hp hisOf hg' hhint
    rw [hisOf.maxLocals] at hn
    exact Nat.le_trans (size_ofFrame_map hwholeLocals)
      (Nat.le_trans (FlowSolution.size_le_of_analyze hisOf.analyzed hs) hn)
  have hleaves : ∀ (i : Nat) (ins : Instruction Label) (s : FlowState)
      (locals : Array VerificationType),
      g'.Computes (.ofFrame entry) (layout.reread body parts p table frames).maxLocals.toNat i s →
        g'.events[i]? = some (.instr ins) → ins.Leaves s locals →
          locals.size ≤ max s.locals.size n := by
    intro i ins s locals hcomputes hins hleaves
    rw [(FlowGraph.isOf_of_ofEvents hg').events_eq, List.getElem?_toArray] at hins
    obtain ⟨i₀, rfl, e, he, hevent⟩ :=
      Layout.exists_placed_of_reread (List.mem_of_getElem? hins)
    have hstores := hisOf.storesBelow_le hp he hevent
    rcases hroom with hwhole | hlt
    · have hsize := hleaves.size_le (hwhole i s ⟨g', entry, hg', hentry, hcomputes⟩)
      rw [Instruction.storesBelow_map] at hsize
      omega
    · have hsize := hleaves.size_le_succ
      rw [Instruction.storesBelow_map] at hsize
      omega
  obtain ⟨hall, hmost⟩ := FlowGraph.size_le_of_searches
    (by rw [hisOf.maxLocals] at hn; exact Nat.le_trans (hentered entry hentry) hn) hhints hleaves
    (FlowGraph.searches_of_search hsearch')
  exact Nat.max_le.mpr ⟨hmost hn, FlowSolution.mostLocals_le_iff.mpr hall⟩

include hloads hloads' in
/-- Where the second analysis succeeds, it finds the bound on the stack that the first one has
found, and the same bound on the locals if no value on a stack is separated from its second half. -/
theorem bounds_of_analyze {solution' : FlowSolution}
    (hanalyzed : analyze (layout.reread body parts p table frames).events
      (layout.reread body parts p table frames).handlers
      (layout.reread body parts p table frames).frames method
      (layout.reread body parts p table frames).maxLocals = .ok solution') :
    solution'.maxStack = layout.maxStack ∧
      ((∀ i s, (layout.reread body parts p table frames).Computes method i s → s.WholeStack) →
        solution'.maxLocals = layout.maxLocals) := by
  obtain ⟨g', entry, q', hg', hentry, -, hsearch', hsolution'⟩ :=
    FlowSolution.exists_search hanalyzed
  refine ⟨UInt16.toNat_inj.mp ?_, fun hwhole => UInt16.toNat_inj.mp (Nat.le_antisymm ?_ ?_)⟩
  · rw [hsolution'.toNat_maxStack, h.maxStack_of_search hp hisOf hloads hloads' hg' hentry hsearch']
  · rw [hsolution'.toNat_maxLocals]
    exact h.maxLocals_of_search hp hisOf hg' hentry hsearch' (Nat.le_refl _) (.inl hwhole)
  · exact UInt16.le_iff_toNat_le.mp (FlowSolution.locals_le_of_analyze hanalyzed).1

/-! ### Success -/

omit hp hisOf in
/-- What has been jumped to is declared. -/
theorem isSome_hint_of_jumpTarget (hp : p.WellFormed) (hnew : ¬method.majorVersion < 50)
    {g' : FlowGraph}
    (hg' : FlowGraph.ofEvents (layout.reread body parts p table frames).events
      (layout.reread body parts p table frames).handlers
      (layout.reread body parts p table frames).frames method = .ok g')
    {l : Label} (hl : l ∈ layout.jumpTargets parts.handlers) {r : Nat}
    (hposition : g'.position (layout.relabel table l) = .ok r) : (g'.hints[r]?).isSome := by
  obtain ⟨row, hrow, hoffset⟩ :=
    List.mem_map.mp (((h.frames_spec hp).2 hnew (layout.offset l)).mpr ⟨l, hl, rfl⟩)
  have hmem : (layout.relabel table l, row.2.map fun l => table.labelAt (layout.offset l)) ∈
      (layout.reread body parts p table frames).frames := by
    rw [Layout.relabel, ← hoffset]
    exact List.mem_map.mpr ⟨row, hrow, rfl⟩
  exact FlowGraph.isSome_hint hg' hmem hposition

omit hp hisOf in
/-- What an instruction that is read back jumps to is declared. -/
theorem isSome_hint_of_target (hp : p.WellFormed) (hnew : ¬method.majorVersion < 50)
    {g' : FlowGraph}
    (hg' : FlowGraph.ofEvents (layout.reread body parts p table frames).events
      (layout.reread body parts p table frames).handlers
      (layout.reread body parts p table frames).frames method = .ok g')
    {e : Event} (he : e ∈ (layout.reread body parts p table frames).events) {l' : Label}
    (hl' : l' ∈ e.targets) {r : Nat} (hposition : g'.position l' = .ok r) :
    (g'.hints[r]?).isSome := by
  cases e with
  | label l => simp [Event.targets] at hl'
  | instr i' =>
    obtain ⟨i, rfl, e₀, he₀, hevent⟩ := Layout.exists_placed_of_reread he
    rw [Event.targets, Instruction.targets_map] at hl'
    obtain ⟨l, hl, rfl⟩ := List.mem_map.mp hl'
    exact h.isSome_hint_of_jumpTarget hp hnew hg'
      (Layout.mem_jumpTargets.mpr (.inl ⟨e₀, he₀, by rw [hevent]; exact hl⟩)) hposition

omit hp hisOf in
/-- Where a handler that is read back begins is declared. -/
theorem isSome_hint_of_range (hp : p.WellFormed) (hnew : ¬method.majorVersion < 50)
    {g' : FlowGraph}
    (hg' : FlowGraph.ofEvents (layout.reread body parts p table frames).events
      (layout.reread body parts p table frames).handlers
      (layout.reread body parts p table frames).frames method = .ok g')
    {range : GuardedRange} (hrange : range ∈ g'.ranges) : (g'.hints[range.target]?).isSome := by
  obtain ⟨handler', hhandler', -, -, hposition⟩ :=
    (FlowGraph.isOf_of_ofEvents hg').ranges.exists_left hrange
  obtain ⟨placed, hplaced, rfl⟩ := List.mem_map.mp hhandler'
  obtain ⟨handler, -, hhandles⟩ := Layout.handles_of_mem hp h.areOf hplaced
  refine h.isSome_hint_of_jumpTarget hp hnew hg' (l := handler.target)
    (Layout.mem_jumpTargets.mpr (.inr ⟨placed, hplaced, (Layout.mem_of_places hhandles.target).2⟩))
    ?_
  rw [Layout.relabel, Layout.offset_of_places hhandles.target]
  exact hposition

/-- A hint is of the level that the first analysis has found there, if no value on a stack is
separated from its second half. -/
theorem isLevel_of_hint (hwhole : ∀ e ∈ layout.placed, ∀ s, e.state = some s → s.WholeStack)
    {g' : FlowGraph}
    (hg' : FlowGraph.ofEvents (layout.reread body parts p table frames).events
      (layout.reread body parts p table frames).handlers
      (layout.reread body parts p table frames).frames method = .ok g')
    {r : Nat} {hint : FlowState} (hhint : g'.hints[r]? = some hint) :
    solution.IsLevel (events.map (·.event))
      (numberAt (layout.reread body parts p table frames).events r) hint := by
  obtain ⟨k, s, hs, hwholeLocals, rfl, hnumber, e, he, hstate⟩ :=
    h.exists_state_of_hint hp hisOf hg' hhint
  obtain ⟨g, entry, q, hg, -, -, hsolution⟩ := FlowSolution.exists_isOf hisOf.analyzed
  have hrenames : s.Renames (layout.relabel table) _ :=
    renames_ofFrame hwholeLocals (hwhole e he s hstate)
  rw [hnumber]
  exact (FlowSolution.isLevel_of_state hg hsolution hs).congr hrenames.length_eq.symm

include hloads hloads' in
/-- If frames are written and no value on a stack of the first analysis is separated from its second
half, the second analysis succeeds, except that its bound on the locals may become too large by one
where such a value is stored as a reference. -/
theorem exists_analyze (hnew : ¬method.majorVersion < 50)
    (hwhole : ∀ e ∈ layout.placed, ∀ s, e.state = some s → s.WholeStack)
    (hroom : (∀ i s, (layout.reread body parts p table frames).Computes method i s → s.WholeStack) ∨
      layout.maxLocals < 65535) :
    ∃ solution', analyze (layout.reread body parts p table frames).events
      (layout.reread body parts p table frames).handlers
      (layout.reread body parts p table frames).frames method
      (layout.reread body parts p table frames).maxLocals = .ok solution' := by
  obtain ⟨g, entry, q, hg, hentry, -, hsearch, hsolution⟩ :=
    FlowSolution.exists_search hisOf.analyzed
  obtain ⟨g', hg'⟩ := FlowGraph.exists_ofEvents h.nodup_labels
    (fun handler hmem l hl => h.labelled.placed l (Body.mem_references_of_handler hmem hl))
    (layout.reread body parts p table frames).frames method
  obtain ⟨q', hsearch'⟩ := (h.copied hp hisOf).exists_search hg hsolution hg'
    (fun n i s => loadsWord_of_stands hp hisOf hloads)
    (fun j e s hcomputes he => hloads' j e s he ⟨g', entry, hg', hentry, hcomputes⟩)
    (fun r hint hhint => h.isLevel_of_hint hp hisOf hwhole hg' hhint)
    (fun e he l hl r hposition => h.isSome_hint_of_target hp hnew hg' he hl hposition)
    fun range hrange => h.isSome_hint_of_range hp hnew hg' hrange
  have hne : (layout.reread body parts p table frames).events ≠ [] := by
    obtain ⟨before, i, after, hevents, -⟩ := h.labelled.first
    rw [hevents]
    simp
  have hstack := h.maxStack_of_search hp hisOf hloads hloads' hg' hentry hsearch'
  have hstackLt := layout.maxStack.toNat_lt
  have hlocals := h.maxLocals_of_search hp hisOf hg' hentry hsearch'
    (Nat.le_of_lt_succ layout.maxLocals.toNat_lt) (hroom.imp_right UInt16.lt_iff_toNat_lt.mp)
  rw [FlowSolution.analyze_eq hne hg' hentry]
  exact ⟨_, Except.bind_eq_ok.mpr ⟨q', hsearch', Except.bind_eq_ok.mpr ⟨_, if_pos (by omega),
    Except.bind_eq_ok.mpr ⟨_, if_pos (by omega), rfl⟩⟩⟩⟩

end Bounds

end Body.ReadBack

end ClassPatch
