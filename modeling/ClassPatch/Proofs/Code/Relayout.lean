import ClassPatch.Proofs.Code.Decoding
import ClassPatch.Proofs.Code.Reached
import ClassPatch.Proofs.Code.Recoding
import ClassPatch.Proofs.Code.Settling

/-!
# Layouts of bodies that are read back

What has been written is laid out again just as it was: control reaches all of it, so nothing is
dropped, its instructions take as much room as before, and every jump reaches its target already.
-/

/-- Members that have partners one by one have them together. -/
theorem List.exists_forall₂ {α β : Type} {R : α → β → Prop} {xs : List α}
    (h : ∀ x ∈ xs, ∃ y, R x y) : ∃ ys, List.Forall₂ R xs ys := by
  induction xs with
  | nil => exact ⟨[], .nil⟩
  | cons x xs ih =>
    obtain ⟨y, hy⟩ := h x (List.mem_cons_self ..)
    obtain ⟨ys, hys⟩ := ih fun x hx => h x (List.mem_cons_of_mem _ hx)
    exact ⟨y :: ys, .cons hy hys⟩

namespace ClassPatch

open PoolM CodeWriter

/-! ### Extents of renamed events -/

section Extents

variable {p : ConstantPool} {f : Label → Label}

/-- Names of labels do not matter for the room that an event takes. -/
theorem Extent.finds_ofEvent_map {e : Event} {extent : Extent}
    (h : Finds (Extent.ofEvent e) p extent) :
    Finds (Extent.ofEvent (e.map f)) p (extent.map f) := by
  cases e with
  | label l =>
    obtain rfl := finds_pure.mp h
    exact finds_pure.mpr rfl
  | instr i =>
    cases i with
    | push value =>
      obtain ⟨bytes, p', hbytes, h⟩ := EStateM.bind_eq_ok.mp h
      obtain ⟨rfl, rfl⟩ := EStateM.pure_eq_ok.mp h
      exact EStateM.bind_eq_ok.mpr ⟨bytes, _, hbytes, rfl⟩
    | invoke kind =>
      cases kind <;> exact finds_pure.mp h ▸ finds_pure.mpr rfl
    | tableSwitch low high default targets | lookupSwitch default cases =>
      obtain rfl := finds_pure.mp h
      exact finds_pure.mpr (by simp [Extent.map])
    | _ => exact finds_pure.mp h ▸ finds_pure.mpr rfl

/-- An event has been measured and is near so far. -/
structure SizedEvent.MeasuredIn (p : ConstantPool) (e : SizedEvent) : Prop where
  extent : Finds (Extent.ofEvent e.event) p e.extent
  wide : e.wide = false

theorem Layout.measuredIn_of_finds (hp : p.WellFormed)
    {rows : List (LayoutEvent × Option FlowState)} {sized : List SizedEvent}
    (h : Finds (Layout.measure rows) p sized) : ∀ e ∈ sized, e.MeasuredIn p := by
  intro e he
  obtain ⟨row, -, extent, hextent, rfl⟩ := (finds_measure hp h).exists_left he
  exact ⟨hextent, rfl⟩

variable {sized sized' : List SizedEvent}

theorem flat_of_measured (h : ∀ e ∈ sized, e.MeasuredIn p) : Flat sized := by
  intro e he hlabel
  obtain ⟨hextent, hwide⟩ := h e he
  refine ⟨?_, hwide⟩
  cases hevent : e.event with
  | label l =>
    rw [hevent] at hextent
    exact (finds_pure.mp hextent).symm
  | instr i => simp [hevent, Event.isLabel] at hlabel

theorem map_event_sizedInstrs (sized : List SizedEvent) :
    (sizedInstrs sized).map (·.event) = (instructions (sized.map (·.event))).map .instr := by
  induction sized with
  | nil => rfl
  | cons e sized ih =>
    cases hevent : e.event with
    | label l => simpa [sizedInstrs, hevent, Event.isLabel] using ih
    | instr i => simpa [sizedInstrs, hevent, Event.isLabel] using ih

/-- Events with the same instructions but for the names of labels are measured alike. -/
theorem forall₂_matches (h : ∀ e ∈ sized, e.MeasuredIn p) (h' : ∀ e ∈ sized', e.MeasuredIn p)
    (hinstrs : instructions (sized'.map (·.event)) =
      (instructions (sized.map (·.event))).map (·.map f)) :
    List.Forall₂ (SizedEvent.Matches f) (sizedInstrs sized) (sizedInstrs sized') := by
  have hevents : (sizedInstrs sized').map (·.event) =
      (sizedInstrs sized).map (·.event.map f) := by
    have hsame : (sizedInstrs sized).map (·.event.map f) =
        ((sizedInstrs sized).map (·.event)).map (Event.map f) := by
      rw [List.map_map]
      rfl
    rw [hsame, map_event_sizedInstrs, map_event_sizedInstrs, hinstrs, List.map_map, List.map_map]
    rfl
  have hrows : List.Forall₂ (fun a c => c.event = a.event.map f) (sizedInstrs sized)
      (sizedInstrs sized') := by
    have heq := List.forall₂_eq_eq_eq ▸ hevents.symm
    rw [List.forall₂_map_left_iff, List.forall₂_map_right_iff] at heq
    exact heq.imp fun _ _ h => h.symm
  refine hrows.imp_of_mem fun a ha c hc hevent => ?_
  have hac := h a (List.mem_of_mem_filter ha)
  have hcc := h' c (List.mem_of_mem_filter hc)
  refine ⟨hevent, ?_, hcc.wide.trans hac.wide.symm⟩
  have hextent := Extent.finds_ofEvent_map (f := f) hac.extent
  rw [← hevent] at hextent
  exact (EStateM.Result.ok.inj (hcc.extent.symm.trans hextent)).1

end Extents

/-! ### Bodies that are read back -/

/-- The label for where a label of a layout has come to. -/
def Layout.relabel (layout : Layout) (table : LabelTable) (l : Label) : Label :=
  table.labelAt (layout.offset l)

/-- The body that is read back has the instructions that have been written. -/
theorem Layout.instructions_reread (layout : Layout) (body : Body) (parts : Parts)
    (p : ConstantPool) (table : LabelTable) (frames : List (Nat × Frame)) :
    instructions (layout.reread body parts p table frames).events =
    (instructions (layout.placed.map (·.event))).map (·.map (layout.relabel table)) := by
  change instructions (layout.code.rows table ++ Disassembly.placedAt table layout.length) = _
  rw [Disassembly.instructions_rows, Layout.code_eq, Layout.codeOf, instructions,
    List.filterMap_map, List.map_filterMap, List.map_filterMap]
  refine List.filterMap_congr fun e _ => ?_
  rw [Function.comp_apply]
  cases e.event with
  | label l => rfl
  | instr i =>
    simp only [Event.instr?, Option.map_some, Instruction.map_map]
    rfl

/-- An instruction that is read back has been placed, under the labels that it had then. -/
theorem Layout.exists_placed_of_reread {layout : Layout} {body : Body} {parts : Parts}
    {p : ConstantPool} {table : LabelTable} {frames : List (Nat × Frame)} {i' : Instruction Label}
    (h : Event.instr i' ∈ (layout.reread body parts p table frames).events) :
    ∃ i, i.map (layout.relabel table) = i' ∧ ∃ e ∈ layout.placed, e.event = .instr i := by
  have hmem := mem_instructions.mpr h
  rw [Layout.instructions_reread] at hmem
  obtain ⟨i, hi, hi'⟩ := List.mem_map.mp hmem
  exact ⟨i, hi', List.mem_map.mp (mem_instructions.mp hi)⟩

/-- What a body has been encoded as is read back, with labels for the marks of a table. -/
structure Body.ReadBack (body : Body) (method : MethodContext) (p : ConstantPool) (code : Bytes)
    (layout : Layout) (parts : Parts) (marks : List Nat) (table : LabelTable)
    (frames : List (Nat × Frame)) : Prop extends body.EncodedAs method p code layout parts where
  hasFrames : layout.HasFrames parts.handlers method frames
  hasMarks : layout.Marks body parts frames marks
  hasTable : table.Has marks
  decoded : Body.decode code p method = .ok (layout.reread body parts p table frames)

namespace Body.ReadBack

variable {body : Body} {method : MethodContext} {p : ConstantPool} {code : Bytes} {layout : Layout}
  {parts : Parts} {marks : List Nat} {table : LabelTable} {frames : List (Nat × Frame)}

variable (h : body.ReadBack method p code layout parts marks table frames)
include h

theorem sorted : (layout.code.map (·.1)).Pairwise (· < ·) :=
  Layout.pairwise_code h.made.laid h.written.size_pos

theorem code_lt : ∀ row ∈ layout.code, row.1 < layout.length :=
  Layout.lt_of_mem_code h.made.laid h.written.size_pos

theorem nodup_labels :
    (ClassPatch.placedLabels (layout.reread body parts p table frames).events).Nodup :=
  Disassembly.nodup_placedLabels h.hasTable h.sorted h.code_lt

theorem boundary {offset : Nat} (hmark : offset ∈ marks) :
    offset = layout.length ∨ offset ∈ layout.code.map (·.1) :=
  h.hasMarks.boundary h.made hmark

/-- A mark is placed in the body that is read back. -/
theorem labelAt_mem {offset : Nat} (hmark : offset ∈ marks) : table.labelAt offset ∈
    ClassPatch.placedLabels (layout.reread body parts p table frames).events :=
  Disassembly.mem_placedLabels_rows h.hasTable hmark (h.boundary hmark)

/-- A mark stands for the instruction at it. -/
theorem landing_labelAt {offset : Nat} (hmark : offset ∈ marks) :
    landing (layout.reread body parts p table frames).events (table.labelAt offset) =
      layout.code.numberOf offset :=
  Disassembly.landing_rows h.hasTable h.sorted h.code_lt hmark (h.boundary hmark)

/-- Where a label has come to stands for the instruction that the label stands for. -/
theorem landing_relabel {l : Label} (hl : layout.Resolves l) (hmark : layout.offset l ∈ marks) :
    landing (layout.reread body parts p table frames).events (layout.relabel table l) =
      landing (layout.placed.map (·.event)) l := by
  rw [Layout.relabel, h.landing_labelAt hmark, h.made.numberOf_offset h.written.size_pos hl]

/-- What is jumped to has been placed and is marked. -/
theorem mark_of_target {e : PlacedEvent} (he : e ∈ layout.placed) {l : Label}
    (hl : l ∈ e.event.targets) : layout.Resolves l ∧ layout.offset l ∈ marks := by
  cases hevent : e.event with
  | label l' => simp [hevent, Event.targets] at hl
  | instr i =>
    rw [hevent] at hl
    refine ⟨h.written.resolved e he i hevent l hl, ?_⟩
    refine h.hasMarks.targets _ (Layout.mem_code.mpr ⟨e, he, i, hevent, rfl⟩) _ ?_
    rw [Instruction.targets_map]
    exact List.mem_map_of_mem hl

theorem guards_eq : guards (layout.reread body parts p table frames).events
    (layout.reread body parts p table frames).handlers = parts.handlers.map layout.guardOf := by
  simp only [guards, Layout.reread, List.map_map]
  refine List.map_congr_left fun placed hplaced => ?_
  obtain ⟨hstart, hstop, htarget⟩ := h.hasMarks.handlers placed hplaced
  simp only [Function.comp_apply, Layout.guardOf, Guard.mk.injEq]
  exact ⟨h.landing_labelAt hstart, h.landing_labelAt hstop, h.landing_labelAt htarget⟩

/-- Control reaches every instruction that is read back. -/
theorem reaches_reread (hp : p.WellFormed) {n : Nat}
    (hn : n < (instructions (layout.reread body parts p table frames).events).length) :
    Reaches (program (layout.reread body parts p table frames).events)
      (guards (layout.reread body parts p table frames).events
        (layout.reread body parts p table frames).handlers) n := by
  rw [h.guards_eq, Layout.program_reread h.made h.written h.hasMarks h.hasTable]
  refine (h.emittedAs hp).reaches hp ?_
  rw [Layout.instructions_reread, List.length_map] at hn
  rwa [← Layout.length_program_placed, length_program]

theorem labelled : (layout.reread body parts p table frames).Labelled :=
  Body.labelled_of_decode h.decoded

theorem checkLabels_reread : (layout.reread body parts p table frames).checkLabels = .ok () :=
  Body.checkLabels_of_placed h.labelled.nodup h.labelled.placed

end Body.ReadBack

/-! ### The same layout again -/

namespace Layout

/-- A layout of what is read back has the same instructions in the same places, but for the names of
labels, and a label at every mark. -/
structure Repeats (layout : Layout) (table : LabelTable) (marks : List Nat) (layout' : Layout) :
    Prop where
  length : layout'.length = layout.length
  instrs : List.Forall₂ (PlacedEvent.Matches (layout.relabel table)) (placedInstrs layout.placed)
    (placedInstrs layout'.placed)
  marked : ∀ offset ∈ marks, ∃ e, layout'.places[table.labelAt offset]? = some e ∧ e.offset = offset

/-- Labels take no room in a layout. -/
theorem MadeIn.flat {layout : Layout} {p : ConstantPool} (hmade : layout.MadeIn p) :
    Flat (layout.placed.map (·.toSizedEvent)) := by
  intro e he hlabel
  obtain ⟨e', he', rfl⟩ := List.mem_map.mp he
  cases hevent : e'.event with
  | label l =>
    have hextent := hmade.measured e' he'
    rw [hevent] at hextent
    refine ⟨(finds_pure.mp hextent).symm, ?_⟩
    by_contra hwide
    obtain ⟨kind, target, hjump, -⟩ := hmade.wide e' he' (by simpa using hwide)
    exact absurd ((finds_pure.mp hextent).trans hjump) nofun
  | instr i => simp [hevent, Event.isLabel] at hlabel

/-- Instructions are listed at their offsets. -/
theorem map_offset_codeOf (offset : Label → Nat) (placed : List PlacedEvent) :
    (codeOf offset placed).map (·.1) = (placedInstrs placed).map (·.offset) := by
  induction placed with
  | nil => rfl
  | cons e placed ih =>
    cases hevent : e.event with
    | label l => simpa [codeOf, placedInstrs, hevent, Event.instr?, Event.isLabel] using ih
    | instr i => simpa [codeOf, placedInstrs, hevent, Event.instr?, Event.isLabel] using ih

theorem numberOf_codeOf (offset : Label → Nat) (placed : List PlacedEvent) (o : Nat) :
    Disassembly.numberOf (codeOf offset placed) o =
      (placedInstrs placed).countP (·.offset < o) := by
  have hoffsets :=
    congrArg (List.countP fun o' => decide (o' < o)) (map_offset_codeOf offset placed)
  rwa [List.countP_map, List.countP_map] at hoffsets

theorem size_pos_placedInstrs {placed : List PlacedEvent} (h : Filled placed) :
    ∀ e ∈ placedInstrs placed, 0 < e.extent.size e.offset e.wide := by
  intro e he
  obtain ⟨hmem, hlabel⟩ := List.mem_filter.mp he
  cases hevent : e.event with
  | label l => simp [hevent, Event.isLabel] at hlabel
  | instr i => exact h e hmem i hevent

/-- A conditional jump that has been written reaches its target. -/
theorem not_isFar_of_written {layout : Layout} {p : ConstantPool} {code : Bytes} (hp : p.WellFormed)
    (hmade : layout.MadeIn p) (hcode : Finds (instructionBytes layout.places layout) p code) :
    ∀ e ∈ layout.placed, e.isFar (labelOffsets layout.placed) = false := by
  intro e he
  by_contra hfar
  obtain ⟨hloose, hover⟩ := Bool.and_eq_true_iff.mp (Bool.not_eq_false _ ▸ hfar)
  obtain ⟨rows, hrows, -⟩ :=
    (finds_bind (Steady.mapM steady_eventBytes _) (fun _ => .pure _) hp).mp hcode
  obtain ⟨row, -, hrow⟩ := ((finds_mapM steady_eventBytes hp).mp hrows).exists_right he
  obtain ⟨c, target, hevent⟩ : ∃ c target, e.event = .instr (.jump (.branch c) target) := by
    unfold LayoutEvent.isLoose at hloose
    split at hloose
    · exact ⟨_, _, ‹_›⟩
    · cases hloose
  have hextent := hmade.measured e he
  rw [hevent] at hextent
  have hextent : e.extent = .jump (.branch c) target := (finds_pure.mp hextent).symm
  simp only [eventBytes, hevent] at hrow
  obtain ⟨i, hi, hbytes⟩ := (finds_bind (steady_ofExcept _)
    (fun i => Instruction.steady_bytes _ _ i) hp).mp hrow
  obtain ⟨offset, hoffset, hi⟩ := Except.bind_eq_ok.mp (finds_ofExcept.mp hi)
  obtain rfl := Except.pure_eq_ok.mp hi
  obtain ⟨e', he', hplace⟩ := Except.bind_eq_ok.mp hoffset
  obtain rfl := Except.pure_eq_ok.mp hplace
  obtain ⟨hmem, hlabel⟩ := mem_of_places (find_eq_ok.mp he')
  simp only [PlacedEvent.overshoots, hextent, labelOffsets_of_mem hmade.nodup hmem hlabel,
    Bool.and_eq_true, Bool.not_eq_true'] at hover
  have hnear : Finds (nearDisplacement ((e'.offset : Int) - e.offset) >>= fun bytes =>
      pure (c.opcode :: bytes)) p row := by
    cases hwide : e.wide with
    | false => simpa [Instruction.bytes, Instruction.jumpBytes, hwide, Jump.opcode] using hbytes
    | true =>
      rw [hwide] at hbytes
      exact absurd hbytes EStateM.throw_ne_ok
  obtain ⟨bytes, p', hbytes, -⟩ := EStateM.bind_eq_ok.mp hnear
  unfold nearDisplacement at hbytes
  rw [if_neg (by simp [hover.2])] at hbytes
  exact EStateM.throw_ne_ok hbytes

end Layout

namespace Body.ReadBack

variable {body : Body} {method : MethodContext} {p : ConstantPool} {code : Bytes} {layout : Layout}
  {parts : Parts} {marks : List Nat} {table : LabelTable} {frames : List (Nat × Frame)}

/-- What is read back is measured again. -/
theorem exists_measure (h : body.ReadBack method p code layout parts marks table frames)
    (hp : p.WellFormed) {rows : List (LayoutEvent × Option FlowState)}
    (hrows : rows.map (·.1.event) = (layout.reread body parts p table frames).events) :
    ∃ sized, Finds (Layout.measure rows) p sized := by
  have hone : ∀ row ∈ rows, ∃ e, Finds (Layout.measureEvent row) p e := by
    intro row hrow
    suffices hextent : ∃ extent, Finds (Extent.ofEvent row.1.event) p extent by
      obtain ⟨extent, hextent⟩ := hextent
      exact ⟨_, EStateM.bind_eq_ok.mpr ⟨extent, p, hextent, rfl⟩⟩
    have hmem :=
      hrows ▸ List.mem_map_of_mem
        (f := fun (row : LayoutEvent × Option FlowState) => row.1.event) hrow
    cases hevent : row.1.event with
    | label l => exact ⟨_, finds_pure.mpr rfl⟩
    | instr i =>
      obtain ⟨i₀, rfl, e, he, hinstr⟩ := Layout.exists_placed_of_reread (hevent ▸ hmem)
      have hmeasured := h.made.measured e he
      rw [hinstr] at hmeasured
      exact ⟨_, Extent.finds_ofEvent_map hmeasured⟩
  obtain ⟨sized, hsized⟩ := List.exists_forall₂ hone
  exact ⟨sized, (finds_mapM Layout.steady_measureEvent hp).mpr hsized⟩

/-- What has been written and what is read back of it are alike. -/
theorem alike (h : body.ReadBack method p code layout parts marks table frames) (hp : p.WellFormed)
    {sized sized' : List SizedEvent} (hsized : ∀ e ∈ sized, e.MeasuredIn p)
    (hsized' : ∀ e ∈ sized', e.MeasuredIn p)
    (hevents : sized.map (·.toLayoutEvent) = layout.placed.map (·.toLayoutEvent))
    (hevents' : sized'.map (·.event) = (layout.reread body parts p table frames).events) :
    Alike (layout.relabel table) sized sized' := by
  have hsame : sized.map (·.event) = layout.placed.map (·.event) := by
    have := congrArg (List.map (·.event)) hevents
    rwa [List.map_map, List.map_map] at this
  obtain ⟨-, widths, hlowers⟩ := Layout.lowers_of_finds hp h.labels h.ofBody
  refine ⟨⟨hsame ▸ h.made.nodup, fun e he => Extent.eq_jump_iff (hsized e he).extent,
      hevents ▸ hlowers.bridged⟩,
    forall₂_matches hsized hsized' ?instrs, flat_of_measured hsized, flat_of_measured hsized',
    hevents' ▸ h.nodup_labels, fun e he kind target hjump => ?lands⟩
  case instrs => rw [hevents', hsame, Layout.instructions_reread]
  case lands =>
    have hmem : e.event ∈ layout.placed.map (·.event) := hsame ▸ List.mem_map_of_mem he
    obtain ⟨e', he', hevent⟩ := List.mem_map.mp hmem
    rw [(Extent.eq_jump_iff (hsized e he).extent kind target).mpr hjump] at hevent
    obtain ⟨hresolves, hmark⟩ := h.mark_of_target he' (l := target) (by
      simp [hevent, Event.targets, Instruction.targets])
    obtain ⟨e₀, he₀, hlabel, -⟩ := hresolves.exists_placed
    rw [hsame, hevents']
    exact ⟨mem_placedLabels.mpr (List.mem_map.mpr ⟨e₀, he₀, hlabel⟩), h.labelAt_mem hmark,
      h.landing_relabel hresolves hmark⟩

/-- Where the analysis succeeds again, what is read back is laid out again as it was. -/
theorem exists_repeats (h : body.ReadBack method p code layout parts marks table frames)
    (hp : p.WellFormed) {solution : FlowSolution}
    (hsolution : analyze (layout.reread body parts p table frames).events
      (layout.reread body parts p table frames).handlers
      (layout.reread body parts p table frames).frames method
      (layout.reread body parts p table frames).maxLocals = .ok solution) :
    ∃ layout' sized, Finds (Layout.ofBody (layout.reread body parts p table frames) method) p
      layout' ∧ layout'.IsOf (layout.reread body parts p table frames) method
        ((layout.reread body parts p table frames).events.map (⟨·, false⟩)) solution sized p ∧
      layout'.placed.map (·.event) = (layout.reread body parts p table frames).events ∧
      layout.Repeats table marks layout' := by
  obtain ⟨events, solution₀, sized₀, -, hisOf⟩ := Layout.exists_isOf hp h.ofBody .refl
  have hsame := Layout.map_event_plain (layout.reread body parts p table frames).events
  -- Nothing is dropped.
  have hfollows := FlowSolution.follows hsolution
  rw [← hsame] at hfollows
  have hpruned := Layout.map_prune_of_reached hfollows
    (by rw [hsame]; exact fun n hn => h.reaches_reread hp hn)
  have hrows := congrArg (List.map (·.event)) hpruned
  rw [List.map_map, hsame] at hrows
  obtain ⟨sized, hsized⟩ := h.exists_measure hp hrows
  have hround : Layout.Round (layout.reread body parts p table frames) method p
      ((layout.reread body parts p table frames).events.map (⟨·, false⟩)) solution sized :=
    ⟨by rw [hsame]; exact hsolution, hsized⟩
  have hlayoutEvents := Layout.events_of_finds_measure hp hsized
  have hevents : sized.map (·.event) = (layout.reread body parts p table frames).events := by
    have := congrArg (List.map (·.event)) (hlayoutEvents.trans hpruned)
    rwa [List.map_map, hsame] at this
  have hlayoutEvents₀ : sized₀.map (·.toLayoutEvent) = layout.placed.map (·.toLayoutEvent) := by
    have hsettled := hisOf.map_settle hp
    rw [hisOf.settled] at hsettled
    exact (Layout.events_of_finds_measure hp hisOf.measured).trans hsettled.symm
  have halike := h.alike hp (Layout.measuredIn_of_finds hp hisOf.measured)
    (Layout.measuredIn_of_finds hp hsized) hlayoutEvents₀ hevents
  have hfar := Layout.not_isFar_of_written hp h.made h.areOf.code
  obtain ⟨hlength, hinstrs, hnone⟩ := halike.settled (by rw [hisOf.settled]; exact hfar)
  rw [hisOf.settled] at hlength hinstrs
  let layout' : Layout :=
    ⟨(settle sized).1, (settle sized).2, solution.maxStack, solution.maxLocals⟩
  have hplaced :
      layout'.placed.map (·.event) = (layout.reread body parts p table frames).events := by
    have hsettled := congrArg (List.map (·.event)) ((hround.map_settle hp).trans hpruned)
    rwa [List.map_map, hsame] at hsettled
  have hisOf' : layout'.IsOf (layout.reread body parts p table frames) method
      ((layout.reread body parts p table frames).events.map (⟨·, false⟩)) solution sized p :=
    ⟨hround, rfl, rfl, rfl⟩
  have hmade' := hisOf'.madeIn hp
  refine ⟨layout', sized, ?finds, hisOf', hplaced, hlength, hinstrs, fun offset hmark => ?marked⟩
  case finds =>
    rw [Layout.ofBody, Layout.ofEvents_eq]
    refine EStateM.bind_eq_ok.mpr ⟨solution, p, lookUp_of_ok hround.analyzed, ?_⟩
    refine EStateM.bind_eq_ok.mpr ⟨sized, p, hsized, ?_⟩
    unfold Layout.finish
    dsimp only
    rw [if_neg fun hboth => ?_]
    · rfl
    · obtain ⟨e, he, hefar⟩ := List.any_eq_true.mp hboth.1
      exact absurd (hefar.symm.trans (hnone e he)) (by decide)
  case marked =>
    have hmem := ClassPatch.mem_placedLabels.mp (h.labelAt_mem hmark)
    rw [← hplaced] at hmem
    obtain ⟨e, he, hlabel⟩ := List.mem_map.mp hmem
    refine ⟨e, Layout.places_of_mem hmade'.nodup he hlabel, ?_⟩
    have hfront := hmade'.laid.take_landing hmade'.flat hmade'.nodup he hlabel
    rw [hplaced, h.landing_labelAt hmark] at hfront
    have hboundary := h.boundary hmark
    rw [Layout.code_eq, Layout.map_offset_codeOf] at hboundary
    have hback := (h.made.laid.placedInstrs h.made.flat).take_boundary
      (Layout.size_pos_placedInstrs h.written.size_pos) hboundary
    rw [← Layout.numberOf_codeOf layout.offset, ← Layout.code_eq] at hback
    exact hback.eq_of_matches hfront (hinstrs.imp fun _ _ hmatch => hmatch.sized)

end Body.ReadBack

theorem Body.exists_readBack {body : Body} {method : MethodContext} {p : ConstantPool}
    {code : Bytes} (hp : p.WellFormed) (hproper : body.ProperIn p)
    (h : Finds (body.encode method) p code) : ∃ layout parts marks table frames,
      body.ReadBack method p code layout parts marks table frames := by
  obtain ⟨layout, parts, hencoded⟩ := Body.exists_encodedAs hp hproper h
  obtain ⟨marks, frames, hframes, hmarks, htable, hdecoded⟩ := hencoded.decode hp hproper
  exact ⟨layout, parts, marks, _, frames, hencoded, hframes, hmarks, htable, hdecoded⟩

end ClassPatch
