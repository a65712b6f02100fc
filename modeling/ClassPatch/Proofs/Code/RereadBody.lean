import ClassPatch.Proofs.Code.Decodable
import ClassPatch.Proofs.Code.Relabelling
import ClassPatch.Proofs.Code.Reread

/-!
# Listings of layouts are bodies again

Everything in a listing that has been read back refers to where a label was placed, which is where
an instruction begins or the code ends. So the listing becomes a body, with a label for every
offset that is referred to, and the body has the program of the layout.
-/

namespace ClassPatch

open PoolM CodeWriter

namespace Layout

variable {layout : Layout} {p q : ConstantPool} {body : Body} {method : MethodContext}
  {parts : Parts} {table : LabelTable} {marks : List Nat} {frames : List (Nat × Frame)}

/-- The body that a listing describes with the labels of a table. -/
def reread (layout : Layout) (body : Body) (parts : Parts) (q : ConstantPool) (table : LabelTable)
    (frames : List (Nat × Frame)) : Body where
  maxStack := layout.maxStack
  maxLocals := layout.maxLocals
  events := layout.code.rows table ++ Disassembly.placedAt table layout.length
  handlers := parts.handlers.map fun (h : PlacedHandler) => {
    start := table.labelAt h.start
    stop := table.labelAt h.stop
    target := table.labelAt h.target.offset
    catchType := if h.catchType = 0 then none else (q.className h.catchType).toOption }
  lines := (body.lines.filterMap layout.lineRow?).map fun row =>
    ⟨table.labelAt row.start, row.number⟩
  localVariables := (body.localVariables.filterMap layout.variableRow?).map fun row =>
    ⟨table.labelAt row.start, table.labelAt row.stop, row.name, row.descriptor, row.slot⟩
  localVariableTypes := (body.localVariableTypes.filterMap layout.variableRow?).map fun row =>
    ⟨table.labelAt row.start, table.labelAt row.stop, row.name, row.descriptor, row.slot⟩
  frames := frames.map fun (offset, frame) =>
    (table.labelAt offset, frame.map fun l => table.labelAt (layout.offset l))
  attributes := parts.kept
  labels := table.supply

/-- The marks are what the parts of a layout refer to. -/
structure Marks (layout : Layout) (body : Body) (parts : Parts) (frames : List (Nat × Frame))
    (marks : List Nat) : Prop where
  listing : (layout.listing body parts).marks ⊆ marks
  starts : ∀ row ∈ frames, row.1 ∈ marks
  sites : ∀ row ∈ frames, ∀ l ∈ row.2.sites, layout.Resolves l ∧ layout.offset l ∈ marks
  /-- A mark is where a label has been placed or an object is made. -/
  origin : ∀ offset ∈ marks, (∃ l, layout.Resolves l ∧ layout.offset l = offset) ∨
    ∃ name, (offset, .typeUse .newObject name) ∈ layout.code

namespace Marks

variable (h : layout.Marks body parts frames marks)
include h

theorem code : ∀ row ∈ layout.code, ∀ offset ∈ Disassembly.marks row.1 row.2, offset ∈ marks := by
  intro row hrow offset hoffset
  refine h.listing ?_
  simp only [CodeListing.marks, List.mem_append, List.mem_flatMap]
  exact .inl (.inl (.inl ⟨row, hrow, hoffset⟩))

theorem targets : ∀ row ∈ layout.code, ∀ t ∈ row.2.targets, t ∈ marks := by
  intro row hrow t ht
  refine h.code row hrow t ?_
  obtain ⟨offset, i⟩ := row
  unfold Disassembly.marks
  split
  · rename_i hi
    simp only at hi
    rw [hi] at ht
    simp [Instruction.targets] at ht
  · exact ht

theorem handlers : ∀ placed ∈ parts.handlers,
    placed.start ∈ marks ∧ placed.stop ∈ marks ∧ placed.target.offset ∈ marks := by
  intro placed hplaced
  have hmem {offset : Nat} (ho : offset ∈ [placed.start, placed.stop, placed.target.offset]) :
      offset ∈ marks := by
    refine h.listing ?_
    simp only [CodeListing.marks, List.mem_append, List.mem_flatMap]
    exact .inl (.inl (.inr ⟨placed.row, List.mem_map_of_mem hplaced, ho⟩))
  exact ⟨hmem (by simp), hmem (by simp), hmem (by simp)⟩

theorem lines : ∀ row ∈ body.lines.filterMap layout.lineRow?, row.start ∈ marks := by
  intro row hrow
  refine h.listing ?_
  simp only [CodeListing.marks, List.mem_append, List.mem_map]
  exact .inl (.inr ⟨row, hrow, rfl⟩)

theorem variableRows : ∀ row ∈ body.localVariables.filterMap layout.variableRow? ++
    body.localVariableTypes.filterMap layout.variableRow?, row.start ∈ marks ∧
      row.stop ∈ marks := by
  intro row hrow
  have hmem {offset : Nat} (ho : offset ∈ [row.start, row.stop]) : offset ∈ marks := by
    refine h.listing ?_
    simp only [CodeListing.marks, List.mem_append, List.mem_flatMap]
    exact .inr ⟨row, List.mem_append.mp hrow, ho⟩
  exact ⟨hmem (by simp), hmem (by simp)⟩

end Marks

/-! ### What is referred to has been placed -/

/-- Rows of lines begin at labels that have been placed. -/
theorem exists_of_lineRow {lines : List Line} {table : List Attribute} {length : Nat}
    (h : FindsTable p CodeAttribute.lineTable .lines (lineRow layout.places length) lines table) :
    ∀ row ∈ lines.filterMap layout.lineRow?, ∃ l, layout.Resolves l ∧
      layout.offset l = row.start := by
  obtain ⟨all, hall, -⟩ := h
  intro row hrow
  obtain ⟨line, hline, hrow⟩ := List.mem_filterMap.mp hrow
  obtain ⟨r, hfound⟩ := Except.exists_of_mapM hall line hline
  obtain ⟨offset, hoffset, -⟩ := Except.bind_eq_ok.mp hfound
  unfold lineRow? at hrow
  split at hrow
  · obtain rfl := Option.some.inj hrow
    exact ⟨line.start, ⟨offset, hoffset⟩, rfl⟩
  · simp at hrow

/-- Rows of variables range between labels that have been placed. -/
theorem exists_of_variableRow {vs : List Variable} {table : List Attribute} {name : String}
    (h : FindsTable p name .localVariables (variableRow layout.places) vs table) :
    ∀ row ∈ vs.filterMap layout.variableRow?, ∃ l l', layout.Resolves l ∧ layout.Resolves l' ∧
      layout.offset l = row.start ∧ layout.offset l' = row.stop := by
  obtain ⟨all, hall, -⟩ := h
  intro row hrow
  obtain ⟨v, hv, hrow⟩ := List.mem_filterMap.mp hrow
  obtain ⟨r, hfound⟩ := Except.exists_of_mapM hall v hv
  obtain ⟨start, hstart, hfound⟩ := Except.bind_eq_ok.mp hfound
  obtain ⟨stop, hstop, -⟩ := Except.bind_eq_ok.mp hfound
  unfold variableRow? at hrow
  split at hrow
  · obtain rfl := Option.some.inj hrow
    exact ⟨v.start, v.stop, ⟨start, hstart⟩, ⟨stop, hstop⟩, rfl, rfl⟩
  · simp at hrow

/-- Every mark is where an instruction begins or the code ends. -/
theorem Marks.boundary (h : layout.Marks body parts frames marks) (hmade : layout.MadeIn p)
    {offset : Nat} (hmark : offset ∈ marks) :
    offset = layout.length ∨ offset ∈ layout.code.map (·.1) := by
  obtain ⟨l, hl, rfl⟩ | ⟨name, hnew⟩ := h.origin offset hmark
  · exact hmade.boundary hl
  · exact .inr (List.mem_map_of_mem hnew)

theorem Marks.le_length (h : layout.Marks body parts frames marks) (hmade : layout.MadeIn p)
    (hfilled : Filled layout.placed) {offset : Nat} (hmark : offset ∈ marks) :
    offset ≤ layout.length := by
  rcases h.boundary hmade hmark with rfl | hmem
  · exact Nat.le_refl _
  · obtain ⟨row, hrow, rfl⟩ := List.mem_map.mp hmem
    exact Nat.le_of_lt (lt_of_mem_code hmade.laid hfilled row hrow)

/-- Every mark of a listing is where a label has been placed or an object is made. -/
theorem origin_of_mem_marks (hp : p.WellFormed) (hwritten : layout.WrittenAs q parts.code)
    (hparts : parts.AreOf body method layout p) {offset : Nat}
    (h : offset ∈ (layout.listing body parts).marks) :
    (∃ l, layout.Resolves l ∧ layout.offset l = offset) ∨
      ∃ name, (offset, .typeUse .newObject name) ∈ layout.code := by
  simp only [CodeListing.marks, List.mem_append, List.mem_flatMap, List.mem_map] at h
  rcases h with ((⟨row, hrow, hmark⟩ | ⟨row, hrow, hmark⟩) | ⟨row, hrow, rfl⟩) | ⟨row, hrow, hmark⟩
  · obtain ⟨e, he, i, hevent, hrow'⟩ := mem_code.mp hrow
    unfold Disassembly.marks at hmark
    split at hmark
    · rename_i name hnew
      obtain rfl := List.mem_singleton.mp hmark
      exact .inr ⟨name, hnew ▸ hrow⟩
    · rw [hrow', Instruction.targets_map] at hmark
      obtain ⟨l, hl, rfl⟩ := List.mem_map.mp hmark
      exact .inl ⟨l, hwritten.resolved e he i hevent l hl, rfl⟩
  · obtain ⟨placed, hplaced, rfl⟩ := List.mem_map.mp hrow
    obtain ⟨handler, -, hhandles⟩ := handles_of_mem hp hparts hplaced
    simp only [PlacedHandler.row, List.mem_cons, List.not_mem_nil, or_false] at hmark
    rcases hmark with rfl | rfl | rfl
    · exact .inl ⟨handler.start, hhandles.start_resolves, hhandles.start_eq.symm⟩
    · exact .inl ⟨handler.stop, hhandles.stop_resolves, hhandles.stop_eq.symm⟩
    · exact .inl ⟨handler.target, .of_places hhandles.target, offset_of_places hhandles.target⟩
  · obtain ⟨l, hl, hoffset⟩ := exists_of_lineRow hparts.lines row hrow
    exact .inl ⟨l, hl, hoffset⟩
  · have hrow : ∃ l l', layout.Resolves l ∧ layout.Resolves l' ∧
        layout.offset l = row.start ∧ layout.offset l' = row.stop :=
      hrow.elim (exists_of_variableRow hparts.localVariables row)
        (exists_of_variableRow hparts.localVariableTypes row)
    obtain ⟨l, l', hl, hl', hstart, hstop⟩ := hrow
    simp only [List.mem_cons, List.not_mem_nil, or_false] at hmark
    rcases hmark with rfl | rfl
    · exact .inl ⟨l, hl, hstart⟩
    · exact .inl ⟨l', hl', hstop⟩

/-! ### Frames -/

/-- An attribute that can be written has a payload of a length in 32 bits. -/
theorem length_payload_of_encodeList {attributes : List Attribute} {bytes : Bytes}
    (h : Attribute.encodeList attributes = .ok bytes) :
    ∀ a ∈ attributes, a.payload.length < UInt32.size := by
  intro a ha
  unfold Attribute.encodeList at h
  split at h
  · obtain ⟨rows, hrows, -⟩ := Except.bind_eq_ok.mp h
    obtain ⟨row, hrow⟩ := Except.exists_of_mapM hrows a ha
    unfold Attribute.encode at hrow
    split at hrow
    · assumption
    · simp at hrow
  · exact absurd h Except.throw_ne_ok

/-- The stack map of a listing is read back as the frames that have been written. -/
theorem frames_listing (hp : p.WellFormed) (hpq : p ≤ q) {initial : Frame}
    (hentry : Frame.entry method = .ok initial) (hparts : parts.AreOf body method layout p) :
    ∃ frames frames' offsets, layout.HasFrames parts.handlers method frames ∧
      (layout.listing body parts).frames q initial = .ok (frames', offsets) ∧
      StackMap.FramesStand layout.places.offsetOf offsets frames frames' ∧
      ∀ offset ∈ offsets, ∃ l, layout.places.offsetOf l = .ok offset := by
  obtain ⟨frames, hframes, ⟨rfl, hnone⟩ |
    ⟨index, payload, initial', -, hone, -, hinitial, hencoded⟩⟩ :=
      stackMap_cases hp hparts.stackMap
  · refine ⟨[], [], #[], hframes, ?_, .nil, by simp⟩
    simp only [CodeListing.frames, listing, hnone]
    rfl
  · obtain rfl := Except.ok.inj (hinitial.symm.trans hentry)
    have hlength : payload.length < UInt32.size :=
      length_payload_of_encodeList hparts.attributes ⟨index, payload⟩ (by simp [hone])
    obtain ⟨frames', offsets, hdecoded, hstand, hoffsets⟩ := StackMap.decode_encode hp hpq
      (Frame.stands_entry hentry _ _) hencoded hlength
    refine ⟨frames, frames', offsets, hframes, ?_, hstand, hoffsets⟩
    simp only [CodeListing.frames, listing, hone, List.map_cons, List.map_nil,
      List.getLast?_singleton, hdecoded]
    rfl

theorem resolves_of_hasFrames {handlers : List PlacedHandler}
    (h : layout.HasFrames handlers method frames) :
    ∀ row ∈ frames, ∃ l, layout.Resolves l ∧ layout.offset l = row.1 := by
  intro row hrow
  unfold HasFrames at h
  split at h
  · simp [h] at hrow
  · obtain ⟨l, -, e, s, hplaces, -, rfl⟩ := mem_frames h row hrow
    exact ⟨l, .of_places hplaces, offset_of_places hplaces⟩

private theorem mem_of_stands {offsets : Array Nat} {frame frame' : Frame}
    (h : StackMap.FrameStands layout.places.offsetOf offsets frame frame') :
    ∀ l ∈ frame.sites, layout.Resolves l ∧ layout.offset l ∈ offsets := by
  intro l hl
  obtain ⟨t, ht, hsite⟩ := List.mem_filterMap.mp hl
  obtain ⟨t', hstands⟩ : ∃ t', StackMap.Stands layout.places.offsetOf offsets t t' := by
    rcases List.mem_append.mp ht with ht | ht
    · exact (h.locals.exists_right ht).imp fun _ h => h.2
    · exact (h.stack.exists_right ht).imp fun _ h => h.2
  cases t with
  | uninitialized site =>
    obtain rfl := Option.some.inj hsite
    obtain ⟨k, offset, hoffset, hk, -, -⟩ := hstands
    exact ⟨⟨offset, hoffset⟩, offset_of_offsetOf hoffset ▸ Array.mem_of_getElem? hk⟩
  | _ => simp at hsite

/-- What a listing refers to, its frames and the sites in them are the marks of a layout. -/
private theorem marks_listing (hp : p.WellFormed) (hwritten : layout.WrittenAs q parts.code)
    (hparts : parts.AreOf body method layout p) {frames' : List (Nat × Frame)} {offsets : Array Nat}
    (hframes : layout.HasFrames parts.handlers method frames)
    (hstand : StackMap.FramesStand layout.places.offsetOf offsets frames frames')
    (hoffsets : ∀ offset ∈ offsets, ∃ l, layout.places.offsetOf l = .ok offset) :
    layout.Marks body parts frames
      ((layout.listing body parts).marks ++ frames'.map (·.1) ++ offsets.toList) := by
  have hstarts : frames'.map (·.1) = frames.map (·.1) := hstand.map_eq fun _ _ h => h.1
  rw [hstarts]
  refine ⟨fun o ho => ?_, fun row hrow => ?_, fun row hrow l hl => ?_, fun o ho => ?_⟩
  · simp [ho]
  · simp only [List.mem_append]
    exact .inl (.inr (List.mem_map_of_mem hrow))
  · obtain ⟨row', -, -, hframe⟩ := hstand.exists_right hrow
    obtain ⟨hl, hmem⟩ := mem_of_stands hframe l hl
    exact ⟨hl, by simp [hmem]⟩
  · simp only [List.mem_append, List.mem_map, Array.mem_toList_iff] at ho
    rcases ho with (ho | ⟨row, hrow, rfl⟩) | ho
    · exact origin_of_mem_marks hp hwritten hparts ho
    · exact .inl (resolves_of_hasFrames hframes row hrow)
    · obtain ⟨l, hl⟩ := hoffsets o ho
      exact .inl ⟨l, ⟨o, hl⟩, offset_of_offsetOf hl⟩

/-! ### The body -/

theorem handlerOf_row (hp : p.WellFormed) (hpq : p ≤ q) (htable : table.Has marks)
    (hparts : parts.AreOf body method layout p) (hmarks : layout.Marks body parts frames marks)
    {placed : PlacedHandler} (h : placed ∈ parts.handlers) :
    CodeListing.handlerOf q table placed.row = .ok {
      start := table.labelAt placed.start
      stop := table.labelAt placed.stop
      target := table.labelAt placed.target.offset
      catchType := if placed.catchType = 0 then none
        else (q.className placed.catchType).toOption } := by
  obtain ⟨hstart, hstop, htarget⟩ := hmarks.handlers placed h
  obtain ⟨handler, -, hhandles⟩ := handles_of_mem hp hparts h
  refine Except.bind_eq_ok.mpr ⟨_, htable.get_eq_ok hstart, Except.bind_eq_ok.mpr ⟨_,
    htable.get_eq_ok hstop, Except.bind_eq_ok.mpr ⟨_, htable.get_eq_ok htarget, ?_⟩⟩⟩
  have hcatch := hhandles.catchType
  split at hcatch
  · refine (if_pos hcatch).trans ?_
    rw [if_pos hcatch]
    rfl
  · obtain ⟨hne, hname⟩ := hcatch
    refine (if_neg hne).trans ?_
    rw [if_neg hne]
    refine Except.bind_eq_ok.mpr ⟨_, className_of_classRef hp hname hpq, ?_⟩
    rw [className_of_classRef hp hname hpq]
    rfl

theorem variableOf_row (htable : table.Has marks) {row : VariableRow} (hstart : row.start ∈ marks)
    (hstop : row.stop ∈ marks) : CodeListing.variableOf table row =
      .ok ⟨table.labelAt row.start, table.labelAt row.stop, row.name, row.descriptor, row.slot⟩ :=
  Except.bind_eq_ok.mpr ⟨_, htable.get_eq_ok hstart,
    Except.bind_eq_ok.mpr ⟨_, htable.get_eq_ok hstop, rfl⟩⟩

theorem checkVariables_listing (hmade : layout.MadeIn p) :
    (layout.listing body parts).checkVariables = .ok () := by
  have hle {v : Variable} {row : VariableRow} (h : layout.variableRow? v = some row) :
      row.stop ≤ layout.length := by
    unfold variableRow? at h
    split at h
    · obtain rfl := Option.some.inj h
      exact hmade.offset_le v.stop
    · simp at h
  unfold CodeListing.checkVariables
  split
  · rename_i row hfind
    have hmem := List.mem_of_find?_eq_some hfind
    have hlong : row.stop > layout.length := by simpa [listing] using List.find?_some hfind
    simp only [listing, List.mem_append, List.mem_filterMap] at hmem
    rcases hmem with ⟨v, -, hv⟩ | ⟨v, -, hv⟩ <;> exact absurd (hle hv) (by omega)
  · rfl

/-- A listing that has been read back is a body again. -/
theorem body_listing (hp : p.WellFormed) (hpq : p ≤ q) (hmade : layout.MadeIn p)
    (hwritten : layout.WrittenAs q parts.code) (hlength : layout.length ≤ 65535) {initial : Frame}
    (hentry : Frame.entry method = .ok initial) (hparts : parts.AreOf body method layout p) :
    ∃ marks frames, layout.HasFrames parts.handlers method frames ∧
      layout.Marks body parts frames marks ∧
      (LabelTable.ofOffsets (LabelTable.sorted marks)).Has marks ∧
      (layout.listing body parts).body q method =
        .ok (layout.reread body parts q (.ofOffsets (LabelTable.sorted marks)) frames) := by
  obtain ⟨frames, frames', offsets, hframes, hread, hstand, hoffsets⟩ :=
    frames_listing hp hpq hentry hparts
  let marks := (layout.listing body parts).marks ++ frames'.map (·.1) ++ offsets.toList
  have hmarks : layout.Marks body parts frames marks :=
    marks_listing hp hwritten hparts hframes hstand hoffsets
  have hbound : ∀ o ∈ marks, o ≤ layout.length := fun o => hmarks.le_length hmade hwritten.size_pos
  have htable : (LabelTable.ofOffsets (LabelTable.sorted marks)).Has marks :=
    LabelTable.has_ofOffsets (Nat.lt_of_le_of_lt hlength (by decide)) hbound
  refine ⟨marks, frames, hframes, hmarks, htable, ?_⟩
  have hofMarks : LabelTable.ofMarks marks
      (Std.TreeSet.ofList ((layout.listing body parts).code.map (·.1)))
      (layout.listing body parts).length = .ok (.ofOffsets (LabelTable.sorted marks)) := by
    refine LabelTable.ofMarks_eq_ok.mpr ⟨fun o ho => ?_, rfl⟩
    refine (hmarks.boundary hmade ho).imp_right fun hmem => ?_
    simpa [listing] using hmem
  refine CodeListing.body_eq_ok.mpr
    ⟨initial, frames', offsets, .ofOffsets (LabelTable.sorted marks), ?_⟩
  refine {
    checked := checkVariables_listing hmade
    entry := hentry
    unplaced := hread
    numbered := hofMarks
    events := Disassembly.events_eq htable hmarks.targets
    handlers := ?handlers
    lines := Except.mapM_eq_map fun row hrow =>
      Except.bind_eq_ok.mpr ⟨_, htable.get_eq_ok (hmarks.lines row hrow), rfl⟩
    localVariables := Except.mapM_eq_map fun row hrow =>
      have ⟨hstart, hstop⟩ := hmarks.variableRows row (List.mem_append_left _ hrow)
      variableOf_row htable hstart hstop
    localVariableTypes := Except.mapM_eq_map fun row hrow =>
      have ⟨hstart, hstop⟩ := hmarks.variableRows row (List.mem_append_right _ hrow)
      variableOf_row htable hstart hstop
    frames := ?frames
    maxStack := rfl
    maxLocals := rfl
    attributes := rfl
    labels := rfl }
  case handlers =>
    refine Except.mapM_eq_ok.mpr (List.forall₂_map_left_iff.mpr (List.forall₂_map_right_iff.mpr
      (List.forall₂_same.mpr fun placed hplaced => ?_)))
    exact handlerOf_row hp hpq htable hparts hmarks hplaced
  case frames =>
    refine Except.mapM_eq_ok.mpr (List.forall₂_map_right_iff.mpr
      (hstand.flip.imp_of_mem fun row' _ row hrow h => ?_))
    obtain ⟨hstart, hframe⟩ := h
    refine Except.bind_eq_ok.mpr ⟨_, htable.get_eq_ok (hstart ▸ hmarks.starts row hrow), ?_⟩
    refine Except.bind_eq_ok.mpr ⟨_, CodeListing.relabelFrame_of_stands htable
      (fun o ho => by simp [marks, ho]) hframe, ?_⟩
    rw [hstart]
    rfl

/-- The body that is read back has the program of the layout. -/
theorem program_reread (hmade : layout.MadeIn p) (hwritten : layout.WrittenAs q parts.code)
    (hmarks : layout.Marks body parts frames marks) (htable : table.Has marks) :
    program (layout.reread body parts q table frames).events =
      program (layout.placed.map (·.event)) := by
  have hfilled : Filled layout.placed := hwritten.size_pos
  refine (Disassembly.program_rows htable (pairwise_code hmade.laid hfilled)
    (lt_of_mem_code hmade.laid hfilled) hmarks.targets fun row hrow t ht => ?_).trans
      (hmade.program_code hwritten.size_pos hwritten.resolved)
  exact hmarks.boundary hmade (hmarks.targets row hrow t ht)

end Layout
end ClassPatch
