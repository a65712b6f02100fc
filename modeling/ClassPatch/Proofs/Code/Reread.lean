import ClassPatch.Proofs.Code.Listing
import ClassPatch.Proofs.Code.StoredForm

/-!
# Written bodies are read back

A code attribute that has been written from a body and its layout is read as the listing of the
layout, with the parts of the body that are left, and the listing becomes a body again.
-/

namespace ClassPatch

open PoolM Reader CodeWriter

namespace Layout

variable {layout : Layout} {p q : ConstantPool} {body : Body} {method : MethodContext}
  {parts : Parts}

/-- What a code attribute with the given parts says. -/
def listing (layout : Layout) (body : Body) (parts : Parts) : CodeListing where
  maxStack := layout.maxStack
  maxLocals := layout.maxLocals
  length := layout.length
  code := layout.code
  handlers := parts.handlers.map (·.row)
  lines := body.lines.filterMap layout.lineRow?
  localVariables := body.localVariables.filterMap layout.variableRow?
  localVariableTypes := body.localVariableTypes.filterMap layout.variableRow?
  stackMap := (parts.stackMap.map (·.payload)).getLast?
  attributes := parts.kept

/-- The handlers that are written have been placed. -/
theorem handles_of_mem (hp : p.WellFormed) (hparts : parts.AreOf body method layout p)
    {placed : PlacedHandler} (h : placed ∈ parts.handlers) :
    ∃ handler ∈ body.handlers, Places.Handles layout p handler placed := by
  obtain ⟨all, hall, hhandlers⟩ := hparts.handlers
  rw [hhandlers] at h
  obtain ⟨r, hr, hplaced⟩ := List.mem_filterMap.mp h
  obtain ⟨handler, hhandler, hfinds⟩ :=
    ((finds_mapM steady_placeHandler hp).mp hall).exists_left hr
  rcases placeHandler_cases hp hfinds with ⟨rfl, -⟩ | ⟨placed', rfl, hhandles⟩
  · simp at hplaced
  · obtain rfl := Option.some.inj hplaced
    exact ⟨handler, hhandler, hhandles⟩

/-- Control reaches only what has an instruction behind it. -/
theorem MadeIn.offset_lt (hmade : layout.MadeIn p) (hfilled : Filled layout.placed)
    {e : PlacedEvent} (he : e ∈ layout.placed) (hreached : e.state.isSome = true) :
    e.offset < layout.length := by
  obtain ⟨before, after, hplaced⟩ := List.append_of_mem he
  obtain ⟨e', he', i, hi⟩ := hmade.behind hplaced hreached
  have hmem : e' ∈ layout.placed := hplaced ▸ List.mem_append_right _ he'
  have hpos := hfilled e' hmem i hi
  have hstop := hmade.laid.le_stop e' hmem
  have hlaid := hmade.laid
  rw [hplaced] at hlaid
  obtain ⟨middle, -, hafter⟩ := hlaid.of_append
  have hmiddle : middle = e.offset := by
    cases hafter
    rfl
  have := hafter.start_le e' he'
  omega

theorem MadeIn.length_pos (hmade : layout.MadeIn p) {code : Bytes}
    (hwritten : layout.WrittenAs q code) : 0 < layout.length := by
  obtain ⟨e, he, i, hi⟩ := hmade.nonempty
  have := hwritten.size_pos e he i hi
  have := hmade.laid.le_stop e he
  omega

/-- The exception table holds the handlers that are written. -/
theorem stored_handlers (hp : p.WellFormed) (hmade : layout.MadeIn p)
    (hfilled : Filled layout.placed) (hparts : parts.AreOf body method layout p) :
    StoredRows (HandlerRow.Stored layout.length) (parts.handlers.map (·.row))
      (parts.handlerCount ++ parts.handlers.flatMap handlerBytes) := by
  have hcount := hparts.handlerCount
  unfold countBytes at hcount
  rcases finds_ite hcount with ⟨hle, hcount⟩ | ⟨-, hcount⟩
  · refine ⟨by rwa [List.length_map], parts.handlers.map handlerBytes, ?_, ?_⟩
    · refine List.forall₂_map_left_iff.mpr (List.forall₂_map_right_iff.mpr
        (List.forall₂_same.mpr fun placed hmem => ?_))
      obtain ⟨handler, -, hhandles⟩ := handles_of_mem hp hparts hmem
      have hstop : placed.stop ≤ layout.length := hhandles.stop_eq ▸ hmade.offset_le _
      have htarget := hmade.offset_lt hfilled (mem_of_places hhandles.target).1 hhandles.reached
      exact ⟨hhandles.lt, hstop, htarget, rfl⟩
    · rw [← finds_pure.mp hcount, List.flatMap_def, List.length_map]
  · exact absurd hcount not_finds_throw

/-- The attributes beside the code are read back. -/
theorem ofAttribute_parts (hp : p.WellFormed) (hpq : p ≤ q) (hmade : layout.MadeIn p)
    (hlength : layout.length ≤ 65535) (hcode : parts.code.length = layout.length)
    (hother : ∀ a ∈ body.attributes, CodeAttribute.IsOther p a)
    (hparts : parts.AreOf body method layout p) :
    (parts.lines ++ parts.localVariables ++ parts.localVariableTypes ++ parts.stackMap ++
      parts.kept).mapM (CodeAttribute.ofAttribute q) = .ok
      (CodeAttribute.ofRows .lines (body.lines.filterMap layout.lineRow?) ++
        CodeAttribute.ofRows .localVariables (body.localVariables.filterMap layout.variableRow?) ++
        CodeAttribute.ofRows .localVariableTypes
          (body.localVariableTypes.filterMap layout.variableRow?) ++
        parts.stackMap.map (fun a => .stackMap a.payload) ++ parts.kept.map .other) := by
  have hlines := hparts.lines
  rw [hcode] at hlines
  have hstackMap : parts.stackMap.mapM (CodeAttribute.ofAttribute q) =
      .ok (parts.stackMap.map fun a => .stackMap a.payload) := by
    obtain ⟨frames, -, ⟨-, hnone⟩ | ⟨index, payload, initial, -, hone, hindex, -⟩⟩ :=
      stackMap_cases hp hparts.stackMap
    · rw [hnone]
      rfl
    · rw [hone]
      refine Except.mapM_eq_map fun a ha => ?_
      obtain rfl := List.mem_singleton.mp ha
      exact CodeAttribute.ofAttribute_stackMapTable (text_of_text hp hindex hpq)
  simp only [List.mapM_append, ofAttribute_lines hp hpq hlength hlines,
    ofAttribute_variables hp hpq hmade hlength (fun _ => CodeAttribute.ofAttribute_variableTable)
      hparts.localVariables,
    ofAttribute_variables hp hpq hmade hlength
      (fun _ => CodeAttribute.ofAttribute_variableTypeTable) hparts.localVariableTypes,
    hstackMap, ofAttribute_kept hpq hother hparts.kept]
  rfl

/-- Every part of a listing comes from the attributes that say something about it. -/
private theorem parts_of_attributes (lines : List LineRow) (vs types : List VariableRow)
    (maps kept : List Attribute) :
    let all := CodeAttribute.ofRows .lines lines ++ CodeAttribute.ofRows .localVariables vs ++
      CodeAttribute.ofRows .localVariableTypes types ++
      maps.map (fun a => .stackMap a.payload) ++ kept.map .other
    all.flatMap CodeAttribute.lineRows = lines ∧ all.flatMap CodeAttribute.variableRows = vs ∧
      all.flatMap CodeAttribute.variableTypeRows = types ∧
      all.filterMap CodeAttribute.stackMap? = maps.map (·.payload) ∧
      all.filterMap CodeAttribute.other? = kept := by
  cases lines <;> cases vs <;> cases types <;>
    simp [CodeAttribute.ofRows, CodeAttribute.lineRows, CodeAttribute.variableRows,
      CodeAttribute.variableTypeRows, CodeAttribute.stackMap?, CodeAttribute.other?,
      List.flatMap_map, List.filterMap_cons, Function.comp_def]

/-- A code attribute is read as the listing of its layout. -/
theorem read_bytes (hp : p.WellFormed) (hpq : p ≤ q) (hmade : layout.MadeIn p)
    (hwritten : layout.WrittenAs q parts.code) (hlength : layout.length ≤ 65535)
    (hother : ∀ a ∈ body.attributes, CodeAttribute.IsOther p a)
    (hparts : parts.AreOf body method layout p) :
    (CodeListing.read q method).parse (parts.bytes layout) = .ok (layout.listing body parts) := by
  have hcode := hwritten.length_eq
  obtain ⟨hlines, hvs, htypes, hmaps, hkept⟩ := parts_of_attributes
    (body.lines.filterMap layout.lineRow?) (body.localVariables.filterMap layout.variableRow?)
    (body.localVariableTypes.filterMap layout.variableRow?) parts.stackMap parts.kept
  have hhandlers := stored_handlers hp hmade hwritten.size_pos hparts
  have hattributes := ofAttribute_parts hp hpq hmade hlength hcode hother hparts
  have hpos := hmade.length_pos hwritten
  rw [← hcode] at hhandlers hpos hlength
  have hstored : (layout.listing body parts).Stored q parts.code _ parts.attributes _ _ :=
    ⟨hcode.symm, hpos, hlength, hwritten.disassembled, hhandlers, hparts.attributes,
      CodeAttribute.mapM_ofAttribute_eq_ok.mp hattributes,
      ⟨hlines.symm, hvs.symm, htypes.symm, congrArg List.getLast? hmaps.symm, hkept.symm⟩⟩
  refine CodeListing.parse_read_eq_ok.mpr ⟨_, _, _, _, _, ?_, hstored⟩
  rw [Parts.bytes, CodeListing.payload]
  simp only [List.append_assoc]
  rfl

end Layout
end ClassPatch
