import ClassPatch.Proofs.Code.Decodable
import ClassPatch.Proofs.Code.Rebuilding
import ClassPatch.Proofs.Code.Relabelling
import Mathlib.Data.List.Nodup

/-!
# Labels of decoded bodies

Decoding places every label once, and places all labels that it refers to. An instruction comes
first, behind at most one label.
-/

namespace ClassPatch

variable {pool : ConstantPool} {method : MethodContext}

/-- The labels of a body are in order. -/
structure Body.Labelled (body : Body) : Prop where
  nodup : (ClassPatch.placedLabels body.events).Nodup
  placed : ∀ l ∈ body.references, l ∈ ClassPatch.placedLabels body.events
  guarded : ∀ h ∈ body.handlers, h.start ≠ h.stop
  first : ∃ before i after, body.events = before ++ .instr i :: after ∧
    instructions before = [] ∧ ∀ l ∈ ClassPatch.placedLabels before, before = [.label l]

namespace LabelTable

variable {table : LabelTable} {marks : List Nat} {offset : Nat} {l : Label}

/-- Only marked offsets have labels. -/
theorem Has.of_get? (h : table.Has marks) (hl : table.get? offset = some l) :
    offset ∈ marks ∧ l = table.labelAt offset := by
  have hmem : offset ∈ marks := by
    by_contra hnot
    simp [h.get?_none hnot] at hl
  exact ⟨hmem, Option.some.inj (hl.symm.trans (h.get? hmem))⟩

theorem Has.of_get (h : table.Has marks) (hl : table.get offset = .ok l) :
    offset ∈ marks ∧ l = table.labelAt offset := by
  refine h.of_get? ?_
  unfold LabelTable.get at hl
  split at hl
  · rw [← Except.ok.inj hl]
    assumption
  · simp at hl

end LabelTable

namespace Disassembly

variable {code : Disassembly} {table : LabelTable} {marks : List Nat} {length : Nat}

theorem placedLabels_placedAt (offset : Nat) :
    placedLabels (placedAt table offset) = (table.get? offset).toList := by
  unfold placedAt
  cases table.get? offset <;> rfl

/-- Labels are placed in the order of their offsets. -/
theorem placedLabels_rows : placedLabels (code.rows table ++ placedAt table length) =
    (code.map (·.1) ++ [length]).filterMap table.get? := by
  rw [placedLabels_append, placedLabels_placedAt, List.filterMap_append]
  have hrows : placedLabels (code.rows table) = (code.map (·.1)).filterMap table.get? := by
    induction code with
    | nil => rfl
    | cons row code ih =>
      simp only [rows, List.flatMap_cons, placedLabels_append, placedLabels_placedAt] at ih ⊢
      rw [ih]
      cases hl : table.get? row.1 <;> simp [hl]
  rw [hrows]
  cases hl : table.get? length <;> simp [hl]

theorem nodup_placedLabels (htable : table.Has marks)
    (hsorted : (code.map (·.1)).Pairwise (· < ·)) (hlength : ∀ row ∈ code, row.1 < length) :
    (placedLabels (code.rows table ++ placedAt table length)).Nodup := by
  rw [placedLabels_rows]
  refine List.Nodup.filterMap (fun offset offset' l hl hl' => ?_) ?_
  · obtain ⟨hmem, heq⟩ := htable.of_get? hl
    obtain ⟨hmem', heq'⟩ := htable.of_get? hl'
    exact htable.inj hmem hmem' (heq.symm.trans heq')
  · refine List.nodup_append.mpr ⟨hsorted.imp Nat.ne_of_lt, by simp, ?_⟩
    rintro offset hoffset _ hlast rfl
    obtain rfl : offset = length := by simpa using hlast
    obtain ⟨row, hrow, heq⟩ := List.mem_map.mp hoffset
    exact absurd heq (Nat.ne_of_lt (hlength row hrow))

theorem mem_placedLabels_rows (htable : table.Has marks) {offset : Nat} (hmem : offset ∈ marks)
    (hoffset : offset = length ∨ offset ∈ code.map (·.1)) :
    table.labelAt offset ∈ placedLabels (code.rows table ++ placedAt table length) := by
  rw [placedLabels_rows]
  refine List.mem_filterMap.mpr ⟨offset, ?_, htable.get? hmem⟩
  rcases hoffset with rfl | hoffset
  · simp
  · exact List.mem_append_left _ hoffset

/-- If the offsets of all `new` are in the table, a label stands in front of each of them. -/
theorem exists_label_of_new (code : Disassembly) {table : LabelTable} {length : Nat}
    (htable : ∀ row ∈ code, ∀ className, row.2 = .typeUse .newObject className →
      (table.get? row.1).isSome) {j : Nat} {className : String}
    (hj : (code.rows table ++ placedAt table length)[j]? =
      some (.instr (.typeUse .newObject className))) :
    ∃ k l, j = k + 1 ∧ (code.rows table ++ placedAt table length)[k]? = some (.label l) := by
  have hplaced (offset : Nat) : placedAt table offset = [] ∧ table.get? offset = none ∨
      ∃ l, placedAt table offset = [.label l] := by
    unfold placedAt
    cases table.get? offset <;> simp
  induction code generalizing j with
  | nil =>
    rcases hplaced length with ⟨hnone, -⟩ | ⟨l, hone⟩
    · simp [rows, hnone] at hj
    · rcases j with _ | j <;> simp [rows, hone] at hj
  | cons row code ih =>
    have hrows : rows (row :: code) table ++ placedAt table length = placedAt table row.1 ++
        .instr (row.2.map table.labelAt) :: (rows code table ++ placedAt table length) := by
      simp [rows]
    rw [hrows] at hj ⊢
    rw [List.forall_mem_cons] at htable
    rcases hplaced row.1 with ⟨hnone, hget⟩ | ⟨l, hone⟩
    · rw [hnone, List.nil_append] at hj ⊢
      rcases j with _ | j
      · have hi : row.2.map table.labelAt = .typeUse .newObject className := by simpa using hj
        have hnew : row.2 = .typeUse .newObject className := by
          cases hrow : row.2 <;> simp_all [Instruction.map]
        simpa [hget] using htable.1 className hnew
      · obtain ⟨k, l, rfl, hl⟩ := ih htable.2 (by simpa using hj)
        exact ⟨k + 1, l, rfl, by simpa using hl⟩
    · rw [hone, List.singleton_append] at hj ⊢
      rcases j with _ | _ | j
      · simp at hj
      · exact ⟨0, l, rfl, rfl⟩
      · obtain ⟨k, l', rfl, hl⟩ := ih htable.2 (by simpa using hj)
        exact ⟨k + 2, l', rfl, by simpa using hl⟩

end Disassembly

namespace CodeListing

open Disassembly

/-- The uninitialized types of a frame get labels of the table. -/
theorem exists_of_relabelFrame {offsets : Array Nat} {table : LabelTable} {frame frame' : Frame}
    (h : relabelFrame offsets table frame = .ok frame') :
    ∀ l ∈ frame'.sites, ∃ offset, table.get offset = .ok l := by
  have htypes {types types' : List VerificationType}
      (h : types.mapM (relabel offsets table) = .ok types') {l : Label}
      (hl : .uninitialized l ∈ types') : ∃ offset, table.get offset = .ok l := by
    obtain ⟨t, -, ht⟩ := (Except.mapM_eq_ok.mp h).exists_left hl
    unfold relabel at ht
    split at ht
    · split at ht
      · rename_i offset _
        obtain ⟨l', hl', heq⟩ := Except.map_eq_ok.mp ht
        obtain rfl := VerificationType.uninitialized.inj heq
        exact ⟨offset, hl'⟩
      · cases ht
    · rename_i hnot
      exact absurd (Except.ok.inj ht) (hnot l)
  obtain ⟨locals, hlocals, h⟩ := Except.bind_eq_ok.mp h
  obtain ⟨stack, hstack, h⟩ := Except.bind_eq_ok.mp h
  obtain rfl := Except.pure_eq_ok.mp h
  intro l hl
  obtain ⟨t, ht, hsite⟩ := List.mem_filterMap.mp hl
  cases t with
  | uninitialized site =>
    obtain rfl := Option.some.inj hsite
    exact (List.mem_append.mp ht).elim (htypes hlocals) (htypes hstack)
  | _ => cases hsite

/-- The body that a listing becomes, with a table of labels for its marks. -/
structure Builds (listing : CodeListing) (pool : ConstantPool) (body : Body) (table : LabelTable)
    (marks : List Nat) : Prop where
  ordered : table = LabelTable.ofOffsets (LabelTable.sorted marks)
  has : table.Has marks
  covers : listing.marks ⊆ marks
  boundary : ∀ offset ∈ marks, offset = listing.length ∨ offset ∈ listing.code.map (·.1)
  events : listing.code.events table listing.length = .ok body.events
  handlers : listing.handlers.mapM (handlerOf pool table) = .ok body.handlers
  lines : listing.lines.mapM (lineOf table) = .ok body.lines
  localVariables : listing.localVariables.mapM (variableOf table) = .ok body.localVariables
  localVariableTypes :
    listing.localVariableTypes.mapM (variableOf table) = .ok body.localVariableTypes
  frames : ∀ row ∈ body.frames, (∃ offset, table.get offset = .ok row.1) ∧
    ∀ l ∈ row.2.sites, ∃ offset, table.get offset = .ok l
  labels : body.labels = table.supply

/-- What a listing that has been read becomes. -/
theorem exists_table_of_body {listing : CodeListing} {body : Body}
    (h : listing.body pool method = .ok body) (hlisting : listing.ProperIn pool) :
    ∃ table marks, listing.Builds pool body table marks := by
  obtain ⟨initial, found, offsets, table, hdecodes⟩ := body_eq_ok.mp h
  obtain ⟨hboundary, rfl⟩ := LabelTable.ofMarks_eq_ok.mp hdecodes.numbered
  have hboundary' := fun offset hmem => (hboundary offset hmem).imp_right fun hmem' =>
    show offset ∈ listing.code.map (·.1) by simpa using hmem'
  have hmax : maxCodeLength < UInt32.size := by decide
  refine ⟨_, _, rfl, LabelTable.has_ofOffsets hmax fun offset hmem => ?bound, ?covers, hboundary',
    hdecodes.events, hdecodes.handlers, hdecodes.lines, hdecodes.localVariables,
    hdecodes.localVariableTypes, fun row hrow => ?frames, hdecodes.labels.symm⟩
  case bound =>
    rcases hboundary' offset hmem with rfl | hmem'
    · exact hlisting.length_le
    · obtain ⟨row, hrow, rfl⟩ := List.mem_map.mp hmem'
      exact Nat.le_of_lt (Nat.lt_of_lt_of_le (hlisting.lt row hrow) hlisting.length_le)
  case covers =>
    rw [List.append_assoc]
    exact List.subset_append_left _ _
  case frames =>
    obtain ⟨⟨offset, frame⟩, -, hrow⟩ := (Except.mapM_eq_ok.mp hdecodes.frames).exists_left hrow
    obtain ⟨place, hplace, hrow⟩ := Except.bind_eq_ok.mp hrow
    obtain ⟨frame', hframe, hrow⟩ := Except.bind_eq_ok.mp hrow
    obtain rfl := Except.pure_eq_ok.mp hrow
    exact ⟨⟨offset, hplace⟩, exists_of_relabelFrame hframe⟩

/-- The targets of instructions that have become events are marked. -/
theorem marks_of_events {code : Disassembly} {table : LabelTable} {marks : List Nat} {length : Nat}
    {events : List Event} (htable : table.Has marks) (h : code.events table length = .ok events) :
    ∀ row ∈ code, ∀ t ∈ row.2.targets, t ∈ marks := by
  obtain ⟨rows, hrows, -⟩ := Except.bind_eq_ok.mp h
  intro row hrow t ht
  obtain ⟨events', hevents'⟩ := Except.exists_of_mapM hrows row hrow
  obtain ⟨i, hi, -⟩ := Except.bind_eq_ok.mp hevents'
  obtain ⟨l, hl⟩ := Instruction.exists_of_mapTargets hi t ht
  exact (htable.of_get hl).1

/-- The labels of a handler are those of its row. -/
theorem labels_of_handlerOf {table : LabelTable} {row : HandlerRow} {handler : Handler}
    (h : handlerOf pool table row = .ok handler) : table.get row.start = .ok handler.start ∧
      table.get row.stop = .ok handler.stop ∧ table.get row.target = .ok handler.target := by
  obtain ⟨start, hstart, h⟩ := Except.bind_eq_ok.mp h
  obtain ⟨stop, hstop, h⟩ := Except.bind_eq_ok.mp h
  obtain ⟨target, htarget, h⟩ := Except.bind_eq_ok.mp h
  split at h
  · obtain rfl := Except.pure_eq_ok.mp h
    exact ⟨hstart, hstop, htarget⟩
  · obtain ⟨name, -, h⟩ := Except.bind_eq_ok.mp h
    obtain rfl := Except.pure_eq_ok.mp h
    exact ⟨hstart, hstop, htarget⟩

/-- The labels of a variable are those of its row. -/
theorem labels_of_variableOf {table : LabelTable} {row : VariableRow} {v : Variable}
    (h : variableOf table row = .ok v) :
    table.get row.start = .ok v.start ∧ table.get row.stop = .ok v.stop := by
  obtain ⟨start, hstart, h⟩ := Except.bind_eq_ok.mp h
  obtain ⟨stop, hstop, h⟩ := Except.bind_eq_ok.mp h
  obtain rfl := Except.pure_eq_ok.mp h
  exact ⟨hstart, hstop⟩

namespace Builds

variable {listing : CodeListing} {body : Body} {table : LabelTable} {marks : List Nat}
  (h : listing.Builds pool body table marks)
include h

theorem events_eq :
    listing.code.rows table ++ placedAt table listing.length = body.events :=
  Except.ok.inj ((Disassembly.events_eq h.has (marks_of_events h.has h.events)).symm.trans h.events)

/-- The label of an offset is placed. -/
theorem placed {offset : Nat} {l : Label} (hl : table.get offset = .ok l) :
    l ∈ placedLabels body.events := by
  obtain ⟨hmem, rfl⟩ := h.has.of_get hl
  rw [← h.events_eq]
  exact mem_placedLabels_rows h.has hmem (h.boundary offset hmem)

/-- The labels of variables are placed. -/
private theorem placed_of_variables {rows : List VariableRow} {vs : List Variable}
    (hvs : rows.mapM (variableOf table) = .ok vs) {v : Variable} (hv : v ∈ vs) :
    v.start ∈ placedLabels body.events ∧ v.stop ∈ placedLabels body.events := by
  obtain ⟨row, -, hv⟩ := (Except.mapM_eq_ok.mp hvs).exists_left hv
  obtain ⟨hstart, hstop⟩ := labels_of_variableOf hv
  exact ⟨h.placed hstart, h.placed hstop⟩

/-- The body refers to labels that it places. -/
theorem placed_of_mem_references {l : Label} (hl : l ∈ body.references) :
    l ∈ placedLabels body.events := by
  simp only [Body.references, List.mem_append, List.mem_flatMap, List.mem_map] at hl
  rcases hl with ((⟨e, he, hl⟩ | ⟨handler, hmem, hl⟩) | ⟨line, hline, rfl⟩) | ⟨v, hv, hl⟩
  · cases e with
    | label l' => simp [Event.targets] at hl
    | instr i =>
      have hi : i ∈ instructions body.events := mem_instructions.mpr he
      rw [← h.events_eq, instructions_rows] at hi
      obtain ⟨row, hrow, rfl⟩ := List.mem_map.mp hi
      rw [Event.targets, Instruction.targets_map] at hl
      obtain ⟨t, ht, rfl⟩ := List.mem_map.mp hl
      exact h.placed (h.has.get_eq_ok (marks_of_events h.has h.events row hrow t ht))
  · obtain ⟨row, -, hhandler⟩ := (Except.mapM_eq_ok.mp h.handlers).exists_left hmem
    obtain ⟨hstart, hstop, htarget⟩ := labels_of_handlerOf hhandler
    simp only [List.mem_cons, List.not_mem_nil, or_false] at hl
    rcases hl with rfl | rfl | rfl
    exacts [h.placed hstart, h.placed hstop, h.placed htarget]
  · obtain ⟨row, -, hline⟩ := (Except.mapM_eq_ok.mp h.lines).exists_left hline
    obtain ⟨start, hstart, hline⟩ := Except.bind_eq_ok.mp hline
    obtain rfl := Except.pure_eq_ok.mp hline
    exact h.placed hstart
  · have hv := hv.elim (h.placed_of_variables h.localVariables)
      (h.placed_of_variables h.localVariableTypes)
    simp only [List.mem_cons, List.not_mem_nil, or_false] at hl
    rcases hl with rfl | rfl
    exacts [hv.1, hv.2]

end Builds

/-- A listing that has been read becomes a body with labels in order. -/
theorem labelled_of_body {listing : CodeListing} {body : Body}
    (h : listing.body pool method = .ok body) (hlisting : listing.ProperIn pool) :
    body.Labelled := by
  obtain ⟨table, marks, hbuilds⟩ := exists_table_of_body h hlisting
  have hrows := hbuilds.events_eq
  refine ⟨?_, fun l hl => hbuilds.placed_of_mem_references hl, fun h hh => ?_, ?_⟩
  · rw [← hrows]
    exact nodup_placedLabels hbuilds.has hlisting.sorted hlisting.lt
  · obtain ⟨row, hrow, hh⟩ := (Except.mapM_eq_ok.mp hbuilds.handlers).exists_left hh
    obtain ⟨hstart, hstop, -⟩ := labels_of_handlerOf hh
    intro heq
    obtain ⟨hmem, hl⟩ := hbuilds.has.of_get hstart
    obtain ⟨hmem', hl'⟩ := hbuilds.has.of_get hstop
    exact Nat.ne_of_lt (hlisting.guarded row hrow)
      (hbuilds.has.inj hmem hmem' (by rw [← hl, ← hl', heq]))
  · obtain ⟨i, rest, hfirst⟩ := hlisting.first
    refine ⟨placedAt table 0, i.map table.labelAt, rows rest table ++ placedAt table listing.length,
      by rw [← hrows, hfirst]; simp [rows], instructions_placedAt 0, fun l hl => ?_⟩
    unfold placedAt at hl ⊢
    cases hlabel : table.get? 0 <;> simp_all

end CodeListing

/-- A body that is decoded has its labels in order. -/
theorem Body.labelled_of_decode {data : Bytes} {body : Body}
    (h : Body.decode data pool method = .ok body) : body.Labelled := by
  obtain ⟨listing, -, hlisting, hbody⟩ := Body.exists_listing h
  exact CodeListing.labelled_of_body hbody hlisting

/-- The method of a body that is decoded has a frame on entry. -/
theorem Body.exists_entry_of_decode {data : Bytes} {body : Body}
    (h : Body.decode data pool method = .ok body) : ∃ frame, Frame.entry method = .ok frame := by
  obtain ⟨listing, -, hbody⟩ := Except.bind_eq_ok.mp h
  obtain ⟨initial, found, offsets, table, hdecodes⟩ := CodeListing.body_eq_ok.mp hbody
  exact ⟨initial, hdecodes.entry⟩

end ClassPatch
