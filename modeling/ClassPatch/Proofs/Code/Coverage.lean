import ClassPatch.Proofs.Code.Emission
import ClassPatch.Proofs.Code.Reached
import ClassPatch.Proofs.Code.Reread
import ClassPatch.Proofs.Evaluation

/-!
# Ranges keep what they cover

Handlers and variables of a body refer to ranges between labels; what is written for them refers to
ranges of offsets. An instruction that control reaches lies between two labels exactly if what is
left of it lies in the written range, and no range is written exactly if there is no such
instruction. A handler that guards a reached instruction is reached as well, so this holds whichever
of the two reasons has kept an entry from being written.
-/

namespace ClassPatch

open PoolM CodeWriter

/-- An instruction of a body lies between two labels. -/
def Body.Between (body : Body) (start stop : Label) (n : Nat) : Prop :=
  landing body.events start ≤ n ∧ n < landing body.events stop

namespace Layout

/-- An instruction of a body has left one that is written at an offset; a conditional jump that has
been bridged has left two. -/
def LeavesAt (layout : Layout) (place : Nat → Nat) (n offset : Nat) : Prop :=
  ∃ k i, place n ≤ k ∧ k < place (n + 1) ∧ layout.code[k]? = some (offset, i)

/-- A range of offsets is written for the range between two labels: it covers what the instructions
between them have left and nothing of others, and is left out if control reaches none of them. -/
def Keeps (layout : Layout) (body : Body) (place : Nat → Nat) (start stop : Label) :
    Option (Nat × Nat) → Prop
  | none => ∀ n, body.Live n → ¬body.Between start stop n
  | some (first, last) => (∃ n, body.Live n ∧ body.Between start stop n) ∧
    ∀ n offset, body.Live n → layout.LeavesAt place n offset →
      (body.Between start stop n ↔ first ≤ offset ∧ offset < last)

/-- A row of the exception table is written for a handler, or none. -/
structure KeepsHandler (layout : Layout) (body : Body) (place : Nat → Nat) (p : ConstantPool)
    (h : Handler) (row : Option HandlerRow) : Prop where
  range : layout.Keeps body place h.start h.stop (row.map fun r => (r.start, r.stop))
  /-- The row leads to what is left of the instruction that the handler begins with. -/
  target : ∀ r ∈ row, body.Live (landing body.events h.target) ∧
    ∃ i, layout.code[place (landing body.events h.target)]? = some (r.target, i)
  catchType : ∀ r ∈ row, match h.catchType with
    | none => r.catchType = 0
    | some name => r.catchType ≠ 0 ∧ p.className r.catchType = .ok name

/-- A row of a table of variables is written for a variable, or none. -/
structure KeepsVariable (layout : Layout) (body : Body) (place : Nat → Nat) (v : Variable)
    (row : Option VariableRow) : Prop where
  range : layout.Keeps body place v.start v.stop (row.map fun r => (r.start, r.stop))
  same : ∀ r ∈ row, r.name = v.name ∧ r.descriptor = v.descriptor ∧ r.slot = v.slot

end Layout

/-! ### Offsets and numbers -/

namespace Disassembly

/-- The instructions in front of an offset have smaller numbers than those from it on. -/
theorem numberOf_le_iff {code : Disassembly} (hsorted : (code.map (·.1)).Pairwise (· < ·)) {k : Nat}
    {row : Nat × Instruction Nat} (hk : code[k]? = some row) (offset : Nat) :
    code.numberOf offset ≤ k ↔ offset ≤ row.1 := by
  induction code generalizing k with
  | nil => simp at hk
  | cons first code ih =>
    rw [List.map_cons, List.pairwise_cons] at hsorted
    have hfirst : ∀ r ∈ code, first.1 < r.1 := fun r hr => hsorted.1 _ (List.mem_map_of_mem hr)
    have hcount : numberOf (first :: code) offset =
        numberOf code offset + if first.1 < offset then 1 else 0 := by
      simp [numberOf, List.countP_cons]
    have hnone (hle : offset ≤ first.1) : numberOf code offset = 0 := by
      refine List.countP_eq_zero.mpr fun r hr hlt => ?_
      have hlt := of_decide_eq_true hlt
      have hback := hfirst r hr
      omega
    rw [hcount]
    cases k with
    | zero =>
      obtain rfl := Option.some.inj hk
      by_cases hle : offset ≤ first.1
      · simp [hnone hle, hle]
      · simp [hle]
    | succ k =>
      rw [List.getElem?_cons_succ] at hk
      have hrow := hfirst row (List.mem_of_getElem? hk)
      by_cases hle : offset ≤ first.1
      · rw [hnone hle, if_neg (by omega)]
        omega
      · rw [if_pos (by omega), Nat.add_le_add_iff_right]
        exact ih hsorted.2 hk

end Disassembly

/-! ### What an instruction leaves -/

namespace Body.LoweredTo

variable {body : Body} {method : MethodContext} {p : ConstantPool} {layout : Layout}
  {place : Nat → Nat}

/-- An instruction that control reaches has left something. -/
theorem exists_leavesAt (hlowered : body.LoweredTo method p layout place) {n : Nat}
    (hn : body.Live n) : ∃ offset, layout.LeavesAt place n offset := by
  obtain ⟨i, hi⟩ : ∃ i, (program body.events)[n]? = some i :=
    ⟨_, List.getElem?_eq_getElem (hlowered.lt hn)⟩
  have hfate : Relayed.Fate place (program (layout.placed.map (·.event))) 0 i (place n)
      (place (n + 1)) := by
    simpa using hlowered.relayed.fate hi (by simpa using hn)
  have hlt : place n < place (n + 1) ∧ place n < layout.code.length := by
    rw [← Layout.length_program_placed]
    rcases hfate with @⟨j, hstart, hstop, hj⟩ | @⟨c, t, j, hstart, hstop, -, hj, -⟩
    · have := (List.getElem?_eq_some_iff.mp hj).1
      omega
    · have := (List.getElem?_eq_some_iff.mp hj).1
      omega
  exact ⟨_, place n, _, Nat.le_refl _, hlt.1, List.getElem?_eq_getElem hlt.2⟩

/-- What is written has been left by an instruction that control reaches. -/
theorem exists_live (hlowered : body.LoweredTo method p layout place) {k : Nat}
    {row : Nat × Instruction Nat} (hk : layout.code[k]? = some row) :
    ∃ n, body.Live n ∧ layout.LeavesAt place n row.1 := by
  have hlt : k < (program (layout.placed.map (·.event))).length := by
    rw [Layout.length_program_placed]
    exact (List.getElem?_eq_some_iff.mp hk).1
  obtain ⟨n, i, -, hlive, hle, hgt⟩ := hlowered.relayed.exists_origin hlt
  simp only [Nat.zero_add] at hlive hle hgt
  exact ⟨n, hlive, k, row.2, hle, hgt, hk⟩

end Body.LoweredTo

/-! ### Ranges -/

namespace Body.EmittedAs

variable {body : Body} {method : MethodContext} {p : ConstantPool} {code : Bytes} {layout : Layout}
  {parts : Parts} {place : Nat → Nat}

section Lowered

variable (h : body.EmittedAs method p code layout parts)
  (hlowered : body.LoweredTo method p layout place)
include h hlowered

/-- An instruction stands behind a label exactly if what it has left does. -/
theorem landing_le_iff {l : Label} (hl : l ∈ body.references) {n offset : Nat}
    (hleaves : layout.LeavesAt place n offset) :
    landing body.events l ≤ n ↔ layout.offset l ≤ offset := by
  obtain ⟨k, i, hle, hlt, hk⟩ := hleaves
  rw [← Disassembly.numberOf_le_iff h.pairwise_code hk]
  exact hlowered.landing_le_iff hl hle hlt

/-- An instruction lies between two labels exactly if what it has left lies between their
offsets. -/
theorem between_iff {start stop : Label} (hstart : start ∈ body.references)
    (hstop : stop ∈ body.references) {n offset : Nat} (hleaves : layout.LeavesAt place n offset) :
    body.Between start stop n ↔ layout.offset start ≤ offset ∧ offset < layout.offset stop := by
  unfold Between
  rw [h.landing_le_iff hlowered hstart hleaves, ← Nat.not_le,
    h.landing_le_iff hlowered hstop hleaves, Nat.not_le]

/-- A range that is not empty is written as it is. -/
theorem keeps_of_lt (hp : p.WellFormed) {start stop : Label} (hstart : start ∈ body.references)
    (hstop : stop ∈ body.references) (hlt : layout.offset start < layout.offset stop) :
    layout.Keeps body place start stop (some (layout.offset start, layout.offset stop)) := by
  refine ⟨?_, fun n offset _ hleaves => h.between_iff hlowered hstart hstop hleaves⟩
  have hle := h.made.offset_le stop
  have hmem : layout.offset start ∈ layout.code.map (·.1) :=
    (h.made.boundary (h.resolves hp hstart)).resolve_left (by omega)
  obtain ⟨row, hrow, hoffset⟩ := List.mem_map.mp hmem
  obtain ⟨k, hk⟩ := List.getElem?_of_mem hrow
  obtain ⟨n, hlive, hleaves⟩ := hlowered.exists_live hk
  refine ⟨n, hlive, (h.between_iff hlowered hstart hstop hleaves).mpr ?_⟩
  rw [hoffset]
  exact ⟨Nat.le_refl _, hlt⟩

/-- Nothing that control reaches lies in a range that is empty. -/
theorem keeps_of_not_lt {start stop : Label} (hstart : start ∈ body.references)
    (hstop : stop ∈ body.references) (hnot : ¬layout.offset start < layout.offset stop) :
    layout.Keeps body place start stop none := by
  intro n hlive hbetween
  obtain ⟨offset, hleaves⟩ := hlowered.exists_leavesAt hlive
  obtain ⟨hle, hlt⟩ := (h.between_iff hlowered hstart hstop hleaves).mp hbetween
  exact hnot (Nat.lt_of_le_of_lt hle hlt)

/-! ### Handlers -/

/-- A label that control comes to stands in front of an instruction that is written. -/
theorem exists_code_of_live (hp : p.WellFormed) {l : Label} (hl : l ∈ body.references)
    (hlive : body.Live (landing body.events l)) :
    ∃ i, layout.code[place (landing body.events l)]? = some (layout.offset l, i) := by
  obtain ⟨offset, k, i, hle, -, hk⟩ := hlowered.exists_leavesAt hlive
  have hlt := (List.getElem?_eq_some_iff.mp hk).1
  obtain ⟨row, hrow⟩ : ∃ row, layout.code[place (landing body.events l)]? = some row :=
    ⟨_, List.getElem?_eq_getElem (by omega)⟩
  have hsplit := List.take_append_drop (place (landing body.events l)) layout.code
  obtain ⟨hlt', hget⟩ := List.getElem?_eq_some_iff.mp hrow
  rw [List.drop_eq_getElem_cons hlt', hget] at hsplit
  have hoffset : layout.offset l = row.1 := by
    refine Disassembly.eq_of_numberOf h.pairwise_code
      (Layout.lt_of_mem_code h.made.laid h.filled) (h.made.boundary (h.resolves hp hl))
      hsplit.symm ?_
    rw [hlowered.number l hl, List.length_take, Nat.min_eq_left (Nat.le_of_lt hlt')]
  exact ⟨row.2, by rw [hrow, hoffset]⟩

theorem keepsHandler (hp : p.WellFormed) {handler : Handler} (hmem : handler ∈ body.handlers)
    {placed : Option PlacedHandler}
    (hplaced : Finds (placeHandler layout.places handler) p placed) :
    layout.KeepsHandler body place p handler (placed.map (·.row)) := by
  have hstart : handler.start ∈ body.references := Body.mem_references_of_handler hmem (by simp)
  have hstop : handler.stop ∈ body.references := Body.mem_references_of_handler hmem (by simp)
  have htarget : handler.target ∈ body.references := Body.mem_references_of_handler hmem (by simp)
  rcases Layout.placeHandler_cases hp hplaced with ⟨rfl, hnot⟩ | ⟨placed, rfl, hhandles⟩
  · refine ⟨?_, by simp, by simp⟩
    by_cases hlt : layout.offset handler.start < layout.offset handler.stop
    · -- a handler that is out of reach guards nothing that control reaches
      intro n hlive hbetween
      obtain ⟨-, hreached⟩ := h.reached_of_guarded hp hmem hlive hbetween.1 hbetween.2
      exact hnot ⟨hlt, hreached⟩
    · exact h.keeps_of_not_lt hlowered hstart hstop hlt
  · have hlt := hhandles.lt
    rw [hhandles.start_eq, hhandles.stop_eq] at hlt
    have hkeeps := h.keeps_of_lt hlowered hp hstart hstop hlt
    obtain ⟨n, hlive, hbetween⟩ := hkeeps.1
    obtain ⟨hreached, -⟩ := h.reached_of_guarded hp hmem hlive hbetween.1 hbetween.2
    obtain ⟨i, hi⟩ := h.exists_code_of_live hlowered hp htarget hreached
    refine ⟨?range, ?target, ?catchType⟩
    case range =>
      rw [← hhandles.start_eq, ← hhandles.stop_eq] at hkeeps
      exact hkeeps
    case target =>
      rintro r ⟨rfl⟩
      rw [Layout.offset_of_places hhandles.target] at hi
      exact ⟨hreached, i, hi⟩
    case catchType =>
      rintro r ⟨rfl⟩
      have hcatch := hhandles.catchType
      cases hname : handler.catchType with
      | none =>
        rw [hname] at hcatch
        exact hcatch
      | some name =>
        rw [hname] at hcatch
        exact ⟨hcatch.1, className_of_classRef hp hcatch.2 (ConstantPool.le_refl p)⟩

/-! ### Variables -/

theorem keepsVariable (hp : p.WellFormed) {v : Variable} (hstart : v.start ∈ body.references)
    (hstop : v.stop ∈ body.references) :
    layout.KeepsVariable body place v (layout.variableRow? v) := by
  unfold Layout.variableRow?
  split
  · rename_i hlt
    refine ⟨h.keeps_of_lt hlowered hp hstart hstop hlt, ?_⟩
    rintro r ⟨rfl⟩
    exact ⟨rfl, rfl, rfl⟩
  · rename_i hnot
    exact ⟨h.keeps_of_not_lt hlowered hstart hstop hnot, by simp⟩

/-! ### Tables -/

/-- The exception table has a row for every handler that is kept, in their order. -/
theorem exists_handlerRows (hp : p.WellFormed) :
    ∃ rows, List.Forall₂ (layout.KeepsHandler body place p) body.handlers rows ∧
      (readRows (HandlerRow.read layout.length)).parse
        (parts.handlerCount ++ parts.handlers.flatMap handlerBytes) = .ok (rows.filterMap id) := by
  obtain ⟨placed, hplaced, hhandlers⟩ := h.areOf.handlers
  have hrows : (placed.map fun h => h.map (·.row)).filterMap id = parts.handlers.map (·.row) := by
    rw [hhandlers, List.filterMap_map, List.map_filterMap]
    rfl
  refine ⟨placed.map fun h => h.map (·.row), ?_, ?_⟩
  · refine List.forall₂_map_right_iff.mpr
      (((finds_mapM steady_placeHandler hp).mp hplaced).imp_of_mem fun _ hmem _ _ hfinds => ?_)
    exact h.keepsHandler hlowered hp hmem hfinds
  · rw [hrows]
    have hstored := Layout.stored_handlers hp h.made h.filled h.areOf
    exact (HandlerRow.exact_read h.length_le).readRows.parse_eq_ok.mpr
      ⟨_, [], (List.append_nil _).symm, hstored⟩

/-- A table of variables has a row for every variable that is kept, in their order. -/
theorem exists_variableRows (hp : p.WellFormed) {name : String}
    {wrap : List VariableRow → CodeAttribute} (hwrap : ∀ a, p.text a.name = .ok name →
      CodeAttribute.ofAttribute p a = wrap <$> (readRows VariableRow.read).parse a.payload)
    {vs : List Variable} (hvs : ∀ v ∈ vs, v.start ∈ body.references ∧ v.stop ∈ body.references)
    {table : List Attribute}
    (htable : FindsTable p name .localVariables (variableRow layout.places) vs table) :
    ∃ rows, List.Forall₂ (layout.KeepsVariable body place) vs rows ∧
      table.mapM (CodeAttribute.ofAttribute p) =
        .ok (CodeAttribute.ofRows wrap (rows.filterMap id)) := by
  refine ⟨vs.map layout.variableRow?, ?_, ?_⟩
  · refine List.forall₂_map_right_iff.mpr (List.forall₂_same.mpr fun v hv => ?_)
    exact h.keepsVariable hlowered hp (hvs v hv).1 (hvs v hv).2
  · rw [Layout.ofAttribute_variables hp (ConstantPool.le_refl p) h.made h.length_le hwrap htable,
      List.filterMap_map]
    rfl

end Lowered

end Body.EmittedAs

/-- Whatever encoding accepts keeps what ranges cover: the exception table and the tables of
variables are the rows, in the order of the body, of the handlers and variables whose ranges have an
instruction that control reaches, and each of them covers what such instructions between its labels
have left, with bridged conditional jumps as two, and nothing of others. -/
theorem Body.coverage_of_encode {body : Body} {method : MethodContext} {pool pool' : ConstantPool}
    {code : Bytes} (hpool : pool.WellFormed) (h : body.encode method pool = .ok code pool') :
    ∃ layout parts place handlers vars types,
      body.EmittedAs method pool' code layout parts ∧
      body.LoweredTo method pool' layout place ∧
      List.Forall₂ (layout.KeepsHandler body place pool') body.handlers handlers ∧
      (readRows (HandlerRow.read layout.length)).parse
        (parts.handlerCount ++ parts.handlers.flatMap handlerBytes) =
          .ok (handlers.filterMap id) ∧
      List.Forall₂ (layout.KeepsVariable body place) body.localVariables vars ∧
      parts.localVariables.mapM (CodeAttribute.ofAttribute pool') =
        .ok (CodeAttribute.ofRows .localVariables (vars.filterMap id)) ∧
      List.Forall₂ (layout.KeepsVariable body place) body.localVariableTypes types ∧
      parts.localVariableTypes.mapM (CodeAttribute.ofAttribute pool') =
        .ok (CodeAttribute.ofRows .localVariableTypes (types.filterMap id)) := by
  have hsteady := (body.splits_encode method).steady
  have hpool' := hsteady.wellFormed hpool h
  obtain ⟨layout, parts, hemitted⟩ := Body.exists_emittedAs hpool' (hsteady.finds hpool h)
  obtain ⟨place, hlowered⟩ := hemitted.exists_loweredTo hpool'
  have hreferences : ∀ v ∈ body.localVariables ++ body.localVariableTypes,
      v.start ∈ body.references ∧ v.stop ∈ body.references := fun v hv =>
    ⟨mem_references_of_variable hv (by simp), mem_references_of_variable hv (by simp)⟩
  obtain ⟨handlers, hhandlers, hhandlerTable⟩ := hemitted.exists_handlerRows hlowered hpool'
  obtain ⟨vars, hvars, hvarTable⟩ := hemitted.exists_variableRows hlowered hpool'
    (fun _ => CodeAttribute.ofAttribute_variableTable)
    (fun v hv => hreferences v (List.mem_append_left _ hv)) hemitted.areOf.localVariables
  obtain ⟨types, htypes, htypeTable⟩ := hemitted.exists_variableRows hlowered hpool'
    (fun _ => CodeAttribute.ofAttribute_variableTypeTable)
    (fun v hv => hreferences v (List.mem_append_right _ hv)) hemitted.areOf.localVariableTypes
  exact ⟨layout, parts, place, handlers, vars, types, hemitted, hlowered, hhandlers,
    hhandlerTable, hvars, hvarTable, htypes, htypeTable⟩

/-- A handler that guards a reached instruction is kept, with a variable that lives there, and one
that guards dead code is not. -/
theorem Body.coverage_of_encode_guarded :
    let method : MethodContext := ⟨"A", "m", "()V", true, 49⟩
    let events : List Event := [.label ⟨0⟩, .instr (.plain Opcode.nop), .label ⟨1⟩,
      .instr (.leave none), .label ⟨2⟩, .instr (.plain Opcode.athrow), .label ⟨3⟩,
      .instr (.plain Opcode.nop), .label ⟨4⟩]
    let body : Body := ⟨0, 0, events, [⟨⟨0⟩, ⟨1⟩, ⟨2⟩, none⟩, ⟨⟨3⟩, ⟨4⟩, ⟨2⟩, none⟩], [],
      [⟨⟨0⟩, ⟨1⟩, 7, 8, 0⟩], [⟨⟨3⟩, ⟨4⟩, 7, 8, 0⟩],
      [(⟨2⟩, ⟨[], [.object "java/lang/Throwable"]⟩)], [], ⟨5⟩⟩
    let code : Bytes := [0, 1, 0, 0, 0, 0, 0, 3, 0, 177, 191, 0, 1, 0, 0, 0, 1, 0, 2, 0, 0, 0, 1,
      0, 1, 0, 0, 0, 12, 0, 1, 0, 0, 0, 1, 0, 7, 0, 8, 0, 0]
    ∃ pool, body.encode method .empty = .ok code pool ∧
    ∃ layout parts place handlers vars types,
      body.EmittedAs method pool code layout parts ∧
      body.LoweredTo method pool layout place ∧
      List.Forall₂ (layout.KeepsHandler body place pool) body.handlers handlers ∧
      (readRows (HandlerRow.read layout.length)).parse
        (parts.handlerCount ++ parts.handlers.flatMap handlerBytes) =
          .ok (handlers.filterMap id) ∧
      List.Forall₂ (layout.KeepsVariable body place) body.localVariables vars ∧
      parts.localVariables.mapM (CodeAttribute.ofAttribute pool) =
        .ok (CodeAttribute.ofRows .localVariables (vars.filterMap id)) ∧
      List.Forall₂ (layout.KeepsVariable body place) body.localVariableTypes types ∧
      parts.localVariableTypes.mapM (CodeAttribute.ofAttribute pool) =
        .ok (CodeAttribute.ofRows .localVariableTypes (types.filterMap id)) := by
  intro method events body code
  have hcode : (body.encode method .empty).value? = some code := by cbv
  obtain ⟨pool, hencoded⟩ := EStateM.Result.value?_eq_some.mp hcode
  exact ⟨pool, hencoded, Body.coverage_of_encode ConstantPool.wellFormed_empty hencoded⟩

end ClassPatch
