import ClassPatch.Proofs.Code.Decoding

/-!
# Where decoded jumps lead

The offset that a jump or a switch leads to is checked together with the offsets that tables refer
to, and ranges of tables may end where the code ends. So a target is where an instruction begins,
and its label stands in front of this instruction, or it is the end of the code, and its label is
the last event. That every jump leads to an instruction holds of just those bodies whose code does
not jump to its end.
-/

namespace ClassPatch

open Disassembly

/-- A label stands in front of an instruction, perhaps with other labels between. -/
def StandsBefore (events : List Event) (l : Label) : Prop :=
  ∃ (front : List Event) (between : List Label) (i : Instruction Label) (back : List Event),
    events = front ++ .label l :: (between.map Event.label ++ .instr i :: back)

/-- Every label that a jump or a switch leads to stands in front of an instruction. -/
def Body.LandsOnInstructions (body : Body) : Prop :=
  ∀ e ∈ body.events, ∀ l ∈ e.targets, StandsBefore body.events l

/-- A label that is placed once, behind all instructions, stands in front of none. -/
theorem not_standsBefore_last {front : List Event} {l : Label}
    (hnodup : (placedLabels (front ++ [.label l])).Nodup) :
    ¬StandsBefore (front ++ [.label l]) l := by
  rintro ⟨front', between, i, back, heq⟩
  have hlast : (.instr i :: back).getLast? = some (.label l) := by
    have hlasts := congrArg List.getLast? heq
    rw [List.getLast?_concat, List.append_cons, ← List.append_assoc, List.getLast?_append] at hlasts
    cases hback : (Event.instr i :: back).getLast? with
    | none => simp at hback
    | some e => simpa [hback, eq_comm] using hlasts
  have hback : l ∈ placedLabels back := by
    have hmem := List.mem_of_getLast? hlast
    exact mem_placedLabels.mpr (by simpa using hmem)
  rw [heq, placedLabels_append, placedLabels_label, placedLabels_append,
    placedLabels_instr] at hnodup
  have hrest := (List.nodup_append.mp hnodup).2.1
  exact (List.nodup_cons.mp hrest).1 (List.mem_append_right _ hback)

/-- Where the offsets that a listing leads to have come to lie among the events of a body. -/
structure Body.Lands (body : Body) (listing : CodeListing) (labelOf : Nat → Label) : Prop where
  /-- The instructions of the body are those of the listing, with labels for offsets. -/
  instructions : ClassPatch.instructions body.events = listing.code.map fun row => row.2.map labelOf
  nodup : (ClassPatch.placedLabels body.events).Nodup
  inside : ∀ row ∈ listing.code, ∀ target ∈ row.2.targets, target ≠ listing.length →
    ∃ i front back, (target, i) ∈ listing.code ∧
      body.events = front ++ .label (labelOf target) :: .instr (i.map labelOf) :: back
  atEnd : ∀ row ∈ listing.code, listing.length ∈ row.2.targets →
    ∃ front, body.events = front ++ [.label (labelOf listing.length)]

namespace Body.Lands

variable {body : Body} {listing : CodeListing} {labelOf : Nat → Label}

/-- Jumps lead to instructions exactly if none leads to the end of the code. -/
theorem landsOnInstructions_iff (h : body.Lands listing labelOf) : body.LandsOnInstructions ↔
    ∀ row ∈ listing.code, listing.length ∉ row.2.targets := by
  have hmem {i : Instruction Label} : .instr i ∈ body.events ↔
      ∃ row ∈ listing.code, row.2.map labelOf = i := by
    rw [← mem_instructions, h.instructions, List.mem_map]
  constructor
  · intro hlands row hrow htarget
    obtain ⟨front, hevents⟩ := h.atEnd row hrow htarget
    have hnodup := h.nodup
    have hstands : StandsBefore body.events (labelOf listing.length) := by
      refine hlands _ (hmem.mpr ⟨row, hrow, rfl⟩) _ ?_
      rw [Event.targets, Instruction.targets_map]
      exact List.mem_map_of_mem htarget
    rw [hevents] at hnodup hstands
    exact not_standsBefore_last hnodup hstands
  · intro hnone e he l hl
    cases e with
    | label l' => cases hl
    | instr i =>
      obtain ⟨row, hrow, rfl⟩ := hmem.mp he
      rw [Event.targets, Instruction.targets_map] at hl
      obtain ⟨target, htarget, rfl⟩ := List.mem_map.mp hl
      have hne : target ≠ listing.length := fun heq => hnone row hrow (heq ▸ htarget)
      obtain ⟨i, front, back, -, hevents⟩ := h.inside row hrow target htarget hne
      exact ⟨front, [], i.map labelOf, back, hevents⟩

end Body.Lands

namespace CodeListing.Builds

variable {pool : ConstantPool} {listing : CodeListing} {body : Body} {table : LabelTable}
  {marks : List Nat} (h : listing.Builds pool body table marks)
include h

/-- The label of an instruction whose offset is marked stands directly in front of it. -/
theorem exists_events_of_mem {offset : Nat} {i : Instruction Nat}
    (hmem : (offset, i) ∈ listing.code) (hmark : offset ∈ marks) : ∃ front back,
      body.events = front ++ .label (table.labelAt offset) :: .instr (i.map table.labelAt) ::
      back := by
  obtain ⟨before, after, hcode⟩ := List.append_of_mem hmem
  refine ⟨rows before table, rows after table ++ placedAt table listing.length, ?_⟩
  have hlabel : placedAt table offset = [.label (table.labelAt offset)] := by
    rw [placedAt, h.has.get? hmark]
    rfl
  have hrows : rows (before ++ (offset, i) :: after) table = rows before table ++
      (placedAt table offset ++ [.instr (i.map table.labelAt)] ++ rows after table) := by
    unfold rows
    rw [List.flatMap_append, List.flatMap_cons]
  rw [← h.events_eq, hcode, hrows, hlabel]
  simp

/-- The label of the end of the code is the last event. -/
theorem exists_events_of_length (hmark : listing.length ∈ marks) : ∃ front,
    body.events = front ++ [.label (table.labelAt listing.length)] := by
  refine ⟨rows listing.code table, ?_⟩
  rw [← h.events_eq, placedAt, h.has.get? hmark]
  rfl

theorem lands (hlisting : listing.ProperIn pool) : body.Lands listing table.labelAt := by
  have hmarks := marks_of_events h.has h.events
  refine ⟨?instructions, ?nodup, fun row hrow target htarget hne => ?inside,
    fun row hrow htarget => h.exists_events_of_length (hmarks row hrow _ htarget)⟩
  case instructions => rw [← h.events_eq, instructions_rows]
  case nodup =>
    rw [← h.events_eq]
    exact nodup_placedLabels h.has hlisting.sorted hlisting.lt
  case inside =>
    have hmark := hmarks row hrow target htarget
    obtain ⟨⟨offset, i⟩, hmem, rfl⟩ := List.mem_map.mp ((h.boundary target hmark).resolve_left hne)
    obtain ⟨front, back, hevents⟩ := h.exists_events_of_mem hmem hmark
    exact ⟨i, front, back, hmem, hevents⟩

end CodeListing.Builds

/-- In code that is accepted, a jump or a switch leads to an instruction, with its label directly in
front of it, or to the end of the code, with its label behind all instructions. So all of them lead
to instructions exactly if none leads to the end. -/
theorem Body.lands_of_decode {data : Bytes} {pool : ConstantPool} {method : MethodContext}
    {body : Body} (h : Body.decode data pool method = .ok body) :
    ∃ listing labelOf, (CodeListing.read pool method).parse data = .ok listing ∧
      body.Lands listing labelOf ∧
      (body.LandsOnInstructions ↔ ∀ row ∈ listing.code, listing.length ∉ row.2.targets) := by
  obtain ⟨listing, hread, hlisting, hbody⟩ := Body.exists_listing h
  obtain ⟨table, marks, hbuilds⟩ := CodeListing.exists_table_of_body hbody hlisting
  have hlands := hbuilds.lands hlisting
  exact ⟨listing, table.labelAt, hread, hlands, hlands.landsOnInstructions_iff⟩

/-- A loop with a switch, one case of which goes on while the other leaves it. -/
theorem Body.lands_of_decode_switch :
    let data : Bytes :=
      [0, 1, 0, 1, 0, 0, 0, 24, 26, 170, 0, 0, 0, 0, 0, 19, 0, 0, 0, 0, 0, 0, 0, 0, 0, 0, 0, 22,
        167, 255, 236, 177, 0, 0, 0, 0]
    let method : MethodContext := ⟨"A", "m", "(I)V", true, 49⟩
    ∃ body, Body.decode data .empty method = .ok body ∧
      ∃ listing labelOf, (CodeListing.read .empty method).parse data = .ok listing ∧
        body.Lands listing labelOf ∧
        (body.LandsOnInstructions ↔ ∀ row ∈ listing.code, listing.length ∉ row.2.targets) := by
  intro data method
  have hdecoded : Body.decode data .empty method = .ok
      ⟨1, 1, [.label ⟨0⟩, .instr (.load .int 0), .instr (.tableSwitch 0 0 ⟨1⟩ [⟨2⟩]), .label ⟨1⟩,
        .instr (.jump .goto ⟨0⟩), .label ⟨2⟩, .instr (.leave none)], [], [], [], [], [], [],
        ⟨3⟩⟩ := by
    cbv
  exact ⟨_, hdecoded, Body.lands_of_decode hdecoded⟩

/-- Code that jumps behind its only instruction is accepted. -/
theorem Body.not_landsOnInstructions_of_decode :
    ∃ body, Body.decode [0, 0, 0, 0, 0, 0, 0, 3, 167, 0, 3, 0, 0, 0, 0] .empty
        ⟨"A", "m", "()V", true, 52⟩ = .ok body ∧
      body.events = [.instr (.jump .goto ⟨0⟩), .label ⟨0⟩] ∧ ¬body.LandsOnInstructions := by
  have hdecoded : Body.decode [0, 0, 0, 0, 0, 0, 0, 3, 167, 0, 3, 0, 0, 0, 0] .empty
      ⟨"A", "m", "()V", true, 52⟩ =
        .ok ⟨0, 0, [.instr (.jump .goto ⟨0⟩), .label ⟨0⟩], [], [], [], [], [], [], ⟨1⟩⟩ := by
    cbv
  refine ⟨_, hdecoded, rfl, fun hlands => ?_⟩
  have hstands :=
    hlands (.instr (.jump .goto ⟨0⟩)) List.mem_cons_self ⟨0⟩ (List.mem_singleton_self _)
  have hnodup : (ClassPatch.placedLabels ([.instr (.jump .goto ⟨0⟩)] ++ [.label ⟨0⟩])).Nodup := by
    decide
  exact not_standsBefore_last hnodup hstands

end ClassPatch
