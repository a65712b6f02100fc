import ClassPatch.Proofs.Code.Lowering
import ClassPatch.Proofs.Code.Readable
import ClassPatch.Proofs.Code.StoredForm

/-!
# Bodies that can stand over a pool

The instructions of a body that has been decoded can stand in code over the pool that they were
read with, and its attributes are none of the tables. Layout keeps it so.
-/

namespace ClassPatch

open Reader

variable {pool : ConstantPool} {method : MethodContext}

/-- The event can stand in code over a pool. -/
def Event.ProperIn (pool : ConstantPool) (e : Event) : Prop :=
  ∀ i, e = .instr i → i.ProperIn pool

@[simp] theorem Event.properIn_label (l : Label) : (Event.label l).ProperIn pool := nofun

@[simp] theorem Event.properIn_instr {i : Instruction Label} :
    (Event.instr i).ProperIn pool ↔ i.ProperIn pool := by
  simp [ProperIn]

/-- The body can stand over a pool. -/
structure Body.ProperIn (pool : ConstantPool) (body : Body) : Prop where
  events : ∀ e ∈ body.events, e.ProperIn pool
  attributes : ∀ a ∈ body.attributes, CodeAttribute.IsOther pool a

theorem Body.ProperIn.instructions {body : Body} (h : body.ProperIn pool) :
    ∀ i ∈ instructions body.events, i.ProperIn pool :=
  fun i hi => h.events _ (mem_instructions.mp hi) i rfl

theorem Body.ProperIn.mono {p q : ConstantPool} {body : Body} (hpq : p ≤ q)
    (h : body.ProperIn p) : body.ProperIn q where
  events e he i hi := (h.events e he i hi).mono hpq
  attributes a ha := (h.attributes a ha).mono hpq

/-- Layout puts only jumps where there was no instruction. -/
theorem Lowers.properIn {live far : Nat → Prop} {n : Nat} {events : List Event} {widths : List Nat}
    {lowered : List LayoutEvent} (h : Lowers live far n events widths lowered)
    (hproper : ∀ i ∈ instructions events, i.ProperIn pool) :
    ∀ i ∈ instructions (lowered.map (·.event)), i.ProperIn pool := by
  induction h with
  | nil => simp
  | label _ ih => exact ih hproper
  | drop _ _ ih =>
    simp only [instructions_instr, List.forall_mem_cons] at hproper
    exact ih hproper.2
  | keep _ _ ih =>
    simp only [List.map_cons, instructions_instr, List.forall_mem_cons] at hproper ⊢
    exact ⟨hproper.1, ih hproper.2⟩
  | bridge _ _ _ ih =>
    simp only [List.map_cons, instructions_instr, instructions_label,
      List.forall_mem_cons] at hproper ⊢
    exact ⟨trivial, trivial, ih hproper.2⟩

/-! ### Decoding -/

namespace Disassembly

theorem properIn_of_readFrom {c : Cursor} {before code : Disassembly}
    (h : readFrom pool c before = .ok code) (hbefore : ∀ row ∈ before, row.2.ProperIn pool) :
    ∀ row ∈ code, row.2.ProperIn pool := by
  fun_induction readFrom pool c before with
  | case1 c before hmore i c' hread ih =>
    refine ih h ?_
    simp only [List.mem_cons, forall_eq_or_imp]
    exact ⟨Instruction.properIn_of_read hread, hbefore⟩
  | case2 => simp at h
  | case3 =>
    obtain rfl := Except.ok.inj h
    simpa using hbefore

/-- Instructions are read one behind the other, from the cursor to the end of the data. -/
theorem ordered_of_readFrom {c : Cursor} {before code : Disassembly}
    (h : readFrom pool c before = .ok code) : ∃ tail, code = before.reverse ++ tail ∧
      (tail.map (·.1)).Pairwise (· < ·) ∧
      (∀ row ∈ tail, c.pos ≤ row.1 ∧ row.1 < c.data.size) ∧
      (c.hasMore = true → ∃ i rest, tail = (c.pos, i) :: rest) := by
  fun_induction readFrom pool c before with
  | case1 c before hmore i c' hread ih =>
    obtain ⟨hdata, hpos⟩ := Instruction.read_advances hread
    obtain ⟨tail, rfl, hsorted, hbetween, -⟩ := ih h
    rw [hdata] at hbetween
    refine ⟨(c.pos, i) :: tail, by simp, ?_, ?_, fun _ => ⟨i, tail, rfl⟩⟩
    · rw [List.map_cons, List.pairwise_cons]
      refine ⟨fun offset hoffset => ?_, hsorted⟩
      obtain ⟨row, hrow, rfl⟩ := List.mem_map.mp hoffset
      exact Nat.lt_of_lt_of_le hpos (hbetween row hrow).1
    · simp only [List.mem_cons, forall_eq_or_imp]
      refine ⟨⟨Nat.le_refl _, by simpa [Cursor.hasMore] using hmore⟩, fun row hrow => ?_⟩
      exact ⟨Nat.le_trans (Nat.le_of_lt hpos) (hbetween row hrow).1, (hbetween row hrow).2⟩
  | case2 => simp at h
  | case3 c before hmore =>
    obtain rfl := Except.ok.inj h
    exact ⟨[], by simp, by simp, by simp, fun hmore' => absurd hmore' hmore⟩

theorem properIn_of_events {code : Disassembly} {table : LabelTable} {length : Nat}
    {events : List Event} (h : code.events table length = .ok events)
    (hcode : ∀ row ∈ code, row.2.ProperIn pool) : ∀ e ∈ events, e.ProperIn pool := by
  have hplaced (offset : Nat) :
      ∀ e ∈ ((table.get? offset).map Event.label).toList, e.ProperIn pool := by
    intro e he i hi
    cases hlabel : table.get? offset <;> simp_all
  obtain ⟨rows, hrows, h⟩ := Except.bind_eq_ok.mp h
  obtain rfl := Except.pure_eq_ok.mp h
  intro e he
  rcases List.mem_append.mp he with he | he
  · obtain ⟨row, hrow, he⟩ := List.mem_flatten.mp he
    obtain ⟨⟨offset, i⟩, hmem, hread⟩ := (Except.mapM_eq_ok.mp hrows).exists_left hrow
    obtain ⟨j, hj, hread⟩ := Except.bind_eq_ok.mp hread
    obtain rfl := Except.pure_eq_ok.mp hread
    rcases List.mem_append.mp he with he | he
    · exact hplaced offset e he
    · obtain rfl := List.mem_singleton.mp he
      intro j' hj'
      obtain rfl := Event.instr.inj hj'
      have hlabel (o : Nat) (l : Label) (hl : table.get o = .ok l) :
          (table.get? o).getD ⟨0⟩ = l := by
        unfold LabelTable.get at hl
        split at hl <;> simp_all
      rw [Instruction.eq_map_of_mapTargets hj hlabel]
      exact (Instruction.properIn_map _ _).mpr (hcode _ hmem)
  · exact hplaced length e he

end Disassembly

namespace CodeListing

/-- What is known of a listing that has been read. -/
structure ProperIn (pool : ConstantPool) (listing : CodeListing) : Prop where
  code : ∀ row ∈ listing.code, row.2.ProperIn pool
  attributes : ∀ a ∈ listing.attributes, CodeAttribute.IsOther pool a
  length_le : listing.length ≤ maxCodeLength
  sorted : (listing.code.map (·.1)).Pairwise (· < ·)
  lt : ∀ row ∈ listing.code, row.1 < listing.length
  first : ∃ i rest, listing.code = (0, i) :: rest
  guarded : ∀ row ∈ listing.handlers, row.start < row.stop

/-- A listing that is held by some bytes can stand over the pool. -/
theorem Stored.properIn {listing : CodeListing} {code handlers list : Bytes}
    {attributes : List Attribute} {said : List CodeAttribute}
    (h : listing.Stored pool code handlers list attributes said) : listing.ProperIn pool := by
  obtain ⟨tail, htail, hsorted, hbetween, hfirst⟩ := Disassembly.ordered_of_readFrom h.code_eq
  obtain rfl : listing.code = tail := htail
  have hmore : (Cursor.ofBytes code).hasMore = true := by
    simpa [Cursor.hasMore, Cursor.ofBytes] using h.length_pos
  refine ⟨Disassembly.properIn_of_readFrom h.code_eq (by simp), fun a ha => ?other,
    h.length_eq ▸ h.length_le, hsorted, fun row hrow => ?lt, hfirst hmore, fun row hrow => ?guarded⟩
  case other =>
    rw [h.tables.attributes] at ha
    obtain ⟨found, hmem, hother⟩ := List.mem_filterMap.mp ha
    obtain ⟨a', -, surplus, hholds⟩ := h.holds.exists_left hmem
    cases hholds with
    | other hother' =>
      obtain rfl := Option.some.inj hother
      exact hother'
    | _ => cases hother
  case lt =>
    rw [h.length_eq]
    simpa [Cursor.ofBytes] using (hbetween row hrow).2
  case guarded =>
    obtain ⟨-, stored, hstored, -⟩ := h.handlers
    obtain ⟨bytes, -, hbytes⟩ := hstored.exists_right hrow
    exact hbytes.start_lt

/-- How a listing becomes a body: with a frame on entry, the frames of the stack map, the offsets
that their types mention, and labels for all offsets that are marked. -/
structure DecodesTo (pool : ConstantPool) (method : MethodContext) (listing : CodeListing)
    (body : Body) (initial : Frame) (found : List (Nat × Frame)) (offsets : Array Nat)
    (table : LabelTable) : Prop where
  checked : listing.checkVariables = .ok ()
  entry : Frame.entry method = .ok initial
  unplaced : listing.frames pool initial = .ok (found, offsets)
  numbered : LabelTable.ofMarks (listing.marks ++ found.map (·.1) ++ offsets.toList)
    (Std.TreeSet.ofList (listing.code.map (·.1))) listing.length = .ok table
  events : listing.code.events table listing.length = .ok body.events
  handlers : listing.handlers.mapM (handlerOf pool table) = .ok body.handlers
  lines : listing.lines.mapM (lineOf table) = .ok body.lines
  localVariables : listing.localVariables.mapM (variableOf table) = .ok body.localVariables
  localVariableTypes :
    listing.localVariableTypes.mapM (variableOf table) = .ok body.localVariableTypes
  frames : (found.mapM fun (offset, frame) => do
    let place ← table.get offset
    return (place, ← relabelFrame offsets table frame)) = .ok body.frames
  maxStack : listing.maxStack = body.maxStack
  maxLocals : listing.maxLocals = body.maxLocals
  attributes : listing.attributes = body.attributes
  labels : table.supply = body.labels

theorem body_eq_ok {listing : CodeListing} {body : Body} : listing.body pool method = .ok body ↔
    ∃ initial found offsets table, DecodesTo pool method listing body initial found offsets
      table := by
  constructor
  · intro h
    obtain ⟨⟨⟩, hchecked, h⟩ := Except.bind_eq_ok.mp h
    obtain ⟨initial, hentry, h⟩ := Except.bind_eq_ok.mp h
    obtain ⟨⟨found, offsets⟩, hfound, h⟩ := Except.bind_eq_ok.mp h
    obtain ⟨table, htable, h⟩ := Except.bind_eq_ok.mp h
    obtain ⟨events, hevents, h⟩ := Except.bind_eq_ok.mp h
    obtain ⟨handlers, hhandlers, h⟩ := Except.bind_eq_ok.mp h
    obtain ⟨lines, hlines, h⟩ := Except.bind_eq_ok.mp h
    obtain ⟨localVariables, hlocals, h⟩ := Except.bind_eq_ok.mp h
    obtain ⟨localVariableTypes, htypes, h⟩ := Except.bind_eq_ok.mp h
    obtain ⟨frames, hframes, h⟩ := Except.bind_eq_ok.mp h
    obtain rfl := Except.pure_eq_ok.mp h
    exact ⟨initial, found, offsets, table, hchecked, hentry, hfound, htable, hevents, hhandlers,
      hlines, hlocals, htypes, hframes, rfl, rfl, rfl, rfl⟩
  · rintro ⟨initial, found, offsets, table, h⟩
    refine Except.bind_eq_ok.mpr ⟨(), h.checked, ?_⟩
    refine Except.bind_eq_ok.mpr ⟨initial, h.entry, ?_⟩
    refine Except.bind_eq_ok.mpr ⟨(found, offsets), h.unplaced, ?_⟩
    refine Except.bind_eq_ok.mpr ⟨table, h.numbered, ?_⟩
    refine Except.bind_eq_ok.mpr ⟨body.events, h.events, ?_⟩
    refine Except.bind_eq_ok.mpr ⟨body.handlers, h.handlers, ?_⟩
    refine Except.bind_eq_ok.mpr ⟨body.lines, h.lines, ?_⟩
    refine Except.bind_eq_ok.mpr ⟨body.localVariables, h.localVariables, ?_⟩
    refine Except.bind_eq_ok.mpr ⟨body.localVariableTypes, h.localVariableTypes, ?_⟩
    refine Except.bind_eq_ok.mpr ⟨body.frames, h.frames, Except.pure_eq_ok.mpr ?_⟩
    rw [h.maxStack, h.maxLocals, h.attributes, h.labels]

theorem properIn_of_body {listing : CodeListing} {body : Body}
    (h : listing.body pool method = .ok body) (hlisting : listing.ProperIn pool) :
    body.ProperIn pool := by
  obtain ⟨initial, found, offsets, table, hdecodes⟩ := body_eq_ok.mp h
  have hattributes := hlisting.attributes
  rw [hdecodes.attributes] at hattributes
  exact ⟨Disassembly.properIn_of_events hdecodes.events hlisting.code, hattributes⟩

end CodeListing

/-- A body is decoded from a listing that has been read. -/
theorem Body.exists_listing {data : Bytes} {body : Body}
    (h : Body.decode data pool method = .ok body) :
    ∃ listing : CodeListing, (CodeListing.read pool method).parse data = .ok listing ∧
      listing.ProperIn pool ∧ listing.body pool method = .ok body := by
  obtain ⟨listing, hlisting, hbody⟩ := Except.bind_eq_ok.mp h
  obtain ⟨code, handlers, list, attributes, said, -, hstored⟩ :=
    CodeListing.parse_read_eq_ok.mp hlisting
  exact ⟨listing, hlisting, hstored.properIn, hbody⟩

/-- A body that is decoded can stand over the pool. -/
theorem Body.properIn_of_decode {data : Bytes} {body : Body}
    (h : Body.decode data pool method = .ok body) : body.ProperIn pool := by
  obtain ⟨listing, -, hlisting, hbody⟩ := Body.exists_listing h
  exact CodeListing.properIn_of_body hbody hlisting

end ClassPatch
