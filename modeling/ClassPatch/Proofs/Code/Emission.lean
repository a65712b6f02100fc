import ClassPatch.Proofs.Code.Listing

/-!
# What is written for a body

Whatever encoding accepts, also if it could not be read back, is written as the instructions of its
layout, one behind the other and each at its offset.
-/

namespace ClassPatch

open PoolM CodeWriter

/-! ### Instructions take room -/

/-- Every instruction takes room. -/
theorem Extent.size_pos {i : Instruction Label} {extent : Extent} {p : ConstantPool}
    (h : Finds (ofInstruction i) p extent) (offset : Nat) (wide : Bool) :
    0 < extent.size offset wide := by
  cases i with
  | push value =>
    obtain ⟨form, p₁, -, h⟩ := EStateM.bind_eq_ok.mp h
    obtain ⟨rfl, -⟩ := EStateM.pure_eq_ok.mp h
    exact form.size_pos
  | load kind slot | store kind slot | ret slot =>
    obtain rfl := finds_pure.mp h
    exact Instruction.localSize_pos _ slot
  | increment slot delta =>
    obtain rfl := finds_pure.mp h
    exact Instruction.incrementSize_pos slot delta
  | jump kind target =>
    obtain rfl := finds_pure.mp h
    cases wide <;> exact Nat.succ_pos _
  | tableSwitch | lookupSwitch =>
    obtain rfl := finds_pure.mp h
    simp only [size]
    omega
  | invoke kind =>
    cases kind <;> obtain rfl := finds_pure.mp h <;> exact Nat.succ_pos _
  | _ =>
    obtain rfl := finds_pure.mp h
    exact Nat.succ_pos _

/-! ### Rows of code -/

/-- Bytes are the code of instructions that stand one behind the other, from an offset on. -/
inductive Emits (p : ConstantPool) : Nat → Disassembly → Bytes → Prop
  | nil (offset : Nat) : Emits p offset [] []
  | cons {offset : Nat} {i : Instruction Nat} {code : Disassembly} {row bytes : Bytes} (wide : Bool)
      (h : Finds (i.bytes offset wide) p row) (rest : Emits p (offset + row.length) code bytes) :
      Emits p offset ((offset, i) :: code) (row ++ bytes)

namespace Layout

variable {layout : Layout} {p : ConstantPool}

/-- The bytes of a placed event are those of its instruction, as many as its extent says. -/
theorem finds_eventBytes (hp : p.WellFormed) (hmade : layout.MadeIn p) {e : PlacedEvent}
    (he : e ∈ layout.placed) {row : Bytes} (hrow : Finds (eventBytes layout.places e) p row) :
    row.length = e.extent.size e.offset e.wide ∧
      match e.event with
      | .label _ => row = []
      | .instr i => Finds ((i.map layout.offset).bytes e.offset e.wide) p row ∧
        ∀ l ∈ i.targets, layout.Resolves l := by
  have hextent := hmade.measured e he
  unfold eventBytes at hrow
  cases hevent : e.event with
  | label l =>
    rw [hevent] at hrow hextent
    obtain rfl := finds_pure.mp hrow
    exact ⟨by rw [← finds_pure.mp hextent]; rfl, rfl⟩
  | instr ins =>
    rw [hevent] at hrow hextent
    obtain ⟨i, hi, hbytes⟩ := (finds_bind (steady_ofExcept _)
      (fun i => Instruction.steady_bytes _ _ i) hp).mp hrow
    have htargets := finds_ofExcept.mp hi
    obtain rfl := Instruction.eq_map_of_mapTargets (g := layout.offset) htargets
      fun _ _ h => offset_of_offsetOf h
    refine ⟨?_, hbytes, Instruction.exists_of_mapTargets htargets⟩
    exact Instruction.length_bytes hp hextent (ConstantPool.le_refl p) hbytes

/-- Instructions that take the room that has been measured are written at their offsets. -/
theorem emits_of_rows (hp : p.WellFormed) (hmade : layout.MadeIn p) {placed : List PlacedEvent}
    {rows : List Bytes} {start stop : Nat} (hlaid : Laid start placed stop)
    (hplaced : ∀ e ∈ placed, e ∈ layout.placed)
    (hrows : List.Forall₂ (fun e row => Finds (eventBytes layout.places e) p row) placed rows) :
    Emits p start (codeOf layout.offset placed) rows.flatten ∧
      start + rows.flatten.length = stop := by
  induction hrows generalizing start with
  | nil =>
    cases hlaid
    exact ⟨.nil _, rfl⟩
  | @cons e row placed rows hrow _ ih =>
    obtain ⟨hlength, hwritten⟩ := finds_eventBytes hp hmade (hplaced e (List.mem_cons_self ..)) hrow
    cases hlaid with
    | cons hlaid =>
      rw [← hlength] at hlaid
      obtain ⟨hemits, hstop⟩ := ih hlaid fun e he => hplaced e (List.mem_cons_of_mem _ he)
      rw [List.flatten_cons]
      refine ⟨?_, by rw [List.length_append]; omega⟩
      cases hevent : e.event with
      | label l =>
        rw [hevent] at hwritten
        obtain rfl : row = [] := hwritten
        simpa [codeOf, hevent, Event.instr?] using hemits
      | instr i =>
        rw [hevent] at hwritten
        have hcode : codeOf layout.offset (e :: placed) =
            (e.offset, i.map layout.offset) :: codeOf layout.offset placed := by
          simp [codeOf, hevent, Event.instr?]
        rw [hcode]
        exact .cons e.wide hwritten.1 hemits

end Layout

/-- How a body has been written in a pool that holds all that the code refers to. -/
structure Body.EmittedAs (body : Body) (method : MethodContext) (p : ConstantPool) (code : Bytes)
    (layout : Layout) (parts : Parts) : Prop where
  labels : body.checkLabels = .ok ()
  ofBody : Finds (Layout.ofBody body method) p layout
  length_le : layout.length ≤ 65535
  areOf : parts.AreOf body method layout p
  bytes : code = parts.bytes layout
  made : layout.MadeIn p
  emits : Emits p 0 layout.code parts.code
  length_eq : parts.code.length = layout.length
  filled : Layout.Filled layout.placed
  resolved : ∀ e ∈ layout.placed, ∀ l ∈ e.event.targets, layout.Resolves l

namespace Body

variable {body : Body} {method : MethodContext} {p : ConstantPool} {code : Bytes} {layout : Layout}
  {parts : Parts}

/-- A layout whose parts have been found has been written. -/
theorem emittedAs_of_areOf (hp : p.WellFormed) (hlabels : body.checkLabels = .ok ())
    (hlayout : Finds (Layout.ofBody body method) p layout) (hlength : layout.length ≤ 65535)
    (hparts : parts.AreOf body method layout p) (hbytes : code = parts.bytes layout)
    (hmade : layout.MadeIn p) : body.EmittedAs method p code layout parts := by
  obtain ⟨rows, hrows, hcode⟩ := (finds_bind (Steady.mapM steady_eventBytes _)
    (fun _ => .pure _) hp).mp hparts.code
  replace hrows := (finds_mapM steady_eventBytes hp).mp hrows
  obtain ⟨hemits, hstop⟩ := Layout.emits_of_rows hp hmade hmade.laid (fun _ he => he) hrows
  rw [finds_pure.mp hcode, Nat.zero_add] at *
  refine ⟨hlabels, hlayout, hlength, hparts, hbytes, hmade, hemits, hstop, ?_, ?_⟩
  · intro e he i hi
    have hextent := hmade.measured e he
    rw [hi] at hextent
    exact Extent.size_pos hextent e.offset e.wide
  · intro e he l hl
    obtain ⟨row, -, hrow⟩ := hrows.exists_right he
    obtain ⟨-, hwritten⟩ := Layout.finds_eventBytes hp hmade he hrow
    cases hevent : e.event with
    | label l' => simp [hevent, Event.targets] at hl
    | instr i =>
      rw [hevent] at hwritten hl
      exact hwritten.2 l hl

/-- Whatever encoding accepts has been written. -/
theorem exists_emittedAs (hp : p.WellFormed) (h : Finds (body.encode method) p code) :
    ∃ layout parts, body.EmittedAs method p code layout parts := by
  obtain ⟨hlabels, layout, hlayout, hlength, parts, hparts, hbytes⟩ :=
    ((body.splits_encode method).finds hp).mp h
  obtain ⟨events, solution, sized, -, hisOf⟩ := Layout.exists_isOf hp hlayout .refl
  exact ⟨layout, parts,
    emittedAs_of_areOf hp hlabels hlayout hlength hparts hbytes (hisOf.madeIn hp)⟩

namespace EmittedAs

theorem pairwise_code (h : body.EmittedAs method p code layout parts) :
    (layout.code.map (·.1)).Pairwise (· < ·) :=
  Layout.pairwise_code h.made.laid h.filled

theorem resolves_target (h : body.EmittedAs method p code layout parts) {e : PlacedEvent}
    (he : e ∈ layout.placed) {i : Instruction Label} (hevent : e.event = .instr i) {l : Label}
    (hl : l ∈ i.targets) : layout.Resolves l :=
  h.resolved e he l (hevent ▸ hl)

/-- What a body refers to has a place in the layout. -/
theorem resolves (hp : p.WellFormed) (h : body.EmittedAs method p code layout parts) {l : Label}
    (hl : l ∈ body.references) : layout.Resolves l :=
  h.made.resolves_of_placed hp h.labels h.ofBody (mem_of_checkLabels h.labels hl)

/-- The method has a frame that it is entered with. -/
theorem exists_entry (hp : p.WellFormed) (h : body.EmittedAs method p code layout parts) :
    ∃ initial, Frame.entry method = .ok initial := by
  obtain ⟨events, solution, sized, -, hisOf⟩ := Layout.exists_isOf hp h.ofBody .refl
  obtain ⟨-, initial, -, -, hentry, -⟩ := FlowSolution.exists_isOf hisOf.analyzed
  exact ⟨initial, hentry⟩

end EmittedAs
end Body
end ClassPatch
