import ClassPatch.Proofs.Code.InstructionCodec
import ClassPatch.Proofs.Code.Rounds
import ClassPatch.Proofs.Code.Writer

/-!
# The code of a layout

The bytes of a layout are disassembled into its instructions at their offsets. Where an
instruction begins is what layout has computed from extents, so this rests on extents being right.
-/

namespace ClassPatch

open PoolM Reader Cursor

namespace Layout

variable {body : Body} {method : MethodContext} {layout : Layout} {p q : ConstantPool}

/-- The instructions of some placed events with their offsets and those of their targets. -/
def codeOf (offset : Label → Nat) (placed : List PlacedEvent) : Disassembly :=
  placed.filterMap fun e => e.event.instr?.map fun i => (e.offset, i.map offset)

theorem code_eq (layout : Layout) : layout.code = codeOf layout.offset layout.placed := rfl

/-- The bytes of a placed event are as many as its extent says, and are read as its instruction. -/
theorem reads_eventBytes (hp : p.WellFormed) (hq : q.WellFormed) (hpq : p ≤ q)
    (hmade : layout.MadeIn p) {e : PlacedEvent} (he : e ∈ layout.placed)
    {ins : Instruction Label} (hevent : e.event = .instr ins) (hproper : ins.ProperIn p)
    {row : Bytes} (hrow : Finds (CodeWriter.eventBytes layout.places e) p row) :
    row.length = e.extent.size e.offset e.wide ∧
      ∀ back, Reads (Instruction.read q) e.offset row back (ins.map layout.offset) := by
  simp only [CodeWriter.eventBytes, hevent] at hrow
  obtain ⟨i, hi, hbytes⟩ := (finds_bind (CodeWriter.steady_ofExcept _)
    (fun i => Instruction.steady_bytes _ _ i) hp).mp hrow
  obtain rfl := Instruction.eq_map_of_mapTargets (g := layout.offset)
    (CodeWriter.finds_ofExcept.mp hi) fun _ _ h => offset_of_offsetOf h
  have hextent := hmade.measured e he
  rw [hevent] at hextent
  refine ⟨Instruction.length_bytes hp hextent (ConstantPool.le_refl p) hbytes, ?_⟩
  exact Instruction.reads_bytes hq (hbytes.mono (Instruction.steady_bytes _ _ _) hp hpq)
    ((Instruction.properIn_map _ _).mpr (hproper.mono hpq))

/-- A placed event has been written as a row of bytes that can be read. -/
private structure RowOf (pool : ConstantPool) (offset : Label → Nat) (e : PlacedEvent)
    (row : Bytes) : Prop where
  length_eq : row.length = e.extent.size e.offset e.wide
  label : ∀ l, e.event = .label l → row = []
  instr : ∀ i, e.event = .instr i → ∀ back,
    Reads (Instruction.read pool) e.offset row back (i.map offset)

private theorem length_flatten {pool : ConstantPool} {placed : List PlacedEvent}
    {rows : List Bytes} {start stop : Nat} {offset : Label → Nat} (hlaid : Laid start placed stop)
    (hrows : List.Forall₂ (RowOf pool offset) placed rows) :
    start + rows.flatten.length = stop := by
  induction hrows generalizing start with
  | nil =>
    cases hlaid
    rfl
  | cons hrow _ ih =>
    cases hlaid with
    | cons hlaid =>
      have := ih hlaid
      rw [List.flatten_cons, List.length_append, hrow.length_eq]
      omega

/-- Bytes that are read one instruction after the other. -/
private theorem readFrom_flatten {pool : ConstantPool} {placed : List PlacedEvent}
    {rows : List Bytes} {start stop : Nat} {offset : Label → Nat}
    (hlaid : Laid start placed stop) (hrows : List.Forall₂ (RowOf pool offset) placed rows)
    {front : Bytes} (hfront : front.length = start) (before : Disassembly) :
    Disassembly.readFrom pool (between front rows.flatten) before =
      .ok (before.reverse ++ codeOf offset placed) := by
  induction hrows generalizing start front before with
  | nil =>
    rw [Disassembly.readFrom, hasMore_between]
    simp [codeOf]
  | @cons e row placed rows hrow _ ih =>
    cases hlaid with
    | cons hlaid =>
      rw [← hrow.length_eq] at hlaid
      cases hevent : e.event with
      | label l =>
        obtain rfl := hrow.label l hevent
        rw [List.flatten_cons, List.nil_append, ih hlaid (by simpa using hfront)]
        simp [codeOf, hevent, Event.instr?]
      | instr i =>
        have hread := hrow.instr i hevent rows.flatten front hfront
        have hadvances := Instruction.read_advances hread
        have hmore : (between front (row ++ rows.flatten)).hasMore = true := by
          rw [hasMore_between]
          cases row with
          | nil => simp at hadvances
          | cons b row => simp
        rw [List.flatten_cons, Disassembly.readFrom, if_pos hmore]
        split
        · rename_i i' c' h
          obtain ⟨rfl, rfl⟩ := EStateM.Result.ok.inj (h.symm.trans hread)
          rw [ih hlaid (by simp [hfront])]
          simp [codeOf, hevent, Event.instr?, hfront]
        · rename_i e' c' h
          cases h.symm.trans hread

/-- What is known of a layout whose code has been written. -/
structure WrittenAs (layout : Layout) (pool : ConstantPool) (code : Bytes) : Prop where
  disassembled : Disassembly.ofBytes pool code = .ok layout.code
  length_eq : code.length = layout.length
  size_pos : ∀ e ∈ layout.placed, ∀ i, e.event = .instr i → 0 < e.extent.size e.offset e.wide
  resolved : ∀ e ∈ layout.placed, ∀ i, e.event = .instr i → ∀ l ∈ i.targets,
    ∃ offset, layout.places.offsetOf l = .ok offset

/-- The bytes of a layout are disassembled into its instructions. -/
theorem writtenAs (hp : p.WellFormed) (hq : q.WellFormed) (hpq : p ≤ q)
    (hmade : layout.MadeIn p)
    (hproper : ∀ i ∈ instructions (layout.placed.map (·.event)), i.ProperIn p) {code : Bytes}
    (hcode : Finds (CodeWriter.instructionBytes layout.places layout) p code) :
    layout.WrittenAs q code := by
  obtain ⟨rows, hrows, hcode⟩ := (finds_bind (Steady.mapM CodeWriter.steady_eventBytes _)
    (fun _ => .pure _) hp).mp hcode
  obtain rfl := finds_pure.mp hcode
  replace hrows := (finds_mapM CodeWriter.steady_eventBytes hp).mp hrows
  have hrow {e : PlacedEvent} {row : Bytes} (he : e ∈ layout.placed)
      (hrow : Finds (CodeWriter.eventBytes layout.places e) p row) :
      RowOf q layout.offset e row := by
    cases hevent : e.event with
    | label l =>
      have hextent := hmade.measured e he
      rw [hevent] at hextent
      simp only [CodeWriter.eventBytes, hevent] at hrow
      obtain rfl := finds_pure.mp hrow
      refine ⟨?_, fun _ _ => rfl, fun i hi => by simp [hevent] at hi⟩
      rw [← finds_pure.mp hextent]
      rfl
    | instr i =>
      have hi : i ∈ instructions (layout.placed.map (·.event)) :=
        mem_instructions.mpr (List.mem_map.mpr ⟨e, he, hevent⟩)
      obtain ⟨hlength, hreads⟩ :=
        reads_eventBytes hp hq hpq hmade he hevent (hproper i hi) hrow
      refine ⟨hlength, fun l hl => by simp [hevent] at hl, fun i' hi' back => ?_⟩
      obtain rfl := Event.instr.inj (hevent.symm.trans hi')
      exact hreads back
  have hrows' : List.Forall₂ (RowOf q layout.offset) layout.placed rows :=
    hrows.imp_of_mem fun e he row _ h => hrow he h
  refine ⟨?_, by simpa using length_flatten hmade.laid hrows', fun e he i hi => ?_,
    fun e he i hi l hl => ?_⟩
  · have hread :=
      readFrom_flatten hmade.laid hrows' (show ([] : Bytes).length = 0 from rfl) []
    simpa [Disassembly.ofBytes, code_eq] using hread
  · obtain ⟨row, -, hwritten⟩ := hrows'.exists_right he
    rw [← hwritten.length_eq]
    have hadvances := Instruction.read_advances
      (hwritten.instr i hi [] (List.replicate e.offset 0) (List.length_replicate ..))
    cases row with
    | nil => simp at hadvances
    | cons => simp
  · obtain ⟨row, -, hwritten⟩ := hrows.exists_right he
    simp only [CodeWriter.eventBytes, hi] at hwritten
    obtain ⟨i', hi', -⟩ := (finds_bind (CodeWriter.steady_ofExcept _)
      (fun i => Instruction.steady_bytes _ _ i) hp).mp hwritten
    exact Instruction.exists_of_mapTargets (CodeWriter.finds_ofExcept.mp hi') l hl

end Layout
end ClassPatch
