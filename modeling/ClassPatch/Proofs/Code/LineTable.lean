import ClassPatch.Proofs.Code.Coverage
import ClassPatch.Proofs.Evaluation

/-!
# Line tables

A line of a body has the instructions between its label and the labels of the lines behind it. The
table that is written has a row for every line, in order, behind whose label any instruction is left
up to the end of the code. The row leads to the first such instruction; this is one of the line's
own exactly if no line further behind begins at the same offset. Otherwise all instructions of the
line have been dropped, and the row is left over: it leads to an instruction of another line.
-/

namespace ClassPatch

open PoolM CodeWriter

/-- An instruction stands behind the label of a line and in front of the labels of all lines that
come later. -/
def Body.OfLine (body : Body) (line : Line) (n : Nat) : Prop :=
  landing body.events line.start ≤ n ∧ ∀ other ∈ body.lines,
    landing body.events line.start < landing body.events other.start →
      n < landing body.events other.start

/-- An instruction is the first one behind a label that control reaches. -/
structure Body.FirstBehind (body : Body) (l : Label) (n : Nat) : Prop where
  live : body.Live n
  behind : landing body.events l ≤ n
  first : ∀ {m : Nat}, body.Live m → landing body.events l ≤ m → n ≤ m

namespace Layout

/-- A row of the table of lines is written for a line, or none. -/
def KeepsLine (layout : Layout) (body : Body) (place : Nat → Nat) (line : Line) :
    Option LineRow → Prop
  | none => ∀ n, body.Live n → n < landing body.events line.start
  | some r => r.number = line.number ∧ ∃ n i, body.FirstBehind line.start n ∧
      layout.code[place n]? = some (r.start, i) ∧
      (body.OfLine line n ↔ ∀ other ∈ body.lines,
        landing body.events line.start < landing body.events other.start →
          layout.offset other.start ≠ r.start)

end Layout

/-- Rows further behind have greater offsets. -/
theorem Disassembly.lt_of_getElem? {code : Disassembly}
    (hsorted : (code.map (·.1)).Pairwise (· < ·)) {j k : Nat} {row row' : Nat × Instruction Nat}
    (hlt : j < k) (hj : code[j]? = some row) (hk : code[k]? = some row') : row.1 < row'.1 := by
  obtain ⟨hj', rfl⟩ := List.getElem?_eq_some_iff.mp hj
  obtain ⟨hk', rfl⟩ := List.getElem?_eq_some_iff.mp hk
  rw [List.pairwise_map] at hsorted
  exact List.pairwise_iff_getElem.mp hsorted j k hj' hk' hlt

/-- What earlier instructions have left stands in front. -/
theorem Body.LoweredTo.leavesAt_lt {body : Body} {method : MethodContext} {p : ConstantPool}
    {layout : Layout} {place : Nat → Nat} (hlowered : body.LoweredTo method p layout place)
    (hsorted : (layout.code.map (·.1)).Pairwise (· < ·)) {m n offset offset' : Nat} (hlt : m < n)
    (hm : layout.LeavesAt place m offset) (hn : layout.LeavesAt place n offset') :
    offset < offset' := by
  obtain ⟨k, i, -, hk, hi⟩ := hm
  obtain ⟨k', i', hk', -, hi'⟩ := hn
  have hplaces : place (m + 1) ≤ place n := hlowered.mono hlt
  exact Disassembly.lt_of_getElem? hsorted (by omega) hi hi'

namespace Body.EmittedAs

variable {body : Body} {method : MethodContext} {p : ConstantPool} {code : Bytes} {layout : Layout}
  {parts : Parts} {place : Nat → Nat} (h : body.EmittedAs method p code layout parts)
  (hlowered : body.LoweredTo method p layout place)
include h hlowered

/-- A label in front of the end stands in front of what the instructions behind it have left. -/
theorem exists_code_of_lt (hp : p.WellFormed) {l : Label} (hl : l ∈ body.references)
    (hlt : layout.offset l < layout.length) :
    ∃ i, layout.code[place (landing body.events l)]? = some (layout.offset l, i) := by
  obtain ⟨row, hrow, hoffset⟩ := List.mem_map.mp
    ((h.made.boundary (h.resolves hp hl)).resolve_left (Nat.ne_of_lt hlt))
  obtain ⟨before, after, hsplit⟩ := List.append_of_mem hrow
  have hnumber := Disassembly.numberOf_of_split h.pairwise_code hsplit
  rw [hoffset, hlowered.number l hl] at hnumber
  refine ⟨row.2, ?_⟩
  rw [hnumber, hsplit, List.getElem?_append_right (Nat.le_refl _), ← hoffset]
  simp

/-- Labels keep their order. -/
theorem offset_mono (hp : p.WellFormed) {l l' : Label} (hl : l ∈ body.references)
    (hl' : l' ∈ body.references) (hle : landing body.events l ≤ landing body.events l') :
    layout.offset l ≤ layout.offset l' := by
  by_cases hlt : layout.offset l' < layout.length
  · obtain ⟨i, hi⟩ := h.exists_code_of_lt hlowered hp hl' hlt
    refine (Disassembly.numberOf_le_iff h.pairwise_code hi _).mp ?_
    rw [hlowered.number l hl]
    exact hlowered.mono hle
  · exact Nat.le_trans (h.made.offset_le l) (Nat.le_of_not_lt hlt)

/-- What stands at a label in front of the end is what the first instruction behind it has left. -/
theorem exists_firstBehind (hp : p.WellFormed) {l : Label} (hl : l ∈ body.references)
    (hlt : layout.offset l < layout.length) :
    ∃ n i, body.FirstBehind l n ∧ layout.LeavesAt place n (layout.offset l) ∧
      layout.code[place n]? = some (layout.offset l, i) := by
  obtain ⟨i, hi⟩ := h.exists_code_of_lt hlowered hp hl hlt
  obtain ⟨n, hlive, hleaves⟩ := hlowered.exists_live hi
  have hfirst : body.FirstBehind l n := by
    refine ⟨hlive, (h.landing_le_iff hlowered hl hleaves).mpr (Nat.le_refl _), ?_⟩
    intro m hm hbehind
    obtain ⟨offset, hleft⟩ := hlowered.exists_leavesAt hm
    have hle := (h.landing_le_iff hlowered hl hleft).mp hbehind
    by_contra hnot
    exact Nat.not_lt.mpr hle (hlowered.leavesAt_lt h.pairwise_code (by omega) hleft hleaves)
  refine ⟨n, i, hfirst, hleaves, ?_⟩
  obtain ⟨k, j, hle, -, hk⟩ := hleaves
  have hplace : place n = place (landing body.events l) := by
    refine Nat.le_antisymm ?_ (hlowered.mono hfirst.behind)
    by_contra hnot
    have hlater : place (landing body.events l) < k := by omega
    exact absurd (Disassembly.lt_of_getElem? h.pairwise_code hlater hi hk) (Nat.lt_irrefl _)
  rw [hplace, hi]

variable {line : Line}

theorem keepsLine (hp : p.WellFormed) (hline : line ∈ body.lines) :
    layout.KeepsLine body place line (layout.lineRow? line) := by
  have hreference {other : Line} (hother : other ∈ body.lines) : other.start ∈ body.references :=
    Body.mem_references_of_line hother
  have hstart := hreference hline
  unfold Layout.lineRow?
  split
  · rename_i hlt
    obtain ⟨n, i, hfirst, hleaves, hi⟩ := h.exists_firstBehind hlowered hp hstart hlt
    have hfront {other : Line} (hother : other ∈ body.lines) :=
      h.landing_le_iff hlowered (hreference hother) hleaves
    refine ⟨rfl, n, i, hfirst, hi, ?_⟩
    constructor
    · intro hn other hother hbehind heq
      have hnot := Nat.not_le.mpr (hn.2 other hother hbehind)
      exact hnot ((hfront hother).mpr (Nat.le_of_eq heq))
    · refine fun hdiffer => ⟨hfirst.behind, fun other hother hbehind => ?_⟩
      have hle := h.offset_mono hlowered hp hstart (hreference hother) (Nat.le_of_lt hbehind)
      have hne := hdiffer other hother hbehind
      refine Nat.not_le.mp fun hn => hne ?_
      exact Nat.le_antisymm ((hfront hother).mp hn) hle
  · rename_i hnot
    intro n hlive
    obtain ⟨offset, hleaves⟩ := hlowered.exists_leavesAt hlive
    have hinside : offset < layout.length := by
      obtain ⟨k, i, -, -, hk⟩ := hleaves
      exact Layout.lt_of_mem_code h.made.laid h.filled _ (List.mem_of_getElem? hk)
    rw [← Nat.not_le, h.landing_le_iff hlowered hstart hleaves]
    exact fun hle => hnot (Nat.lt_of_le_of_lt hle hinside)

end Body.EmittedAs

/-- Whatever encoding accepts keeps its lines: the table has a row, in the order of the body, for
every line behind whose label control reaches anything. The row leads to the first such instruction,
which is one of the line's own exactly if no later line begins at the same offset. -/
theorem Body.lines_of_encode {body : Body} {method : MethodContext} {pool pool' : ConstantPool}
    {code : Bytes} (hpool : pool.WellFormed) (h : body.encode method pool = .ok code pool') :
    ∃ layout parts place rows,
      body.EmittedAs method pool' code layout parts ∧
      body.LoweredTo method pool' layout place ∧
      List.Forall₂ (layout.KeepsLine body place) body.lines rows ∧
      parts.lines.mapM (CodeAttribute.ofAttribute pool') =
        .ok (CodeAttribute.ofRows .lines (rows.filterMap id)) := by
  have hsteady := (body.splits_encode method).steady
  have hpool' := hsteady.wellFormed hpool h
  obtain ⟨layout, parts, hemitted⟩ := Body.exists_emittedAs hpool' (hsteady.finds hpool h)
  obtain ⟨place, hlowered⟩ := hemitted.exists_loweredTo hpool'
  refine ⟨layout, parts, place, body.lines.map layout.lineRow?, hemitted, hlowered, ?_, ?_⟩
  · exact List.forall₂_map_right_iff.mpr
      (List.forall₂_same.mpr fun line hline => hemitted.keepsLine hlowered hpool' hline)
  · have hlines := hemitted.areOf.lines
    rw [hemitted.length_eq] at hlines
    rw [Layout.ofAttribute_lines hpool' (ConstantPool.le_refl pool') hemitted.length_le hlines,
      List.filterMap_map]
    rfl

/-- A pool that names line tables. -/
private def lineTableNames : ConstantPool :=
    .ofSlots #[none, some (.utf8 [76, 105, 110, 101, 78, 117, 109,
  98, 101, 114, 84, 97, 98, 108, 101])]

/-- A jump over the only instruction of the second of three lines. -/
private def skipping : Body where
  maxStack := 0
  maxLocals := 0
  events := [.label ⟨0⟩, .instr (.jump .goto ⟨2⟩), .label ⟨1⟩, .instr (.plain Opcode.nop),
    .label ⟨2⟩, .instr (.leave none)]
  handlers := []
  lines := [⟨⟨0⟩, 1⟩, ⟨⟨1⟩, 2⟩, ⟨⟨2⟩, 3⟩]
  localVariables := []
  localVariableTypes := []
  frames := []
  attributes := []
  labels := ⟨3⟩

/-- The instruction is left out, and there is a row for every line. -/
private theorem encode_skipping : skipping.encode ⟨"A", "m", "()V", true, 49⟩ lineTableNames =
    .ok [0, 0, 0, 0, 0, 0, 0, 4, 167, 0, 3, 177, 0, 0, 0, 1, 0, 1, 0, 0, 0, 14, 0, 3, 0, 0, 0, 1,
      0, 3, 0, 2, 0, 3, 0, 3] lineTableNames := by
  cbv

/-- The second and the third line begin at the same offset. -/
theorem Body.lines_of_encode_skipping :
    let method : MethodContext := ⟨"A", "m", "()V", true, 49⟩
    ∃ code, skipping.encode method lineTableNames = .ok code lineTableNames ∧
    ∃ layout parts place rows,
      skipping.EmittedAs method lineTableNames code layout parts ∧
      skipping.LoweredTo method lineTableNames layout place ∧
      List.Forall₂ (layout.KeepsLine skipping place) skipping.lines rows ∧
      parts.lines.mapM (CodeAttribute.ofAttribute lineTableNames) =
        .ok (CodeAttribute.ofRows .lines (rows.filterMap id)) := by
  have hpool : lineTableNames.WellFormed := ConstantPool.wellFormed_ofSlots rfl (by decide)
  exact ⟨_, encode_skipping, Body.lines_of_encode hpool encode_skipping⟩

/-- Control leaves out the instruction that is jumped over. -/
private theorem live_skipping {n : Nat} (h : skipping.Live n) : n = 0 ∨ n = 2 := by
  have hprogram : program skipping.events = [.jump .goto 2, .plain Opcode.nop, .leave none] := by
    decide
  induction h with
  | entry => exact .inl rfl
  | next _ hi hterminal ih =>
    rw [hprogram] at hi
    obtain rfl | rfl := ih <;> cases hi <;> cases hterminal
  | jump _ hi ht ih =>
    rw [hprogram] at hi
    obtain rfl | rfl := ih <;> cases hi <;> simp_all [Instruction.targets]
  | caught _ _ hguard => cases hguard

/-- The line of a removed instruction in the middle is not dropped: a row is written for it, though
control reaches no instruction of the line. -/
theorem Body.not_lines_of_encode_skipped :
    let method : MethodContext := ⟨"A", "m", "()V", true, 49⟩
    let stored : Bytes := [0, 0, 0, 0, 0, 0, 0, 5, 167, 0, 4, 0, 177, 0, 0, 0, 1, 0, 1, 0, 0, 0, 14,
      0, 3, 0, 0, 0, 1, 0, 3, 0, 2, 0, 4, 0, 3]
    ∃ body code written line row, Body.decode stored lineTableNames method = .ok body ∧
      body.encode method lineTableNames = .ok code lineTableNames ∧
      Body.decode code lineTableNames method = .ok written ∧
      (body.lines.map fun line => landing body.events line.start).Nodup ∧
      line ∈ body.lines ∧ row ∈ written.lines ∧ row.number = line.number ∧
      (∀ other ∈ body.lines, other.number = line.number → other = line) ∧
      ∀ n, body.Live n → ¬body.OfLine line n := by
  intro method stored
  have hdecoded : Body.decode stored lineTableNames method = .ok skipping := by cbv
  have hwritten : Body.decode [0, 0, 0, 0, 0, 0, 0, 4, 167, 0, 3, 177,
      0, 0, 0, 1, 0, 1, 0, 0, 0, 14, 0, 3, 0, 0, 0, 1, 0, 3, 0, 2, 0, 3, 0, 3]
      lineTableNames method = .ok { skipping with
        events := [.label ⟨0⟩, .instr (.jump .goto ⟨1⟩), .label ⟨1⟩, .instr (.leave none)]
        lines := [⟨⟨0⟩, 1⟩, ⟨⟨1⟩, 2⟩, ⟨⟨1⟩, 3⟩]
        labels := ⟨2⟩ } := by
    cbv
  refine ⟨_, _, _, ⟨⟨1⟩, 2⟩, ⟨⟨1⟩, 2⟩, hdecoded, encode_skipping, hwritten, by decide, by decide,
    by decide, rfl, by decide, ?_⟩
  rintro n hlive ⟨hbehind, hlater⟩
  have hbefore := hlater ⟨⟨2⟩, 3⟩ (by decide) (by decide)
  have hstart : landing skipping.events ⟨1⟩ = 1 := by decide
  have hnext : landing skipping.events ⟨2⟩ = 2 := by decide
  have hreached := live_skipping hlive
  dsimp only at hbehind hbefore
  omega

end ClassPatch
