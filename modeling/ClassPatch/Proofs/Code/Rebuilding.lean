import ClassPatch.Code.Decode
import ClassPatch.Proofs.Code.Labels
import ClassPatch.Proofs.Code.Program

/-!
# Bodies that are built from listings

Where every offset that a listing refers to is marked and is a boundary, the listing becomes a body
in which labels stand for these offsets. Its program has, instead of offsets, the numbers of the
instructions at them.
-/

namespace ClassPatch

/-! ### Events -/

namespace Disassembly

variable {code : Disassembly} {table : LabelTable} {marks : List Nat} {length : Nat}

/-- The label at an offset, if it has one. -/
def placedAt (table : LabelTable) (offset : Nat) : List Event :=
  ((table.get? offset).map Event.label).toList

/-- The instructions with labels for their targets, behind the labels at their offsets. -/
def rows (code : Disassembly) (table : LabelTable) : List Event :=
  code.flatMap fun (offset, i) => placedAt table offset ++ [.instr (i.map table.labelAt)]

theorem events_eq (htable : table.Has marks)
    (hmarks : ∀ row ∈ code, ∀ t ∈ row.2.targets, t ∈ marks) :
    code.events table length = .ok (code.rows table ++ placedAt table length) := by
  have hrows : code.mapM (fun (offset, i) => do
      return placedAt table offset ++ [Event.instr (← i.mapTargets table.get)]) =
        (.ok (code.map fun (offset, i) =>
          placedAt table offset ++ [Event.instr (i.map table.labelAt)]) :
          Except Error (List (List Event))) :=
    Except.mapM_eq_map fun (offset, i) hmem => by
      have hi : i.mapTargets table.get = .ok (i.map table.labelAt) :=
        Instruction.mapTargets_eq_map fun t ht => htable.get_eq_ok (hmarks _ hmem t ht)
      simp only [hi]
      rfl
  unfold events
  exact Except.bind_eq_ok.mpr ⟨_, hrows, by rw [← List.flatMap_def]; rfl⟩

theorem instructions_placedAt (offset : Nat) : instructions (placedAt table offset) = [] := by
  unfold placedAt
  cases table.get? offset <;> rfl

theorem instructions_rows : instructions (code.rows table ++ placedAt table length) =
    code.map fun (_, i) => i.map table.labelAt := by
  rw [instructions_append, instructions_placedAt, List.append_nil]
  induction code with
  | nil => rfl
  | cons row code ih =>
    simp only [rows, List.flatMap_cons, instructions_append, instructions_placedAt] at ih ⊢
    simpa using ih

/-- The number of the instruction at an offset. -/
def numberOf (code : Disassembly) (offset : Nat) : Nat := code.countP (·.1 < offset)

/-- A label stands for the instruction at its offset. -/
theorem landing_rows (htable : table.Has marks) (hsorted : (code.map (·.1)).Pairwise (· < ·))
    (hlength : ∀ row ∈ code, row.1 < length) {offset : Nat} (hmark : offset ∈ marks)
    (hoffset : offset = length ∨ offset ∈ code.map (·.1)) :
    landing (code.rows table ++ placedAt table length) (table.labelAt offset) =
      code.numberOf offset := by
  induction code with
  | nil =>
    obtain rfl : offset = length := by simpa using hoffset
    simp [rows, placedAt, htable.get? hmark, landing, numberOf]
  | cons row code ih =>
    obtain ⟨start, i⟩ := row
    rw [List.map_cons, List.pairwise_cons] at hsorted
    have hskip (hne : start ≠ offset) (events : List Event) :
        landing (placedAt table start ++ events) (table.labelAt offset) =
          landing events (table.labelAt offset) := by
      unfold placedAt
      cases hstart : table.get? start with
      | none => rfl
      | some l =>
        have hl : l ≠ table.labelAt offset := by
          rintro rfl
          have hmem : start ∈ marks := by
            by_contra hnot
            rw [htable.get?_none hnot] at hstart
            simp at hstart
          refine hne (htable.inj hmem hmark ?_)
          exact Option.some.inj ((htable.get? hmem).symm.trans hstart)
        simp [landing, hl]
    have hrows : rows ((start, i) :: code) table ++ placedAt table length =
        placedAt table start ++ .instr (i.map table.labelAt) ::
          (rows code table ++ placedAt table length) := by
      simp [rows]
    rw [hrows]
    by_cases heq : start = offset
    · subst heq
      have hnone : numberOf ((start, i) :: code) start = 0 := by
        simp only [numberOf, List.countP_eq_zero, List.mem_cons, forall_eq_or_imp]
        refine ⟨by simp, fun row hrow => ?_⟩
        have := hsorted.1 row.1 (List.mem_map_of_mem hrow)
        simp
        omega
      simp [placedAt, htable.get? hmark, landing, hnone]
    · have hoffset' : offset = length ∨ offset ∈ code.map (·.1) := by
        simpa [Ne.symm heq] using hoffset
      have hlt : start < offset := by
        rcases hoffset' with rfl | hmem
        · exact hlength _ (List.mem_cons_self ..)
        · exact hsorted.1 offset hmem
      rw [hskip heq, landing,
        ih hsorted.2 (fun row hrow => hlength row (List.mem_cons_of_mem _ hrow)) hoffset']
      simp [numberOf, hlt]

/-- The program of the events has the numbers of instructions for their offsets. -/
theorem program_rows (htable : table.Has marks) (hsorted : (code.map (·.1)).Pairwise (· < ·))
    (hlength : ∀ row ∈ code, row.1 < length)
    (hmarks : ∀ row ∈ code, ∀ t ∈ row.2.targets, t ∈ marks)
    (hboundary : ∀ row ∈ code, ∀ t ∈ row.2.targets, t = length ∨ t ∈ code.map (·.1)) :
    program (code.rows table ++ placedAt table length) =
      code.map fun (_, i) => i.map code.numberOf := by
  unfold program
  rw [instructions_rows, List.map_map]
  refine List.map_congr_left fun row hrow => ?_
  obtain ⟨offset, i⟩ := row
  simp only [Function.comp_apply, Instruction.map_map]
  exact Instruction.map_congr fun t ht =>
    landing_rows htable hsorted hlength (hmarks _ hrow t ht) (hboundary _ hrow t ht)

end Disassembly
end ClassPatch
