import ClassPatch.Code.LabelTable
import Mathlib.Data.List.Perm.Subperm

/-!
# Labels for marked offsets

A table has a label for every marked offset and for no other, and different labels for different
offsets, as long as there are no more offsets than labels.
-/

namespace ClassPatch.LabelTable

variable {marks offsets : List Nat} {offset : Nat}

theorem pairwise_sorted (marks : List Nat) : (sorted marks).Pairwise (· < ·) :=
  (Std.TreeSet.ordered_toList (t := Std.TreeSet.ofList marks)).imp fun h =>
    Nat.compare_eq_lt.mp h

theorem mem_sorted : offset ∈ sorted marks ↔ offset ∈ marks := by
  simp [sorted]

/-- The marks make a table exactly if all of them are boundaries. -/
theorem ofMarks_eq_ok {boundaries : Std.TreeSet Nat} {length : Nat} {table : LabelTable} :
    ofMarks marks boundaries length = .ok table ↔
      (∀ offset ∈ marks, offset = length ∨ boundaries.contains offset = true) ∧
        table = ofOffsets (sorted marks) := by
  unfold ofMarks
  dsimp only
  split
  · rename_i offset hfind
    refine iff_of_false nofun fun ⟨hall, _⟩ => ?_
    have hmem := mem_sorted.mp (List.mem_of_find?_eq_some hfind)
    have hbad := List.find?_some hfind
    rcases hall offset hmem with rfl | hmem <;> simp_all
  · rename_i hnone
    rw [Except.ok.injEq, eq_comm, and_iff_right_of_imp]
    rintro -
    intro offset hmem
    have hgood := List.find?_eq_none.mp hnone offset (mem_sorted.mpr hmem)
    by_cases heq : offset = length
    · exact .inl heq
    · exact .inr (by simpa [heq] using hgood)

private theorem map_fst_rows (offsets : List Nat) :
    (offsets.zipIdx.map fun (offset, i) => (offset, Label.mk (UInt32.ofNat i))).map (·.1) =
      offsets := by
  rw [List.map_map]
  exact List.zipIdx_map_fst 0 offsets

/-- Offsets are numbered in their order. -/
theorem get?_ofOffsets (h : offsets.Pairwise (· < ·)) {k : Nat} (hk : offsets[k]? = some offset) :
    (ofOffsets offsets).get? offset = some ⟨UInt32.ofNat k⟩ := by
  refine Std.TreeMap.getElem?_ofList_of_mem Std.ReflCmp.compare_self ?_ ?_
  · rw [← map_fst_rows offsets, List.pairwise_map] at h
    exact h.imp fun hlt heq => Nat.ne_of_lt hlt (Nat.compare_eq_eq.mp heq)
  · refine List.mem_map.mpr ⟨(offset, k), ?_, rfl⟩
    exact List.mem_zipIdx_iff_getElem?.mpr hk

theorem get?_eq_none (h : offset ∉ offsets) : (ofOffsets offsets).get? offset = none := by
  refine Std.TreeMap.getElem?_ofList_of_contains_eq_false ?_
  rw [map_fst_rows]
  simpa using h

/-- The label of an offset. -/
def labelAt (table : LabelTable) (offset : Nat) : Label := (table.get? offset).getD ⟨0⟩

/-- The table has exactly the labels of some offsets. -/
structure Has (table : LabelTable) (offsets : List Nat) : Prop where
  get? : ∀ {offset : Nat}, offset ∈ offsets → table.get? offset = some (table.labelAt offset)
  get?_none : ∀ {offset : Nat}, offset ∉ offsets → table.get? offset = none
  inj : ∀ {offset offset' : Nat}, offset ∈ offsets → offset' ∈ offsets →
    table.labelAt offset = table.labelAt offset' → offset = offset'

theorem length_le_of_bound {bound : Nat} (h : offsets.Pairwise (· < ·))
    (hbound : ∀ offset ∈ offsets, offset ≤ bound) : offsets.length ≤ bound + 1 := by
  have hsub : offsets ⊆ List.range (bound + 1) := fun offset hmem =>
    List.mem_range.mpr (Nat.lt_succ_of_le (hbound offset hmem))
  simpa using (List.subperm_of_subset (h.imp Nat.ne_of_lt) hsub).length_le

/-- Marks in code of the permitted length have labels of their own. -/
theorem has_ofOffsets {bound : Nat} (hlength : bound < UInt32.size)
    (hbound : ∀ offset ∈ marks, offset ≤ bound) : (ofOffsets (sorted marks)).Has marks := by
  have hsorted := pairwise_sorted marks
  have hlt : (sorted marks).length ≤ bound + 1 :=
    length_le_of_bound hsorted fun offset h => hbound offset (mem_sorted.mp h)
  have hat {offset : Nat} (h : offset ∈ marks) : ∃ k, (sorted marks)[k]? = some offset ∧
      (ofOffsets (sorted marks)).get? offset = some ⟨UInt32.ofNat k⟩ := by
    obtain ⟨k, hk⟩ := List.getElem?_of_mem (mem_sorted.mpr h)
    exact ⟨k, hk, get?_ofOffsets hsorted hk⟩
  refine ⟨fun h => ?_, fun h => get?_eq_none (mt mem_sorted.mp h), fun h h' heq => ?_⟩
  · obtain ⟨k, -, hget⟩ := hat h
    rw [labelAt, hget]
    rfl
  · obtain ⟨k, hk, hget⟩ := hat h
    obtain ⟨k', hk', hget'⟩ := hat h'
    simp only [labelAt, hget, hget', Option.getD_some, Label.mk.injEq] at heq
    have hkk' := congrArg UInt32.toNat heq
    have hlt₁ := (List.getElem?_eq_some_iff.mp hk).1
    have hlt₂ := (List.getElem?_eq_some_iff.mp hk').1
    rw [UInt32.toNat_ofNat_of_lt' (by omega), UInt32.toNat_ofNat_of_lt' (by omega)] at hkk'
    subst hkk'
    exact Option.some.inj (hk.symm.trans hk')

namespace Has

variable {table : LabelTable}

theorem get_eq_ok (h : table.Has offsets) (hmem : offset ∈ offsets) :
    table.get offset = .ok (table.labelAt offset) := by
  rw [get, h.get? hmem]

end Has
end ClassPatch.LabelTable
