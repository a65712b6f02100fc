import ClassPatch.Proofs.Code.Decoding
import ClassPatch.Proofs.Code.LabelSupply

/-!
# Numbers of decoded labels

The labels of a decoded body are numbered from zero in the order of their offsets, and each is
placed once. All labels that the body refers to are among them, those of its frames included, and
one stands directly in front of every `new`. The supply of the body goes on behind them.
-/

namespace ClassPatch

variable {pool : ConstantPool} {method : MethodContext}

/-- The labels of a body are numbered in the order of offsets in a listing. -/
structure Body.NumberedBy (body : Body) (listing : CodeListing) (offsets : List Nat) : Prop where
  increasing : offsets.Pairwise (· < ·)
  boundary : ∀ offset ∈ offsets, offset = listing.length ∨ offset ∈ listing.code.map (·.1)
  /-- There are as many labels as have been handed out. -/
  next : body.labels.next.toNat = offsets.length
  placed : ClassPatch.placedLabels body.events = (List.range offsets.length).map Label.ofNat
  nodup : (ClassPatch.placedLabels body.events).Nodup
  /-- A label has as many instructions in front of it as its offset. -/
  stands : ∀ k offset : Nat, offsets[k]? = some offset →
    landing body.events (.ofNat k) = listing.code.numberOf offset

/-- A body refers to labels that it places, and places one in front of every `new`. -/
structure Body.RefersToPlaced (body : Body) : Prop where
  references : ∀ l ∈ body.references, l ∈ ClassPatch.placedLabels body.events
  frames : ∀ row ∈ body.frames, row.1 ∈ ClassPatch.placedLabels body.events
  sites : ∀ row ∈ body.frames, ∀ l ∈ row.2.sites, l ∈ ClassPatch.placedLabels body.events
  news : ∀ (i : Nat) (className : String),
    body.events[i]? = some (.instr (.typeUse .newObject className)) →
      ∃ k l, i = k + 1 ∧ body.events[k]? = some (.label l)

/-! ### Tables -/

namespace LabelTable

variable {offsets all : List Nat}

/-- The offsets of a table have labels in their order. -/
theorem map_get?_ofOffsets (h : offsets.Pairwise (· < ·)) :
    offsets.map (ofOffsets offsets).get? = (List.range offsets.length).map fun k =>
      some (.ofNat k) := by
  refine List.ext_getElem? fun k => ?_
  rw [List.getElem?_map, List.getElem?_map]
  cases hk : offsets[k]? with
  | none => simp [List.getElem?_eq_none (l := List.range offsets.length) (by simpa using hk)]
  | some offset =>
    rw [List.getElem?_range (List.getElem?_eq_some_iff.mp hk).1]
    exact congrArg some (get?_ofOffsets h hk)

/-- Along increasing offsets the labels of a table come in their order. -/
theorem filterMap_get?_ofOffsets (h : offsets.Pairwise (· < ·)) (hall : all.Pairwise (· < ·))
    (hsub : offsets ⊆ all) :
    all.filterMap (ofOffsets offsets).get? = (List.range offsets.length).map Label.ofNat := by
  have hfilter : all.filter (· ∈ offsets) = offsets := by
    refine List.Perm.eq_of_pairwise (fun a b _ _ hab hba => absurd hba (Nat.lt_asymm hab))
      (hall.filter _) h ?_
    refine (List.perm_ext_iff_of_nodup ((hall.imp Nat.ne_of_lt).filter _)
      (h.imp Nat.ne_of_lt)).mpr fun offset => ?_
    simpa using fun hmem => hsub hmem
  have hmarked :
      all.filterMap (ofOffsets offsets).get? = offsets.filterMap (ofOffsets offsets).get? := by
    conv_rhs => arg 2; rw [← hfilter]
    rw [List.filterMap_filter]
    refine List.filterMap_congr fun offset _ => ?_
    split
    · rfl
    · rename_i hnot
      exact get?_eq_none (by simpa using hnot)
  have hid := congrArg (List.filterMap id) (map_get?_ofOffsets h)
  rw [List.filterMap_map, List.filterMap_map] at hid
  rw [hmarked]
  refine hid.trans ?_
  rw [← List.filterMap_eq_map]
  rfl

end LabelTable

/-! ### Decoded bodies -/

namespace CodeListing.Builds

variable {listing : CodeListing} {body : Body} {table : LabelTable} {marks : List Nat}

theorem numberedBy (h : listing.Builds pool body table marks) (hlisting : listing.ProperIn pool) :
    body.NumberedBy listing (LabelTable.sorted marks) := by
  have hsorted := LabelTable.pairwise_sorted marks
  have hboundary : ∀ offset ∈ LabelTable.sorted marks,
      offset = listing.length ∨ offset ∈ listing.code.map (·.1) :=
    fun offset hmem => h.boundary offset (LabelTable.mem_sorted.mp hmem)
  have hall : (listing.code.map (·.1) ++ [listing.length]).Pairwise (· < ·) := by
    refine List.pairwise_append.mpr ⟨hlisting.sorted, List.pairwise_singleton .., ?_⟩
    intro offset hoffset last hlast
    obtain rfl := List.mem_singleton.mp hlast
    obtain ⟨row, hrow, rfl⟩ := List.mem_map.mp hoffset
    exact hlisting.lt row hrow
  refine ⟨hsorted, hboundary, ?next, ?placed, ?nodup, fun k offset hk => ?stands⟩
  case next =>
    have hle : (LabelTable.sorted marks).length ≤ maxCodeLength + 1 := by
      refine LabelTable.length_le_of_bound hsorted fun offset hmem => ?_
      rcases hboundary offset hmem with rfl | hmem
      · exact hlisting.length_le
      · obtain ⟨row, hrow, rfl⟩ := List.mem_map.mp hmem
        exact Nat.le_of_lt (Nat.lt_of_lt_of_le (hlisting.lt row hrow) hlisting.length_le)
    have hlt : (LabelTable.sorted marks).length < UInt32.size :=
      Nat.lt_of_le_of_lt hle (by decide)
    rw [h.labels, h.ordered]
    exact UInt32.toNat_ofNat_of_lt' hlt
  case placed =>
    rw [← h.events_eq, Disassembly.placedLabels_rows, h.ordered]
    refine LabelTable.filterMap_get?_ofOffsets hsorted hall fun offset hmem => ?_
    rcases hboundary offset hmem with rfl | hmem
    · simp
    · exact List.mem_append_left _ hmem
  case nodup =>
    rw [← h.events_eq]
    exact Disassembly.nodup_placedLabels h.has hlisting.sorted hlisting.lt
  case stands =>
    have hmem := LabelTable.mem_sorted.mp (List.mem_of_getElem? hk)
    have hlabel : table.labelAt offset = .ofNat k := by
      rw [LabelTable.labelAt, h.ordered, LabelTable.get?_ofOffsets hsorted hk]
      rfl
    rw [← h.events_eq, ← hlabel]
    exact Disassembly.landing_rows h.has hlisting.sorted hlisting.lt hmem (h.boundary offset hmem)

theorem refersToPlaced (h : listing.Builds pool body table marks)
    (hreferences : ∀ l ∈ body.references, l ∈ placedLabels body.events) : body.RefersToPlaced where
  references := hreferences
  frames row hrow := by
    obtain ⟨⟨offset, hoffset⟩, -⟩ := h.frames row hrow
    exact h.placed hoffset
  sites row hrow l hl := by
    obtain ⟨-, hsites⟩ := h.frames row hrow
    obtain ⟨offset, hoffset⟩ := hsites l hl
    exact h.placed hoffset
  news i className hi := by
    rw [← h.events_eq] at hi ⊢
    refine Disassembly.exists_label_of_new listing.code (fun row hrow className hnew => ?_) hi
    -- the offset of a `new` is one of the marks of the listing
    have hmark : row.1 ∈ listing.marks := by
      refine List.mem_append_left _ (List.mem_append_left _ (List.mem_append_left _ ?_))
      exact List.mem_flatMap.mpr ⟨row, hrow, by simp [hnew, Disassembly.marks]⟩
    rw [h.has.get? (h.covers hmark)]
    rfl

end CodeListing.Builds

/-- The labels of a decoded body are numbered by offsets, and are all that it refers to. -/
theorem Body.exists_numberedBy {data : Bytes} {body : Body}
    (h : Body.decode data pool method = .ok body) :
    (∃ listing offsets, (CodeListing.read pool method).parse data = .ok listing ∧
      body.NumberedBy listing offsets) ∧ body.RefersToPlaced := by
  obtain ⟨listing, hread, hlisting, hbody⟩ := Body.exists_listing h
  obtain ⟨table, marks, hbuilds⟩ := CodeListing.exists_table_of_body hbody hlisting
  exact ⟨⟨listing, _, hread, hbuilds.numberedBy hlisting⟩,
    hbuilds.refersToPlaced (Body.labelled_of_decode h).placed⟩

end ClassPatch
