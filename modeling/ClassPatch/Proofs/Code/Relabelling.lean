import ClassPatch.Proofs.Code.Labels
import ClassPatch.Proofs.Code.StackMapCodec

/-!
# Labels of frames that are read back

The numbers that reading has put for offsets in uninitialized types become the labels of these
offsets. So a frame that has been written from labels comes back with each label replaced by the
label of its offset.
-/

namespace ClassPatch

/-- Renames the label of an uninitialized type. -/
def VerificationType.map (f : Label → Label) : VerificationType → VerificationType
  | uninitialized site => uninitialized (f site)
  | t => t

/-- Renames the labels of a frame. -/
def Frame.map (f : Label → Label) (frame : Frame) : Frame :=
  ⟨frame.locals.map (·.map f), frame.stack.map (·.map f)⟩

/-- The labels in the uninitialized types of a frame. -/
def Frame.sites (frame : Frame) : List Label :=
  (frame.locals ++ frame.stack).filterMap fun
    | .uninitialized site => some site
    | _ => none

/-! ### Frames on entry -/

namespace Frame

theorem stands_verification (offsetOf : Label → Except Error Nat) (offsets : Array Nat)
    (t : FieldType) : StackMap.Stands offsetOf offsets t.verification t.verification := by
  cases t <;> exact rfl

theorem stands_receiver (offsetOf : Label → Except Error Nat) (offsets : Array Nat)
    (method : MethodContext) :
    StackMap.Stands offsetOf offsets (receiver method) (receiver method) := by
  unfold receiver
  split <;> exact rfl

/-- A method is entered with nothing that awaits its constructor but the receiver. -/
theorem stands_entry {method : MethodContext} {initial : Frame} (h : entry method = .ok initial)
    (offsetOf : Label → Except Error Nat) (offsets : Array Nat) :
    StackMap.FrameStands offsetOf offsets initial initial := by
  obtain ⟨d, -, h⟩ := Except.bind_eq_ok.mp h
  obtain rfl := Except.pure_eq_ok.mp h
  have hparameters : List.Forall₂ (StackMap.Stands offsetOf offsets)
      (d.parameters.map FieldType.verification) (d.parameters.map FieldType.verification) :=
    List.forall₂_map_left_iff.mpr (List.forall₂_map_right_iff.mpr
      (List.forall₂_same.mpr fun t _ => stands_verification offsetOf offsets t))
  refine ⟨?_, .nil⟩
  dsimp only
  split
  · exact hparameters
  · exact .cons (stands_receiver offsetOf offsets method) hparameters

end Frame

/-! ### Relabelling -/

namespace CodeListing

variable {layout : Layout} {offsets : Array Nat} {table : LabelTable} {marks : List Nat}

theorem relabel_of_stands (htable : table.Has marks) (hoffsets : ∀ offset ∈ offsets, offset ∈ marks)
    {t t' : VerificationType} (h : StackMap.Stands layout.places.offsetOf offsets t t') :
    relabel offsets table t' = .ok (t.map fun l => table.labelAt (layout.offset l)) := by
  cases t with
  | uninitialized l =>
    obtain ⟨k, offset, hoffset, hk, hlt, rfl⟩ := h
    have hmark := hoffsets offset (Array.mem_of_getElem? hk)
    simp only [relabel, UInt32.toNat_ofNat_of_lt' hlt, hk, htable.get_eq_ok hmark,
      VerificationType.map, Layout.offset_of_offsetOf hoffset]
    rfl
  | _ =>
    obtain rfl := h
    rfl

theorem relabelFrame_of_stands (htable : table.Has marks)
    (hoffsets : ∀ offset ∈ offsets, offset ∈ marks) {frame frame' : Frame}
    (h : StackMap.FrameStands layout.places.offsetOf offsets frame frame') :
    relabelFrame offsets table frame' =
      .ok (frame.map fun l => table.labelAt (layout.offset l)) := by
  have htypes {types types' : List VerificationType}
      (h : List.Forall₂ (StackMap.Stands layout.places.offsetOf offsets) types types') :
      types'.mapM (relabel offsets table) =
        .ok (types.map (·.map fun l => table.labelAt (layout.offset l))) :=
    Except.mapM_eq_ok.mpr (List.forall₂_map_right_iff.mpr
      (h.flip.imp fun _ _ h => relabel_of_stands htable hoffsets h))
  exact Except.bind_eq_ok.mpr ⟨_, htypes h.locals,
    Except.bind_eq_ok.mpr ⟨_, htypes h.stack, rfl⟩⟩

end CodeListing
end ClassPatch
