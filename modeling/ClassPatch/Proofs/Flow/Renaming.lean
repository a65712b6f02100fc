import ClassPatch.Proofs.Code.FrameNames
import ClassPatch.Proofs.Flow.Slots

/-!
# States with renamed labels

A state that is stored as a frame and read back has other labels, and its locals end with the last
slot that holds something. Otherwise it is the state that has been stored, if no value in it is
separated from its second half.
-/

namespace ClassPatch

namespace VerificationType

variable (f : Label → Label)

theorem toSlots_map (types : List VerificationType) :
    toSlots (types.map (·.map f)) = (toSlots types).map (·.map f) := by
  induction types with
  | nil => rfl
  | cons t types ih =>
    rw [List.map_cons, toSlots_cons, toSlots_cons, isWide_map, ih, List.map_append]
    cases t.isWide <;> rfl

theorem dropTrailingTops_map (types : List VerificationType) :
    dropTrailingTops (types.map (·.map f)) = (dropTrailingTops types).map (·.map f) := by
  have hcomp : (fun t => decide (t = top)) ∘ (fun t : VerificationType => t.map f) =
      fun t => decide (t = top) :=
    funext fun t => decide_eq_decide.mpr map_eq_top_iff
  rw [dropTrailingTops, dropTrailingTops, ← List.map_reverse, List.dropWhile_map, hcomp,
    List.map_reverse]

end VerificationType

namespace FlowState

open VerificationType

variable {f : Label → Label} {s s' : FlowState}

/-- A frame that comes from a state is that of the state that it declares. -/
theorem toFrame_ofFrame_map (f : Label → Label) (s : FlowState) :
    (ofFrame (s.toFrame.map f)).toFrame = s.toFrame.map f := by
  simp [toFrame, ofFrame, Frame.map, dropTrailingTops_map]

/-- The second state is the first one with renamed labels, whichever slots at the end are left
out. -/
structure Renames (f : Label → Label) (s s' : FlowState) : Prop where
  stack : s'.stack = s.stack.map (·.map f)
  localAt : ∀ slot, s'.localAt slot = (s.localAt slot).map f

theorem Renames.length_eq (h : s.Renames f s') : s'.stack.length = s.stack.length := by
  rw [h.stack, List.length_map]

theorem getElem?_map_getD (types : List VerificationType) (k : Nat) :
    (types.map (·.map f))[k]?.getD .top = (types[k]?.getD .top).map f := by
  rw [List.getElem?_map]
  cases types[k]? <;> rfl

/-- A state of whole words is declared by its frame. -/
theorem renames_ofFrame (hlocals : Whole s.locals.toList) (hstack : Whole s.stack.reverse) :
    s.Renames f (ofFrame (s.toFrame.map f)) where
  stack := by
    simp [ofFrame, toFrame, Frame.map, toSlots_map, hstack.toSlots_ofSlots]
  localAt slot := by
    have hslot := getElem?_toSlots_dropTrailingTops hlocals slot
    simp only [FlowState.localAt, ofFrame, toFrame, Frame.map, toSlots_map, List.getElem?_toArray]
    rw [getElem?_map_getD, hslot, Array.getElem?_toList]

theorem size_ofFrame_map (hlocals : Whole s.locals.toList) :
    (ofFrame (s.toFrame.map f)).locals.size ≤ s.locals.size := by
  have hlength := length_toSlots_dropTrailingTops hlocals
  simpa [ofFrame, toFrame, Frame.map, toSlots_map] using hlength

end FlowState
end ClassPatch
