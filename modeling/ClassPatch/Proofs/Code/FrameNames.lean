import ClassPatch.Proofs.Code.Relabelling
import ClassPatch.Proofs.Flow.Sites
import Mathlib.Data.List.Basic

/-!
# Names of labels in stack maps

A stack map stores offsets, not labels. So frames whose labels have been renamed are stored as
before, as long as labels stay apart and each stands for the offset that it has stood for. What is
needed of a renaming is needed only for the labels that the frames name.
-/

namespace ClassPatch

/-- Renaming keeps known labels apart. -/
def Separates (known : Label → Prop) (f : Label → Label) : Prop :=
  ∀ l l', known l → known l' → f l = f l' → l = l'

namespace VerificationType

variable {known : Label → Prop} {f : Label → Label} {t u : VerificationType}

@[simp] theorem isWide_map (f : Label → Label) (t : VerificationType) :
    (t.map f).isWide = t.isWide := by
  cases t <;> rfl

@[simp] theorem isReference_map (f : Label → Label) (t : VerificationType) :
    (t.map f).isReference = t.isReference := by
  cases t <;> rfl

@[simp] theorem map_top (f : Label → Label) : map f top = top := rfl

theorem map_eq_top_iff : t.map f = .top ↔ t = .top := by
  cases t <;> simp [map]

/-- Only the types that name a site are renamed. -/
theorem map_eq_self (h : t.IsKnown fun _ => False) : t.map f = t := by
  cases t with
  | uninitialized l => exact absurd h id
  | _ => rfl

/-- Types that name known sites are still told apart. -/
theorem map_inj (hf : Separates known f) (ht : t.IsKnown known) (hu : u.IsKnown known) :
    t.map f = u.map f ↔ t = u := by
  refine ⟨fun heq => ?_, congrArg _⟩
  cases t with
  | uninitialized l =>
    cases u with
    | uninitialized l' => rw [hf l l' ht hu (uninitialized.inj heq)]
    | _ => cases heq
  | _ => cases u <;> first | exact heq | cases heq

end VerificationType

/-- All sites that a frame names are known. -/
structure Frame.Knows (known : Label → Prop) (frame : Frame) : Prop where
  locals : ∀ t ∈ frame.locals, t.IsKnown known
  stack : ∀ t ∈ frame.stack, t.IsKnown known

theorem VerificationType.IsKnown.mono {known known' : Label → Prop} {t : VerificationType}
    (h : t.IsKnown known) (himp : ∀ l, known l → known' l) : t.IsKnown known' := by
  cases t with
  | uninitialized l => exact himp l h
  | _ => trivial

theorem Frame.Knows.mono {known known' : Label → Prop} {frame : Frame} (h : frame.Knows known)
    (himp : ∀ l, known l → known' l) : frame.Knows known' :=
  ⟨fun t ht => (h.locals t ht).mono himp, fun t ht => (h.stack t ht).mono himp⟩

/-- A frame names its sites. -/
theorem Frame.knows_sites (frame : Frame) : frame.Knows (· ∈ frame.sites) := by
  have hsite {t : VerificationType} (ht : t ∈ frame.locals ++ frame.stack) :
      t.IsKnown (· ∈ frame.sites) := by
    cases t with
    | uninitialized l => exact List.mem_filterMap.mpr ⟨_, ht, rfl⟩
    | _ => trivial
  exact ⟨fun t ht => hsite (List.mem_append_left _ ht), fun t ht =>
    hsite (List.mem_append_right _ ht)⟩

/-- The frame on entry names no site. -/
theorem Frame.knows_entry {method : MethodContext} {initial : Frame}
    (h : entry method = .ok initial) : initial.Knows fun _ => False := by
  -- it can be stored where no label has an offset
  have hstands := stands_entry h (fun l => .error (.undefinedLabel l)) #[]
  have hnone {t t' : VerificationType}
      (h : StackMap.Stands (fun l => .error (.undefinedLabel l)) #[] t t') :
      t.IsKnown fun _ => False := by
    cases t with
    | uninitialized l =>
      obtain ⟨k, offset, hoffset, -⟩ := h
      cases hoffset
    | _ => trivial
  exact ⟨fun t ht => (hstands.locals.exists_right ht).elim fun _ h => hnone h.2,
    fun t ht => (hstands.stack.exists_right ht).elim fun _ h => hnone h.2⟩

theorem Frame.map_eq_self {f : Label → Label} {frame : Frame} (h : frame.Knows fun _ => False) :
    frame.map f = frame := by
  have hsame {types : List VerificationType} (h : ∀ t ∈ types, t.IsKnown fun _ => False) :
      types.map (·.map f) = types :=
    (List.map_congr_left fun t ht => VerificationType.map_eq_self (h t ht)).trans (List.map_id _)
  rw [Frame.map, hsame h.locals, hsame h.stack]

namespace StackMap

open VerificationType

variable {known : Label → Prop} {f : Label → Label} {offsetOf offsetOf' : Label → Except Error Nat}

section Lists

variable {types types' : List VerificationType} (hf : Separates known f)
  (h : ∀ t ∈ types, t.IsKnown known) (h' : ∀ t ∈ types', t.IsKnown known)
include hf h h'

private theorem map_types_inj : types.map (·.map f) = types'.map (·.map f) ↔ types = types' := by
  refine ⟨fun heq => ?_, congrArg _⟩
  induction types generalizing types' with
  | nil => simpa using heq.symm
  | cons t types ih =>
    cases types' with
    | nil => simp at heq
    | cons u types' =>
      rw [List.forall_mem_cons] at h h'
      obtain ⟨hhead, htail⟩ := List.cons.inj heq
      rw [(map_inj hf h.1 h'.1).mp hhead, ih h.2 h'.2 htail]

private theorem beq_map_types :
    (types.map (·.map f) == types'.map (·.map f)) = (types == types') := by
  rw [Bool.eq_iff_iff, beq_iff_eq, beq_iff_eq]
  exact map_types_inj hf h h'

private theorem isPrefixOf_map_types :
    (types.map (·.map f)).isPrefixOf (types'.map (·.map f)) = types.isPrefixOf types' := by
  rw [Bool.eq_iff_iff, List.isPrefixOf_iff_prefix, List.isPrefixOf_iff_prefix,
    List.prefix_iff_eq_take, List.prefix_iff_eq_take, List.length_map, ← List.map_take]
  exact map_types_inj hf h fun t ht => h' t (List.mem_of_mem_take ht)

end Lists

section Renamed

variable (hf : Separates known f) (hoffsets : ∀ l, known l → offsetOf' (f l) = offsetOf l)
include hoffsets

theorem encodeType_map {t : VerificationType} (ht : t.IsKnown known) :
    encodeType offsetOf' (t.map f) = encodeType offsetOf t := by
  cases t with
  | uninitialized l => simp only [VerificationType.map, encodeType, hoffsets l ht]
  | _ => rfl

theorem encodeTypes_map {types : List VerificationType} (h : ∀ t ∈ types, t.IsKnown known) :
    encodeTypes offsetOf' (types.map (·.map f)) = encodeTypes offsetOf types := by
  have hmap :
      (types.map (·.map f)).mapM (encodeType offsetOf') = types.mapM (encodeType offsetOf) := by
    induction types with
    | nil => rfl
    | cons t types ih =>
      rw [List.forall_mem_cons] at h
      rw [List.map_cons, List.mapM_cons, List.mapM_cons, encodeType_map hoffsets h.1, ih h.2]
  rw [encodeTypes, hmap, encodeTypes]

include hf

/-- A renamed frame is stored as before. -/
theorem encodeFrame_map {base : Base} {frame : Frame} (hbase : base.frame.Knows known)
    (hframe : frame.Knows known) (offset : Nat) :
    encodeFrame offsetOf' ⟨base.start, base.frame.map f⟩ offset (frame.map f) =
      encodeFrame offsetOf base offset frame := by
  simp only [encodeFrame, encodeFull, Frame.map, List.length_map, List.isEmpty_map,
    beq_map_types hf hframe.locals hbase.locals, isPrefixOf_map_types hf hframe.locals hbase.locals,
    isPrefixOf_map_types hf hbase.locals hframe.locals, ← List.map_drop,
    encodeTypes_map hoffsets hframe.locals, encodeTypes_map hoffsets hframe.stack,
    encodeTypes_map hoffsets fun t ht => hframe.locals t (List.mem_of_mem_drop ht)]

/-- Renamed frames are stored as before behind a renamed one. -/
theorem encodeFrames_map {frames : List (Nat × Frame)} (base : Base)
    (hframes : ∀ row ∈ frames, row.2.Knows known) (hbase : base.frame.Knows known) :
    ((⟨base.start, base.frame.map f⟩ :: (frames.map fun (offset, frame) =>
        (offset, frame.map f)).map fun (offset, frame) => Base.behind offset frame).zip
      (frames.map fun (offset, frame) => (offset, frame.map f))).mapM (fun (base, offset, frame) =>
        encodeFrame offsetOf' base offset frame) =
    ((base :: frames.map fun (offset, frame) => Base.behind offset frame).zip frames).mapM
      fun (base, offset, frame) => encodeFrame offsetOf base offset frame := by
  induction frames generalizing base with
  | nil => rfl
  | cons row frames ih =>
    obtain ⟨offset, frame⟩ := row
    rw [List.forall_mem_cons] at hframes
    simp only [List.map_cons, List.zip_cons_cons, List.mapM_cons]
    rw [encodeFrame_map hf hoffsets hbase hframes.1 offset]
    exact congrArg _
      (funext fun _ => congrArg (· >>= _) (ih (Base.behind offset frame) hframes.2 hframes.1))

/-- Renamed frames are stored as before. -/
theorem encode_map {frames : List (Nat × Frame)} {initial : Frame}
    (hframes : ∀ row ∈ frames, row.2.Knows known) (hinitial : initial.Knows fun _ => False) :
    encode (frames.map fun (offset, frame) => (offset, frame.map f)) initial offsetOf' =
      encode frames initial offsetOf := by
  have hinitial' :=
    encodeFrames_map hf hoffsets ⟨0, initial⟩ hframes (hinitial.mono fun _ => False.elim)
  dsimp only at hinitial'
  rw [Frame.map_eq_self hinitial] at hinitial'
  unfold encode
  rw [List.length_map]
  simp only [hinitial']

end Renamed
end StackMap
end ClassPatch
