import ClassPatch.Proofs.Code.StackMapCodec
import ClassPatch.Proofs.ConstantPool.Room

/-!
# Stack maps are recovered

Where no two labels have one offset a reader can give the offsets their labels again, and then it
recovers the frames of a stack map themselves. What a stack map needs to be written is little:
counts and offsets of 16 bits, room for the class names, and frames at increasing offsets. If only
the last fails, it is malformed.
-/

namespace ClassPatch

open PoolM ConstantPool

namespace StackMap

variable {σ : Type} {offsetOf : Label → Except Error Nat} {labelOf : Nat → Label}

/-! ### Labels by offset -/

/-- An offset is given the label that it has been written for. -/
def inverse (h : ∀ l offset, offsetOf l = .ok offset → labelOf offset = l) :
    Naming offsetOf fun offset => (pure (labelOf offset) : StateM σ Label) where
  Stands _ t t' := t = t'
  Leads _ s s' := s = s'
  Room _ _ := True
  leads_refl _ _ := rfl
  leads_add h h' := h.trans h'
  room_mono _ _ := trivial
  room_behind _ _ := trivial
  stands_mono _ h := h
  stands_self _ _ _ := rfl
  label {l offset s} hl _ := ⟨labelOf offset, s, rfl, by rw [h l offset hl], rfl⟩

theorem FrameRel.eq {frame frame' : Frame} (h : FrameRel (· = ·) frame frame') :
    frame = frame' := by
  obtain ⟨locals, stack⟩ := frame
  obtain ⟨locals', stack'⟩ := frame'
  obtain ⟨hlocals, hstack⟩ := h
  rw [List.forall₂_eq_eq_eq] at hlocals hstack
  exact congrArg₂ Frame.mk hlocals hstack

theorem FrameRel.refl (frame : Frame) : FrameRel (· = ·) frame frame :=
  ⟨List.forall₂_refl _, List.forall₂_refl _⟩

theorem RowsRel.eq {frames frames' : List (Nat × Frame)} (h : RowsRel (· = ·) frames frames') :
    frames = frames' := by
  rw [← List.forall₂_eq_eq_eq]
  exact h.imp fun row row' hrow => Prod.ext hrow.1.symm hrow.2.eq

/-! ### Increasing offsets -/

/-- Each frame comes behind its base exactly if the first does and the offsets increase. -/
theorem forall_start_le_iff (base : Base) (frames : List (Nat × Frame)) :
    (∀ row ∈ rowsBehind base frames, row.1.start ≤ row.2.1) ↔
      (∀ row ∈ frames.head?, base.start ≤ row.1) ∧ (frames.map (·.1)).IsChain (· < ·) := by
  induction frames generalizing base with
  | nil => simp [rowsBehind]
  | cons row frames ih =>
    have hrows : rowsBehind base (row :: frames) =
        (base, row) :: rowsBehind (Base.behind row.1 row.2) frames := rfl
    rw [hrows, List.forall_mem_cons, ih, List.map_cons, List.isChain_cons]
    simp only [Option.mem_def, Base.behind, Nat.succ_le_iff, Prod.forall, List.head?_cons,
      Option.some.injEq, forall_eq', List.head?_map, Option.map_eq_some_iff, Prod.exists,
      exists_and_right, exists_eq_right, forall_exists_index]

/-- Each frame comes behind the one before it exactly if the offsets increase. -/
theorem forall_start_le_iff_pairwise (initial : Frame) (frames : List (Nat × Frame)) :
    (∀ row ∈ rowsBehind ⟨0, initial⟩ frames, row.1.start ≤ row.2.1) ↔
      (frames.map (·.1)).Pairwise (· < ·) := by
  rw [forall_start_le_iff, List.isChain_iff_pairwise]
  exact and_iff_right fun _ _ => Nat.zero_le _

variable {p : ConstantPool} {bytes : Bytes} {frames : List (Nat × Frame)} {initial : Frame}

/-- Frames that have been written are at increasing offsets. -/
theorem pairwise_of_finds (hp : p.WellFormed) (h : Finds (encode frames initial offsetOf) p bytes) :
    (frames.map (·.1)).Pairwise (· < ·) := by
  rw [← forall_start_le_iff_pairwise initial]
  obtain ⟨-, rows, -, hrows, -⟩ := rows_of_finds hp h
  intro row hrow
  obtain ⟨_, -, hwritten⟩ := hrows.exists_right hrow
  exact (written_of_finds hp hwritten).1

/-! ### What fits -/

/-- A type fits if its class is one of the names, or its site has an offset of 16 bits. -/
def TypeFits (offsetOf : Label → Except Error Nat) (names : Finset String) : VerificationType → Prop
  | .object name => name ∈ names
  | .uninitialized l => ∃ offset, offsetOf l = .ok offset ∧ offset ≤ 65535
  | _ => True

/-- A frame fits if its types do and there are not too many. -/
structure FrameFits (offsetOf : Label → Except Error Nat) (names : Finset String) (frame : Frame) :
    Prop where
  localCount : frame.locals.length ≤ 65535
  stackCount : frame.stack.length ≤ 65535
  locals : ∀ t ∈ frame.locals, TypeFits offsetOf names t
  stack : ∀ t ∈ frame.stack, TypeFits offsetOf names t

/-- The frames of a stack map fit. -/
structure FramesFit (offsetOf : Label → Except Error Nat) (names : Finset String)
    (frames : List (Nat × Frame)) : Prop where
  count : frames.length ≤ 65535
  offset : ∀ row ∈ frames, row.1 ≤ 65535
  frame : ∀ row ∈ frames, FrameFits offsetOf names row.2

variable {names : Finset String} {E : Error → Prop}

theorem fits_half {n : Nat} (hn : n ≤ 65535) (limit : Nat → Limit) :
    Fits names E (half n limit) := by
  rw [half, if_pos hn]
  exact .pure _

theorem fits_encodeType {t : VerificationType} (h : TypeFits offsetOf names t) :
    Fits names E (encodeType offsetOf t) := by
  cases t with
  | object name => exact (Fits.classRef h).bind fun _ => .pure _
  | uninitialized site =>
    obtain ⟨offset, hoffset, hle⟩ := h
    unfold encodeType
    dsimp only
    rw [hoffset]
    exact (fits_half hle _).bind fun _ => .pure _
  | _ => exact .pure _

theorem fits_encodeTypes {types : List VerificationType}
    (h : ∀ t ∈ types, TypeFits offsetOf names t) : Fits names E (encodeTypes offsetOf types) :=
  (Fits.mapM fun t ht => fits_encodeType (h t ht)).bind fun _ => .pure _

/-- A frame that fits is written if it comes behind its base. -/
theorem fits_encodeFrame {base : Base} {offset : Nat} {frame : Frame} (hoffset : offset ≤ 65535)
    (h : FrameFits offsetOf names frame)
    (horder : offset < base.start → ∀ fault, E (.malformed fault)) :
    Fits names E (encodeFrame offsetOf base offset frame) := by
  have hadded : ∀ t ∈ frame.locals.drop base.frame.locals.length, TypeFits offsetOf names t :=
    fun t ht => h.locals t (List.mem_of_mem_drop ht)
  have hfull (delta : Bytes) : Fits names E (encodeFull offsetOf delta frame) :=
    (fits_half h.localCount _).bind fun _ => (fits_encodeTypes h.locals).bind fun _ =>
      (fits_half h.stackCount _).bind fun _ => (fits_encodeTypes h.stack).bind fun _ => .pure _
  unfold encodeFrame
  split
  · exact Fits.throw (horder ‹_› _)
  · refine (fits_half (by omega) _).bind fun delta => ?_
    refine .ite (.pure _) (.ite ?_ (.ite ?_ (.ite (.pure _) (hfull delta))))
    · exact (fits_encodeTypes h.stack).bind fun _ => .pure _
    · exact (fits_encodeTypes hadded).bind fun _ => .pure _

/-- A stack map that fits is written if its offsets increase. -/
theorem fits_encode (h : FramesFit offsetOf names frames) (initial : Frame)
    (horder : ¬(frames.map (·.1)).Pairwise (· < ·) → ∀ fault, E (.malformed fault)) :
    Fits names E (encode frames initial offsetOf) := by
  refine (fits_half h.count _).bind fun _ => (Fits.mapM fun row hrow => ?_).bind fun _ => .pure _
  have hmem := (List.of_mem_zip hrow).2
  refine fits_encodeFrame (h.offset _ hmem) (h.frame _ hmem) fun hlt => horder fun hincreasing => ?_
  exact absurd ((forall_start_le_iff_pairwise initial frames).mpr hincreasing row hrow)
    (Nat.not_le.mpr hlt)

/-! ### Stack maps -/

/-- Whatever stack map has been written, a reader that has the labels for the offsets recovers its
frames. One that fits is written if the offsets increase, and is malformed if they do not. -/
theorem recovers (hp : p.WellFormed)
    (hinverse : ∀ l offset, offsetOf l = .ok offset → labelOf offset = l)
    (frames : List (Nat × Frame)) (initial : Frame) :
    (∀ bytes p', encode frames initial offsetOf p = .ok bytes p' → ∀ s : σ,
      decode bytes p' initial (fun offset => pure (labelOf offset)) s = (.ok frames, s)) ∧
    ∀ names, FramesFit offsetOf names frames → p.HasRoom names →
      ((∃ bytes p', encode frames initial offsetOf p = .ok bytes p') ↔
        (frames.map (·.1)).Pairwise (· < ·)) ∧
      ((∃ fault p', encode frames initial offsetOf p = .error (.malformed fault) p') ↔
        ¬(frames.map (·.1)).Pairwise (· < ·)) := by
  have hsteady : Steady (encode frames initial offsetOf) := steady_encode frames initial
  refine ⟨fun bytes p' hencode s => ?_, fun names hfit hroom => ?_⟩
  · obtain ⟨frames', s', hdecode, hs, hrows⟩ := (inverse hinverse).decode_encode (s := s)
      (hsteady.wellFormed hp hencode) (le_refl p') (.refl initial)
      (hsteady.finds hp hencode) trivial
    obtain rfl : s = s' := hs
    obtain rfl : frames = frames' := RowsRel.eq hrows
    exact hdecode
  · have hfits {E : Error → Prop}
        (horder : ¬(frames.map (·.1)).Pairwise (· < ·) → ∀ fault, E (.malformed fault)) :
        Fits names E (encode frames initial offsetOf) := fits_encode hfit initial horder
    cases hencode : encode frames initial offsetOf p with
    | ok bytes p' =>
      have hpairwise : (frames.map (·.1)).Pairwise (· < ·) :=
        pairwise_of_finds (hsteady.wellFormed hp hencode) (hsteady.finds hp hencode)
      exact ⟨iff_of_true ⟨_, _, rfl⟩ hpairwise, iff_of_false nofun (not_not_intro hpairwise)⟩
    | error e p' =>
      -- Frames at increasing offsets would not fail at all.
      have hnot : ¬(frames.map (·.1)).Pairwise (· < ·) := fun hpairwise =>
        (hfits (E := fun _ => False) (absurd hpairwise)).fails hp hroom hencode
      obtain ⟨fault, rfl⟩ : ∃ fault, e = .malformed fault :=
        (hfits (E := fun e => ∃ fault, e = .malformed fault) fun _ fault => ⟨fault, rfl⟩).fails
          hp hroom hencode
      exact ⟨iff_of_false nofun hnot, iff_of_true ⟨_, _, rfl⟩ hnot⟩

/-- Frames that add a local and have an object on the stack that is not initialized yet are
recovered, and they are malformed the other way round. -/
theorem recovers_two :
    let initial : Frame := ⟨[.integer], []⟩
    let frames := [(3, (⟨[.integer, .object "A"], []⟩ : Frame)),
      (300, ⟨[.integer, .object "A"], [.uninitialized ⟨5⟩]⟩)]
    let offsetOf : Label → Except Error Nat :=
      fun l => if l = ⟨5⟩ then .ok 65535 else .error (.undefinedLabel l)
    ConstantPool.empty.WellFormed ∧ ConstantPool.empty.HasRoom {"A"} ∧
      FramesFit offsetOf {"A"} frames ∧ FramesFit offsetOf {"A"} frames.reverse ∧
      (∃ bytes p', encode frames initial offsetOf .empty = .ok bytes p' ∧
        decode bytes p' initial (fun _ => pure ⟨5⟩) () = (.ok frames, ())) ∧
      ∃ fault p', encode frames.reverse initial offsetOf .empty = .error (.malformed fault) p' := by
  intro initial frames offsetOf
  have hroom : ConstantPool.empty.HasRoom {"A"} := by
    rw [HasRoom, Finset.sum_singleton]
    decide
  have hinverse :
      ∀ l offset, offsetOf l = .ok offset → (fun _ => ⟨5⟩ : Nat → Label) offset = l := by
    intro l offset h
    by_cases hl : l = ⟨5⟩
    · exact hl.symm
    · simp [offsetOf, hl] at h
  have hframe : FrameFits offsetOf {"A"} ⟨[.integer, .object "A"], []⟩ :=
    ⟨by decide, by decide, by simp [TypeFits], by simp⟩
  have hframe' : FrameFits offsetOf {"A"} ⟨[.integer, .object "A"], [.uninitialized ⟨5⟩]⟩ :=
    ⟨by decide, by decide, by simp [TypeFits], by simp [TypeFits, offsetOf]⟩
  have hfits : FramesFit offsetOf {"A"} frames :=
    ⟨by decide, by simp [frames], by simp [frames, hframe, hframe']⟩
  have hfits' : FramesFit offsetOf {"A"} frames.reverse :=
    ⟨by decide, by simp [frames], by simp [frames, hframe, hframe']⟩
  have hrecovers := recovers (σ := Unit) wellFormed_empty hinverse
  obtain ⟨bytes, p', hencode⟩ := ((hrecovers frames initial).2 {"A"} hfits hroom).1.mpr (by decide)
  exact ⟨wellFormed_empty, hroom, hfits, hfits',
    ⟨bytes, p', hencode, (hrecovers frames initial).1 bytes p' hencode ()⟩,
    ((hrecovers frames.reverse initial).2 {"A"} hfits' hroom).2.mpr (by decide)⟩

end StackMap
end ClassPatch
