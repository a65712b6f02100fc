import ClassPatch.Flow.State
import Mathlib.Data.List.DropRight

/-!
# Values and words

The words of values are split into the same values again. Words are whole if they are those of
values: behind every type of two words stands its second half. The locals of a frame come without
the unusable slots at the end, which makes no difference to what any slot holds.
-/

namespace ClassPatch.VerificationType

/-- The words of values: no value is separated from its second half. -/
def Whole (slots : List VerificationType) : Prop := ∃ types, slots = toSlots types

@[simp] theorem toSlots_nil : toSlots [] = [] := rfl

theorem toSlots_cons (t : VerificationType) (types : List VerificationType) :
    toSlots (t :: types) = (if t.isWide then [t, top] else [t]) ++ toSlots types := rfl

/-- Splits words into the values that begin with them. -/
private theorem foldl_ofSlots (slots types : List VerificationType) (upperHalf : Bool) :
    (slots.foldl (fun (types, upperHalf) t =>
      if upperHalf then (types, false) else (t :: types, t.isWide)) (types, upperHalf)).1.reverse =
    types.reverse ++ (slots.foldl (fun (types, upperHalf) t =>
      if upperHalf then (types, false) else (t :: types, t.isWide)) ([], upperHalf)).1.reverse := by
  induction slots generalizing types upperHalf with
  | nil => simp
  | cons t slots ih =>
    cases upperHalf with
    | true => exact ih types false
    | false =>
      simp only [List.foldl_cons, Bool.false_eq_true, if_false]
      rw [ih (t :: types), ih [t]]
      simp

@[simp] theorem ofSlots_nil : ofSlots [] = [] := rfl

theorem ofSlots_cons_narrow {t : VerificationType} (h : t.isWide = false)
    (slots : List VerificationType) : ofSlots (t :: slots) = t :: ofSlots slots := by
  simp only [ofSlots, List.foldl_cons, Bool.false_eq_true, if_false, h]
  rw [foldl_ofSlots]
  rfl

theorem ofSlots_cons_wide {t : VerificationType} (h : t.isWide = true) (u : VerificationType)
    (slots : List VerificationType) : ofSlots (t :: u :: slots) = t :: ofSlots slots := by
  simp only [ofSlots, List.foldl_cons, Bool.false_eq_true, if_false, h, if_true]
  rw [foldl_ofSlots]
  rfl

/-- The words of values are split into the values. -/
@[simp] theorem ofSlots_toSlots (types : List VerificationType) :
    ofSlots (toSlots types) = types := by
  induction types with
  | nil => rfl
  | cons t types ih =>
    rw [toSlots_cons]
    cases h : t.isWide with
    | true => simp [ofSlots_cons_wide h, ih]
    | false => simp [ofSlots_cons_narrow h, ih]

/-- Values are among the words that they begin with. -/
theorem ofSlots_sublist (slots : List VerificationType) : (ofSlots slots).Sublist slots := by
  induction hlength : slots.length using Nat.strongRecOn generalizing slots with
  | _ count ih =>
    subst hlength
    cases slots with
    | nil => exact .slnil
    | cons t slots =>
      cases hwide : t.isWide with
      | false =>
        rw [ofSlots_cons_narrow hwide]
        exact (ih _ (Nat.lt_succ_self _) slots rfl).cons_cons t
      | true =>
        cases slots with
        | nil => exact .refl [t]
        | cons u slots =>
          rw [ofSlots_cons_wide hwide]
          exact ((ih _ (Nat.lt_succ_of_lt (Nat.lt_succ_self _)) slots rfl).cons u).cons_cons t

theorem Whole.toSlots_ofSlots {slots : List VerificationType} (h : Whole slots) :
    toSlots (ofSlots slots) = slots := by
  obtain ⟨types, rfl⟩ := h
  rw [ofSlots_toSlots]

instance (slots : List VerificationType) : Decidable (Whole slots) :=
  decidable_of_iff (toSlots (ofSlots slots) = slots)
    ⟨fun h => ⟨_, h.symm⟩, Whole.toSlots_ofSlots⟩

/-- Words are whole if the second half stands behind every type of two words. -/
theorem whole_iff {slots : List VerificationType} : Whole slots ↔
    ∀ k t, slots[k]? = some t → t.isWide = true → slots[k + 1]? = some .top := by
  constructor
  · rintro ⟨types, rfl⟩
    induction types with
    | nil => simp
    | cons u types ih =>
      intro k t hk hwide
      rw [toSlots_cons] at hk ⊢
      cases hu : u.isWide with
      | true =>
        simp only [hu, if_true, List.cons_append, List.nil_append] at hk ⊢
        match k with
        | 0 => rfl
        | 1 =>
          obtain rfl : top = t := by simpa using hk
          cases hwide
        | k + 2 => exact ih k t (by simpa using hk) hwide
      | false =>
        simp only [hu, Bool.false_eq_true, if_false, List.cons_append, List.nil_append] at hk ⊢
        match k with
        | 0 =>
          obtain rfl : u = t := by simpa using hk
          exact absurd (hwide.symm.trans hu) nofun
        | k + 1 => exact ih k t (by simpa using hk) hwide
  · intro h
    -- the values are split off from the front
    induction hn : slots.length using Nat.strongRecOn generalizing slots with
    | _ n ih =>
      cases slots with
      | nil => exact ⟨[], rfl⟩
      | cons t slots =>
        cases hwide : t.isWide with
        | false =>
          obtain ⟨types, htypes⟩ := @ih slots.length (by simp [← hn]) slots
            (fun k u hk hu => by simpa using h (k + 1) u (by simpa using hk) hu) rfl
          exact ⟨t :: types, by rw [toSlots_cons, hwide, htypes]; rfl⟩
        | true =>
          have hsecond := h 0 t rfl hwide
          cases slots with
          | nil => simp at hsecond
          | cons u slots =>
            obtain rfl : u = top := by simpa using hsecond
            have hlt : slots.length < n := by
              rw [← hn, List.length_cons, List.length_cons]
              omega
            obtain ⟨types, htypes⟩ := @ih slots.length hlt slots
              (fun k u hk hu => by simpa using h (k + 2) u (by simpa using hk) hu) rfl
            exact ⟨t :: types, by rw [toSlots_cons, hwide, htypes]; rfl⟩

/-! ### Unusable slots at the end -/

theorem dropTrailingTops_eq (types : List VerificationType) :
    dropTrailingTops types = types.rdropWhile (· = top) := rfl

/-- What has been dropped at the end of a list is unusable. -/
theorem exists_dropTrailingTops (types : List VerificationType) : ∃ count,
    types = dropTrailingTops types ++ List.replicate count top := by
  refine ⟨(types.rtakeWhile (· = top)).length, ?_⟩
  have htops : types.rtakeWhile (· = top) =
      List.replicate (types.rtakeWhile (· = top)).length top :=
    List.eq_replicate_iff.mpr ⟨rfl, fun t ht => by simpa using List.mem_rtakeWhile_imp ht⟩
  rw [dropTrailingTops_eq, ← htops, List.rdropWhile_append_rtakeWhile]

@[simp] theorem dropTrailingTops_dropTrailingTops (types : List VerificationType) :
    dropTrailingTops (dropTrailingTops types) = dropTrailingTops types :=
  List.rdropWhile_idempotent _ _

theorem toSlots_append (types types' : List VerificationType) :
    toSlots (types ++ types') = toSlots types ++ toSlots types' := List.flatMap_append

theorem toSlots_replicate_top (count : Nat) :
    toSlots (List.replicate count top) = List.replicate count top := by
  induction count with
  | zero => rfl
  | succ count ih =>
    rw [List.replicate_succ, toSlots_cons, ih]
    rfl

/-- Without the unusable slots at the end every slot holds what it has held. -/
theorem getElem?_toSlots_dropTrailingTops {slots : List VerificationType} (h : Whole slots)
    (k : Nat) : (toSlots (dropTrailingTops (ofSlots slots)))[k]?.getD top = slots[k]?.getD top := by
  obtain ⟨count, hcount⟩ := exists_dropTrailingTops (ofSlots slots)
  have hslots := congrArg toSlots hcount
  rw [h.toSlots_ofSlots, toSlots_append, toSlots_replicate_top] at hslots
  conv_rhs => rw [hslots]
  by_cases hlt : k < (toSlots (dropTrailingTops (ofSlots slots))).length
  · rw [List.getElem?_append_left hlt]
  · rw [List.getElem?_append_right (Nat.le_of_not_lt hlt), List.getElem?_eq_none
      (Nat.le_of_not_lt hlt), List.getElem?_replicate]
    split <;> rfl

theorem length_toSlots_dropTrailingTops {slots : List VerificationType} (h : Whole slots) :
    (toSlots (dropTrailingTops (ofSlots slots))).length ≤ slots.length := by
  obtain ⟨count, hcount⟩ := exists_dropTrailingTops (ofSlots slots)
  have hslots := congrArg (fun types => (toSlots types).length) hcount
  simp only [h.toSlots_ofSlots, toSlots_append, List.length_append] at hslots
  omega

end ClassPatch.VerificationType
