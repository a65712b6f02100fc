import ClassPatch.Proofs.Bytes.Reading

/-!
# Missing bytes

A reader goes forward and asks for each byte that it needs. If bytes are missing at the end, it does
what it would do if they were there, until it asks for one of them and is out of bounds.
`Reader.Local` says so of readers that do not look at where the bytes end. A reader that wants to be
at the end does look there: it `Delimits` what it accepts, because it fails where something is left,
and is out of bounds where something is missing.
-/

namespace ClassPatch.Reader

open Cursor

variable {α β : Type}

/-- Two outcomes of a reader behind `front`, in front of `back` alone and with `more` behind it. -/
inductive Agree (front back more : Bytes) :
    EStateM.Result Error Cursor α → EStateM.Result Error Cursor α → Prop
  | runsOut (c : Cursor) (whole : EStateM.Result Error Cursor α) :
      Agree front back more (.error .outOfBounds c) whole
  | fails (e : Error) (c c' : Cursor) : Agree front back more (.error e c) (.error e c')
  | takes (x : α) (taken rest : Bytes) (hback : back = taken ++ rest) :
      Agree front back more (.ok x (between (front ++ taken) rest))
        (.ok x (between (front ++ taken) (rest ++ more)))

/-- Nothing has been taken. -/
theorem Agree.stays {front back more : Bytes} (x : α) :
    Agree front back more (.ok x (between front back)) (.ok x (between front (back ++ more))) := by
  have h : Agree front back more _ _ := .takes x [] back rfl
  rwa [List.append_nil] at h

/-- What the reader does depends on the bytes that it takes, and on how many are in front of
them. -/
def Local (r : Reader α) : Prop :=
  ∀ front back more, Agree front back more (r (between front back))
    (r (between front (back ++ more)))

namespace Local

variable {r s : Reader α} {f : α → Reader β}

theorem pure (x : α) : Local (Pure.pure x) := fun _ _ _ => .stays x

theorem throw (e : Error) : Local (MonadExcept.throw e : Reader α) :=
  fun _ _ _ => .fails e _ _

theorem fault (f : Fault) : Local (Reader.fault f : Reader α) := throw _

theorem bind (hr : Local r) (hf : ∀ x, Local (f x)) : Local (r >>= f) := by
  intro front back more
  have h := hr front back more
  simp only [Bind.bind, EStateM.bind]
  generalize r (between front back) = short at h ⊢
  generalize r (between front (back ++ more)) = whole at h ⊢
  cases h with
  | runsOut c => exact .runsOut c _
  | fails e c c' => exact .fails e c c'
  | takes x taken rest hback =>
    have h := hf x (front ++ taken) rest more
    simp only
    generalize f x (between (front ++ taken) rest) = short at h ⊢
    generalize f x (between (front ++ taken) (rest ++ more)) = whole at h ⊢
    cases h with
    | runsOut c => exact .runsOut c _
    | fails e c c' => exact .fails e c c'
    | takes y taken' rest' hrest =>
      rw [List.append_assoc]
      exact .takes y (taken ++ taken') rest' (by rw [hback, hrest, List.append_assoc])

theorem map {f : α → β} (hr : Local r) : Local (f <$> r) := by
  rw [map_eq_pure_bind]
  exact hr.bind fun x => .pure (f x)

/-- A function that is read in front of its argument. -/
theorem seq {f : Reader (α → β)} (hf : Local f) (hr : Local r) : Local (f <*> r) :=
  hf.bind fun _ => hr.map

theorem ite {p : Prop} [Decidable p] (hr : Local r) (hs : Local s) :
    Local (if p then r else s) := by
  split
  · exact hr
  · exact hs

end Local

/-! ### Primitive readers -/

theorem local_position : Local position := fun front _ _ => .stays front.length

/-- Bytes behind those that are ahead are not needed. -/
theorem local_take (count : Nat) : Local (take count) := by
  intro front back more
  by_cases hroom : count ≤ back.length
  · obtain ⟨bytes, rest, rfl, rfl⟩ : ∃ bytes rest, back = bytes ++ rest ∧ bytes.length = count :=
      ⟨_, _, (List.take_append_drop count back).symm, List.length_take_of_le hroom⟩
    rw [List.append_assoc, reads_take _ bytes rest front rfl,
      reads_take _ bytes (rest ++ more) front rfl]
    exact .takes bytes bytes rest rfl
  · have hshort : take count (between front back) = .error .outOfBounds (between front back) := by
      rw [take, if_neg (by simpa [between] using hroom)]
    rw [hshort]
    exact .runsOut _ _

theorem local_ensure (count : Nat) : Local (ensure count) := by
  intro front back more
  by_cases hroom : count ≤ back.length
  · have hwhole : count ≤ (back ++ more).length := by
      rw [List.length_append]
      exact Nat.le_add_right_of_le hroom
    have hshort := reads_ensure _ hroom front rfl
    have hlong := reads_ensure _ hwhole front rfl
    rw [List.nil_append, List.append_nil] at hshort hlong
    rw [hshort, hlong]
    exact .stays ()
  · have hshort : ensure count (between front back) = .error .outOfBounds (between front back) := by
      simp only [ensure, Bind.bind, EStateM.bind, remaining, remaining_between,
        if_pos (Nat.lt_of_not_le hroom)]
      rfl
    rw [hshort]
    exact .runsOut _ _

theorem local_word (α : Type) [Word α] : Local (word α) := (local_take _).bind fun _ => .pure _

theorem local_u8 : Local u8 := local_word UInt8

theorem local_u16 : Local u16 := local_word UInt16

theorem local_u32 : Local u32 := local_word UInt32

theorem local_sized16 : Local sized16 := local_u16.bind fun _ => local_take _

theorem local_sized32 : Local sized32 := local_u32.bind fun _ => local_take _

theorem local_times {r : Reader α} (hr : Local r) (count : Nat) : Local (times count r) := by
  induction count with
  | zero => exact .pure []
  | succ count ih =>
    simp only [times, List.replicate_succ, List.mapM_cons] at ih ⊢
    exact hr.bind fun x => ih.bind fun xs => .pure (x :: xs)

theorem local_u16List : Local u16List :=
  local_u16.bind fun _ => (local_ensure _).bind fun _ => local_times local_u16 _

/-! ### Readers that want to be at the end -/

/-- Of two byte strings, one of which begins with the other, the reader does not accept both: it
fails by what is left of the longer one, and is out of bounds in the shorter one. -/
structure Delimits (surplus : Nat → Error) (r : Reader α) : Prop where
  left : ∀ {front back more x c}, more ≠ [] → r (between front back) = .ok x c →
    ∃ c', r (between front (back ++ more)) = .error (surplus more.length) c'
  missing : ∀ {front back more x c}, more ≠ [] → r (between front (back ++ more)) = .ok x c →
    ∃ c', r (between front back) = .error .outOfBounds c'

namespace Delimits

variable {surplus : Nat → Error} {r s : Reader α} {f : α → Reader β}

/-- What accepts nothing delimits nothing. -/
theorem fault_bind (e : Fault) : Delimits surplus (Reader.fault e >>= f) where
  left _ h := absurd h fault_bind_ne_ok
  missing _ h := absurd h fault_bind_ne_ok

theorem ite {p : Prop} [Decidable p] (hr : Delimits surplus r) (hs : Delimits surplus s) :
    Delimits surplus (if p then r else s) := by
  split
  · exact hr
  · exact hs

/-- It is the last part of a reader that has to delimit. -/
theorem bind (hr : Local r) (hf : ∀ x, Delimits surplus (f x)) : Delimits surplus (r >>= f) where
  left {front back more y c} hmore hok := by
    have h := hr front back more
    simp only [Bind.bind, EStateM.bind] at hok ⊢
    generalize r (between front back) = short at h hok
    generalize r (between front (back ++ more)) = whole at h ⊢
    cases h with
    | runsOut | fails => cases hok
    | takes x taken rest => exact (hf x).left hmore hok
  missing {front back more y c} hmore hok := by
    have h := hr front back more
    simp only [Bind.bind, EStateM.bind] at hok ⊢
    generalize r (between front back) = short at h ⊢
    generalize r (between front (back ++ more)) = whole at h hok
    cases h with
    | runsOut c => exact ⟨c, rfl⟩
    | fails => cases hok
    | takes x taken rest => exact (hf x).missing hmore hok

/-- A result that is given only where nothing is left. -/
theorem atEnd {x : α} {e : Nat → Fault} {g : Unit → Reader α} :
    Delimits (fun count => .malformed (e count)) (hasMore >>= fun more =>
      if more then remaining >>= fun count => Reader.fault (e count) >>= g else Pure.pure x) := by
  have hleft (front : Bytes) {back : Bytes} (hback : back ≠ []) :
      (hasMore >>= fun more => if more then remaining >>= fun count => Reader.fault (e count) >>= g
        else Pure.pure x) (between front back) =
      .error (.malformed (e back.length)) (between front back) := by
    have hmore : hasMore (between front back) = .ok true (between front back) := by
      rw [hasMore, hasMore_between, List.isEmpty_eq_false_iff.mpr hback, Bool.not_false]
    simp only [Bind.bind, EStateM.bind, hmore, remaining, remaining_between, ↓reduceIte]
    rfl
  constructor
  · intro front back more y c hmore hok
    by_cases hback : back = []
    · rw [hback, List.nil_append]
      exact ⟨_, hleft front hmore⟩
    · cases (hleft front hback).symm.trans hok
  · intro front back more y c hmore hok
    cases (hleft front (List.append_ne_nil_of_right_ne_nil back hmore)).symm.trans hok

/-- What is left of the longer byte string is what it is refused for. -/
theorem parse_append (hr : Delimits surplus r) {bytes more : Bytes} {x : α}
    (hok : r.parse bytes = .ok x) (hmore : more ≠ []) :
    r.parse (bytes ++ more) = .error (surplus more.length) := by
  obtain ⟨c, hok⟩ := exists_of_parse hok
  rw [← between_nil] at hok
  obtain ⟨c', herror⟩ := hr.left hmore hok
  rw [between_nil] at herror
  simp only [Reader.parse, EStateM.run, herror]

theorem parse_of_append (hr : Delimits surplus r) {bytes more : Bytes} {x : α}
    (hok : r.parse (bytes ++ more) = .ok x) (hmore : more ≠ []) :
    r.parse bytes = .error .outOfBounds := by
  obtain ⟨c, hok⟩ := exists_of_parse hok
  rw [← between_nil] at hok
  obtain ⟨c', herror⟩ := hr.missing hmore hok
  rw [between_nil] at herror
  simp only [Reader.parse, EStateM.run, herror]

end Delimits
end ClassPatch.Reader
