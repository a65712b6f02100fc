import ClassPatch.Proofs.ConstantPool.Interning

/-!
# Limits

An addition to a pool fails only if it does not fit. `PoolM.FailsBy E p m` says of a computation
that from the pool `p` on it fails only with errors that are `E`, and `PoolM.Limited p m` that
nothing but limits make it fail; the rules follow the structure of the computation.
-/

namespace ClassPatch.PoolM

variable {α β : Type}

/-- The computation fails only with certain errors, in a pool and in all larger ones. -/
structure FailsBy (E : Error → Prop) (p : ConstantPool) (m : PoolM α) : Prop where
  steady : Steady m
  fails : ∀ {q q' : ConstantPool} {e : Error}, p ≤ q → q.WellFormed → m q = .error e q' → E e

/-- The computation fails only at limits. -/
abbrev Limited (p : ConstantPool) (m : PoolM α) : Prop :=
  FailsBy (fun e => ∃ limit, e = .limitExceeded limit) p m

namespace FailsBy

variable {E : Error → Prop} {p : ConstantPool} {m m' : PoolM α} {f : α → PoolM β}

theorem mono (h : FailsBy E p m) {q : ConstantPool} (hq : p ≤ q) : FailsBy E q m :=
  ⟨h.steady, fun hr => h.fails (ConstantPool.le_trans hq hr)⟩

theorem imp {F : Error → Prop} (h : FailsBy E p m) (hE : ∀ e, E e → F e) : FailsBy F p m :=
  ⟨h.steady, fun hq hwf hfails => hE _ (h.fails hq hwf hfails)⟩

theorem pure (x : α) : FailsBy E p (pure x : PoolM α) :=
  ⟨.pure x, fun _ _ h => by simp [Pure.pure, EStateM.pure] at h⟩

theorem throw {e : Error} (h : E e) : FailsBy E p (throw e : PoolM α) :=
  ⟨.throw _, fun _ _ hfails => (EStateM.Result.error.inj hfails).1 ▸ h⟩

/-- What goes on with a result may rely on how it has been found. -/
theorem bind (hm : FailsBy E p m) (hsteady : ∀ x, Steady (f x))
    (hf : ∀ {q : ConstantPool} {x : α}, p ≤ q → q.WellFormed → Finds m q x → FailsBy E q (f x)) :
    FailsBy E p (m >>= f) where
  steady := hm.steady.bind hsteady
  fails {q q' e} hq hwf h := by
    cases hmq : m q with
    | error e' q₁ =>
      rw [EStateM.bind_of_error hmq] at h
      obtain ⟨rfl, -⟩ := EStateM.Result.error.inj h
      exact hm.fails hq hwf hmq
    | ok x q₁ =>
      rw [EStateM.bind_of_ok hmq] at h
      have hle := hm.steady.le hwf hmq
      have hwf' := hm.steady.wellFormed hwf hmq
      have hrest := hf (ConstantPool.le_trans hq hle) hwf' (hm.steady.finds hwf hmq)
      exact hrest.fails (ConstantPool.le_refl q₁) hwf' h

/-- Nothing needs to be known of the result. -/
theorem andThen (hm : FailsBy E p m) (hf : ∀ x, FailsBy E p (f x)) : FailsBy E p (m >>= f) :=
  hm.bind (fun x => (hf x).steady) fun hq _ _ => (hf _).mono hq

theorem ite {c : Prop} [Decidable c] (h : FailsBy E p m) (h' : FailsBy E p m') :
    FailsBy E p (if c then m else m') := by
  split <;> assumption

theorem mapM {f : α → PoolM β} {xs : List α}
    (h : ∀ x ∈ xs, FailsBy E p (f x)) : FailsBy E p (xs.mapM f) := by
  induction xs with
  | nil => exact pure _
  | cons x xs ih =>
    rw [List.mapM_cons]
    simp only [List.mem_cons, forall_eq_or_imp] at h
    exact h.1.andThen fun _ => (ih h.2).andThen fun _ => pure _

/-- A look-up that succeeds from some pool on. -/
theorem lookUp {g : ConstantPool → Except Error α}
    (hg : ∀ {p q x}, p ≤ q → g p = .ok x → g q = .ok x) {x : α} (h : g p = .ok x) :
    FailsBy E p (PoolM.lookUp g) := by
  refine ⟨.lookUp hg, fun hq _ hfails => ?_⟩
  rw [lookUp_of_ok (hg hq h)] at hfails
  cases hfails

end FailsBy

/-! ### Additions -/

/-- The addition fails only if there is no room, in any pool. -/
def NeedsRoom (m : PoolM α) : Prop :=
  ∀ (q q' : ConstantPool) (e : Error), m q = .error e q' → e = .limitExceeded .poolFull

theorem NeedsRoom.bind {m : PoolM α} {f : α → PoolM β} (hm : NeedsRoom m)
    (hf : ∀ x, NeedsRoom (f x)) : NeedsRoom (m >>= f) := by
  intro q q' e h
  cases hmq : m q with
  | error e' q₁ =>
    rw [EStateM.bind_of_error hmq] at h
    obtain ⟨rfl, -⟩ := EStateM.Result.error.inj h
    exact hm _ _ _ hmq
  | ok x q₁ =>
    rw [EStateM.bind_of_ok hmq] at h
    exact hf x _ _ _ h

/-- Adding a constant fails only if there is no room. -/
theorem needsRoom_intern (c : Constant) : NeedsRoom (intern c) := by
  intro q q' e h
  obtain ⟨i, -, hintern⟩ | ⟨-, -, hintern⟩ | ⟨-, -, hintern⟩ := intern_cases c q
  · cases hintern.symm.trans h
  · cases hintern.symm.trans h
  · exact (EStateM.Result.error.inj (hintern.symm.trans h)).1.symm

theorem needsRoom_classRef (s : String) : NeedsRoom (classRef s) :=
  (needsRoom_intern _).bind fun _ => needsRoom_intern _

theorem needsRoom_string (s : String) : NeedsRoom (string s) :=
  (needsRoom_intern _).bind fun _ => needsRoom_intern _

theorem needsRoom_methodType (s : String) : NeedsRoom (methodType s) :=
  (needsRoom_intern _).bind fun _ => needsRoom_intern _

theorem needsRoom_member (kind : MemberKind) (owner name descriptor : String) :
    NeedsRoom (member kind owner name descriptor) :=
  (needsRoom_classRef owner).bind fun _ => NeedsRoom.bind
    ((needsRoom_intern _).bind fun _ => (needsRoom_intern _).bind fun _ => needsRoom_intern _)
    fun _ => needsRoom_intern _

section Full

/-! Where a full pool is an error to expect, so are the errors of everything that adds to it. -/

variable {E : Error → Prop} {p : ConstantPool} (hfull : E (.limitExceeded .poolFull))
include hfull

theorem NeedsRoom.failsBy {m : PoolM α} (h : NeedsRoom m) (hm : Steady m) : FailsBy E p m :=
  ⟨hm, fun _ _ hfails => h _ _ _ hfails ▸ hfull⟩

theorem failsBy_intern {c : Constant} (hfits : ∀ p : ConstantPool, p.check c = .ok ()) :
    FailsBy E p (intern c) :=
  (needsRoom_intern c).failsBy hfull (steady_intern hfits)

theorem failsBy_text (s : String) : FailsBy E p (text s) := failsBy_intern hfull fun _ => rfl

theorem failsBy_classRef (s : String) : FailsBy E p (classRef s) :=
  (needsRoom_classRef s).failsBy hfull (steady_classRef s)

theorem failsBy_string (s : String) : FailsBy E p (string s) :=
  (needsRoom_string s).failsBy hfull (steady_string s)

theorem failsBy_methodType (s : String) : FailsBy E p (methodType s) :=
  (needsRoom_methodType s).failsBy hfull (steady_methodType s)

theorem failsBy_member (kind : MemberKind) (owner name descriptor : String) :
    FailsBy E p (member kind owner name descriptor) :=
  (needsRoom_member kind owner name descriptor).failsBy hfull
    (steady_member kind owner name descriptor)

end Full

end ClassPatch.PoolM
