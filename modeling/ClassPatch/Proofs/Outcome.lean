import Mathlib.Data.List.Forall2

/-!
# Outcomes

A computation that may fail succeeds exactly if its parts do. These lemmas take a success apart
along the structure of the computation. `Except.FailsBy` says what a computation fails with, by the
same structure.
-/

namespace List.Forall₂

variable {α β : Type} {R : α → β → Prop} {xs : List α} {ys : List β}

/-- Whatever stands in the left list has a partner in the right one. -/
theorem exists_right (h : Forall₂ R xs ys) {x : α} (hx : x ∈ xs) : ∃ y ∈ ys, R x y := by
  induction h with
  | nil => simp at hx
  | @cons x' y xs ys hxy _ ih =>
    rcases List.mem_cons.mp hx with rfl | hx
    · exact ⟨y, List.mem_cons_self .., hxy⟩
    · obtain ⟨y', hy', hxy'⟩ := ih hx
      exact ⟨y', List.mem_cons_of_mem _ hy', hxy'⟩

/-- Whatever stands in the right list has a partner in the left one. -/
theorem exists_left (h : Forall₂ R xs ys) {y : β} (hy : y ∈ ys) : ∃ x ∈ xs, R x y :=
  h.flip.exists_right hy

theorem imp_of_mem {S : α → β → Prop} (h : Forall₂ R xs ys)
    (hRS : ∀ x ∈ xs, ∀ y ∈ ys, R x y → S x y) : Forall₂ S xs ys := by
  induction h with
  | nil => exact .nil
  | cons hxy _ ih =>
    refine .cons (hRS _ (mem_cons_self ..) _ (mem_cons_self ..) hxy) (ih fun x hx y hy => ?_)
    exact hRS x (mem_cons_of_mem _ hx) y (mem_cons_of_mem _ hy)

/-- What two lists have in common with a third one. -/
theorem join {γ : Type} {S : α → γ → Prop} {zs : List γ} (h : Forall₂ R xs ys)
    (h' : Forall₂ S xs zs) : Forall₂ (fun y z => ∃ x, R x y ∧ S x z) ys zs := by
  induction h generalizing zs with
  | nil =>
    cases h'
    exact .nil
  | cons hxy _ ih =>
    cases h' with
    | cons hxz h' => exact .cons ⟨_, hxy, hxz⟩ (ih h')

theorem flatMap_eq {γ : Type} {f : α → List γ} {f' : β → List γ} (h : Forall₂ R xs ys)
    (hR : ∀ x ∈ xs, ∀ y ∈ ys, R x y → f' y = f x) : ys.flatMap f' = xs.flatMap f := by
  induction h with
  | nil => rfl
  | cons hxy _ ih =>
    rw [flatMap_cons, flatMap_cons, hR _ (mem_cons_self ..) _ (mem_cons_self ..) hxy,
      ih fun x hx y hy => hR x (mem_cons_of_mem _ hx) y (mem_cons_of_mem _ hy)]

theorem map_eq {γ : Type} {f : α → γ} {g : β → γ} (h : Forall₂ R xs ys)
    (hR : ∀ x y, R x y → g y = f x) : ys.map g = xs.map f := by
  induction h with
  | nil => rfl
  | cons hxy _ ih => rw [map_cons, map_cons, hR _ _ hxy, ih]

end List.Forall₂

namespace Except

variable {ε α β : Type}

theorem bind_eq_ok {x : Except ε α} {f : α → Except ε β} {b : β} :
    x >>= f = .ok b ↔ ∃ a, x = .ok a ∧ f a = .ok b := by
  cases x <;> simp [Bind.bind, Except.bind]

/-- What goes on behind a check. -/
theorem check_bind_eq_ok {x : Except ε Unit} {y : Except ε β} {b : β} :
    (do x; y) = .ok b ↔ x = .ok () ∧ y = .ok b := by
  cases x <;> simp [Bind.bind, Except.bind]

theorem pure_eq_ok {a b : α} : (pure a : Except ε α) = .ok b ↔ a = b := by
  simp [Pure.pure, Except.pure]

theorem throw_ne_ok {e : ε} {a : α} : (throw e : Except ε α) ≠ .ok a := by
  simp [MonadExcept.throw, throwThe, MonadExceptOf.throw]

theorem map_eq_ok {x : Except ε α} {f : α → β} {b : β} :
    f <$> x = .ok b ↔ ∃ a, x = .ok a ∧ f a = b := by
  cases x <;> simp [Functor.map, Except.map]

theorem mapM_eq_ok {f : α → Except ε β} {xs : List α} {ys : List β} :
    xs.mapM f = .ok ys ↔ List.Forall₂ (fun x y => f x = .ok y) xs ys := by
  induction xs generalizing ys with
  | nil => cases ys <;> simp [pure_eq_ok]
  | cons x xs ih =>
    rw [List.mapM_cons, bind_eq_ok, List.forall₂_cons_left_iff]
    constructor
    · rintro ⟨y, hy, h⟩
      obtain ⟨ys', hys', h⟩ := bind_eq_ok.mp h
      exact ⟨y, ys', hy, ih.mp hys', (pure_eq_ok.mp h).symm⟩
    · rintro ⟨y, ys', hy, hys', rfl⟩
      exact ⟨y, hy, bind_eq_ok.mpr ⟨ys', ih.mpr hys', rfl⟩⟩

theorem forM_eq_ok {f : α → Except ε Unit} {xs : List α} :
    xs.forM f = .ok () ↔ ∀ x ∈ xs, f x = .ok () := by
  induction xs with
  | nil => exact iff_of_true rfl (by simp)
  | cons x xs ih =>
    rw [List.forall_mem_cons, ← ih]
    exact check_bind_eq_ok

theorem mapM_eq_map {f : α → Except ε β} {g : α → β} {xs : List α}
    (h : ∀ x ∈ xs, f x = .ok (g x)) : xs.mapM f = .ok (xs.map g) := by
  rw [mapM_eq_ok, List.forall₂_map_right_iff]
  exact List.forall₂_same.mpr h

/-- A fold whose steps cannot fail. -/
theorem foldlM_eq_foldl {f : β → α → Except ε β} {g : β → α → β} {xs : List α} {b : β}
    (h : ∀ b, ∀ x ∈ xs, f b x = .ok (g b x)) : xs.foldlM f b = .ok (xs.foldl g b) := by
  induction xs generalizing b with
  | nil => rfl
  | cons x xs ih =>
    rw [List.foldlM_cons, h b x (List.mem_cons_self ..), List.foldl_cons]
    exact ih fun b y hy => h b y (List.mem_cons_of_mem _ hy)

theorem exists_of_mapM {f : α → Except ε β} {xs : List α} {ys : List β} (h : xs.mapM f = .ok ys) :
    ∀ x ∈ xs, ∃ y, f x = .ok y := by
  induction mapM_eq_ok.mp h with
  | nil => simp
  | cons hxy _ ih =>
    simp only [List.mem_cons, forall_eq_or_imp]
    exact ⟨⟨_, hxy⟩, ih (mapM_eq_ok.mpr ‹_›)⟩

theorem exists_mapM {f : α → Except ε β} {xs : List α} (h : ∀ x ∈ xs, ∃ y, f x = .ok y) :
    ∃ ys, xs.mapM f = .ok ys := by
  induction xs with
  | nil => exact ⟨[], rfl⟩
  | cons x xs ih =>
    simp only [List.mem_cons, forall_eq_or_imp] at h
    obtain ⟨y, hy⟩ := h.1
    obtain ⟨ys, hys⟩ := ih h.2
    exact ⟨y :: ys, mapM_eq_ok.mpr (.cons hy (mapM_eq_ok.mp hys))⟩

/-- What a fold keeps at every step it keeps altogether. -/
theorem foldlM_induction {f : β → α → Except ε β} (P : β → Prop) {xs : List α} {b b' : β}
    (h : xs.foldlM f b = .ok b') (hb : P b)
    (hf : ∀ b x b', x ∈ xs → P b → f b x = .ok b' → P b') : P b' := by
  induction xs generalizing b with
  | nil => exact pure_eq_ok.mp h ▸ hb
  | cons x xs ih =>
    rw [List.foldlM_cons] at h
    obtain ⟨b₁, hb₁, h⟩ := bind_eq_ok.mp h
    exact ih h (hf b x b₁ (List.mem_cons_self ..) hb hb₁) fun b y b' hy =>
      hf b y b' (List.mem_cons_of_mem _ hy)

/-! ### Failures -/

section Failures

variable {E F : ε → Prop} {x : Except ε α}

/-- A computation fails only with certain errors. -/
def FailsBy (E : ε → Prop) (x : Except ε α) : Prop := ∀ e, x = .error e → E e

namespace FailsBy

theorem ok (a : α) : FailsBy E (.ok a : Except ε α) := nofun

theorem of_eq_ok {a : α} (h : x = .ok a) : FailsBy E x := h ▸ ok a

theorem pure (a : α) : FailsBy E (pure a : Except ε α) := nofun

theorem error {e : ε} (h : E e) : FailsBy E (.error e : Except ε α) := by
  intro e' he'
  obtain rfl := Except.error.inj he'
  exact h

theorem mono (h : FailsBy E x) (hE : ∀ e, E e → F e) : FailsBy F x := fun e he => hE e (h e he)

theorem bind (hx : FailsBy E x) {f : α → Except ε β} (hf : ∀ a, x = .ok a → FailsBy E (f a)) :
    FailsBy E (x >>= f) := by
  cases x with
  | error e => exact .error (hx e rfl)
  | ok a => exact hf a rfl

theorem map (hx : FailsBy E x) (f : α → β) : FailsBy E (f <$> x) := by
  cases x with
  | error e => exact .error (hx e rfl)
  | ok a => exact .ok _

theorem mapM {f : α → Except ε β} {xs : List α} (h : ∀ a ∈ xs, FailsBy E (f a)) :
    FailsBy E (xs.mapM f) := by
  induction xs with
  | nil => exact .pure []
  | cons a xs ih =>
    rw [List.forall_mem_cons] at h
    rw [List.mapM_cons]
    exact h.1.bind fun _ _ => (ih h.2).bind fun _ _ => .pure _

theorem foldlM {f : β → α → Except ε β} (h : ∀ b a, FailsBy E (f b a)) (b : β) (xs : List α) :
    FailsBy E (xs.foldlM f b) := by
  induction xs generalizing b with
  | nil => exact .pure b
  | cons a xs ih =>
    rw [List.foldlM_cons]
    exact (h b a).bind fun b' _ => ih b'

end FailsBy

end Failures

end Except

namespace EStateM

variable {ε σ α β : Type}

theorem bind_eq_ok {m : EStateM ε σ α} {f : α → EStateM ε σ β} {s s'' : σ} {b : β} :
    (m >>= f) s = .ok b s'' ↔ ∃ a s', m s = .ok a s' ∧ f a s' = .ok b s'' := by
  simp only [Bind.bind, EStateM.bind]
  cases m s with
  | error e s' => simp
  | ok a s' =>
    constructor
    · exact fun h => ⟨a, s', rfl, h⟩
    · rintro ⟨_, _, ⟨rfl, rfl⟩, h⟩
      exact h

theorem bind_of_ok {m : EStateM ε σ α} {f : α → EStateM ε σ β} {s s' : σ} {a : α}
    (h : m s = .ok a s') : (m >>= f) s = f a s' := by
  simp only [Bind.bind, EStateM.bind, h]

theorem bind_of_error {m : EStateM ε σ α} {f : α → EStateM ε σ β} {s s' : σ} {e : ε}
    (h : m s = .error e s') : (m >>= f) s = .error e s' := by
  simp only [Bind.bind, EStateM.bind, h]

theorem pure_eq_ok {a b : α} {s s' : σ} :
    (pure a : EStateM ε σ α) s = .ok b s' ↔ a = b ∧ s = s' := by
  simp [Pure.pure, EStateM.pure]

theorem throw_ne_ok {e : ε} {a : α} {s s' : σ} : (throw e : EStateM ε σ α) s ≠ .ok a s' := by
  intro h
  have herror : (.error e s : Result ε σ α) = .ok a s' := h
  cases herror

/-- What is done with the state is done in the state. -/
theorem get_bind (f : σ → EStateM ε σ β) (s : σ) : (get >>= f) s = f s s := rfl

theorem map_eq_ok {m : EStateM ε σ α} {f : α → β} {s s' : σ} {b : β} :
    (f <$> m) s = .ok b s' ↔ ∃ a, m s = .ok a s' ∧ f a = b := by
  simp only [Functor.map, EStateM.map]
  cases m s <;> simp [and_comm]

/-- What is only computed is mapped. -/
theorem mapM_eq_map {f : α → EStateM ε σ β} {g : α → β} {xs : List α}
    (h : ∀ x ∈ xs, f x = pure (g x)) : xs.mapM f = pure (xs.map g) := by
  induction xs with
  | nil => rfl
  | cons x xs ih =>
    rw [List.forall_mem_cons] at h
    rw [List.mapM_cons, h.1, ih h.2]
    rfl

/-- A choice by tests that do not fail is that by their answers. -/
theorem exists_filterM {f : α → EStateM ε σ Bool} {p : α → Bool}
    (hf : ∀ x s, ∃ s', f x s = .ok (p x) s') (xs : List α) (s : σ) :
    ∃ s', xs.filterM f s = .ok (xs.filter p) s' := by
  have haux (ys : List α) (s : σ) :
      ∃ s', List.filterAuxM f xs ys s = .ok ((xs.filter p).reverse ++ ys) s' := by
    induction xs generalizing ys s with
    | nil => exact ⟨s, rfl⟩
    | cons x xs ih =>
      obtain ⟨s₁, hx⟩ := hf x s
      obtain ⟨s', hxs⟩ := ih (cond (p x) (x :: ys) ys) s₁
      refine ⟨s', bind_eq_ok.mpr ⟨p x, s₁, hx, hxs.trans ?_⟩⟩
      cases hp : p x <;> simp [hp]
  obtain ⟨s', hxs⟩ := haux [] s
  refine ⟨s', bind_eq_ok.mpr ⟨_, s', hxs, ?_⟩⟩
  simp [Pure.pure, EStateM.pure]

end EStateM
