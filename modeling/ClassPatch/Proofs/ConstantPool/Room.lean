import ClassPatch.Proofs.ConstantPool.Limits
import Mathlib.Algebra.Order.BigOperators.Group.Finset

/-!
# Room for class names

A class name takes two entries of a pool, its text and the class, less those that the pool has
already. A pool has room for names if what it lacks for all of them fits. This does not change when
one of them is added: the pool grows by what it has lacked for the name, and then it lacks nothing
for it. So a computation that adds no other names finds room for all it adds.
-/

namespace ClassPatch

namespace ConstantPool

variable {p q : ConstantPool} {name : String} {names : Finset String}

/-- How many entries a pool lacks for the class of a name. -/
def lacking (p : ConstantPool) (name : String) : Nat :=
  match p.findText? name with
  | none => 2
  | some i => if (p.indices[Constant.classRef i]?).isSome then 0 else 1

/-- What a pool lacks for the classes of all names fits. -/
def HasRoom (p : ConstantPool) (names : Finset String) : Prop :=
  p.size + ∑ name ∈ names, p.lacking name ≤ capacity

theorem lacking_le_two (p : ConstantPool) (name : String) : p.lacking name ≤ 2 := by
  unfold lacking
  split
  · exact Nat.le_refl 2
  · split <;> decide

/-- Where the text is there at most the class is lacking. -/
theorem lacking_of_text {i : UInt16} (h : p.findText? name = some i) :
    p.lacking name = if (p.indices[Constant.classRef i]?).isSome then 0 else 1 := by
  rw [lacking, h]

/-- A larger pool does not lack more. -/
theorem lacking_anti (h : p ≤ q) (name : String) : q.lacking name ≤ p.lacking name := by
  cases htext : p.findText? name with
  | none =>
    rw [show p.lacking name = 2 by rw [lacking, htext]]
    exact lacking_le_two q name
  | some i =>
    rw [lacking_of_text htext, lacking_of_text (h.indices htext)]
    cases hclass : p.indices[Constant.classRef i]? with
    | none =>
      rw [if_neg (c := (none : Option UInt16).isSome = true) nofun]
      split <;> decide
    | some j => rw [h.indices hclass]

end ConstantPool

open ConstantPool

namespace PoolM

variable {α β : Type} {p : ConstantPool} {name : String} {names : Finset String}

/-- A class whose text is in the pool is added. -/
private theorem intern_class {i : UInt16} (htext : p.findText? name = some i)
    (hroom : p.size + p.lacking name ≤ capacity) : ∃ j p', intern (.classRef i) p = .ok j p' ∧
      p'.size ≤ p.size + p.lacking name ∧ p'.lacking name = 0 := by
  rw [lacking_of_text htext] at hroom ⊢
  cases hclass : p.indices[Constant.classRef i]? with
  | some j =>
    refine ⟨j, p, intern_of_found hclass, Nat.le_add_right _ _, ?_⟩
    rw [lacking_of_text htext, hclass]
    rfl
  | none =>
    rw [hclass] at hroom
    refine ⟨_, _, intern_of_room hclass hroom, Nat.le_of_eq (size_appended p _), ?_⟩
    have htext' : (appended p (.classRef i)).findText? name = some i :=
      (le_appended hclass).indices htext
    rw [lacking_of_text htext', getElem?_indices_appended, if_pos rfl]
    rfl

/-- A class is added where there is room for what is lacking, and then nothing is. -/
theorem classRef_of_room (hroom : p.size + p.lacking name ≤ capacity) :
    ∃ i p', classRef name p = .ok i p' ∧ p'.size ≤ p.size + p.lacking name ∧
      p'.lacking name = 0 := by
  cases htext : p.findText? name with
  | some i =>
    obtain ⟨j, p', hclass, hsize, hnone⟩ := intern_class htext hroom
    exact ⟨j, p', EStateM.bind_eq_ok.mpr ⟨i, p, intern_of_found htext, hclass⟩, hsize, hnone⟩
  | none =>
    have htwo : p.lacking name = 2 := by rw [lacking, htext]
    rw [htwo] at hroom ⊢
    have hone : p.size + 1 ≤ capacity := by omega
    have hsize := size_appended p (.utf8 (Text.ModifiedUtf8.encode name))
    change _ = p.size + 1 at hsize
    have htext' : (appended p (.utf8 (Text.ModifiedUtf8.encode name))).findText? name =
        some (UInt16.ofNat p.size) := by
      rw [findText?, getElem?_indices_appended, if_pos rfl]
    have hlacking : (appended p (.utf8 (Text.ModifiedUtf8.encode name))).lacking name ≤ 1 := by
      rw [lacking_of_text htext']
      split <;> decide
    obtain ⟨j, p', hclass, hsize', hnone⟩ := intern_class htext' (by omega)
    refine ⟨j, p', EStateM.bind_eq_ok.mpr ⟨_, _, intern_of_room htext hone, hclass⟩, ?_, hnone⟩
    omega

/-- Where there is room for names one of them is added, and there is room for them still. -/
theorem classRef_of_hasRoom (hp : p.WellFormed) (h : p.HasRoom names) (hname : name ∈ names) :
    ∃ i p', classRef name p = .ok i p' ∧ p'.HasRoom names := by
  have hsum := Finset.add_sum_erase names p.lacking hname
  have hroom : p.size + p.lacking name ≤ capacity := by
    unfold HasRoom at h
    omega
  obtain ⟨i, p', hclass, hsize, hnone⟩ := classRef_of_room hroom
  refine ⟨i, p', hclass, ?_⟩
  have hle := (steady_classRef name).le hp hclass
  have hrest :
      ∑ name ∈ names.erase name, p'.lacking name ≤ ∑ name ∈ names.erase name, p.lacking name :=
    Finset.sum_le_sum fun name _ => lacking_anti hle name
  have hsum' := Finset.add_sum_erase names p'.lacking hname
  unfold HasRoom at h ⊢
  omega

/-- In a pool that has room for names the computation leaves room for them, and it fails only with
certain errors. -/
structure Fits (names : Finset String) (E : Error → Prop) (m : PoolM α) : Prop where
  steady : Steady m
  leaves : ∀ {p p' : ConstantPool} {x : α}, p.WellFormed → p.HasRoom names → m p = .ok x p' →
    p'.HasRoom names
  fails : ∀ {p p' : ConstantPool} {e : Error}, p.WellFormed → p.HasRoom names →
    m p = .error e p' → E e

namespace Fits

variable {E : Error → Prop} {m m' : PoolM α} {f : α → PoolM β}

theorem pure (x : α) : Fits names E (Pure.pure x : PoolM α) where
  steady := .pure x
  leaves _ hroom h := (EStateM.pure_eq_ok.mp h).2 ▸ hroom
  fails _ _ h := by cases h

theorem throw {e : Error} (h : E e) : Fits names E (MonadExcept.throw e : PoolM α) where
  steady := .throw e
  leaves _ _ h := absurd h EStateM.throw_ne_ok
  fails _ _ hfails := (EStateM.Result.error.inj hfails).1 ▸ h

theorem bind (hm : Fits names E m) (hf : ∀ x, Fits names E (f x)) : Fits names E (m >>= f) where
  steady := hm.steady.bind fun x => (hf x).steady
  leaves hp hroom h := by
    obtain ⟨x, q, hx, hy⟩ := EStateM.bind_eq_ok.mp h
    exact (hf x).leaves (hm.steady.wellFormed hp hx) (hm.leaves hp hroom hx) hy
  fails {p p' e} hp hroom h := by
    cases hmp : m p with
    | error e' q =>
      rw [EStateM.bind_of_error hmp] at h
      obtain ⟨rfl, -⟩ := EStateM.Result.error.inj h
      exact hm.fails hp hroom hmp
    | ok x q =>
      rw [EStateM.bind_of_ok hmp] at h
      exact (hf x).fails (hm.steady.wellFormed hp hmp) (hm.leaves hp hroom hmp) h

theorem ite {c : Prop} [Decidable c] (h : Fits names E m) (h' : Fits names E m') :
    Fits names E (if c then m else m') := by
  split <;> assumption

theorem mapM {f : α → PoolM β} {xs : List α} (h : ∀ x ∈ xs, Fits names E (f x)) :
    Fits names E (xs.mapM f) := by
  induction xs with
  | nil => exact pure _
  | cons x xs ih =>
    rw [List.mapM_cons]
    rw [List.forall_mem_cons] at h
    exact h.1.bind fun _ => (ih h.2).bind fun _ => pure _

theorem classRef (hname : name ∈ names) : Fits names E (classRef name) where
  steady := steady_classRef name
  leaves hp hroom h := by
    obtain ⟨i, p', hclass, hroom'⟩ := classRef_of_hasRoom hp hroom hname
    obtain ⟨-, rfl⟩ := EStateM.Result.ok.inj (h.symm.trans hclass)
    exact hroom'
  fails hp hroom h := by
    obtain ⟨i, p', hclass, -⟩ := classRef_of_hasRoom hp hroom hname
    cases h.symm.trans hclass

end Fits

end PoolM
end ClassPatch
