import ClassPatch.ClassFile.Edit
import ClassPatch.ConstantPool.Codec
import ClassPatch.Proofs.Evaluation
import ClassPatch.Proofs.Outcome

/-!
# What failed edits leave behind

An edit of a class that fails has at most added to its pool, if it changes other parts only where
nothing can fail any more. Giving a method new code is such an edit. Adding a method is one as long
as the method gets no code: with code, the method is there before its code is written, and stays if
that fails.
-/

namespace ClassPatch

namespace ClassEdit

variable {α β : Type}

/-- The edit changes nothing but the pool, whether it fails or not. -/
def PoolOnly (m : ClassEdit α) : Prop :=
  ∀ c, (∃ e pool, m c = .error e { c with pool }) ∨ ∃ x pool, m c = .ok x { c with pool }

/-- If the edit fails, it has changed nothing but the pool. -/
def FailsInPool (m : ClassEdit α) : Prop :=
  ∀ c e c', m c = .error e c' → c' = { c with pool := c'.pool }

theorem lookUp_eq (f : ClassFile → Except Error α) (c : ClassFile) :
    lookUp f c = match f c with
      | .ok x => .ok x c
      | .error e => .error e c := by
  rw [lookUp, EStateM.get_bind]
  cases f c <;> rfl

theorem poolOnly_lookUp (f : ClassFile → Except Error α) : PoolOnly (lookUp f) := by
  intro c
  rw [lookUp_eq]
  cases f c with
  | error e => exact .inl ⟨e, c.pool, rfl⟩
  | ok x => exact .inr ⟨x, c.pool, rfl⟩

theorem poolOnly_onPool (change : PoolM α) : PoolOnly (onPool change) := by
  intro c
  rw [onPool]
  cases change.run c.pool with
  | error e pool => exact .inl ⟨e, pool, rfl⟩
  | ok x pool => exact .inr ⟨x, pool, rfl⟩

/-- Where nothing can fail, everything may be changed. -/
theorem failsInPool_of_ok {m : ClassEdit α} (hm : ∀ c, ∃ x c', m c = .ok x c') : FailsInPool m := by
  intro c e c' h
  obtain ⟨x, c₁, hok⟩ := hm c
  cases hok.symm.trans h

theorem failsInPool_modify (f : ClassFile → ClassFile) : FailsInPool (modify f) :=
  failsInPool_of_ok fun c => ⟨⟨⟩, f c, rfl⟩

theorem onPool_eq_ok {change : PoolM α} {c c' : ClassFile} {x : α} :
    onPool change c = .ok x c' ↔ ∃ pool, change c.pool = .ok x pool ∧ { c with pool } = c' := by
  rw [onPool, EStateM.run]
  cases change c.pool with
  | error e pool => simp
  | ok y pool => simp [and_assoc]

theorem discard_lookUp_eq_ok {f : ClassFile → Except Error α} {c c' : ClassFile} :
    discard (lookUp f) c = .ok () c' ↔ (∃ x, f c = .ok x) ∧ c = c' := by
  change EStateM.map _ (lookUp f) c = _ ↔ _
  rw [EStateM.map, lookUp_eq]
  cases f c <;> simp

theorem PoolOnly.discard {m : ClassEdit α} (hm : PoolOnly m) : PoolOnly (discard m) := by
  intro c
  obtain ⟨e, pool, herror⟩ | ⟨x, pool, hok⟩ := hm c
  · refine .inl ⟨e, pool, ?_⟩
    change EStateM.map _ m c = _
    rw [EStateM.map, herror]
  · refine .inr ⟨⟨⟩, pool, ?_⟩
    change EStateM.map _ m c = _
    rw [EStateM.map, hok]

/-- As long as nothing but the pool has been changed, an edit may fail. -/
theorem PoolOnly.bind {m : ClassEdit α} {f : α → ClassEdit β} (hm : PoolOnly m)
    (hf : ∀ x, FailsInPool (f x)) : FailsInPool (m >>= f) := by
  intro c e c' h
  obtain ⟨e', pool, herror⟩ | ⟨x, pool, hok⟩ := hm c
  · obtain ⟨-, rfl⟩ := EStateM.Result.error.inj ((EStateM.bind_of_error herror).symm.trans h)
    rfl
  · rw [EStateM.bind_of_ok hok] at h
    rw [hf x _ _ _ h]

end ClassEdit

namespace ClassFile

open ClassEdit

variable {c c' declared : ClassFile} {flags : AccessFlags} {name descriptor : String}
  {body : Option Body} {index : Nat} {e : Error}

theorem failsInPool_setBody (index : Nat) (body : Body) : FailsInPool (setBody index body) := by
  refine (poolOnly_lookUp _).bind fun context => (poolOnly_onPool _).bind fun payload => ?_
  refine (poolOnly_lookUp _).bind fun position => ?_
  cases position with
  | some position => exact failsInPool_modify _
  | none => exact (poolOnly_onPool _).bind fun name => failsInPool_modify _

/-- The second class is the first one with a method that has no code, behind all others. -/
def Declares (flags : AccessFlags) (name descriptor : String) (c declared : ClassFile) : Prop :=
  (∃ parsed, MethodDescriptor.parse descriptor = .ok parsed) ∧ ∃ i j pool pool',
    PoolM.text name c.pool = .ok i pool ∧ PoolM.text descriptor pool = .ok j pool' ∧
    declared = { c with pool := pool', methods := c.methods.push ⟨flags, i, j, []⟩ }

theorem addMethod_none_eq_ok : addMethod flags name descriptor none c = .ok index declared ↔
    index = c.methods.size ∧ Declares flags name descriptor c declared := by
  rw [addMethod, EStateM.bind_eq_ok]
  constructor
  · rintro ⟨_, c₁, hparse, h⟩
    obtain ⟨hparsed, rfl⟩ := discard_lookUp_eq_ok.mp hparse
    obtain ⟨i, c₂, hi, h⟩ := EStateM.bind_eq_ok.mp h
    obtain ⟨j, c₃, hj, h⟩ := EStateM.bind_eq_ok.mp h
    obtain ⟨pool, hname, rfl⟩ := onPool_eq_ok.mp hi
    obtain ⟨pool', hdescriptor, rfl⟩ := onPool_eq_ok.mp hj
    obtain ⟨rfl, rfl⟩ := EStateM.Result.ok.inj h
    exact ⟨rfl, hparsed, i, j, pool, pool', hname, hdescriptor, rfl⟩
  · rintro ⟨rfl, hparsed, i, j, pool, pool', hname, hdescriptor, rfl⟩
    refine ⟨⟨⟩, c, discard_lookUp_eq_ok.mpr ⟨hparsed, rfl⟩, ?_⟩
    rw [EStateM.bind_of_ok (onPool_eq_ok.mpr ⟨pool, hname, rfl⟩),
      EStateM.bind_of_ok (onPool_eq_ok.mpr ⟨pool', hdescriptor, rfl⟩)]
    rfl

theorem failsInPool_addMethod_none (flags : AccessFlags) (name descriptor : String) :
    FailsInPool (addMethod flags name descriptor none) := by
  refine PoolOnly.bind (.discard (poolOnly_lookUp _)) fun _ => ?_
  refine (poolOnly_onPool _).bind fun i => (poolOnly_onPool _).bind fun j => ?_
  exact failsInPool_of_ok fun c => ⟨_, _, rfl⟩

/-- Code is written for a method that has been declared. -/
theorem addMethod_some (flags : AccessFlags) (name descriptor : String) (body : Body) :
    addMethod flags name descriptor (some body) =
      addMethod flags name descriptor none >>= fun index => do
        setBody index body
        return index := by
  simp only [addMethod, bind_assoc, pure_bind]

/-- Apart from its pool, the class has one method more. -/
theorem Declares.exists_push (h : Declares flags name descriptor c declared) : ∃ m,
    declared = { c with pool := declared.pool, methods := c.methods.push m } := by
  obtain ⟨-, i, j, pool, pool', -, -, rfl⟩ := h
  exact ⟨⟨flags, i, j, []⟩, rfl⟩

theorem Declares.unique {declared' : ClassFile} (h : Declares flags name descriptor c declared)
    (h' : Declares flags name descriptor c declared') : declared = declared' := by
  have hok := addMethod_none_eq_ok.mpr ⟨rfl, h⟩
  have hok' := addMethod_none_eq_ok.mpr ⟨rfl, h'⟩
  exact (EStateM.Result.ok.inj (hok.symm.trans hok')).2

/-- Either the declaration fails, or the code cannot be written for what has been declared. -/
theorem addMethod_error_cases (h : addMethod flags name descriptor body c = .error e c') :
    (c' = { c with pool := c'.pool } ∧ ∀ declared, ¬Declares flags name descriptor c declared) ∨
    ∃ declared code, Declares flags name descriptor c declared ∧ body = some code ∧
      setBody c.methods.size code declared = .error e c' := by
  cases hnone : addMethod flags name descriptor none c with
  | error e₁ c₁ =>
    refine .inl ⟨?_, ?_⟩
    · cases body with
      | none => exact failsInPool_addMethod_none _ _ _ _ _ _ h
      | some code =>
        rw [addMethod_some, EStateM.bind_of_error hnone] at h
        exact failsInPool_addMethod_none _ _ _ _ _ _ (hnone.trans h)
    · intro declared hdeclared
      cases hnone.symm.trans (addMethod_none_eq_ok.mpr ⟨rfl, hdeclared⟩)
  | ok index declared =>
    obtain ⟨rfl, hdeclared⟩ := addMethod_none_eq_ok.mp hnone
    cases body with
    | none => cases hnone.symm.trans h
    | some code =>
      refine .inr ⟨declared, code, hdeclared, rfl, ?_⟩
      rw [addMethod_some, EStateM.bind_of_ok hnone] at h
      cases hbody : setBody c.methods.size code declared with
      | error e₁ c₁ =>
        rw [EStateM.bind_of_error hbody] at h
        obtain ⟨rfl, rfl⟩ := EStateM.Result.error.inj h
        rfl
      | ok _ c₁ =>
        rw [EStateM.bind_of_ok hbody] at h
        cases h

/-- A failed edit changes no member and no attribute of the class, with one exception: a method that
has been declared stays behind all others, without code, if its code cannot be written. -/
theorem members_of_failed_edit (c : ClassFile) :
    (∀ index code e c', setBody index code c = .error e c' → c' = { c with pool := c'.pool }) ∧
    ∀ flags name descriptor body e c', addMethod flags name descriptor body c = .error e c' →
      c' = { c with pool := c'.pool, methods := c'.methods } ∧
      (c'.methods = c.methods ↔ ∀ declared, ¬Declares flags name descriptor c declared) ∧
      ∀ declared, Declares flags name descriptor c declared →
        c' = { declared with pool := c'.pool } ∧
        ∃ code, body = some code ∧ setBody c.methods.size code declared = .error e c' := by
  refine ⟨fun index code => failsInPool_setBody index code c, ?_⟩
  intro flags name descriptor body e c' h
  obtain ⟨hkept, hnone⟩ | ⟨declared, code, hdeclared, hbody, hcode⟩ := addMethod_error_cases h
  · refine ⟨?_, iff_of_true ?_ hnone, fun declared hdeclared => absurd hdeclared (hnone declared)⟩
    · rw [hkept]
    · rw [hkept]
  · have hleft := failsInPool_setBody _ _ _ _ _ hcode
    obtain ⟨m, hpush⟩ := hdeclared.exists_push
    have hmethods : c'.methods = c.methods.push m := by rw [hleft, hpush]
    have hne : c'.methods ≠ c.methods := by
      intro heq
      have hsize := congrArg Array.size (hmethods.symm.trans heq)
      rw [Array.size_push] at hsize
      omega
    refine ⟨?_, iff_of_false hne fun hnone => hnone declared hdeclared, ?_⟩
    · rw [hmethods, hleft, hpush]
    · intro declared' hdeclared'
      obtain rfl := hdeclared.unique hdeclared'
      exact ⟨hleft, code, hbody, hcode⟩

/-- Code that takes a value from the empty stack. -/
private def starved : Body where
  maxStack := 0
  maxLocals := 0
  events := [.instr (.plain Opcode.pop), .instr (.leave none)]
  handlers := []
  lines := []
  localVariables := []
  localVariableTypes := []
  frames := []
  attributes := []
  labels := ⟨0⟩

/-- A class with one method, which has no code. -/
private def lone : ClassFile where
  version := ⟨52, 0⟩
  pool := .ofSlots #[none, some (.utf8 [65]), some (.classRef 1), some (.utf8 [40, 41, 86])]
  flags := ⟨33⟩
  thisClass := 2
  superClass := 0
  interfaces := []
  fields := []
  methods := #[⟨⟨9⟩, 1, 3, []⟩]
  attributes := []

private theorem setBody_starved :
    setBody 0 starved lone = .error (.malformed (.flow (.underflow 1 0))) lone := by
  cbv

private theorem addMethod_starved : addMethod ⟨9⟩ "A" "()V" (some starved) lone =
    .error (.malformed (.flow (.underflow 1 0)))
      { lone with methods := #[⟨⟨9⟩, 1, 3, []⟩, ⟨⟨9⟩, 1, 3, []⟩] } := by
  cbv

/-- Such code for the method that is there changes nothing, and for a new one leaves that one
behind. -/
theorem members_of_failed_edit_starved :
    (∃ e c', setBody 0 starved lone = .error e c' ∧ c' = { lone with pool := c'.pool }) ∧
    ∃ e c', addMethod ⟨9⟩ "A" "()V" (some starved) lone = .error e c' ∧
      c' = { lone with pool := c'.pool, methods := c'.methods } ∧
      ∃ declared, Declares ⟨9⟩ "A" "()V" lone declared ∧
        c' = { declared with pool := c'.pool } := by
  obtain ⟨hset, hadd⟩ := members_of_failed_edit lone
  obtain ⟨hkept, hleft, hdeclared⟩ := hadd _ _ _ _ _ _ addMethod_starved
  refine ⟨⟨_, _, setBody_starved, hset _ _ _ _ setBody_starved⟩,
    _, _, addMethod_starved, hkept, ?_⟩
  have hmethods : ¬∀ declared, ¬Declares ⟨9⟩ "A" "()V" lone declared :=
    mt hleft.mpr (by decide)
  obtain ⟨declared, h⟩ := not_forall_not.mp hmethods
  exact ⟨declared, h, (hdeclared declared h).1⟩

/-- A method is added although adding it fails. -/
theorem not_methods_of_addMethod :
    ¬∀ c flags name descriptor body e c',
      addMethod flags name descriptor body c = .error e c' → c'.methods = c.methods := by
  intro h
  exact absurd (h _ _ _ _ _ _ _ addMethod_starved) (by decide)

end ClassFile
end ClassPatch
