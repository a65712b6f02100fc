import ClassPatch.ClassFile.Edit
import ClassPatch.Proofs.Code.Writer

/-!
# Writing code into a class

What a body refers to enters the pool before the body is written. Writing fails with additions to
the pool at most. When it succeeds, the pool has grown and one method has changed: if the method has
code, only the payload of that code is another one.
-/

namespace ClassPatch

open PoolM

/-! ### Code in a larger pool -/

namespace Member

/-- Code is found at the same place over every pool that begins with the same slots. -/
theorem findCode_of_isPrefix {p q : ConstantPool} (h : p.slots.toList <+: q.slots.toList)
    {attributes : List Attribute} {position : Nat} {found : Option Nat}
    (hp : findCode p attributes position = .ok found) :
    findCode q attributes position = .ok found := by
  induction attributes generalizing position with
  | nil => exact hp
  | cons a rest ih =>
    rw [findCode, Except.bind_eq_ok] at hp ⊢
    obtain ⟨name, hname, hp⟩ := hp
    refine ⟨name, ConstantPool.text_of_isPrefix h hname, ?_⟩
    split at hp
    · rename_i hcode
      rwa [if_pos hcode]
    · rename_i hother
      rw [if_neg hother]
      exact ih hp

theorem codePosition_of_isPrefix {p q : ConstantPool} (h : p.slots.toList <+: q.slots.toList)
    {m : Member} {found : Option Nat} (hp : m.codePosition p = .ok found) :
    m.codePosition q = .ok found :=
  findCode_of_isPrefix h hp

theorem codePosition_mono {p q : ConstantPool} (h : p ≤ q) {m : Member} {found : Option Nat}
    (hp : m.codePosition p = .ok found) : m.codePosition q = .ok found :=
  codePosition_of_isPrefix h.slots hp

/-- The code is the first attribute of its name. -/
theorem exists_of_findCode {pool : ConstantPool} {attributes : List Attribute}
    {start position : Nat} (h : findCode pool attributes start = .ok (some position)) :
    ∃ before code after, attributes = before ++ code :: after ∧ position = start + before.length ∧
      pool.text code.name = .ok codeName ∧
      ∀ a ∈ before, ∃ name, pool.text a.name = .ok name ∧ name ≠ codeName := by
  induction attributes generalizing start with
  | nil => cases h
  | cons a rest ih =>
    rw [findCode, Except.bind_eq_ok] at h
    obtain ⟨name, hname, h⟩ := h
    split at h
    · rename_i hcode
      obtain rfl := Option.some.inj (Except.pure_eq_ok.mp h)
      exact ⟨[], a, rest, rfl, rfl, hcode ▸ hname, nofun⟩
    · rename_i hother
      obtain ⟨before, code, after, rfl, rfl, hcode, hbefore⟩ := ih h
      refine ⟨a :: before, code, after, rfl, by rw [List.length_cons]; omega, hcode, ?_⟩
      exact List.forall_mem_cons.mpr ⟨⟨name, hname, hother⟩, hbefore⟩

/-- Code is found by the names of attributes alone. -/
theorem codePosition_setPayload (pool : ConstantPool) (m : Member) (position : Nat)
    (payload : Bytes) :
    (m.setPayload position payload).codePosition pool = m.codePosition pool := by
  have hfind (attributes : List Attribute) (position start : Nat) :
      findCode pool (attributes.modify position fun a => { a with payload }) start =
        findCode pool attributes start := by
    induction attributes generalizing position start with
    | nil => simp
    | cons a rest ih =>
      cases position with
      | zero => rfl
      | succ position =>
        rw [List.modify_succ_cons, findCode, findCode]
        simp only [ih]
  exact hfind ..

end Member

/-! ### Edits -/

namespace ClassEdit

variable {α β : Type}

theorem lookUp_bind (f : ClassFile → Except Error α) (g : α → ClassEdit β) (c : ClassFile) :
    (lookUp f >>= g) c =
      match f c with
      | .ok x => g x c
      | .error e => .error e c := by
  rw [lookUp, bind_assoc, EStateM.get_bind]
  cases f c <;> rfl

theorem onPool_bind (change : PoolM α) (g : α → ClassEdit β) (c : ClassFile) :
    (onPool change >>= g) c =
      match change c.pool with
      | .ok x pool => g x { c with pool }
      | .error e pool => .error e { c with pool } := by
  simp only [onPool, Bind.bind, EStateM.bind, EStateM.run]
  cases change c.pool <;> rfl

end ClassEdit

namespace ClassFile

/-- Writing a body changes at most the pool if it fails, and otherwise the pool and the attributes
of one method. -/
theorem setBody_cases (index : Nat) (body : Body) {c : ClassFile} (hc : c.pool.WellFormed) :
    ∃ pool, GrownFrom c.pool pool ∧
      ((∃ e, setBody index body c = .error e { c with pool }) ∨
        ∃ f, (∀ m, (f m).name = m.name ∧ (f m).descriptor = m.descriptor) ∧
          setBody index body c = .ok () ({ c with pool }.modifyMethod index f)) := by
  unfold setBody
  rw [ClassEdit.lookUp_bind]
  cases c.methodContext index with
  | error e => exact ⟨c.pool, .refl hc, .inl ⟨e, rfl⟩⟩
  | ok context =>
    have hgrown := (body.splits_encode context).steady.grownFrom_after hc
    dsimp only
    rw [ClassEdit.onPool_bind]
    cases hencode : body.encode context c.pool with
    | error e pool =>
      rw [hencode] at hgrown
      exact ⟨pool, hgrown, .inl ⟨e, rfl⟩⟩
    | ok payload pool =>
      rw [hencode] at hgrown
      replace hgrown : GrownFrom c.pool pool := hgrown
      dsimp only
      rw [ClassEdit.lookUp_bind]
      split
      · rename_i position _
        cases position with
        | some position =>
          exact ⟨pool, hgrown, .inr ⟨(·.setPayload position payload), fun m => ⟨rfl, rfl⟩, rfl⟩⟩
        | none =>
          have hname := (steady_text Member.codeName).grownFrom_after hgrown.wellFormed
          dsimp only
          rw [ClassEdit.onPool_bind]
          dsimp only
          cases htext : text Member.codeName pool with
          | error e pool' =>
            rw [htext] at hname
            exact ⟨pool', hgrown.trans hname, .inl ⟨e, rfl⟩⟩
          | ok name pool' =>
            rw [htext] at hname
            exact ⟨pool', hgrown.trans hname,
              .inr ⟨(·.addAttribute { name, payload }), fun m => ⟨rfl, rfl⟩, rfl⟩⟩
      · exact ⟨pool, hgrown, .inl ⟨_, rfl⟩⟩

theorem method_eq_ok {c : ClassFile} {index : Nat} {m : Member} :
    c.method index = .ok m ↔ c.methods[index]? = some m := by
  rw [method]
  split <;> simp_all

theorem methodContext_eq_ok {c : ClassFile} {index : Nat} {context : MethodContext} :
    c.methodContext index = .ok context ↔ ∃ m, c.methods[index]? = some m ∧
      c.name = .ok context.className ∧ c.pool.text m.name = .ok context.methodName ∧
      c.pool.text m.descriptor = .ok context.descriptor ∧ m.isStatic = context.isStatic ∧
      c.version.major = context.majorVersion := by
  simp only [methodContext, Except.bind_eq_ok, Except.pure_eq_ok, method_eq_ok]
  constructor
  · rintro ⟨m, hm, className, hclass, methodName, hname, descriptor, hdescriptor, rfl⟩
    exact ⟨m, hm, hclass, hname, hdescriptor, rfl, rfl⟩
  · rintro ⟨m, hm, hclass, hname, hdescriptor, hstatic, hmajor⟩
    refine ⟨m, hm, _, hclass, _, hname, _, hdescriptor, ?_⟩
    rw [hstatic, hmajor]

/-- A method with code that can be read. -/
theorem methodBody_eq_some {c : ClassFile} {index : Nat} {body : Body} :
    c.methodBody index = .ok (some body) ↔ ∃ context m position a,
      c.methodContext index = .ok context ∧ c.methods[index]? = some m ∧
      m.codePosition c.pool = .ok (some position) ∧ m.attributes[position]? = some a ∧
      Body.decode a.payload c.pool context = .ok body := by
  simp only [methodBody, Except.bind_eq_ok, method_eq_ok]
  constructor
  · rintro ⟨context, hcontext, m, hm, found, hcode, h⟩
    cases found with
    | none => cases Except.pure_eq_ok.mp h
    | some position =>
      cases ha : m.attributes[position]? with
      | none =>
        simp only [ha] at h
        cases Except.pure_eq_ok.mp h
      | some a =>
        simp only [ha] at h
        obtain ⟨body', hdecode, hbody⟩ := Except.map_eq_ok.mp h
        obtain rfl := Option.some.inj hbody
        exact ⟨context, m, position, a, hcontext, hm, hcode, ha, hdecode⟩
  · rintro ⟨context, m, position, a, hcontext, hm, hcode, ha, hdecode⟩
    refine ⟨context, hcontext, m, hm, some position, hcode, ?_⟩
    simp only [ha]
    exact Except.map_eq_ok.mpr ⟨body, hdecode, rfl⟩

/-- A method that has code gets other code in its place, and all that the code needs is in the
pool. -/
theorem setBody_of_code {c c' : ClassFile} {index position : Nat} {body : Body}
    {context : MethodContext} {m : Member} (hc : c.pool.WellFormed)
    (hcontext : c.methodContext index = .ok context) (hm : c.methods[index]? = some m)
    (hcode : m.codePosition c.pool = .ok (some position)) (h : setBody index body c = .ok () c') :
    GrownFrom c.pool c'.pool ∧ ∃ payload, Finds (body.encode context) c'.pool payload ∧
      c' = { c with pool := c'.pool }.modifyMethod index (·.setPayload position payload) := by
  have hsteady := (body.splits_encode context).steady
  rw [setBody, ClassEdit.lookUp_bind, hcontext] at h
  dsimp only at h
  rw [ClassEdit.onPool_bind] at h
  cases hencode : body.encode context c.pool with
  | error e pool =>
    rw [hencode] at h
    cases h
  | ok payload pool =>
    have hposition : (do (← ({ c with pool } : ClassFile).method index).codePosition pool) =
        .ok (some position) :=
      Except.bind_eq_ok.mpr ⟨m, method_eq_ok.mpr hm,
        Member.codePosition_mono (hsteady.le hc hencode) hcode⟩
    rw [hencode] at h
    dsimp only at h
    rw [ClassEdit.lookUp_bind] at h
    dsimp only at h
    rw [hposition] at h
    obtain ⟨-, rfl⟩ := EStateM.Result.ok.inj h
    exact ⟨hsteady.grownFrom hc hencode, payload, hsteady.finds hc hencode, rfl⟩

end ClassFile

end ClassPatch
