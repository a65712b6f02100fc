import ClassPatch.Proofs.Evaluation
import ClassPatch.Proofs.Patch.Footprint

/-!
# What a failed patch leaves behind

Planning changes nothing, so a class stays as it is unless bodies are written into it. Writing stops
at the first body that cannot be written. The bodies in front of it stay in the class, and so does
whatever the failed one has added to the pool: a patch is atomic only as far as no body fails.
-/

namespace ClassPatch

open PoolM

/-! ### Writing several bodies -/

namespace Patch

variable {c c' : ClassFile} {edits : List MethodEdit}

/-- Writing bodies fails at one of them, after those in front of it have been written. -/
theorem carryOut_error {e : Error} : carryOut edits c = .error e c' ↔
    ∃ written failed rest before, edits = written ++ failed :: rest ∧
      carryOut written c = .ok () before ∧
      ClassFile.setBody failed.index failed.body before = .error e c' := by
  induction edits generalizing c with
  | nil =>
    refine iff_of_false nofun ?_
    rintro ⟨written, failed, rest, before, hnil, -⟩
    simp at hnil
  | cons edit edits ih =>
    rw [carryOut_cons]
    simp only [Bind.bind, EStateM.bind]
    cases hedit : ClassFile.setBody edit.index edit.body c with
    | error e' c₁ =>
      constructor
      · intro h
        exact ⟨[], edit, edits, c, rfl, rfl, hedit.trans h⟩
      · rintro ⟨written, failed, rest, before, hsplit, hwritten, hfailed⟩
        cases written with
        | nil =>
          obtain ⟨rfl, rfl⟩ := List.cons.inj hsplit
          obtain ⟨-, rfl⟩ := EStateM.pure_eq_ok.mp hwritten
          exact hedit.symm.trans hfailed
        | cons edit' written =>
          obtain ⟨rfl, rfl⟩ := List.cons.inj hsplit
          rw [carryOut_cons] at hwritten
          obtain ⟨_, c₂, hfirst, _⟩ := EStateM.bind_eq_ok.mp hwritten
          cases hedit.symm.trans hfirst
    | ok u c₁ =>
      dsimp only
      rw [ih]
      constructor
      · rintro ⟨written, failed, rest, before, rfl, hwritten, hfailed⟩
        refine ⟨edit :: written, failed, rest, before, rfl, ?_, hfailed⟩
        rw [carryOut_cons]
        exact EStateM.bind_eq_ok.mpr ⟨u, c₁, hedit, hwritten⟩
      · rintro ⟨written, failed, rest, before, hsplit, hwritten, hfailed⟩
        cases written with
        | nil =>
          obtain ⟨rfl, rfl⟩ := List.cons.inj hsplit
          obtain ⟨-, rfl⟩ := EStateM.pure_eq_ok.mp hwritten
          cases hedit.symm.trans hfailed
        | cons edit' written =>
          obtain ⟨rfl, rfl⟩ := List.cons.inj hsplit
          rw [carryOut_cons] at hwritten
          obtain ⟨_, c₂, hfirst, hwritten⟩ := EStateM.bind_eq_ok.mp hwritten
          obtain ⟨-, rfl⟩ := EStateM.Result.ok.inj (hedit.symm.trans hfirst)
          exact ⟨written, failed, rest, before, rfl, hwritten, hfailed⟩

/-! ### Patching -/

/-- The writing of the planned bodies stops at one that fails. -/
structure Interrupted (p : Patch) (c : ClassFile) (log : Log) (written : List MethodEdit)
    (failed : MethodEdit) (e : Error) (before after : ClassFile) : Prop where
  planned : ∃ rest log', p.plan c log = .ok (.edit (written ++ failed :: rest)) log'
  written : carryOut written c = .ok () before
  failed : ClassFile.setBody failed.index failed.body before = .error e after

/-- A patch is done, changes nothing or is interrupted. -/
theorem apply_cases (p : Patch) (c : ClassFile) (log : Log) :
    (∃ methods, (p.apply c log).outcome = .ok (.patched methods)) ∨
      ((p.apply c log).classFile = c ∧
        ∀ written failed e before after, ¬Interrupted p c log written failed e before after) ∨
      ∃ written failed e before after, Interrupted p c log written failed e before after ∧
        (p.apply c log).outcome = .error e ∧ (p.apply c log).classFile = after := by
  have hplanned {plan : Plan} {log' : Log} (h : p.plan c log = .ok plan log')
      (hne : ∀ edit edits, plan ≠ .edit (edit :: edits)) :
      ∀ written failed e before after, ¬Interrupted p c log written failed e before after := by
    rintro written failed e before after ⟨⟨rest, log'', hedits⟩, -, -⟩
    obtain ⟨rfl, -⟩ := EStateM.Result.ok.inj (h.symm.trans hedits)
    cases written <;> exact hne _ _ rfl
  unfold apply
  simp only [EStateM.run]
  cases h : p.plan c log with
  | error e log' =>
    refine .inr (.inl ⟨rfl, ?_⟩)
    rintro written failed e' before after ⟨⟨rest, log'', hedits⟩, -, -⟩
    cases h.symm.trans hedits
  | ok plan log' =>
    cases plan with
    | reject methodName cause => exact .inr (.inl ⟨rfl, hplanned h nofun⟩)
    | edit edits =>
      cases edits with
      | nil => exact .inr (.inl ⟨rfl, hplanned h nofun⟩)
      | cons edit edits =>
        dsimp only
        cases hcarried : carryOut (edit :: edits) c with
        | ok u c₁ => exact .inl ⟨_, rfl⟩
        | error e c₁ =>
          obtain ⟨written, failed, rest, before, hsplit, hwritten, hfailed⟩ :=
            carryOut_error.mp hcarried
          exact .inr (.inr ⟨written, failed, e, before, c₁,
            ⟨⟨rest, log', hsplit ▸ h⟩, hwritten, hfailed⟩, rfl, rfl⟩)

namespace Interrupted

variable {p : Patch} {c before after : ClassFile} {log : Log} {written : List MethodEdit}
  {failed : MethodEdit} {e : Error}

/-- An interrupted patch fails with the error of the body that is not written. -/
theorem apply_eq (h : Interrupted p c log written failed e before after) :
    (p.apply c log).outcome = .error e ∧ (p.apply c log).classFile = after := by
  obtain ⟨rest, log', hplan⟩ := h.planned
  have hcarried : carryOut (written ++ failed :: rest) c = .error e after :=
    carryOut_error.mpr ⟨written, failed, rest, before, rfl, h.written, h.failed⟩
  unfold apply
  simp only [EStateM.run, hplan]
  cases hedits : written ++ failed :: rest with
  | nil => simp at hedits
  | cons edit edits =>
    dsimp only
    rw [hedits] at hcarried
    rw [hcarried]
    exact ⟨rfl, rfl⟩

/-- The body that is not written changes at most the pool. -/
theorem after_eq (h : Interrupted p c log written failed e before after)
    (hbefore : before.pool.WellFormed) :
    before.pool ≤ after.pool ∧ after = { before with pool := after.pool } := by
  obtain ⟨pool, hgrown, ⟨e', herror⟩ | ⟨f, -, hok⟩⟩ :=
    ClassFile.setBody_cases failed.index failed.body hbefore
  · obtain ⟨-, rfl⟩ := EStateM.Result.error.inj (h.failed.symm.trans herror)
    exact ⟨hgrown.le, rfl⟩
  · cases h.failed.symm.trans hok

/-- Nothing is left behind if no method has changed and nothing has been added to the pool. -/
theorem after_eq_iff (h : Interrupted p c log written failed e before after)
    (hc : c.pool.WellFormed) :
    after = c ↔ before.methods = c.methods ∧ after.pool.size = c.pool.size := by
  obtain ⟨hle, hbefore, hwritten, -⟩ := carryOut_ok hc h.written
  obtain ⟨hle', hafter⟩ := h.after_eq hbefore
  constructor
  · rintro rfl
    exact ⟨by rw [hafter], rfl⟩
  · rintro ⟨hmethods, hsize⟩
    have hpool : after.pool = c.pool :=
      ConstantPool.eq_of_le_of_size_le (ConstantPool.le_trans hle hle') (Nat.le_of_eq hsize)
    rw [hafter, hpool, hwritten, hmethods]

end Interrupted

/-- What a patch that is not done leaves behind. -/
structure LeftBehind (p : Patch) (c : ClassFile) (log : Log) : Prop where
  /-- The class stays as it was unless bodies in front of one that cannot be written have changed
  it, or that body has added to the pool. -/
  classFile_eq_iff : (p.apply c log).classFile = c ↔ ∀ written failed e before after,
    Interrupted p c log written failed e before after →
      before.methods = c.methods ∧ after.pool.size = c.pool.size
  /-- Without an error it stays as it was. -/
  classFile_eq : ∀ outcome, (p.apply c log).outcome = .ok outcome → (p.apply c log).classFile = c
  /-- Nothing but the pool and the methods in front of the failed one changes. -/
  interrupted : ∀ written failed e before after, Interrupted p c log written failed e before after →
    (p.apply c log).outcome = .error e ∧ (p.apply c log).classFile = after ∧
    c.pool ≤ before.pool ∧ before.pool ≤ after.pool ∧
    after = { before with pool := after.pool } ∧
    (∀ i ∉ written.map (·.index), after.methods[i]? = c.methods[i]?) ∧
    after = { c with pool := after.pool, methods := after.methods }

/-- A patch is atomic as far as no body fails behind others or after additions to the pool. -/
theorem leftBehind_of_not_patched (p : Patch) (c : ClassFile) (log : Log) (hc : c.pool.WellFormed)
    (h : ∀ methods, (p.apply c log).outcome ≠ .ok (.patched methods)) : LeftBehind p c log := by
  refine ⟨⟨fun hclass written failed e before after hstop => ?_, fun hstop => ?_⟩, ?_, ?_⟩
  · rw [← hstop.after_eq_iff hc, ← hstop.apply_eq.2]
    exact hclass
  · obtain ⟨methods, hpatched⟩ | ⟨hclass, -⟩ | ⟨written, failed, e, before, after, hi, -, hclass⟩ :=
      apply_cases p c log
    · exact absurd hpatched (h methods)
    · exact hclass
    · rw [hclass, hi.after_eq_iff hc]
      exact hstop _ _ _ _ _ hi
  · intro outcome hok
    obtain ⟨methods, hpatched⟩ | ⟨hclass, -⟩ | ⟨written, failed, e, before, after, -, herror, -⟩ :=
      apply_cases p c log
    · exact absurd hpatched (h methods)
    · exact hclass
    · cases hok.symm.trans herror
  · intro written failed e before after hi
    obtain ⟨hle, hbefore, hwritten, hmethods⟩ := carryOut_ok hc hi.written
    obtain ⟨hle', hafter⟩ := hi.after_eq hbefore
    refine ⟨hi.apply_eq.1, hi.apply_eq.2, hle, hle', hafter, fun i hni => ?_, ?_⟩
    · rw [hafter]
      exact hmethods i hni
    · rw [hafter, hwritten]

/-- A class with two methods that take a jump behind a marker, the second after the marker has been
popped. A patch that pops again before both jumps fails at the second. -/
private def twoJumps (first second : Bytes) : ClassFile :=
  let method (code : Bytes) : Member :=
    { flags := ⟨8⟩, name := 3, descriptor := 4,
      attributes := [⟨5, [0, 1, 0, 0, 0, 0, 0, UInt8.ofNat code.length] ++ code ++ [0, 0, 0, 0]⟩] }
  { version := ⟨49, 0⟩
    pool := .ofSlots #[none, some (.utf8 [65]), some (.classRef 1), some (.utf8 [109]),
      some (.utf8 [40, 41, 86]), some (.utf8 [67, 111, 100, 101]), some (.utf8 [120]),
      some (.string 6)]
    flags := ⟨33⟩, thisClass := 2, superClass := 0, interfaces := [], fields := []
    methods := #[method first, method second], attributes := [] }

private def popBeforeJump : Patch :=
  ⟨"P", "", .ofName "A", [.mk "m" (.forcedJump ⟨"x", .goto, .lenient⟩)]⟩

private theorem outcome_twoJumps :
    (popBeforeJump.apply (twoJumps [18, 7, 167, 0, 3, 177] [18, 7, 87, 167, 0, 3, 177])
      #[]).outcome = .error (.malformed (.flow (.underflow 1 0))) := by
  cbv

/-- The failure at the second method leaves the first one changed. -/
theorem leftBehind_twoJumps :
    let c := twoJumps [18, 7, 167, 0, 3, 177] [18, 7, 87, 167, 0, 3, 177]
    c.pool.WellFormed ∧ (∀ methods, (popBeforeJump.apply c #[]).outcome ≠ .ok (.patched methods)) ∧
      LeftBehind popBeforeJump c #[] := by
  have hpool : (twoJumps [18, 7, 167, 0, 3, 177] [18, 7, 87, 167, 0, 3, 177]).pool.WellFormed :=
    ConstantPool.wellFormed_ofSlots rfl (by decide)
  have hfailed (methods : List String) := outcome_twoJumps ▸ (nofun : Except.error _ ≠
    Except.ok (Outcome.patched methods))
  exact ⟨hpool, hfailed, leftBehind_of_not_patched _ _ _ hpool hfailed⟩

/-- A patch that fails can leave a method changed. -/
theorem apply_not_atomic :
    let c := twoJumps [18, 7, 167, 0, 3, 177] [18, 7, 87, 167, 0, 3, 177]
    (popBeforeJump.apply c #[]).outcome = .error (.malformed (.flow (.underflow 1 0))) ∧
      (popBeforeJump.apply c #[]).classFile.methods =
        (twoJumps [18, 7, 87, 167, 0, 3, 177] [18, 7, 87, 167, 0, 3, 177]).methods ∧
      (popBeforeJump.apply c #[]).classFile ≠ c := by
  have hmethods : (popBeforeJump.apply
      (twoJumps [18, 7, 167, 0, 3, 177] [18, 7, 87, 167, 0, 3, 177]) #[]).classFile.methods =
        (twoJumps [18, 7, 87, 167, 0, 3, 177] [18, 7, 87, 167, 0, 3, 177]).methods := by
    cbv
  refine ⟨outcome_twoJumps, hmethods, fun heq => ?_⟩
  rw [heq] at hmethods
  exact absurd hmethods (by decide)

end Patch
end ClassPatch
