import ClassPatch.Patch.Basic
import ClassPatch.Proofs.Outcome

/-!
# Plans

What a patch makes of a method does not depend on the notices before: `Patch.rewritten` is what it
makes of it in the end. A plan is in the order of the methods, has an edit for each method that the
patch changes the events of, and leaves all others as they are.
-/

namespace ClassPatch

/-! ### Notices do not matter -/

theorem Pipeline.blind_run (p : Pipeline) (method : MethodContext) (events : List Event) :
    (p.run method events).Blind :=
  .foldlM (fun events stage => stage.transform.blind method events) events _

theorem LogM.ofExcept_bind {α β : Type} {x : Except Error α} {f : α → LogM β} {log log' : Log}
    {y : β} : (LogM.ofExcept x >>= f) log = .ok y log' ↔ ∃ a, x = .ok a ∧ f a log = .ok y log' := by
  rw [EStateM.bind_eq_ok]
  cases x with
  | error e =>
    refine iff_of_false ?_ (by rintro ⟨_, ⟨⟩, _⟩)
    rintro ⟨_, _, h, -⟩
    exact absurd h EStateM.throw_ne_ok
  | ok a =>
    constructor
    · rintro ⟨a', log₁, h, hf⟩
      obtain ⟨rfl, rfl⟩ := EStateM.pure_eq_ok.mp h
      exact ⟨a, rfl, hf⟩
    · rintro ⟨_, ⟨⟩, hf⟩
      exact ⟨a, log, rfl, hf⟩

namespace Patch

/-- The body that the patch makes of one, or why it rejects it. -/
def rewritten (p : Patch) (method : MethodContext) (body : Body) : Except Mismatch Body := do
  let (events, labels) ← PatchM.silent ((p.pipeline.run method body.events).run ⟨body.labels, #[]⟩)
  return { body with events, labels }

/-- Whatever has been noted before, a patch makes the same of a body. -/
theorem patchBody_eq (p : Patch) (method : MethodContext) (body : Body) (log : Log) :
    ∃ log', p.patchBody method body log = .ok (p.rewritten method body) log' := by
  have h := p.pipeline.blind_run method body.events body.labels #[] log
  simp only [patchBody, rewritten, EStateM.run, h]
  cases p.pipeline.run method body.events ⟨body.labels, log⟩ with
  | ok events r => exact ⟨_, rfl⟩
  | error cause r => exact ⟨_, rfl⟩

/-! ### The methods of a plan -/

/-- The patch leaves a method as it is: it is not for it, the method has no code, or the events of
its code do not change. -/
def Leaves (p : Patch) (c : ClassFile) (index : Nat) : Prop :=
  ∃ method, c.methodContext index = .ok method ∧
    (p.pipeline.targets method.methodName = false ∨ c.methodBody index = .ok none ∨
      ∃ body changed, c.methodBody index = .ok (some body) ∧
        p.rewritten method body = .ok changed ∧ changed.events = body.events)

/-- The patch changes the events of a method, and the edit is for it. -/
structure Edits (p : Patch) (c : ClassFile) (edit : MethodEdit) (method : MethodContext)
    (body : Body) : Prop where
  context : c.methodContext edit.index = .ok method
  targets : p.pipeline.targets method.methodName = true
  read : c.methodBody edit.index = .ok (some body)
  rewritten : p.rewritten method body = .ok edit.body
  changed : edit.body.events ≠ body.events

/-- The edits are for the methods at some of the positions, in order, and the methods at all others
are left as they are. -/
structure Plans (p : Patch) (c : ClassFile) (indices : List Nat) (edits : List MethodEdit) :
    Prop where
  sublist : (edits.map (·.index)).Sublist indices
  changed : ∀ edit ∈ edits, ∃ method body, p.Edits c edit method body
  leaves : ∀ i ∈ indices, i ∉ edits.map (·.index) → p.Leaves c i

namespace Plans

variable {p : Patch} {c : ClassFile} {indices : List Nat} {edits : List MethodEdit}

theorem nil : p.Plans c [] [] := ⟨.slnil, nofun, nofun⟩

/-- One more method is left as it is. -/
theorem skip (h : p.Plans c indices edits) {i : Nat} (hi : p.Leaves c i) :
    p.Plans c (i :: indices) edits where
  sublist := h.sublist.cons i
  changed := h.changed
  leaves := by
    intro j hj hedits
    obtain rfl | hj := List.mem_cons.mp hj
    · exact hi
    · exact h.leaves j hj hedits

/-- One more method is changed. -/
theorem edit (h : p.Plans c indices edits) {edit : MethodEdit} {method : MethodContext}
    {body : Body} (hedit : p.Edits c edit method body) :
    p.Plans c (edit.index :: indices) (edit :: edits) where
  sublist := h.sublist.cons_cons edit.index
  changed := List.forall_mem_cons.mpr ⟨⟨method, body, hedit⟩, h.changed⟩
  leaves := by
    intro j hj hedits
    rw [List.map_cons, List.mem_cons, not_or] at hedits
    exact h.leaves j ((List.mem_cons.mp hj).resolve_left hedits.1) hedits.2

end Plans

variable {p : Patch} {c : ClassFile} {log log' : Log}

/-- What a plan adds to the edits before it is a plan for the methods ahead. -/
theorem plans_of_planFrom {before edits : List MethodEdit} {indices : List Nat}
    (h : p.planFrom c before indices log = .ok (.edit edits) log') :
    ∃ more, edits = before.reverse ++ more ∧ p.Plans c indices more := by
  induction indices generalizing before log with
  | nil =>
    obtain ⟨hedits, -⟩ := EStateM.pure_eq_ok.mp h
    obtain rfl := Plan.edit.inj hedits
    exact ⟨[], (List.append_nil _).symm, .nil⟩
  | cons index rest ih =>
    rw [planFrom, LogM.ofExcept_bind] at h
    obtain ⟨method, hmethod, h⟩ := h
    -- A method that is left as it is does not show in the plan.
    have hskip {log : Log} (hleaves : p.Leaves c index)
        (h : p.planFrom c before rest log = .ok (.edit edits) log') :
        ∃ more, edits = before.reverse ++ more ∧ p.Plans c (index :: rest) more := by
      obtain ⟨more, hmore, hplans⟩ := ih h
      exact ⟨more, hmore, hplans.skip hleaves⟩
    split at h
    · rename_i htargets
      rw [LogM.ofExcept_bind] at h
      obtain ⟨found, hbody, h⟩ := h
      cases found with
      | none => exact hskip ⟨method, hmethod, .inr (.inl hbody)⟩ h
      | some body =>
        obtain ⟨log₁, hpatch⟩ := p.patchBody_eq method body log
        obtain ⟨result, log₂, hresult, h⟩ := EStateM.bind_eq_ok.mp h
        obtain ⟨rfl, rfl⟩ := EStateM.Result.ok.inj (hpatch.symm.trans hresult)
        cases hrewritten : p.rewritten method body with
        | error cause =>
          rw [hrewritten] at h
          obtain ⟨_, _, _, h⟩ := EStateM.bind_eq_ok.mp h
          cases (EStateM.pure_eq_ok.mp h).1
        | ok changed =>
          rw [hrewritten] at h
          dsimp only at h
          split at h
          · rename_i hsame
            exact hskip ⟨method, hmethod, .inr (.inr ⟨body, changed, hbody, hrewritten,
              eq_of_beq hsame⟩)⟩ h
          · rename_i hchanged
            obtain ⟨more, rfl, hplans⟩ := ih h
            have hne : changed.events ≠ body.events := fun h => hchanged (beq_iff_eq.mpr h)
            have hedit : p.Edits c ⟨index, method.methodName, changed⟩ method body :=
              ⟨hmethod, htargets, hbody, hrewritten, hne⟩
            exact ⟨_ :: more, by simp, hplans.edit hedit⟩
    · rename_i htargets
      exact hskip ⟨method, hmethod, .inl (Bool.eq_false_iff.mpr htargets)⟩ h

/-- A plan is for all methods of the class. -/
theorem plans_of_plan {edits : List MethodEdit} (h : p.plan c log = .ok (.edit edits) log') :
    p.Plans c (List.range c.methods.size) edits := by
  obtain ⟨more, hmore, hplans⟩ := plans_of_planFrom h
  obtain rfl : edits = more := hmore
  exact hplans

end Patch
end ClassPatch
