import ClassPatch.Proofs.Patch.ConstantResult
import ClassPatch.Proofs.Patch.GuardPlacement
import ClassPatch.Proofs.Patch.MarkedJumps

/-!
# Running a strategy again

What a strategy has made of events it leaves as it is, and it takes no label for that. New code that
returns a constant is replaced by itself. A machine that forces jumps reads its own pop and its own
jump and is where it was behind the jump. A search for the place of a guard goes another way through
its own guard, but it meets the push of a forbidden type there, so it finds its window guarded.
-/

namespace ClassPatch

open PatchM (Yields)

/-- The strategies that can tell their own work: jumps that are forced are conditional, and guards
forbid some type. -/
def Strategy.TellsItself : Strategy → Prop
  | constantResult _ => True
  | forcedJump j => j.kind.isConditional = true
  | propertyGuard g => g.forbiddenTypes ≠ []

/-! ### Constants -/

namespace ConstantResult

variable {r : ConstantResult} {method : MethodContext} {events out : List Event} {s s' : PatchState}

/-- Events begin with labels, and behind these there is an instruction or nothing. -/
theorem labels_or_split (events : List Event) : instructions events = [] ∨
    ∃ before i after, events = before ++ .instr i :: after ∧ instructions before = [] := by
  induction events with
  | nil => exact .inl rfl
  | cons e events ih =>
    cases e with
    | label l =>
      obtain hnone | ⟨before, i, after, rfl, hbefore⟩ := ih
      · exact .inl hnone
      · exact .inr ⟨.label l :: before, i, after, rfl, hbefore⟩
    | instr i => exact .inr ⟨[], i, events, rfl, rfl⟩

/-- Labels stay. -/
theorem run_labels (method : MethodContext) (h : instructions events = []) (s : PatchState) :
    ((r.machine method).run events).Yields s (.ok events) s.labels := by
  have hpasses : (r.machine method).Passes false events false := by
    refine Machine.Passes.of_prefix (fun _ => false) (P := fun e => ∃ l, e = .label l)
      (fun _ e he s => ?_) [] fun e he => ?_
    · obtain ⟨l, rfl⟩ := he
      exact .pure _ s
    · cases e with
      | label l => exact ⟨l, rfl⟩
      | instr i =>
        have hi := mem_instructions.mpr he
        simp [h] at hi
  rw [Machine.run_eq]
  exact hpasses.output_eq (fun _ => rfl) s

/-- New code is replaced by itself. -/
theorem yields_of_run (hrun : (r.machine method).run events s = .ok out s') (s₁ : PatchState) :
    ((r.machine method).run out).Yields s₁ (.ok out) s₁.labels := by
  obtain hnone | ⟨before, i, after, rfl, hbefore⟩ := labels_or_split events
  · obtain ⟨log, hsame⟩ := run_labels (r := r) method hnone s
    obtain ⟨rfl, -⟩ := EStateM.Result.ok.inj (hsame.symm.trans hrun)
    exact run_labels method hnone s₁
  · obtain ⟨rfl, -⟩ := EStateM.Result.ok.inj ((run_eq method hbefore i after s).symm.trans hrun)
    have hagain := run_eq (r := r) method hbefore (.push r.value)
      (.instr (.leave r.kind) :: after.filter (·.isLabel)) s₁
    rw [List.filter_cons_of_neg (by simp [Event.isLabel]), List.filter_filter] at hagain
    simp only [Bool.and_self] at hagain
    exact ⟨_, hagain⟩

end ConstantResult

/-! ### Jumps -/

namespace ForcedJump

variable {j : ForcedJump} {method : MethodContext} {marked : Bool} {events out : List Event}
  {r r' : PatchState}

/-- An event that the bit keeps passes. -/
theorem passes_of_piece_eq {e : Event} (h : j.piece marked e = [e]) :
    (j.machine method).Passes marked [e] (j.marks marked e) := by
  refine .cons (fun r => ?_) (.nil _)
  have hstep := step_bit j method marked e r
  rwa [h] at hstep

/-- What takes the place of an event passes and leaves the bit as the event has left it. -/
theorem passes_piece (hkind : j.kind ≠ .goto) (marked : Bool) (e : Event) :
    (j.machine method).Passes marked (j.piece marked e) (j.marks marked e) := by
  cases e with
  | label l => exact passes_of_piece_eq rfl
  | instr i =>
    cases i with
    | jump kind target =>
      by_cases hforced : kind = j.kind ∧ marked = true
      · rw [piece, if_pos hforced]
        have hpop : (j.machine method).Passes marked [.instr (.plain Opcode.pop)]
            (j.marks marked (.instr (.plain Opcode.pop))) := passes_of_piece_eq rfl
        exact hpop.append (passes_of_piece_eq (if_neg fun h => hkind h.1.symm))
      · have hkept : j.piece marked (.instr (.jump kind target)) = [.instr (.jump kind target)] :=
          if_neg hforced
        rw [hkept]
        exact passes_of_piece_eq hkept
    | _ => exact passes_of_piece_eq rfl

/-- What takes the place of events passes. -/
theorem passes_pieces (hkind : j.kind ≠ .goto) (marked : Bool) (events : List Event) :
    (j.machine method).Passes marked (j.pieces marked events) (events.foldl j.marks marked) := by
  induction events generalizing marked with
  | nil => exact .nil marked
  | cons e events ih => exact (passes_piece hkind marked e).append (ih _)

/-- What the machine has made of events is left as it is. -/
theorem yields_of_run (hkind : j.kind ≠ .goto) (hrun : (j.machine method).run events r = .ok out r')
    (r₁ : PatchState) : ((j.machine method).run out).Yields r₁ (.ok out) r₁.labels := by
  rw [Machine.run_eq] at hrun ⊢
  obtain ⟨log, houtput⟩ := output_bit j method false events r
  obtain ⟨rfl, -⟩ := EStateM.Result.ok.inj (houtput.symm.trans hrun)
  exact (passes_pieces hkind false events).output_eq (fun _ => rfl) r₁

end ForcedJump

/-! ### Guards -/

namespace PropertyGuard

variable {g : PropertyGuard} {subject : UInt16} {exit checks done : Label}

/-- No part of a guard reads a field. -/
theorem not_isTrigger_of_mem_code {i : Instruction Label}
    (hi : .instr i ∈ g.code subject exit checks done) : ¬g.IsTrigger i := by
  have htest (name : String) : ∀ e ∈ typeTest subject name, ∀ owner field descriptor,
      e ≠ .instr (.field .getStatic owner field descriptor) := by
    simp [typeTest, pushClass, loadReference, getPropertyType, call]
  have hchecks (names : List String) : ∀ e ∈ typeChecks subject exit done names,
      ∀ owner field descriptor, e ≠ .instr (.field .getStatic owner field descriptor) := by
    induction names with
    | nil => simp [typeChecks]
    | cons name names ih =>
      cases names with
      | nil => exact List.forall_mem_append.mpr ⟨htest name, by simp [jump]⟩
      | cons name' names =>
        refine List.forall_mem_append.mpr ⟨htest name, List.forall_mem_cons.mpr ⟨?_, ih⟩⟩
        simp [jump]
  have hcode : ∀ e ∈ g.code subject exit checks done, ∀ owner field descriptor,
      e ≠ .instr (.field .getStatic owner field descriptor) := by
    refine List.forall_mem_append.mpr ⟨List.forall_mem_append.mpr
      ⟨List.forall_mem_append.mpr ⟨?_, ?_⟩, hchecks g.forbiddenTypes⟩, ?_⟩
    · simp [nameCheck, pushClass, loadReference, jump, getName, call]
    · simp [loadReference, getPropertyType, jump, call]
    · simp
  rintro ⟨owner, descriptor, rfl⟩
  exact hcode _ hi _ _ _ rfl

/-- A guard pushes a forbidden type, if there is one. -/
theorem pushesForbidden_code (h : g.forbiddenTypes ≠ []) (subject : UInt16)
    (exit checks done : Label) : g.PushesForbidden (g.code subject exit checks done) := by
  obtain ⟨name, hname, back, hcode⟩ := g.exists_code_eq h subject exit checks done
  exact ⟨name, hname, hcode ▸ by simp⟩

/-- Events that a guard has been placed in, or that need none, are left as they are. -/
theorem Places.again (hforbidden : g.forbiddenTypes ≠ []) {events out : List Event}
    {labels labels' : LabelSupply} (h : g.Places events labels (.ok out) labels')
    (labels₁ : LabelSupply) : g.Places out labels₁ (.ok out) labels₁ := by
  cases h with
  | absent habsent => exact .absent habsent
  | guarded window hguarded => exact .guarded window hguarded
  | @placed before inside after trigger subject exit window hunguarded hsubject hexit =>
    -- The guard belongs to the window in which the search looks for the second time.
    have hwindow : g.Window (before ++ pushClass g.guardedType :: (inside ++
        (g.code subject exit labels.fresh labels.advance.fresh ++ .instr trigger :: after))) before
        (inside ++ g.code subject exit labels.fresh labels.advance.fresh) trigger after := by
      refine ⟨by rw [List.append_assoc], window.first, window.trigger, fun i hi => ?_⟩
      obtain hi | hi := List.mem_append.mp hi
      · exact window.nearest i hi
      · exact not_isTrigger_of_mem_code hi
    obtain ⟨name, hname, hpush⟩ :=
      pushesForbidden_code hforbidden subject exit labels.fresh labels.advance.fresh
    exact .guarded hwindow ⟨name, hname, List.mem_append_right _ hpush⟩

end PropertyGuard

/-! ### Strategies -/

namespace Strategy

/-- What a strategy has made of events it leaves as it is, with whatever labels it is given, and it
takes none of them. -/
theorem yields_again {strategy : Strategy} (h : strategy.TellsItself) {method : MethodContext}
    {events out : List Event} {r r' : PatchState} (hrun : strategy.run method events r = .ok out r')
    (r₁ : PatchState) : (strategy.run method out).Yields r₁ (.ok out) r₁.labels := by
  cases strategy with
  | constantResult c => exact ConstantResult.yields_of_run hrun r₁
  | forcedJump j =>
    have hkind : j.kind ≠ .goto := by
      intro hgoto
      rw [TellsItself, hgoto] at h
      cases h
    exact ForcedJump.yields_of_run hkind hrun r₁
  | propertyGuard g =>
    have hyields : ((g.machine method).run events).Yields r (.ok out) r'.labels := ⟨r'.log, hrun⟩
    have hplaces := PropertyGuard.places_of_yields method hyields
    exact (hplaces.again h r₁.labels).yields method

/-- A guard is placed in front of `TRACE`, and the second time there is nothing to do. -/
theorem yields_again_guard :
    let g : PropertyGuard :=
      ⟨"java/lang/Class", "TRACE", 1, "name", "Name", ["java/lang/ClassLoader"]⟩
    let method : MethodContext := ⟨"Bean", "m", "()V", false, 52⟩
    let front := [.instr (.store .reference 2), PropertyGuard.pushClass "java/lang/Class",
      PropertyGuard.jump .goto ⟨0⟩]
    let back := [.instr (.field .getStatic "Bean" "TRACE" "Z"), .label ⟨0⟩, .instr (.leave none)]
    let out := front ++ (g.code 2 ⟨0⟩ ⟨2⟩ ⟨3⟩ ++ back)
    (Strategy.propertyGuard g).TellsItself ∧ ∃ log,
      (Strategy.propertyGuard g).run method (front ++ back) ⟨⟨2⟩, #[]⟩ = .ok out ⟨⟨4⟩, log⟩ ∧
      ((Strategy.propertyGuard g).run method out).Yields ⟨⟨4⟩, log⟩ (.ok out) ⟨4⟩ := by
  intro g method front back out
  have window : g.Window (front ++ back) [.instr (.store .reference 2)]
      [PropertyGuard.jump .goto ⟨0⟩] (.field .getStatic "Bean" "TRACE" "Z")
      [.label ⟨0⟩, .instr (.leave none)] :=
    { events_eq := rfl
      first := by decide
      trigger := ⟨_, _, rfl⟩
      nearest := by simp [PropertyGuard.IsTrigger, PropertyGuard.jump] }
  have hplaces : g.Places (front ++ back) ⟨2⟩ (.ok out) ⟨4⟩ :=
    .placed window
      (by simp [PropertyGuard.PushesForbidden, PropertyGuard.pushClass, PropertyGuard.jump]) rfl rfl
  have htells : (Strategy.propertyGuard g).TellsItself := List.cons_ne_nil _ _
  obtain ⟨log, hrun⟩ := hplaces.yields method (r := ⟨⟨2⟩, #[]⟩)
  exact ⟨htells, log, hrun, yields_again htells hrun ⟨⟨4⟩, log⟩⟩

end Strategy
end ClassPatch
