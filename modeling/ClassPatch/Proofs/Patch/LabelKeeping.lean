import ClassPatch.Patch.Basic
import ClassPatch.Proofs.Code.LabelSupply
import ClassPatch.Proofs.Patch.Rewriting

/-!
# Patches keep the supply serving

Every strategy rewrites the events of a method one by one. Labels stay, no `new` is added, and what
is put in place of an instruction jumps to labels that were referred to before or that it takes from
the supply and places itself. So if the supply of a body serves its events, it does so when all
stages of a pipeline have run.
-/

namespace ClassPatch

open PatchM (Gives)

variable {known : Label → Prop} {method : MethodContext} {labels : LabelSupply}

/-- What a machine makes of an event in a state that satisfies an invariant. -/
private def Keeps {σ : Type} (I : σ → Prop) (known : Label → Prop) (labels : LabelSupply)
    (e : Event) (x : σ × List Event) (labels' : LabelSupply) : Prop :=
  I x.1 ∧ e.Becomes known labels labels' x.2

private theorem Keeps.kept {σ : Type} {I : σ → Prop} {s : σ} (h : I s) (e : Event) :
    Gives labels (pure (s, [e])) (Keeps I known labels e) :=
  .pure ⟨h, .kept e⟩

/-- A machine that replaces events one by one rewrites all of them. -/
theorem Machine.rewrites {σ : Type} {m : Machine σ} {I : σ → Prop} (hfinish : m.AddsNothing)
    (hinitial : I m.initial)
    (hstep : ∀ {s : σ} {e : Event} {labels : LabelSupply}, I s → (∀ l ∈ e.targets, known l) →
      Gives labels (m.step s e) fun x labels' => I x.1 ∧ e.Becomes known labels labels' x.2)
    {events : List Event} (hevents : ∀ e ∈ events, ∀ l ∈ e.targets, known l) :
    Gives labels (m.run events) fun out labels' => Rewrites known labels events labels' out := by
  rw [run_eq]
  generalize m.initial = s at hinitial
  induction events generalizing s labels with
  | nil =>
    rw [output, hfinish s]
    exact .pure (.nil labels)
  | cons e events ih =>
    rw [List.forall_mem_cons] at hevents
    refine (hstep hinitial hevents.1).bind fun reached labels' hfront => ?_
    exact (ih hevents.2 _ hfront.1).bind fun out labels'' hout => .pure (.cons hfront.2 hout)

/-! ### Strategies -/

namespace ConstantResult

theorem becomes_step (r : ConstantResult) (placed : Bool) (e : Event) :
    Gives labels (r.step method placed e) (Keeps (fun _ => True) known labels e) := by
  cases e with
  | label l => exact Keeps.kept trivial _
  | instr i =>
    refine .ite (fun _ => Keeps.kept trivial _) fun _ => .ite (fun _ => ?_) fun _ => .note ?_
    · exact .pure ⟨trivial, .dropped i⟩
    · refine .pure ⟨trivial, .replaced i (.nil labels) ?_ ?_⟩
      · simp [code, Event.isNew]
      · simp [code, Event.targets, Instruction.targets]

end ConstantResult

namespace ForcedJump

/-- The jump that is taken always leads where the other one has led. -/
theorem becomes_step (j : ForcedJump) (marked : Bool) {e : Event} (he : ∀ l ∈ e.targets, known l) :
    Gives labels (j.step method marked e) (Keeps (fun _ => True) known labels e) := by
  unfold step
  split
  · exact .ite (fun _ => .note (Keeps.kept trivial _)) fun _ => Keeps.kept trivial _
  · exact Keeps.kept trivial _
  · rename_i kind target
    refine .ite (fun _ => .note (.pure ⟨trivial, .replaced _ (.nil labels) ?_ ?_⟩)) fun _ =>
      Keeps.kept trivial _
    · simp [code, Event.isNew]
    · have htarget : known target := he target (List.mem_singleton_self target)
      simp [code, Event.targets, Instruction.targets, htarget]
  · exact Keeps.kept trivial _

end ForcedJump

namespace PropertyGuard

/-- An event of a guard makes no object, and jumps to where the guard leads out or to its own
labels. -/
private def IsOfGuard (exit checks done : Label) (e : Event) : Prop :=
  e.isNew = false ∧ ∀ l ∈ e.targets, l = exit ∨ l = checks ∨ l = done

private theorem isOfGuard_typeTest (subject : UInt16) (name : String) (exit checks done : Label) :
    ∀ e ∈ typeTest subject name, IsOfGuard exit checks done e := by
  simp [typeTest, pushClass, loadReference, getPropertyType, call, IsOfGuard, Event.isNew,
    Event.targets, Instruction.targets]

private theorem isOfGuard_typeChecks (subject : UInt16) (exit checks done : Label)
    (names : List String) :
    ∀ e ∈ typeChecks subject exit done names, IsOfGuard exit checks done e := by
  have hjump (kind : Jump) {target : Label} (h : target = exit ∨ target = done) :
      IsOfGuard exit checks done (jump kind target) := by
    refine ⟨rfl, fun l hl => ?_⟩
    obtain rfl := List.mem_singleton.mp hl
    exact h.imp_right .inr
  have htest := fun name => isOfGuard_typeTest subject name exit checks done
  induction names with
  | nil => simp [typeChecks]
  | cons name names ih =>
    cases names with
    | nil =>
      refine List.forall_mem_append.mpr ⟨htest name, ?_⟩
      exact List.forall_mem_cons.mpr ⟨hjump _ (.inr rfl), by simpa using hjump _ (.inl rfl)⟩
    | cons name' names =>
      refine List.forall_mem_append.mpr ⟨htest name, ?_⟩
      exact List.forall_mem_cons.mpr ⟨hjump _ (.inl rfl), ih⟩

private theorem isOfGuard_code (g : PropertyGuard) (subject : UInt16) (exit checks done : Label) :
    ∀ e ∈ g.code subject exit checks done, IsOfGuard exit checks done e := by
  refine List.forall_mem_append.mpr ⟨List.forall_mem_append.mpr ⟨List.forall_mem_append.mpr
    ⟨?_, ?_⟩, isOfGuard_typeChecks subject exit checks done g.forbiddenTypes⟩, ?_⟩
  · simp [nameCheck, pushClass, loadReference, jump, getName, call, IsOfGuard, Event.isNew,
      Event.targets, Instruction.targets]
  · simp [loadReference, getPropertyType, jump, call, IsOfGuard, Event.isNew, Event.targets,
      Instruction.targets]
  · simp [IsOfGuard, Event.isNew, Event.targets]

theorem placedLabels_nameCheck (g : PropertyGuard) (subject : UInt16) (exit checks : Label) :
    placedLabels (g.nameCheck subject exit checks) = [] := rfl

theorem placedLabels_typeChecks (subject : UInt16) (exit done : Label) (names : List String) :
    placedLabels (typeChecks subject exit done names) = [] := by
  fun_induction typeChecks subject exit done names with
  | case1 => rfl
  | case2 name => rfl
  | case3 name rest hrest ih => exact ih

/-- The guard places its own two labels. -/
theorem placedLabels_code (g : PropertyGuard) (subject : UInt16) (exit checks done : Label) :
    placedLabels (g.code subject exit checks done) = [checks, done] := by
  simp [code, placedLabels_nameCheck, placedLabels_typeChecks, loadReference, getPropertyType, call,
    jump]

theorem becomes_place (g : PropertyGuard) {s : GuardSearch} (hs : ∀ l ∈ s.exits, known l)
    {i : Instruction Label} (hi : (Event.instr i).isNew = false) (htargets : i.targets = []) :
    Gives labels (g.place method s (.instr i)) fun out labels' =>
      (Event.instr i).Becomes known labels labels' out := by
  refine .ite (fun _ => .note (.pure (.kept _))) fun _ => .notes _ ?_
  split
  · rename_i exit subject hexit _
    have hknown : known exit := by
      refine hs exit (Array.mem_of_find?_eq_some (p := fun l => !s.placed.contains l) ?_)
      exact hexit
    refine .note (.fresh (.fresh (.pure (.replaced i ?_ ?_ ?_))))
    · rw [placedLabels_append, placedLabels_code]
      exact .cons (.cons (.nil _))
    · refine List.forall_mem_append.mpr ⟨fun e he => (isOfGuard_code g subject exit _ _ e he).1, ?_⟩
      simpa using hi
    · rw [placedLabels_append, placedLabels_code]
      refine List.forall_mem_append.mpr ⟨fun e he l hl => ?_, by simp [Event.targets, htargets]⟩
      rcases (isOfGuard_code g subject exit _ _ e he).2 l hl with rfl | rfl | rfl
      · exact .inl hknown
      · exact .inr (by simp)
      · exact .inr (by simp)
  · exact .throw _

/-- All exits that have been found are known. -/
theorem becomes_step (g : PropertyGuard) {s : GuardSearch} (hs : ∀ l ∈ s.exits, known l) {e : Event}
    (he : ∀ l ∈ e.targets, known l) :
    Gives labels (g.step method s e) (Keeps (fun s => ∀ l ∈ s.exits, known l) known labels e) := by
  unfold step
  split
  · refine Keeps.kept ?_ _
    split <;> exact hs
  · refine .ite (fun _ => .note (Keeps.kept hs _)) fun _ => Keeps.kept ?_ _
    split <;> exact hs
  · rename_i target
    refine .ite (fun _ => .note (Keeps.kept ?_ _)) fun _ => Keeps.kept hs _
    have htarget : known target := he target (List.mem_singleton_self target)
    intro l hl
    rcases Array.mem_push.mp hl with hl | rfl
    · exact hs l hl
    · exact htarget
  · refine Keeps.kept ?_ _
    split <;> exact hs
  · exact .ite (fun _ => (g.becomes_place hs rfl rfl).bind fun out _ hout => .pure ⟨hs, hout⟩)
      fun _ =>
      Keeps.kept hs _
  · exact Keeps.kept hs _

end PropertyGuard

/-- Every strategy rewrites events one by one. -/
theorem Strategy.rewrites (strategy : Strategy) {events : List Event}
    (hevents : ∀ e ∈ events, ∀ l ∈ e.targets, known l) :
    Gives labels (strategy.run method events) fun out labels' =>
      Rewrites known labels events labels' out := by
  cases strategy with
  | constantResult r =>
    exact Machine.rewrites (I := fun _ => True) (fun _ => rfl) trivial
      (fun _ _ => r.becomes_step _ _) hevents
  | forcedJump j =>
    exact Machine.rewrites (I := fun _ => True) (fun _ => rfl) trivial
      (fun _ he => j.becomes_step _ he) hevents
  | propertyGuard g =>
    exact Machine.rewrites (I := fun s : GuardSearch => ∀ l ∈ s.exits, known l) (fun _ => rfl)
      (by simp [PropertyGuard.machine, GuardSearch.start])
      (fun hs he => g.becomes_step hs he) hevents

/-! ### Pipelines -/

/-- Every stage is that of a strategy. -/
def Pipeline.OfStrategies (p : Pipeline) : Prop :=
  ∀ stage ∈ p, ∃ strategy, stage = .mk stage.methodName strategy

/-- A pipeline of strategies leaves a supply that serves the events, and all labels that have been
placed. -/
theorem Pipeline.serves {p : Pipeline} (hp : p.OfStrategies) {events : List Event}
    (h : labels.Serves events) :
    Gives labels (p.run method events) fun out labels' =>
      labels'.Serves out ∧ ∀ l ∈ placedLabels events, l ∈ placedLabels out := by
  unfold run
  have hstages : ∀ stage ∈ p.filter (fun stage => stage.methodName == method.methodName),
      ∃ strategy, stage = .mk stage.methodName strategy :=
    fun stage hstage => hp stage (List.mem_of_mem_filter hstage)
  generalize p.filter (fun stage => stage.methodName == method.methodName) = stages at hstages
  induction stages generalizing events labels with
  | nil => exact .pure ⟨h, fun _ hl => hl⟩
  | cons stage stages ih =>
    obtain ⟨⟨strategy, hstrategy⟩, hstages⟩ := List.forall_mem_cons.mp hstages
    rw [List.foldlM_cons, hstrategy]
    refine (strategy.rewrites h.targets).bind fun out labels' hout => ?_
    refine fun log x r hx => ?_
    obtain ⟨hserves, hplaced⟩ := ih (h.rewritten hout) hstages log x r hx
    exact ⟨hserves, fun l hl => hplaced l (hout.placed l hl)⟩

end ClassPatch
