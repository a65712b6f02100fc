import ClassPatch.Proofs.Patch.Watching

/-!
# Guards that have been placed

A guard begins by pushing the guarded type, and before it looks at anything else it pushes a
forbidden type. So the search that meets its own guard finds a window that is guarded already,
unless control does not come to the guard: then the guard and the read behind it are not in the code
any more.
-/

namespace ClassPatch

/-- How far the place for a guard has been found, but for what the guard would do there. -/
inductive GuardPhase
  | before
  | window (isGuarded : Bool)
  | done
  deriving DecidableEq

/-- The search is in the phase. -/
def GuardSearch.IsIn (s : GuardSearch) : GuardPhase → Prop
  | .before => s.inWindow = false ∧ s.isDone = false ∧ s.isGuarded = false
  | .window isGuarded => s.inWindow = true ∧ s.isDone = false ∧ s.isGuarded = isGuarded
  | .done => s.inWindow = false ∧ s.isDone = true

namespace PropertyGuard

variable (g : PropertyGuard)

/-- The read of a field that ends the comparison. -/
def IsTrigger {τ : Type} (i : Instruction τ) : Prop :=
  ∃ owner descriptor, i = .field .getStatic owner g.triggerField descriptor

/-- A guard is placed at a trigger in a window that is not guarded. -/
def watch : Watch GuardPhase where
  next
    | .before, .push (.classRef name) => if name = g.guardedType then .window false else .before
    | .window isGuarded, .push (.classRef name) =>
      .window (isGuarded || g.forbiddenTypes.contains name)
    | .window isGuarded, .field .getStatic _ name _ =>
      if name = g.triggerField then .done else .window isGuarded
    | phase, _ => phase
  Leaves phase i := g.IsTrigger i → phase ≠ .window false

/-- The code that is made has been entered where the guard stands, if one has been placed. -/
def Settled (before after : Body) : Prop :=
  ∀ n i, (shapes before.events)[n]? = some i → g.IsTrigger i →
    g.watch.after .before ((shapes before.events).take n) = .window false → after.Live n

variable {g}

@[simp] theorem next_before_classRef (name : String) :
    g.watch.next .before (.push (.classRef name)) =
      if name = g.guardedType then .window false else .before := rfl

@[simp] theorem next_window_classRef (isGuarded : Bool) (name : String) :
    g.watch.next (.window isGuarded) (.push (.classRef name)) =
      .window (isGuarded || g.forbiddenTypes.contains name) := rfl

@[simp] theorem next_window_getStatic (isGuarded : Bool) (owner name descriptor : String) :
    g.watch.next (.window isGuarded) (.field .getStatic owner name descriptor) =
      if name = g.triggerField then .done else .window isGuarded := rfl

@[simp] theorem next_done (i : Instruction Unit) : g.watch.next .done i = .done := rfl

/-! ### What a step does -/

/-- The phase behind the push of a class. -/
private theorem isIn_classRef {s : GuardSearch} {phase : GuardPhase} (h : s.IsIn phase)
    (name : String) :
    (if s.isBefore && decide (name = g.guardedType) then { s with inWindow := true }
      else if s.inWindow && g.forbiddenTypes.contains name then { s with isGuarded := true }
      else s).IsIn (g.watch.next phase (.push (.classRef name))) := by
  cases phase with
  | before =>
    obtain ⟨hwindow, hdone, hguarded⟩ := h
    by_cases hname : name = g.guardedType
    · simp [GuardSearch.isBefore, GuardSearch.IsIn, hname, hwindow, hdone, hguarded]
    · simp [GuardSearch.isBefore, GuardSearch.IsIn, hname, hwindow, hdone, hguarded]
  | window isGuarded =>
    obtain ⟨hwindow, hdone, rfl⟩ := h
    by_cases hname : name ∈ g.forbiddenTypes
    · simp [GuardSearch.isBefore, GuardSearch.IsIn, hname, hwindow, hdone]
    · simp [GuardSearch.isBefore, GuardSearch.IsIn, hname, hwindow, hdone]
  | done =>
    obtain ⟨hwindow, hdone⟩ := h
    simp [GuardSearch.isBefore, GuardSearch.IsIn, hwindow, hdone]

/-- What the machine makes of the push of a class. -/
private theorem step_classRef (method : MethodContext) (s : GuardSearch) (name : String)
    (r : PatchState) : ∃ r', g.step method s (.instr (.push (.classRef name))) r =
      .ok (if s.isBefore && decide (name = g.guardedType) then { s with inWindow := true }
        else if s.inWindow && g.forbiddenTypes.contains name then { s with isGuarded := true }
        else s, [.instr (.push (.classRef name))]) r' := by
  by_cases hopens : (s.isBefore && decide (name = g.guardedType)) = true
  · rw [if_pos hopens]
    exact ⟨_, congrFun (if_pos hopens) r⟩
  · rw [if_neg hopens]
    exact ⟨_, congrFun (if_neg hopens) r⟩

/-- A read that the machine leaves as it is closes the window if it is a trigger. -/
private theorem step_getStatic {method : MethodContext} {s : GuardSearch} {phase : GuardPhase}
    (h : s.IsIn phase) {owner name descriptor : String}
    (hleaves : name = g.triggerField → phase ≠ .window false) (r : PatchState) :
    let i : Instruction Label := .field .getStatic owner name descriptor
    ∃ s' r', g.step method s (.instr i) r = .ok (s', [.instr i]) r' ∧
      s'.IsIn (g.watch.next phase i.shape) := by
  intro i
  by_cases hcloses : (s.inWindow && decide (name = g.triggerField)) = true
  · obtain ⟨hwindow, hname⟩ := (Bool.and_eq_true _ _).mp hcloses
    obtain rfl := of_decide_eq_true hname
    have hstep : g.step method s (.instr i) r =
        (do return (s.close, ← g.place method s (.instr i)) : PatchM (GuardSearch × List Event))
          r := congrFun (if_pos hcloses) r
    rw [hstep]
    cases phase with
    | before => cases h.1.symm.trans hwindow
    | done => cases h.1.symm.trans hwindow
    | window isGuarded =>
      obtain ⟨-, hdone, rfl⟩ := h
      have hguarded : s.isGuarded = true := by
        simpa using hleaves rfl
      refine ⟨s.close, _, EStateM.bind_eq_ok.mpr ⟨[.instr i], _, congrFun (if_pos hguarded) r, rfl⟩,
        ?_⟩
      rw [show g.watch.next (.window s.isGuarded) i.shape = .done from if_pos rfl]
      exact ⟨rfl, rfl⟩
  · refine ⟨s, r, congrFun (if_neg hcloses) r, ?_⟩
    cases phase with
    | before => exact h
    | done => exact h
    | window isGuarded =>
      have hname : name ≠ g.triggerField := by simpa [h.1] using hcloses
      rw [show g.watch.next (.window isGuarded) i.shape = .window isGuarded from if_neg hname]
      exact h

/-- The machine is in the phase that the watch says. -/
theorem tracks (method : MethodContext) : g.watch.Tracks (g.machine method) GuardSearch.IsIn where
  finish _ := rfl
  label := by
    intro s phase hphase l r
    refine ⟨_, rfl, ?_⟩
    split
    · cases phase <;> exact hphase
    · exact hphase
  instr := by
    intro s phase i hphase hleaves r
    cases i with
    | push v =>
      cases v with
      | classRef name =>
        obtain ⟨r', hstep⟩ := step_classRef method s name r
        exact ⟨_, r', hstep, isIn_classRef hphase name⟩
      | _ => exact ⟨s, r, rfl, by cases phase <;> exact hphase⟩
    | jump kind target =>
      cases kind with
      | goto =>
        by_cases hwindow : s.inWindow = true
        · refine ⟨{ s with exits := s.exits.push target }, _, congrFun (if_pos hwindow) r, ?_⟩
          cases phase <;> exact hphase
        · exact ⟨s, r, congrFun (if_neg hwindow) r, by cases phase <;> exact hphase⟩
      | _ => exact ⟨s, r, rfl, by cases phase <;> exact hphase⟩
    | store kind slot =>
      cases kind with
      | reference =>
        refine ⟨_, r, rfl, ?_⟩
        split <;> cases phase <;> exact hphase
      | _ => exact ⟨s, r, rfl, by cases phase <;> exact hphase⟩
    | field access owner name descriptor =>
      cases access with
      | getStatic =>
        refine step_getStatic hphase (fun hname => hleaves ⟨owner, descriptor, ?_⟩) r
        rw [← hname]
        rfl
      | _ => exact ⟨s, r, rfl, by cases phase <;> exact hphase⟩
    | _ => exact ⟨s, r, rfl, by cases phase <;> exact hphase⟩

/-- At a trigger in a window that is not guarded a guard is placed. -/
theorem guard_of_step {method : MethodContext} {s s' : GuardSearch} {i : Instruction Label}
    {out : List Event} {r r' : PatchState} (hphase : s.IsIn (.window false)) (hi : g.IsTrigger i)
    (h : g.step method s (.instr i) r = .ok (s', out) r') : s'.IsIn .done ∧
      ∃ subject exit checks done, out = g.code subject exit checks done ++ [.instr i] := by
  obtain ⟨owner, descriptor, rfl⟩ := hi
  obtain ⟨hwindow, -, hguarded⟩ := hphase
  have hcloses : (s.inWindow && decide (g.triggerField = g.triggerField)) = true := by
    simp [hwindow]
  obtain ⟨placed, r₁, hplaced, h⟩ :=
    EStateM.bind_eq_ok.mp ((congrFun (if_pos hcloses) r).symm.trans h)
  obtain ⟨hresult, -⟩ := EStateM.pure_eq_ok.mp h
  obtain ⟨rfl, rfl⟩ := Prod.mk.inj hresult
  refine ⟨⟨rfl, rfl⟩, ?_⟩
  have hunguarded : ¬s.isGuarded = true := by simp [hguarded]
  obtain ⟨-, r₂, -, h⟩ :=
    EStateM.bind_eq_ok.mp ((congrFun (if_neg hunguarded) r).symm.trans hplaced)
  cases hexit : s.exit? with
  | none =>
    rw [hexit] at h
    exact absurd h EStateM.throw_ne_ok
  | some exit =>
    cases hsubject : s.subject with
    | none =>
      rw [hexit, hsubject] at h
      exact absurd h EStateM.throw_ne_ok
    | some subject =>
      rw [hexit, hsubject] at h
      obtain ⟨-, r₃, -, h⟩ := EStateM.bind_eq_ok.mp h
      obtain ⟨checks, r₄, -, h⟩ := EStateM.bind_eq_ok.mp h
      obtain ⟨done, r₅, -, h⟩ := EStateM.bind_eq_ok.mp h
      obtain ⟨rfl, -⟩ := EStateM.pure_eq_ok.mp h
      exact ⟨subject, exit, checks, done, rfl⟩

/-! ### What a run does -/

theorem isTrigger_shape {τ : Type} {i : Instruction τ} : g.IsTrigger i.shape ↔ g.IsTrigger i := by
  constructor
  · rintro ⟨owner, descriptor, h⟩
    refine ⟨owner, descriptor, ?_⟩
    cases i <;> simp_all [Instruction.shape, Instruction.map]
  · rintro ⟨owner, descriptor, rfl⟩
    exact ⟨owner, descriptor, rfl⟩

@[simp] theorem next_jump (phase : GuardPhase) (kind : Jump) (target : Unit) :
    g.watch.next phase (.jump kind target) = phase := by
  cases phase <;> rfl

theorem not_isTrigger_jump {τ : Type} (kind : Jump) (target : τ) :
    ¬g.IsTrigger (.jump kind target) := by
  rintro ⟨owner, descriptor, h⟩
  cases h

theorem leaves_push (phase : GuardPhase) (v : Value) : g.watch.Leaves phase (.push v) := by
  rintro ⟨owner, descriptor, h⟩
  cases h

/-- Jumps do not matter. -/
theorem quiet_jump (phase : GuardPhase) (kind : Jump) (code : List (Instruction Unit)) :
    g.watch.Quiet phase (.jump kind () :: code) ↔ g.watch.Quiet phase code := by
  rw [Watch.quiet_cons, next_jump]
  exact and_iff_right fun hi => absurd hi (not_isTrigger_jump kind ())

theorem after_jump (phase : GuardPhase) (kind : Jump) (code : List (Instruction Unit)) :
    g.watch.after phase (.jump kind () :: code) = g.watch.after phase code := by
  rw [Watch.after_cons, next_jump]

/-- Only the guarded type opens the window. -/
theorem next_before (i : Instruction Unit) : g.watch.next .before i = .before ∨
    i = .push (.classRef g.guardedType) ∧ g.watch.next .before i = .window false := by
  cases i with
  | push v =>
    cases v with
    | classRef name =>
      rw [next_before_classRef]
      split
      · rename_i hname
        exact .inr ⟨by rw [hname], rfl⟩
      · exact .inl rfl
    | _ => exact .inl rfl
  | _ => exact .inl rfl

/-- Only a trigger closes the window. -/
theorem next_window (isGuarded : Bool) (i : Instruction Unit) :
    g.IsTrigger i ∧ g.watch.next (.window isGuarded) i = .done ∨
    ¬g.IsTrigger i ∧ ∃ more, g.watch.next (.window isGuarded) i = .window (isGuarded || more) := by
  have hstays : ∃ more, GuardPhase.window isGuarded = .window (isGuarded || more) :=
    ⟨false, by rw [Bool.or_false]⟩
  cases i with
  | push v =>
    refine .inr ⟨?_, ?_⟩
    · rintro ⟨owner, descriptor, h⟩
      cases h
    · cases v with
      | classRef name => exact ⟨_, rfl⟩
      | _ => exact hstays
  | field access owner name descriptor =>
    cases access with
    | getStatic =>
      rw [next_window_getStatic]
      split
      · rename_i hname
        exact .inl ⟨⟨owner, descriptor, by rw [hname]⟩, rfl⟩
      · rename_i hname
        refine .inr ⟨?_, hstays⟩
        rintro ⟨owner, descriptor, h⟩
        exact hname (Instruction.field.inj h).2.2.1
    | _ =>
      refine .inr ⟨?_, hstays⟩
      rintro ⟨owner, descriptor, h⟩
      cases h
  | _ =>
    refine .inr ⟨?_, hstays⟩
    rintro ⟨owner, descriptor, h⟩
    cases h

/-- A window that has been closed or is guarded stays so. -/
theorem next_closed {phase : GuardPhase} (h : phase = .done ∨ phase = .window true)
    (i : Instruction Unit) :
    g.watch.next phase i = .done ∨ g.watch.next phase i = .window true := by
  obtain rfl | rfl := h
  · exact .inl rfl
  · obtain ⟨-, hdone⟩ | ⟨-, more, hmore⟩ := next_window true i
    · exact .inl hdone
    · exact .inr hmore

/-- Behind the window, and in a window that is guarded, nothing is placed. -/
theorem quiet_of_closed {phase : GuardPhase} (h : phase = .done ∨ phase = .window true)
    (code : List (Instruction Unit)) : g.watch.Quiet phase code := by
  induction code generalizing phase with
  | nil => trivial
  | cons i code ih =>
    refine ⟨fun _ => ?_, ih (next_closed h i)⟩
    obtain rfl | rfl := h <;> decide

/-- In front of a window that is not guarded, none has been closed or is guarded. -/
theorem open_of_after {phase : GuardPhase} {code : List (Instruction Unit)}
    (h : g.watch.after phase code = .window false) : phase = .before ∨ phase = .window false := by
  have hclosed : ∀ {phase : GuardPhase}, phase = .done ∨ phase = .window true →
      g.watch.after phase code = .done ∨ g.watch.after phase code = .window true := by
    clear h
    induction code with
    | nil => exact id
    | cons i code ih => exact fun hphase => ih (next_closed hphase i)
  cases phase with
  | before => exact .inl rfl
  | window isGuarded =>
    cases isGuarded with
    | false => exact .inr rfl
    | true => obtain h' | h' := hclosed (.inr rfl) <;> cases h'.symm.trans h
  | done => obtain h' | h' := hclosed (.inl rfl) <;> cases h'.symm.trans h

/-- A run that changes anything places one guard, in front of a trigger in a window that is not
guarded. -/
theorem guard_of_output {method : MethodContext} {s : GuardSearch} {phase : GuardPhase}
    {events out : List Event} {r r' : PatchState} (hphase : s.IsIn phase)
    (h : (g.machine method).output s events r = .ok out r') (hchanged : out ≠ events) :
    ∃ front i back subject exit checks done, events = front ++ .instr i :: back ∧ g.IsTrigger i ∧
      g.watch.after phase (shapes front) = .window false ∧
      out = front ++ (g.code subject exit checks done ++ .instr i :: back) := by
  induction events generalizing s phase out r r' with
  | nil =>
    obtain ⟨rfl, -⟩ := EStateM.pure_eq_ok.mp h
    exact absurd rfl hchanged
  | cons e events ih =>
    obtain ⟨⟨s', front⟩, r₁, hstep, h⟩ := EStateM.bind_eq_ok.mp h
    obtain ⟨back, r₂, hback, h⟩ := EStateM.bind_eq_ok.mp h
    obtain ⟨rfl, -⟩ := EStateM.pure_eq_ok.mp h
    -- An event that stays is one more in front of the guard.
    have hcons {t : GuardSearch} {phase' : GuardPhase} {r₃ : PatchState}
        (hkept : (g.machine method).step s e r = .ok (t, [e]) r₃) (hphase' : t.IsIn phase')
        (hafter : ∀ front, g.watch.after phase (shapes (e :: front)) =
          g.watch.after phase' (shapes front)) :
        ∃ before i after subject exit checks done,
          e :: events = before ++ .instr i :: after ∧ g.IsTrigger i ∧
          g.watch.after phase (shapes before) = .window false ∧
          front ++ back = before ++ (g.code subject exit checks done ++ .instr i :: after) := by
      obtain ⟨hresult, rfl⟩ := EStateM.Result.ok.inj (hkept.symm.trans hstep)
      obtain ⟨rfl, rfl⟩ := Prod.mk.inj hresult
      obtain ⟨before, i, after, subject, exit, checks, done, rfl, hi, hwindow, rfl⟩ :=
        ih hphase' hback fun heq => hchanged (congrArg (e :: ·) heq)
      exact ⟨e :: before, i, after, subject, exit, checks, done, rfl, hi, (hafter _).trans hwindow,
        rfl⟩
    cases e with
    | label l =>
      obtain ⟨t, hkept, hphase'⟩ := (tracks method).label hphase l r
      exact hcons hkept hphase' fun _ => rfl
    | instr i =>
      by_cases hleaves : g.watch.Leaves phase i.shape
      · obtain ⟨t, r₃, hkept, hphase'⟩ := (tracks method).instr hphase hleaves r
        exact hcons hkept hphase' fun _ => rfl
      · obtain ⟨hi, hwindow⟩ := Classical.not_imp.mp hleaves
        obtain rfl := Classical.not_not.mp hwindow
        have hi := isTrigger_shape.mp hi
        obtain ⟨hdone, subject, exit, checks, done, rfl⟩ := guard_of_step hphase hi hstep
        obtain ⟨r₃, hrest⟩ := (tracks method).output_eq hdone (quiet_of_closed (.inl rfl) _) r₁
        obtain ⟨rfl, -⟩ := EStateM.Result.ok.inj (hrest.symm.trans hback)
        exact ⟨[], i, events, subject, exit, checks, done, rfl, hi, rfl, by simp⟩

/-! ### Behind encoding -/

/-- The second phase has opened the window no sooner than the first one, which has not closed it. -/
def Lags (phase phase' : GuardPhase) : Prop :=
  phase' = .before ∨ phase = .window false ∧ ∃ isGuarded, phase' = .window isGuarded

namespace Lags

variable {phase phase' : GuardPhase} {i : Instruction Unit}

/-- A window that is open and stays so meets no trigger. -/
private theorem window_next (hopen : g.watch.next (.window false) i = .before ∨
    g.watch.next (.window false) i = .window false) :
    ¬g.IsTrigger i ∧ g.watch.next (.window false) i = .window false := by
  obtain ⟨-, hdone⟩ | ⟨hi, more, hmore⟩ := next_window (g := g) false i
  · rw [hdone] at hopen
    obtain hopen | hopen := hopen <;> cases hopen
  · rw [hmore] at hopen
    obtain hopen | hopen := hopen
    · cases hopen
    · exact ⟨hi, hmore.trans hopen⟩

/-- An instruction is dropped. -/
theorem drop (h : Lags phase phase')
    (hopen : g.watch.next phase i = .before ∨ g.watch.next phase i = .window false) :
    Lags (g.watch.next phase i) phase' := by
  obtain hbefore | ⟨rfl, hwindow⟩ := h
  · exact .inl hbefore
  · exact .inr ⟨(window_next hopen).2, hwindow⟩

/-- An instruction is kept. -/
theorem keep (h : Lags phase phase')
    (hopen : g.watch.next phase i = .before ∨ g.watch.next phase i = .window false) :
    g.watch.Leaves phase' i ∧ Lags (g.watch.next phase i) (g.watch.next phase' i) := by
  obtain rfl | ⟨rfl, isGuarded, rfl⟩ := h
  · refine ⟨fun _ => nofun, ?_⟩
    obtain hbefore | ⟨rfl, hopened⟩ := next_before (g := g) i
    · exact .inl hbefore
    · refine .inr ⟨?_, false, hopened⟩
      cases phase with
      | before => exact hopened
      | window isGuarded => exact hopen.resolve_left nofun
      | done => exact hopen.resolve_left nofun
  · obtain ⟨hi, hstays⟩ := window_next hopen
    obtain ⟨hi', -⟩ | ⟨-, more, hmore⟩ := next_window (g := g) isGuarded i
    · exact absurd hi' hi
    · exact ⟨fun hi' => absurd hi' hi, .inr ⟨hstays, _, hmore⟩⟩

/-- The push of the guarded type leaves the window open. -/
theorem opened (h : Lags phase phase') : ∃ isGuarded,
    g.watch.next phase' (.push (.classRef g.guardedType)) = .window isGuarded := by
  obtain rfl | ⟨-, isGuarded, rfl⟩ := h
  · exact ⟨false, if_pos rfl⟩
  · exact ⟨_, rfl⟩

end Lags

variable {live far : Nat → Prop} {place : Nat → Nat} {n m : Nat}
    {code code' : List (Instruction Nat)}

/-- What is left of the code in front of a guard opens the window no sooner than the code. -/
theorem quiet_of_front (h : Relayed live far place n m code code') {phase phase' : GuardPhase}
    (hlags : Lags phase phase')
    (hend : g.watch.after phase (code.map (·.shape)) = .window false) :
    g.watch.Quiet phase' (code'.map (·.shape)) ∧
      Lags (.window false) (g.watch.after phase' (code'.map (·.shape))) := by
  induction h generalizing phase phase' with
  | nil =>
    obtain rfl : phase = .window false := hend
    exact ⟨trivial, hlags⟩
  | drop hn hdead rest ih => exact ih (hlags.drop (open_of_after hend)) hend
  | @keep n m i code code' hn hlive rest ih =>
    obtain ⟨hleaves, hlags'⟩ := hlags.keep (open_of_after hend)
    rw [List.map_cons, Instruction.shape_map]
    obtain ⟨hquiet, hafter⟩ := ih hlags' hend
    exact ⟨⟨hleaves, hquiet⟩, hafter⟩
  | @bridge n m t c code code' hn hlive hfar rest ih =>
    have hcode (code' : List (Instruction Unit)) := after_jump (g := g) phase (.branch c) code'
    show g.watch.Quiet phase' (.jump _ () :: .jump _ () :: _) ∧
      Lags _ (g.watch.after phase' (.jump _ () :: .jump _ () :: _))
    rw [quiet_jump, quiet_jump, after_jump, after_jump]
    exact ih hlags ((hcode _).symm.trans hend)

/-- What is left of code without a trigger leaves the window open. -/
theorem window_of_relayed (h : Relayed live far place n m code code')
    (hcode : ∀ i ∈ code, ¬g.IsTrigger i) (isGuarded : Bool) :
    g.watch.Quiet (.window isGuarded) (code'.map (·.shape)) ∧
      ∃ b, g.watch.after (.window isGuarded) (code'.map (·.shape)) = .window b := by
  induction h generalizing isGuarded with
  | nil => exact ⟨trivial, isGuarded, rfl⟩
  | drop hn hdead rest ih => exact ih (fun i hi => hcode i (List.mem_cons_of_mem _ hi)) isGuarded
  | @keep n m i code code' hn hlive rest ih =>
    rw [List.forall_mem_cons] at hcode
    obtain ⟨hi, -⟩ | ⟨hi, more, hmore⟩ := next_window (g := g) isGuarded i.shape
    · exact absurd (isTrigger_shape.mp hi) hcode.1
    · obtain ⟨hquiet, hafter⟩ := ih hcode.2 (isGuarded || more)
      rw [List.map_cons, Instruction.shape_map, Watch.quiet_cons, Watch.after_cons, hmore]
      exact ⟨⟨fun hi' => absurd hi' hi, hquiet⟩, hafter⟩
  | bridge hn hlive hfar rest ih =>
    show g.watch.Quiet _ (.jump _ () :: .jump _ () :: _) ∧
      ∃ b, g.watch.after _ (.jump _ () :: .jump _ () :: _) = .window b
    rw [quiet_jump, quiet_jump, after_jump, after_jump]
    exact ih (fun i hi => hcode i (List.mem_cons_of_mem _ hi)) isGuarded

/-! ### The guard -/

/-- The part of a guard up to the push of a forbidden type. -/
def front (g : PropertyGuard) (subject : UInt16) (exit checks done : Label) : List Event :=
  g.nameCheck subject exit checks ++
    [.label checks, loadReference subject, getPropertyType, jump (.branch .ifNull) done]

variable {subject : UInt16} {exit checks done : Label}

/-- A guard pushes a forbidden type if there is one. -/
theorem exists_code_eq (g : PropertyGuard) (h : g.forbiddenTypes ≠ []) (subject : UInt16)
    (exit checks done : Label) : ∃ name ∈ g.forbiddenTypes, ∃ back,
      g.code subject exit checks done =
        g.front subject exit checks done ++ pushClass name :: back := by
  obtain ⟨name, names, hnames⟩ := List.exists_cons_of_ne_nil h
  refine ⟨name, hnames ▸ List.mem_cons_self .., ?_⟩
  rw [code, hnames]
  cases names with
  | nil => exact ⟨_, List.append_assoc ..⟩
  | cons name' names => exact ⟨_, List.append_assoc ..⟩

/-- The front of a guard begins with the push of the guarded type and has no trigger behind it. -/
theorem exists_front_eq (g : PropertyGuard) (subject : UInt16) (exit checks done : Label) :
    ∃ middle, instructions (g.front subject exit checks done) =
        .push (.classRef g.guardedType) :: middle ∧ middle.length = 16 ∧
      ∀ i ∈ middle, ¬g.IsTrigger i := by
  refine ⟨_, rfl, rfl, fun i hi => ?_⟩
  have hno : ∀ e ∈ g.front subject exit checks done, ∀ owner name descriptor,
      e ≠ .instr (.field .getStatic owner name descriptor) := by
    simp [front, nameCheck, pushClass, loadReference, jump, getName, getPropertyType, call]
  rintro ⟨owner, descriptor, rfl⟩
  exact hno _ (mem_instructions.mp (List.mem_cons_of_mem _ hi)) _ _ _ rfl

/-- Control that comes to a guard comes to its push of a forbidden type. -/
theorem reaches_forbidden {before after : List Event} {guards : List Guard}
    (hnodup : (placedLabels (before ++ (g.front subject exit checks done ++ after))).Nodup)
    (h : Reaches (program (before ++ (g.front subject exit checks done ++ after))) guards
      (instructions before).length) :
    Reaches (program (before ++ (g.front subject exit checks done ++ after))) guards
      ((instructions before).length + 17) := by
  generalize hevents : before ++ (g.front subject exit checks done ++ after) = events at *
  have hat {k : Nat} {i : Instruction Label}
      (hk : (instructions (g.front subject exit checks done))[k]? = some i) :
      (program events)[(instructions before).length + k]? = some (i.map (landing events)) := by
    have hlt := (List.getElem?_eq_some_iff.mp hk).1
    rw [program, List.getElem?_map, ← hevents, instructions_append, instructions_append,
      List.getElem?_append_right (Nat.le_add_right _ _), Nat.add_sub_cancel_left,
      List.getElem?_append_left hlt, hk]
    rfl
  have hchecks : landing events checks = (instructions before).length + 14 := by
    have hlabel : events[before.length + 14]? = some (.label checks) := by
      rw [← hevents, List.getElem?_append_right (Nat.le_add_right _ _), Nat.add_sub_cancel_left]
      rfl
    rw [landing_at hnodup hlabel, numberAt, ← hevents, List.take_length_add_append,
      instructions_append, List.length_append]
    rfl
  have hload := h.next (hat (k := 0) rfl) rfl
  have hcompare := hload.next (hat (k := 1) rfl) rfl
  have hjump := hcompare.jump (hat (k := 2) rfl) (List.mem_singleton.mpr rfl)
  rw [hchecks] at hjump
  have hcall := hjump.next (hat (k := 14) rfl) rfl
  have htest := hcall.next (hat (k := 15) rfl) rfl
  exact htest.next (hat (k := 16) rfl) rfl

/-- Code behind a guard that control comes to has the guard. -/
theorem ignores_of_settled {method : MethodContext} {body changed result : Body}
    {far : Nat → Prop} {place : Nat → Nat} (hforbidden : g.forbiddenTypes ≠ [])
    (h : g.Settled body changed) {r r' : PatchState}
    (hrun : (g.machine method).run body.events r = .ok changed.events r')
    (hchanged : changed.events ≠ body.events) (hnodup : (placedLabels changed.events).Nodup)
    (hrelayed : Relayed changed.Live far place 0 0 (program changed.events)
      (program result.events)) : (Strategy.propertyGuard g).Ignores method result.events := by
  have hstart : GuardSearch.start.IsIn .before := ⟨rfl, rfl, rfl⟩
  rw [Machine.run_eq] at hrun
  obtain ⟨before, i, after, subject, exit, checks, done, hbody, hi, hwindow, hevents⟩ :=
    guard_of_output hstart hrun hchanged
  obtain ⟨name, hname, back, hcode⟩ := g.exists_code_eq hforbidden subject exit checks done
  obtain ⟨middle, hfront, hlength, hmiddle⟩ := g.exists_front_eq subject exit checks done
  have hevents' : changed.events = before ++ (g.front subject exit checks done ++
      pushClass name :: (back ++ .instr i :: after)) := by
    rw [hevents, hcode, List.append_assoc]
    rfl
  -- Control comes to the guard and so to its push of a forbidden type.
  have hguard : changed.Live (instructions before).length := by
    refine h _ i.shape ?_ (isTrigger_shape.mpr hi) ?_
    · simp [hbody, shapes]
    · simpa [hbody, shapes] using hwindow
  have hpush : changed.Live ((instructions before).length + 17) := by
    rw [Body.Live, hevents'] at hguard ⊢
    exact reaches_forbidden (hevents' ▸ hnodup) hguard
  have hprogram : program changed.events =
      (instructions before).map (·.map (landing changed.events)) ++
        .push (.classRef g.guardedType) :: (middle.map (·.map (landing changed.events)) ++
          .push (.classRef name) :: (instructions (back ++ .instr i :: after)).map
            (·.map (landing changed.events))) := by
    have hinstructions : instructions changed.events = instructions before ++
        .push (.classRef g.guardedType) :: (middle ++
          .push (.classRef name) :: instructions (back ++ .instr i :: after)) := by
      rw [hevents', instructions_append, instructions_append, hfront]
      rfl
    rw [program, hinstructions]
    simp only [List.map_append, List.map_cons]
    rfl
  rw [hprogram] at hrelayed
  obtain ⟨before', atGuard, hresult, hbefore', hatGuard⟩ := hrelayed.split
  rw [List.length_map, Nat.zero_add] at hatGuard
  obtain ⟨inGuard, rfl, hinGuard⟩ := hatGuard.push_of_live hguard
  obtain ⟨middle', atPush, rfl, hmiddle', hatPush⟩ := hinGuard.split
  rw [List.length_map, hlength, Nat.add_assoc] at hatPush
  obtain ⟨behind, rfl, -⟩ := hatPush.push_of_live hpush
  have hquiet : g.watch.Quiet .before (shapes result.events) := by
    have hend : g.watch.after .before
        (((instructions before).map (·.map (landing changed.events))).map (·.shape)) =
          .window false := by
      rw [← hwindow, shapes, List.map_map]
      simp only [Function.comp_def, Instruction.shape_map]
    obtain ⟨hquiet, hlags⟩ := quiet_of_front hbefore' (.inl rfl) hend
    obtain ⟨isGuarded, hopened⟩ := hlags.opened
    obtain ⟨hquiet', b, hwindow'⟩ := window_of_relayed hmiddle' (fun i hi => by
      obtain ⟨i, hmem, rfl⟩ := List.mem_map.mp hi
      rw [← isTrigger_shape, Instruction.shape_map, isTrigger_shape]
      exact hmiddle i hmem) isGuarded
    rw [← map_shape_program, hresult]
    simp only [List.map_append, List.map_cons, Instruction.shape_push, Watch.quiet_append,
      Watch.quiet_cons]
    rw [hopened, hwindow', next_window_classRef, List.contains_iff_mem.mpr hname, Bool.or_true]
    exact ⟨hquiet, leaves_push _ _, hquiet', leaves_push _ _, quiet_of_closed (.inr rfl) _⟩
  intro r
  obtain ⟨r', hr'⟩ := (tracks method).output_eq hstart hquiet r
  exact ⟨r', (congrFun (Machine.run_eq _ _) r).trans hr'⟩

end PropertyGuard
end ClassPatch
