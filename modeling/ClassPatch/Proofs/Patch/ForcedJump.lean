import ClassPatch.Proofs.Patch.Watching

/-!
# Jumps that have been forced

When a forced jump has been taken always, no jump of its kind follows a marker any more. Encoding
changes this only if it drops code between a marker and a jump, or bridges a far jump of the
opposite kind. A strict jump may also have been spared for a label behind the marker, and the label
may go.
-/

namespace ClassPatch.ForcedJump

variable (j : ForcedJump)

/-- A marker is pending as long as a jump may use it. Labels do not count. -/
def watch : Watch Bool where
  next pending
    | .push (.string text) => text = j.marker
    | .push _ => false
    | .jump _ _ => false
    | _ => pending && j.adjacency = .lenient
  Leaves pending i := pending = true → i ≠ .jump j.kind ()

/-- A marker is pending behind the first instructions. -/
def pendingAt (code : List (Instruction Unit)) (n : Nat) : Bool := j.watch.after false (code.take n)

/-- Encoding the body brings no jump of the kind behind a marker. -/
structure Settled (j : ForcedJump) (pool : ConstantPool) (method : MethodContext) (body : Body) :
    Prop where
  /-- No label has kept a strict jump from its marker. -/
  strict : j.adjacency = .strict → j.watch.Quiet false (shapes body.events)
  /-- Nothing is dropped where a marker is pending. -/
  passed : ∀ n, body.Live n → j.pendingAt (shapes body.events) (n + 1) = true →
    n + 1 < (shapes body.events).length → body.Live (n + 1)
  /-- No far jump is bridged by one of the kind where a marker is pending. -/
  near : ∀ n c, (shapes body.events)[n]? = some (.jump (.branch c) ()) →
    j.kind = .branch c.opposite → j.pendingAt (shapes body.events) n = true →
    ∀ q, pool ≤ q → ¬body.Overshoots method q n

variable {j}

theorem next_mono {a b : Bool} (h : a = true → b = true) (i : Instruction Unit) :
    j.watch.next a i = true → j.watch.next b i = true := by
  cases i with
  | push v => cases v <;> exact id
  | jump kind target => exact id
  | _ =>
    simp only [watch, Bool.and_eq_true]
    exact And.imp_left h

/-- The machine is marked only where a marker is pending. -/
theorem tracks (method : MethodContext) :
    j.watch.Tracks (j.machine method) fun marked pending => marked = true → pending = true where
  finish _ := rfl
  label := by
    intro marked pending h l r
    refine ⟨_, rfl, fun hmarked => h ?_⟩
    exact ((Bool.and_eq_true _ _).mp hmarked).1
  instr := by
    intro marked pending i h hleaves r
    cases i with
    | push v =>
      cases v with
      | string text =>
        by_cases htext : text = j.marker
        · refine ⟨true, { r with log := r.log.push (.markerFound j.marker) }, ?_, fun _ => ?_⟩
          · exact congrFun (if_pos htext) r
          · exact decide_eq_true htext
        · exact ⟨false, r, congrFun (if_neg htext) r, nofun⟩
      | _ => exact ⟨false, r, rfl, nofun⟩
    | jump kind target =>
      have hspared : ¬(marked && decide (kind = j.kind)) = true := by
        rw [Bool.and_eq_true, decide_eq_true_eq]
        rintro ⟨hmarked, rfl⟩
        exact hleaves (h hmarked) rfl
      exact ⟨false, r, congrFun (if_neg hspared) r, nofun⟩
    | _ =>
      refine ⟨marked && j.adjacency = .lenient, r, rfl, fun hmarked => ?_⟩
      obtain ⟨hmarked, hlenient⟩ := (Bool.and_eq_true _ _).mp hmarked
      exact (Bool.and_eq_true _ _).mpr ⟨h hmarked, hlenient⟩

/-- What the machine makes of one event. -/
theorem step_cases {method : MethodContext} {marked marked' : Bool} {e : Event} {front : List Event}
    {r r' : PatchState} (h : j.step method marked e r = .ok (marked', front) r') :
    (∃ l, e = .label l ∧ front = [e] ∧ marked' = (marked && decide (j.adjacency = .lenient))) ∨
    (∃ i, e = .instr i ∧ front = [e] ∧ j.watch.Leaves marked i.shape ∧
      marked' = j.watch.next marked i.shape) ∨
    (∃ target, e = .instr (.jump j.kind target) ∧ marked = true ∧ front = code target ∧
      marked' = false) := by
  have hpure {x : Bool} {out : List Event} {s s' : PatchState}
      (h : (pure (x, out) : PatchM (Bool × List Event)) s = .ok (marked', front) s') :
      front = out ∧ marked' = x := by
    obtain ⟨hresult, -⟩ := EStateM.pure_eq_ok.mp h
    obtain ⟨rfl, rfl⟩ := Prod.mk.inj hresult
    exact ⟨rfl, rfl⟩
  cases e with
  | label l =>
    obtain ⟨rfl, rfl⟩ := hpure h
    exact .inl ⟨l, rfl, rfl, rfl⟩
  | instr i =>
    refine .inr ?_
    cases i with
    | push v =>
      refine .inl ⟨_, rfl, ?_⟩
      cases v with
      | string text =>
        simp only [step] at h
        split at h
        · rename_i htext
          obtain ⟨_, _, -, h⟩ := EStateM.bind_eq_ok.mp h
          obtain ⟨rfl, rfl⟩ := hpure h
          exact ⟨rfl, nofun, (decide_eq_true htext).symm⟩
        · rename_i htext
          obtain ⟨rfl, rfl⟩ := hpure h
          exact ⟨rfl, nofun, (decide_eq_false htext).symm⟩
      | _ =>
        obtain ⟨rfl, rfl⟩ := hpure h
        exact ⟨rfl, nofun, rfl⟩
    | jump kind target =>
      simp only [step] at h
      split at h
      · rename_i hforced
        obtain ⟨hmarked, hkind⟩ := (Bool.and_eq_true _ _).mp hforced
        obtain rfl := of_decide_eq_true hkind
        obtain ⟨_, _, -, h⟩ := EStateM.bind_eq_ok.mp h
        obtain ⟨rfl, rfl⟩ := hpure h
        exact .inr ⟨target, rfl, hmarked, rfl, rfl⟩
      · rename_i hspared
        obtain ⟨rfl, rfl⟩ := hpure h
        refine .inl ⟨_, rfl, rfl, fun hmarked hkind => hspared ?_, rfl⟩
        rw [hmarked, Bool.true_and]
        exact decide_eq_true (Instruction.jump.inj hkind).1
    | _ =>
      obtain ⟨rfl, rfl⟩ := hpure h
      exact .inl ⟨_, rfl, rfl, nofun, rfl⟩

/-- What a lenient machine gives is quiet. -/
theorem quiet_of_output {method : MethodContext} (hlenient : j.adjacency = .lenient)
    (hkind : j.kind ≠ .goto) {marked : Bool} {events out : List Event} {r r' : PatchState}
    (h : (j.machine method).output marked events r = .ok out r') :
    j.watch.Quiet marked (shapes out) := by
  induction events generalizing marked out r r' with
  | nil =>
    obtain ⟨rfl, -⟩ := EStateM.pure_eq_ok.mp h
    exact j.watch.quiet_nil _
  | cons e events ih =>
    obtain ⟨⟨marked', front⟩, r₁, hstep, h⟩ := EStateM.bind_eq_ok.mp h
    obtain ⟨back, r₂, hback, h⟩ := EStateM.bind_eq_ok.mp h
    obtain ⟨rfl, -⟩ := EStateM.pure_eq_ok.mp h
    have hquiet := ih hback
    rw [shapes_append, Watch.quiet_append]
    obtain ⟨l, rfl, rfl, rfl⟩ | ⟨i, rfl, rfl, hleaves, rfl⟩ | ⟨target, rfl, rfl, rfl, rfl⟩ :=
      step_cases hstep
    · rw [hlenient, decide_eq_true rfl, Bool.and_true] at hquiet
      exact ⟨trivial, hquiet⟩
    · exact ⟨⟨hleaves, trivial⟩, hquiet⟩
    · refine ⟨⟨nofun, fun _ hgoto => hkind ?_, trivial⟩, hquiet⟩
      exact (Instruction.jump.inj hgoto).1.symm

/-! ### Behind encoding -/

/-- If a marker is pending behind what has become of some code, it is pending behind the code, and
control comes there. So what the code becomes stays quiet. -/
theorem quiet_of_relayed {live far : Nat → Prop} {place : Nat → Nat} {n m : Nat}
    {given : List (Instruction Unit)} {code code' : List (Instruction Nat)} {pending : Bool}
    (hpassed : ∀ k, live k → j.pendingAt given (k + 1) = true → k + 1 < given.length → live (k + 1))
    (hnear : ∀ k c, given[k]? = some (.jump (.branch c) ()) → j.kind = .branch c.opposite →
      j.pendingAt given k = true → ¬far k)
    (h : Relayed live far place n m code code') (hcode : code.map (·.shape) = given.drop n)
    (hquiet : j.watch.Quiet (j.pendingAt given n) (given.drop n))
    (hpending : pending = true → j.pendingAt given n = true ∧ (code ≠ [] → live n)) :
    j.watch.Quiet pending (code'.map (·.shape)) := by
  -- One step through the code that is given.
  have hcons {n : Nat} {i : Instruction Nat} {code : List (Instruction Nat)}
      (hcode : (i :: code).map (·.shape) = given.drop n)
      (hquiet : j.watch.Quiet (j.pendingAt given n) (given.drop n)) :
      given[n]? = some i.shape ∧ code.map (·.shape) = given.drop (n + 1) ∧
        j.pendingAt given (n + 1) = j.watch.next (j.pendingAt given n) i.shape ∧
        j.watch.Leaves (j.pendingAt given n) i.shape ∧
        j.watch.Quiet (j.pendingAt given (n + 1)) (given.drop (n + 1)) := by
    have hat : given[n]? = some i.shape := by
      rw [← List.head?_drop, ← hcode]
      rfl
    have htail : code.map (·.shape) = given.drop (n + 1) := by
      rw [← List.tail_drop, ← hcode]
      rfl
    have hnext : j.pendingAt given (n + 1) = j.watch.next (j.pendingAt given n) i.shape :=
      j.watch.after_take_succ false hat
    rw [← hcode, List.map_cons, Watch.quiet_cons, htail, ← hnext] at hquiet
    exact ⟨hat, htail, hnext, hquiet⟩
  induction h generalizing pending with
  | nil => trivial
  | drop hn hdead rest ih =>
    obtain ⟨-, htail, -, -, hquiet'⟩ := hcons hcode hquiet
    -- Nothing is pending in front of what is dropped.
    have hpending' : pending = false :=
      Bool.eq_false_iff.mpr fun hp => hdead ((hpending hp).2 (List.cons_ne_nil _ _))
    rw [hpending']
    exact ih htail hquiet' nofun
  | @keep n m i code code' hn hlive rest ih =>
    obtain ⟨-, htail, hnext, hleaves, hquiet'⟩ := hcons hcode hquiet
    rw [List.map_cons, Watch.quiet_cons, Instruction.shape_map]
    refine ⟨fun hp => hleaves (hpending hp).1, ih htail hquiet' fun hp => ?_⟩
    have hpending' : j.pendingAt given (n + 1) = true := by
      rw [hnext]
      exact next_mono (fun hp => (hpending hp).1) _ hp
    refine ⟨hpending', fun hne => hpassed n hlive hpending' (Nat.lt_of_not_le fun hle => hne ?_)⟩
    rwa [List.drop_eq_nil_of_le hle, List.map_eq_nil_iff] at htail
  | @bridge n m t c code code' hn hlive hfar rest ih =>
    obtain ⟨hat, htail, -, -, hquiet'⟩ := hcons hcode hquiet
    refine ⟨fun hp hkind => ?_, nofun, ih htail hquiet' nofun⟩
    exact hnear n c hat (Instruction.jump.inj hkind).1.symm (hpending hp).1 hfar

/-- A body that is settled has no jump left to be forced when it has been encoded. -/
theorem ignores_of_settled {method : MethodContext} {pool q : ConstantPool} {body result : Body}
    {place : Nat → Nat} (hkind : j.kind ≠ .goto) (h : j.Settled pool method body)
    {events : List Event} {r r' : PatchState}
    (hrun : (j.machine method).run events r = .ok body.events r') (hq : pool ≤ q)
    (hrelayed : Relayed body.Live (body.Overshoots method q) place 0 0 (program body.events)
      (program result.events)) : (Strategy.forcedJump j).Ignores method result.events := by
  have hquiet : j.watch.Quiet false (shapes body.events) := by
    cases hadjacency : j.adjacency with
    | lenient =>
      rw [Machine.run_eq] at hrun
      exact quiet_of_output hadjacency hkind hrun
    | strict => exact h.strict hadjacency
  have hresult : j.watch.Quiet false ((program result.events).map (·.shape)) :=
    quiet_of_relayed h.passed (fun k c hk hc hp => h.near k c hk hc hp q hq) hrelayed
      (map_shape_program _) hquiet nofun
  rw [map_shape_program] at hresult
  have hstart : false = true → false = true := id
  intro r
  obtain ⟨r', hr'⟩ := (tracks method).output_eq hstart hresult r
  exact ⟨r', (congrFun (Machine.run_eq _ _) r).trans hr'⟩

end ClassPatch.ForcedJump
