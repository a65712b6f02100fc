import ClassPatch.Proofs.Code.Settling

/-!
# The loops of layout end

Layout has two loops. The inner one makes jumps wide and places everything again, until each of them
reaches its target or a conditional jump does not. The outer one bridges those conditional jumps,
with new labels, and analyzes the events again. `Settles` and `Runs` say what the loops reach after
finitely many rounds; neither of them counts anything. A bridge reaches over the jump behind it, so
every round of the outer loop has fewer jumps that may still be bridged, and every round of the
inner one has fewer jumps that are narrow.
-/

namespace ClassPatch

open PoolM

namespace PlacedEvent

variable {offsets : Std.TreeMap Label Nat} {e : PlacedEvent}

/-- A conditional jump, bridge or not, does not reach its target. -/
def Overflows (offsets : Std.TreeMap Label Nat) (e : PlacedEvent) : Prop :=
  (∃ c l, e.event = .instr (.jump (.branch c) l)) ∧ e.overshoots offsets = true

/-- A jump that has a wide form does not reach its target. -/
def Widens (offsets : Std.TreeMap Label Nat) (e : PlacedEvent) : Prop :=
  (∀ c l, e.event ≠ .instr (.jump (.branch c) l)) ∧ e.overshoots offsets = true

/-- Only a narrow jump can fail to reach its target. -/
theorem wide_of_overshoots (h : e.overshoots offsets = true) : e.wide = false := by
  unfold overshoots at h
  split at h
  · split at h
    · simpa using (Bool.and_eq_true_iff.mp h).1
    · cases h
  · cases h

theorem overflows_of_isFar (h : e.isFar offsets = true) : e.Overflows offsets := by
  obtain ⟨hloose, hover⟩ := Bool.and_eq_true_iff.mp h
  unfold LayoutEvent.isLoose at hloose
  split at hloose
  · exact ⟨⟨_, _, ‹_›⟩, hover⟩
  · cases hloose

end PlacedEvent

/-! ### The inner loop -/

/-- The inner loop ends with a placement. -/
inductive Settles : List SizedEvent → List PlacedEvent × Nat → Prop
  /-- A conditional jump does not reach its target. -/
  | overflow {events : List SizedEvent}
      (h : ∃ e ∈ (place events).1, e.Overflows (labelOffsets (place events).1)) :
      Settles events (place events)
  /-- No other jump fails to reach its target either. -/
  | settled {events : List SizedEvent}
      (h : ∀ e ∈ (place events).1, ¬e.Widens (labelOffsets (place events).1)) :
      Settles events (place events)
  /-- Jumps are made wide, and everything is placed again. -/
  | widen {events : List SizedEvent} {result : List PlacedEvent × Nat}
      (hnone : ∀ e ∈ (place events).1, ¬e.Overflows (labelOffsets (place events).1))
      (h : ∃ e ∈ (place events).1, e.Widens (labelOffsets (place events).1))
      (rest : Settles ((place events).1.map (·.grow (labelOffsets (place events).1))) result) :
      Settles events result

namespace Settles

variable {events : List SizedEvent} {result : List PlacedEvent × Nat}

/-- Where no conditional jump is left that does not reach its target, every jump reaches its own. -/
theorem reaches (h : Settles events result)
    (hnone : ∀ e ∈ result.1, ¬e.Overflows (labelOffsets result.1)) :
    ∀ e ∈ result.1, e.overshoots (labelOffsets result.1) = false := by
  induction h with
  | overflow h =>
    obtain ⟨e, he, hover⟩ := h
    exact absurd hover (hnone e he)
  | settled h =>
    intro e he
    by_contra hover
    replace hover := Bool.not_eq_false _ ▸ hover
    by_cases hbranch : ∃ c l, e.event = .instr (.jump (.branch c) l)
    · exact hnone e he ⟨hbranch, hover⟩
    · exact h e he ⟨fun c l hevent => hbranch ⟨c, l, hevent⟩, hover⟩
  | widen _ _ _ ih => exact ih hnone

end Settles

namespace Regular

variable {events : List SizedEvent}

/-- The conditional jumps that do not reach their targets are those that may be bridged. -/
theorem isFar_iff (h : Regular events) {e : PlacedEvent} (he : e ∈ (place events).1) :
    e.isFar (labelOffsets (place events).1) = true ↔
      e.Overflows (labelOffsets (place events).1) := by
  refine ⟨PlacedEvent.overflows_of_isFar, fun ⟨⟨c, l, hevent⟩, hover⟩ => ?_⟩
  have hbridge : e.isBridge = false := by
    by_contra hbridge
    have hnear :=
      h.overshoots_bridge he (Bool.not_eq_false _ ▸ hbridge) (by simp [hevent, Event.isLabel])
    exact absurd (hover.symm.trans hnear) (by decide)
  refine Bool.and_eq_true_iff.mpr ⟨?_, hover⟩
  simp [LayoutEvent.isLoose, hevent, hbridge]

/-- The jumps that grow are those with a wide form that do not reach their targets. -/
theorem widens_iff (h : Regular events) {e : PlacedEvent} (he : e ∈ (place events).1) :
    e.Widens (labelOffsets (place events).1) ↔
      e.wide = false ∧ (e.grow (labelOffsets (place events).1)).wide = true := by
  have hbranch (c : Condition) (l : Label) :
      e.event = .instr (.jump (.branch c) l) ↔ e.extent = .jump (.branch c) l :=
    h.jumps _ (mem_of_place he) _ _
  unfold PlacedEvent.grow
  split
  · rename_i c l hextent
    refine ⟨fun hwidens => absurd ((hbranch c l).mpr hextent) (hwidens.1 c l),
      fun ⟨hnarrow, hwide⟩ => ?_⟩
    exact absurd (hnarrow.symm.trans hwide) (by decide)
  · rename_i hextent
    constructor
    · rintro ⟨-, hover⟩
      exact ⟨PlacedEvent.wide_of_overshoots hover, by simp [hover]⟩
    · rintro ⟨hnarrow, hwide⟩
      refine ⟨fun c l hevent => hextent c l ((hbranch c l).mp hevent), ?_⟩
      simpa [hnarrow] using hwide

/-- A round of the inner loop leaves fewer jumps narrow exactly if it makes one wide. -/
theorem exists_widens_iff (h : Regular events) :
    (∃ e ∈ (place events).1, e.Widens (labelOffsets (place events).1)) ↔
      narrowCount ((place events).1.map (·.grow (labelOffsets (place events).1))) <
        narrowCount events := by
  have hlt := narrowCount_grow_lt_iff (labelOffsets (place events).1) (place events).1
  rw [(place_spec events).1] at hlt
  rw [hlt]
  exact exists_congr fun e => and_congr_right fun he => h.widens_iff he

/-- The inner loop ends with the placement that is computed. -/
theorem settles (h : Regular events) : Settles events (settle events) := by
  fun_induction settle events with
  | case1 events placed offsets grown hgrows ih =>
    obtain ⟨hnear, hlt⟩ := Bool.and_eq_true_iff.mp hgrows
    refine .widen (fun e he hover => ?_) (h.exists_widens_iff.mpr (of_decide_eq_true hlt))
      (ih (h.grown offsets))
    have hnone : ∀ e ∈ placed.1, e.isFar offsets = false := by simpa using hnear
    exact absurd ((h.isFar_iff he).mpr hover) (Bool.eq_false_iff.mp (hnone e he))
  | case2 events placed offsets grown hdone =>
    by_cases hover : ∃ e ∈ placed.1, e.Overflows offsets
    · exact .overflow hover
    · refine .settled fun e he hwidens => hdone (Bool.and_eq_true_iff.mpr ⟨?_, ?_⟩)
      · have hnone : ∀ e ∈ placed.1, e.isFar offsets = false := fun e he =>
          Bool.eq_false_iff.mpr fun hfar => hover ⟨e, he, PlacedEvent.overflows_of_isFar hfar⟩
        simpa using hnone
      · exact decide_eq_true (h.exists_widens_iff.mp ⟨e, he, hwidens⟩)

/-- What the inner loop ends with is regular. -/
theorem exists_place (h : Regular events) :
    ∃ events', Regular events' ∧ settle events = place events' := by
  fun_induction settle events with
  | case1 events placed offsets grown hgrows ih => exact ih (h.grown offsets)
  | case2 events placed offsets grown hdone => exact ⟨events, h, rfl⟩

/-- At the end of the inner loop a conditional jump does not reach its target exactly if it may be
bridged. -/
theorem isFar_settle_iff (h : Regular events) {e : PlacedEvent} (he : e ∈ (settle events).1) :
    e.isFar (labelOffsets (settle events).1) = true ↔
      e.Overflows (labelOffsets (settle events).1) := by
  obtain ⟨events', hregular, heq⟩ := h.exists_place
  rw [heq] at he ⊢
  exact hregular.isFar_iff he

end Regular

/-! ### The outer loop -/

namespace Layout

variable {body : Body} {method : MethodContext} {p q : ConstantPool}
    {events start : List LayoutEvent}

/-- The outer loop ends with an outcome. -/
inductive Runs (body : Body) (method : MethodContext) :
    List LayoutEvent → LabelSupply → ConstantPool → EStateM.Result Error ConstantPool Layout → Prop
  /-- The analysis fails. -/
  | rejected {events : List LayoutEvent} (supply : LabelSupply) (p : ConstantPool) {e : Error}
      (h : analyze (events.map (·.event)) body.handlers body.frames method body.maxLocals =
        .error e) :
      Runs body method events supply p (.error e p)
  /-- A constant does not fit into the pool. -/
  | unmeasured {events : List LayoutEvent} (supply : LabelSupply) {p p' : ConstantPool}
      {solution : FlowSolution} {e : Error}
      (analyzed : analyze (events.map (·.event)) body.handlers body.frames method body.maxLocals =
        .ok solution)
      (h : measure (prune events solution) p = .error e p') :
      Runs body method events supply p (.error e p')
  /-- Every conditional jump reaches its target. -/
  | laid {events : List LayoutEvent} (supply : LabelSupply) {p p' : ConstantPool}
      {solution : FlowSolution} {sized : List SizedEvent} {placed : List PlacedEvent} {length : Nat}
      (analyzed : analyze (events.map (·.event)) body.handlers body.frames method body.maxLocals =
        .ok solution)
      (measured : measure (prune events solution) p = .ok sized p')
      (settled : Settles sized (placed, length))
      (h : ∀ e ∈ placed, ¬e.Overflows (labelOffsets placed)) :
      Runs body method events supply p
        (.ok ⟨placed, length, solution.maxStack, solution.maxLocals⟩ p')
  /-- Conditional jumps are bridged, and everything is analyzed again. -/
  | again {events : List LayoutEvent} {supply : LabelSupply} {p p' : ConstantPool}
      {solution : FlowSolution} {sized : List SizedEvent} {placed : List PlacedEvent} {length : Nat}
      {result : EStateM.Result Error ConstantPool Layout}
      (analyzed : analyze (events.map (·.event)) body.handlers body.frames method body.maxLocals =
        .ok solution)
      (measured : measure (prune events solution) p = .ok sized p')
      (settled : Settles sized (placed, length))
      (h : ∃ e ∈ placed, e.Overflows (labelOffsets placed))
      (rest : Runs body method (bridgeAll (labelOffsets placed) placed supply).1
        (bridgeAll (labelOffsets placed) placed supply).2 p' result) :
      Runs body method events supply p result

/-- In what the outer loop ends with every jump reaches its target. -/
theorem Runs.reaches {supply : LabelSupply} {result : EStateM.Result Error ConstantPool Layout}
    (h : Runs body method events supply p result) {layout : Layout} {p' : ConstantPool}
    (hresult : result = .ok layout p') :
    ∀ e ∈ layout.placed, e.overshoots (labelOffsets layout.placed) = false := by
  induction h with
  | rejected | unmeasured => cases hresult
  | laid supply analyzed measured settled h =>
    cases hresult
    exact settled.reaches h
  | again analyzed measured settled h rest ih => exact ih hresult

/-- A bridged jump is not loose any more. -/
theorem looseCount_bridge (offsets : Std.TreeMap Label Nat) (supply : LabelSupply)
    (e : PlacedEvent) :
    looseCount (bridge offsets supply e).1 + (if e.isFar offsets then 1 else 0) =
      looseCount [e.toLayoutEvent] := by
  unfold bridge
  split
  · rename_i c l hevent
    by_cases hfar : e.isFar offsets = true
    · have hloose : e.isLoose = true := (Bool.and_eq_true_iff.mp hfar).1
      have hthree : looseCount [⟨.instr (.jump (.branch c.opposite) supply.fresh), true⟩,
          ⟨.instr (.jump .goto l), false⟩, ⟨.label supply.fresh, false⟩] = 0 := rfl
      rw [if_pos hfar, if_pos hfar, hthree, looseCount, List.countP_singleton, if_pos hloose]
    · simp [hfar]
  · rename_i hevent
    have hfar : e.isFar offsets = false := by
      refine Bool.eq_false_iff.mpr fun hfar => ?_
      obtain ⟨⟨c, l, hbranch⟩, -⟩ := PlacedEvent.overflows_of_isFar hfar
      exact hevent c l hbranch
    simp [hfar]

/-- Of the loose jumps those that are far are bridged. -/
theorem looseCount_bridgeAll (offsets : Std.TreeMap Label Nat) (placed : List PlacedEvent)
    (supply : LabelSupply) :
    looseCount (bridgeAll offsets placed supply).1 + placed.countP (·.isFar offsets) =
      looseCount (placed.map (·.toLayoutEvent)) := by
  induction placed generalizing supply with
  | nil => rfl
  | cons e placed ih =>
    have hone := looseCount_bridge offsets supply e
    have hrest := ih (bridge offsets supply e).2
    rw [bridgeAll_cons, List.map_cons, List.countP_cons]
    unfold looseCount at hone hrest ⊢
    rw [List.countP_append, List.countP_cons]
    rw [List.countP_singleton] at hone
    omega

theorem Round.mono (hp : p.WellFormed) (hq : p ≤ q) {solution : FlowSolution}
    {sized : List SizedEvent} (h : Round body method p events solution sized) :
    Round body method q events solution sized :=
  ⟨h.analyzed, h.measured.mono (steady_measure _) hp hq⟩

theorem Rounds.mono (hp : p.WellFormed) (hq : p ≤ q) (h : Rounds body method p start events) :
    Rounds body method q start events := by
  induction h with
  | refl => exact .refl
  | step supply before round ih => exact .step supply ih (round.mono hp hq)

/-- What a round measures is regular. -/
theorem Round.regular (hp : p.WellFormed) (hlabels : body.checkLabels = .ok ())
    (hrounds : Rounds body method p (body.events.map (⟨·, false⟩)) events) {solution : FlowSolution}
    {sized : List SizedEvent} (h : Round body method p events solution sized) : Regular sized := by
  have hfollows := FlowSolution.follows h.analyzed
  have hevents := events_of_finds_measure hp h.measured
  obtain ⟨-, widths, hlowers⟩ :=
    lowers_of_prune hlabels (lowers_of_rounds hp hlabels hrounds) hfollows
  have hsub : (sized.map (·.event)).Sublist (events.map (·.event)) := by
    have := (hevents ▸ prune_sublist hfollows).map LayoutEvent.event
    rwa [List.map_map] at this
  refine ⟨hfollows.nodup.sublist (hsub.filterMap _), fun e he => ?_, hevents ▸ hlowers.bridged⟩
  obtain ⟨row, -, extent, hextent, rfl⟩ := (finds_measure hp h.measured).exists_left he
  exact Extent.eq_jump_iff hextent

/-- Bridging what a round has placed leaves fewer loose jumps. -/
theorem Round.looseCount_lt (hp : p.WellFormed) {solution : FlowSolution} {sized : List SizedEvent}
    (h : Round body method p events solution sized) (supply : LabelSupply)
    (hfar : ∃ e ∈ (settle sized).1, e.isFar (labelOffsets (settle sized).1) = true) :
    looseCount (bridgeAll (labelOffsets (settle sized).1) (settle sized).1 supply).1 <
      looseCount events := by
  have hcount := looseCount_bridgeAll (labelOffsets (settle sized).1) (settle sized).1 supply
  have hpos : 0 < (settle sized).1.countP (·.isFar (labelOffsets (settle sized).1)) :=
    List.countP_pos_iff.mpr hfar
  rw [h.map_settle hp] at hcount
  have hle : looseCount ((prune events solution).map (·.1)) ≤ looseCount events :=
    (prune_sublist (FlowSolution.follows h.analyzed)).countP_le
  omega

/-- The outer loop ends with what is computed. -/
theorem runs_ofEvents (hp : p.WellFormed) (hlabels : body.checkLabels = .ok ())
    (hrounds : Rounds body method p (body.events.map (⟨·, false⟩)) events) (supply : LabelSupply) :
    Runs body method events supply p (ofEvents body method events supply p) := by
  generalize hcount : looseCount events = count
  induction count using Nat.strongRecOn generalizing events supply p with
  | _ count ih =>
    rw [ofEvents_eq]
    cases hanalyzed : analyze (events.map (·.event)) body.handlers body.frames method
        body.maxLocals with
    | error e =>
      rw [EStateM.bind_of_error (lookUp_of_error rfl)]
      exact .rejected supply p hanalyzed
    | ok solution =>
      have hfound : PoolM.lookUp (fun _ => .ok solution) p = .ok solution p := lookUp_of_ok rfl
      rw [EStateM.bind_of_ok hfound]
      cases hmeasured : measure (prune events solution) p with
      | error e p' =>
        rw [EStateM.bind_of_error hmeasured]
        exact .unmeasured supply hanalyzed hmeasured
      | ok sized p' =>
        rw [EStateM.bind_of_ok hmeasured]
        have hp' := (steady_measure _).wellFormed hp hmeasured
        have hle := (steady_measure _).le hp hmeasured
        have hround : Round body method p' events solution sized :=
          ⟨hanalyzed, (steady_measure _).finds hp hmeasured⟩
        have hrounds' := hrounds.mono hp hle
        have hregular := hround.regular hp' hlabels hrounds'
        have hsettles := hregular.settles
        unfold finish
        dsimp only
        by_cases hfar : ∃ e ∈ (settle sized).1, e.isFar (labelOffsets (settle sized).1) = true
        · have hlt := hround.looseCount_lt hp' supply hfar
          rw [if_pos ⟨List.any_eq_true.mpr hfar, hlt⟩]
          obtain ⟨e, he, hover⟩ := hfar
          exact .again hanalyzed hmeasured hsettles ⟨e, he, (hregular.isFar_settle_iff he).mp hover⟩
            (ih _ (hcount ▸ hlt) hp' (.step supply hrounds' hround) _ rfl)
        · rw [if_neg fun hboth => hfar (List.any_eq_true.mp hboth.1)]
          exact .laid supply hanalyzed hmeasured hsettles fun e he hover =>
            hfar ⟨e, he, (hregular.isFar_settle_iff he).mpr hover⟩

/-- The loops that lay out a body end with what is computed. -/
theorem runs_ofBody (hp : p.WellFormed) (hlabels : body.checkLabels = .ok ()) :
    Runs body method (body.events.map (⟨·, false⟩)) body.labels p (ofBody body method p) :=
  runs_ofEvents hp hlabels .refl body.labels

end Layout
end ClassPatch
