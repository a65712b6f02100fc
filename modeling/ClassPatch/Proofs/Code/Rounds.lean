import ClassPatch.Proofs.Code.Lowering

/-!
# Rounds of a layout

The first round of a layout drops what control does not reach, and every round may bridge jumps.
So what is placed in the end has been lowered from the events of the body.
-/

namespace ClassPatch

/-! ### Labels that are checked -/

namespace Body

private def noteLabel (placed : Std.TreeMap Label Unit) (e : Event) :
    Except Error (Std.TreeMap Label Unit) :=
  match e with
  | .label l => if placed.contains l then .error (.duplicateLabel l) else .ok (placed.insert l ())
  | .instr _ => .ok placed

private theorem contains_of_foldlM {events : List Event} (before : Std.TreeMap Label Unit)
    {placed : Std.TreeMap Label Unit} (h : events.foldlM noteLabel before = .ok placed) (l : Label)
    (hl : placed.contains l = true) : before.contains l = true ∨
      l ∈ ClassPatch.placedLabels events := by
  induction events generalizing before with
  | nil =>
    obtain rfl := Except.pure_eq_ok.mp h
    exact .inl hl
  | cons e events ih =>
    obtain ⟨next, hnext, h⟩ := Except.bind_eq_ok.mp h
    cases e with
    | instr i =>
      obtain rfl := Except.ok.inj hnext
      exact ih _ h
    | label l' =>
      simp only [noteLabel] at hnext
      split at hnext
      · simp at hnext
      · obtain rfl := Except.ok.inj hnext
        rcases ih _ h with hbefore | hmem
        · rw [Std.TreeMap.contains_insert, Bool.or_eq_true_iff] at hbefore
          rcases hbefore with heq | hbefore
          · exact .inr (by simp_all)
          · exact .inl hbefore
        · exact .inr (List.mem_cons_of_mem _ hmem)

/-- Where the labels have been checked, everything that is referred to is placed. -/
theorem mem_of_checkLabels {body : Body} (h : body.checkLabels = .ok ()) {l : Label}
    (hl : l ∈ body.references) : l ∈ ClassPatch.placedLabels body.events := by
  obtain ⟨placed, hplaced, h⟩ := Except.bind_eq_ok.mp h
  have hcontains : placed.contains l = true := by
    split at h
    · exact absurd h Except.throw_ne_ok
    · rename_i hnone
      simpa using List.find?_eq_none.mp hnone l hl
  rcases contains_of_foldlM ∅ hplaced l hcontains with hempty | hmem
  · simp at hempty
  · exact hmem

theorem mem_references_of_target {body : Body} {i : Instruction Label} (hi : .instr i ∈ body.events)
    {l : Label} (hl : l ∈ i.targets) : l ∈ body.references := by
  simp only [Body.references, List.mem_append, List.mem_flatMap]
  exact .inl (.inl (.inl ⟨_, hi, hl⟩))

theorem mem_references_of_handler {body : Body} {h : Handler} (hh : h ∈ body.handlers) {l : Label}
    (hl : l ∈ [h.start, h.stop, h.target]) : l ∈ body.references := by
  simp only [Body.references, List.mem_append, List.mem_flatMap]
  exact .inl (.inl (.inr ⟨h, hh, hl⟩))

theorem mem_references_of_line {body : Body} {line : Line} (hline : line ∈ body.lines) :
    line.start ∈ body.references := by
  simp only [Body.references, List.mem_append, List.mem_map]
  exact .inl (.inr ⟨line, hline, rfl⟩)

theorem mem_references_of_variable {body : Body} {v : Variable}
    (hv : v ∈ body.localVariables ++ body.localVariableTypes) {l : Label}
    (hl : l ∈ [v.start, v.stop]) : l ∈ body.references := by
  rw [Body.references]
  exact List.mem_append_right _ (List.mem_flatMap.mpr ⟨v, hv, hl⟩)

private theorem exists_of_foldlM {events : List Event} (before : Std.TreeMap Label Unit)
    (hnodup : (ClassPatch.placedLabels events).Nodup)
    (hnew : ∀ l ∈ ClassPatch.placedLabels events, before.contains l = false) :
    ∃ placed, events.foldlM noteLabel before = .ok placed ∧
      ∀ l, l ∈ ClassPatch.placedLabels events ∨ before.contains l = true →
        placed.contains l = true := by
  induction events generalizing before with
  | nil => exact ⟨before, rfl, by simp⟩
  | cons e events ih =>
    cases e with
    | instr i =>
      obtain ⟨placed, hplaced, hall⟩ := ih before hnodup hnew
      exact ⟨placed, Except.bind_eq_ok.mpr ⟨before, rfl, hplaced⟩, hall⟩
    | label l =>
      rw [placedLabels_label, List.nodup_cons] at hnodup
      simp only [placedLabels_label, List.mem_cons, forall_eq_or_imp] at hnew ⊢
      have hinsert (l' : Label) :
          (before.insert l ()).contains l' = (l = l' || before.contains l') := by
        rw [Std.TreeMap.contains_insert, Bool.eq_iff_iff]
        simp [Std.LawfulEqCmp.compare_eq_iff_eq]
      obtain ⟨placed, hplaced, hall⟩ := ih (before.insert l ()) hnodup.2 fun l' hl' => by
        rw [hinsert, hnew.2 l' hl']
        simpa using fun heq : l = l' => hnodup.1 (heq ▸ hl')
      refine ⟨placed, Except.bind_eq_ok.mpr ⟨before.insert l (), ?_, hplaced⟩, fun l' hl' => ?_⟩
      · simp [noteLabel, hnew.1]
      · refine hall l' ?_
        rw [hinsert]
        rcases hl' with (rfl | hl') | hl'
        · exact .inr (by simp)
        · exact .inl hl'
        · exact .inr (by simp [hl'])

/-- A body that places its labels once, and all that it refers to, passes the check. -/
theorem checkLabels_of_placed {body : Body}
    (hnodup : (ClassPatch.placedLabels body.events).Nodup)
    (h : ∀ l ∈ body.references, l ∈ ClassPatch.placedLabels body.events) :
    body.checkLabels = .ok () := by
  obtain ⟨placed, hplaced, hall⟩ := exists_of_foldlM ∅ hnodup (by simp)
  refine Except.bind_eq_ok.mpr ⟨placed, hplaced, ?_⟩
  have hnone : (body.references.find? fun l => !placed.contains l) = none := by
    rw [List.find?_eq_none]
    intro l hl
    simp [hall l (.inl (h l hl))]
  rw [hnone]
  rfl

private theorem nodup_of_foldlM {events : List Event} (before : Std.TreeMap Label Unit)
    {placed : Std.TreeMap Label Unit} (h : events.foldlM noteLabel before = .ok placed) :
    (ClassPatch.placedLabels events).Nodup ∧
      ∀ l ∈ ClassPatch.placedLabels events, before.contains l = false := by
  induction events generalizing before with
  | nil => simp
  | cons e events ih =>
    obtain ⟨next, hnext, h⟩ := Except.bind_eq_ok.mp h
    cases e with
    | instr i =>
      obtain rfl := Except.ok.inj hnext
      exact ih _ h
    | label l =>
      simp only [noteLabel] at hnext
      split at hnext
      · simp at hnext
      · rename_i hl
        obtain rfl := Except.ok.inj hnext
        obtain ⟨hnodup, hnew⟩ := ih _ h
        simp only [Std.TreeMap.contains_insert, Bool.or_eq_false_iff] at hnew
        rw [placedLabels_label, List.nodup_cons, List.forall_mem_cons]
        refine ⟨⟨fun hmem => ?_, hnodup⟩, Bool.eq_false_iff.mpr hl, fun l' hl' => (hnew l' hl').2⟩
        simpa using (hnew l hmem).1

/-- A label that is placed twice does not pass the check, and is the error. -/
theorem failsBy_checkLabels {body : Body} (hnodup : ¬(ClassPatch.placedLabels body.events).Nodup) :
    Except.FailsBy (fun e => ∃ l, e = .duplicateLabel l) body.checkLabels := by
  have hnote (placed : Std.TreeMap Label Unit) (e : Event) :
      Except.FailsBy (fun e => ∃ l, e = .duplicateLabel l) (noteLabel placed e) := by
    cases e with
    | instr i => exact .ok _
    | label l =>
      unfold noteLabel
      dsimp only
      split
      · exact .error ⟨l, rfl⟩
      · exact .ok _
  exact (Except.FailsBy.foldlM hnote ∅ body.events).bind fun placed hplaced =>
    absurd (nodup_of_foldlM ∅ hplaced).1 hnodup

/-- The instructions of a body that control reaches. -/
def Live (body : Body) : Nat → Prop :=
  Reaches (program body.events) (guards body.events body.handlers)

end Body

/-! ### Pruning -/

namespace Layout

open FlowGraph PoolM

variable {live far : Nat → Prop}

/-- Pruning drops exactly the instructions without a state. -/
theorem lowers_of_filter {events : List Event} {states : List (Option FlowState)} {n : Nat}
    (hlength : states.length = events.length)
    (hlive : ∀ i ins, events[i]? = some (.instr ins) →
      ((∃ s, states[i]? = some (some s)) ↔ live (n + numberAt events i))) :
    ∃ widths, Lowers live far n events widths
      ((((events.map (⟨·, false⟩ : Event → LayoutEvent)).zip states).filter fun (e, state) =>
        e.event.isLabel || state.isSome).map (·.1)) := by
  induction events generalizing states n with
  | nil => exact ⟨[], .nil n⟩
  | cons e events ih =>
    obtain ⟨state, states, rfl⟩ := List.exists_cons_of_length_eq_add_one hlength
    have hlength' : states.length = events.length := by simpa using hlength
    cases e with
    | label l =>
      obtain ⟨widths, hwidths⟩ := ih (n := n) hlength' fun i ins hi => by
        simpa using hlive (i + 1) ins (by simpa using hi)
      exact ⟨widths, by simpa [Event.isLabel] using .label hwidths⟩
    | instr ins =>
      obtain ⟨widths, hwidths⟩ := ih (n := n + 1) hlength' fun i ins hi => by
        have := hlive (i + 1) ins (by simpa using hi)
        rw [numberAt_cons_instr] at this
        rw [show n + 1 + numberAt events i = n + (numberAt events i + 1) by omega]
        simpa using this
      have hhead : (∃ s, state = some s) ↔ live n := by simpa using hlive 0 ins rfl
      cases state with
      | none =>
        have hdead : ¬live n := fun h => by simpa using hhead.mpr h
        exact ⟨0 :: widths, by simpa [Event.isLabel] using .drop hdead hwidths⟩
      | some s =>
        exact ⟨1 :: widths, by simpa [Event.isLabel] using .keep (hhead.mp ⟨s, rfl⟩) hwidths⟩

/-! ### Bridging -/

private theorem foldl_bridge (offsets : Std.TreeMap Label Nat) (placed : List PlacedEvent)
    (rows : List (List LayoutEvent)) (supply : LabelSupply) :
    placed.foldl (fun (rows, supply) e =>
      ((bridge offsets supply e).1 :: rows, (bridge offsets supply e).2)) (rows, supply) =
    let bridged := placed.foldl (fun (rows, supply) e =>
      ((bridge offsets supply e).1 :: rows, (bridge offsets supply e).2)) ([], supply)
    (bridged.1 ++ rows, bridged.2) := by
  induction placed generalizing rows supply with
  | nil => rfl
  | cons e placed ih =>
    rw [List.foldl_cons, ih, List.foldl_cons, ih [_]]
    simp

/-- Events are bridged one by one, with labels from the supply that the ones before have left. -/
theorem bridgeAll_eq (offsets : Std.TreeMap Label Nat) (e : PlacedEvent)
    (placed : List PlacedEvent) (supply : LabelSupply) :
    bridgeAll offsets (e :: placed) supply =
      ((bridge offsets supply e).1 ++ (bridgeAll offsets placed (bridge offsets supply e).2).1,
        (bridgeAll offsets placed (bridge offsets supply e).2).2) := by
  simp only [bridgeAll, List.foldl_cons]
  rw [foldl_bridge offsets placed [_]]
  simp

theorem bridgeAll_cons (offsets : Std.TreeMap Label Nat) (e : PlacedEvent)
    (placed : List PlacedEvent) (supply : LabelSupply) :
    (bridgeAll offsets (e :: placed) supply).1 = (bridge offsets supply e).1 ++
      (bridgeAll offsets placed (bridge offsets supply e).2).1 := by
  rw [bridgeAll_eq]

/-- Bridging leaves an event as it is or puts its opposite over a jump, if it is far. -/
theorem bridge_cases (offsets : Std.TreeMap Label Nat) (supply : LabelSupply) (e : PlacedEvent) :
    (bridge offsets supply e).1 = [e.toLayoutEvent] ∨
      ∃ c l, e.toLayoutEvent = ⟨.instr (.jump (.branch c) l), false⟩ ∧ e.isFar offsets = true ∧
        (bridge offsets supply e).1 = [⟨.instr (.jump (.branch c.opposite) supply.fresh), true⟩,
          ⟨.instr (.jump .goto l), false⟩, ⟨.label supply.fresh, false⟩] := by
  unfold bridge
  split
  · rename_i c l hevent
    split
    · rename_i hfar
      have hloose : e.isLoose = true := (Bool.and_eq_true_iff.mp hfar).1
      simp only [LayoutEvent.isLoose, hevent, Bool.not_eq_true'] at hloose
      exact .inr ⟨c, l, by rw [← hevent, ← hloose], hfar, rfl⟩
    · exact .inl rfl
  · exact .inl rfl

/-- The conditional jump that an instruction has become is far in a placement. -/
def FarAt (offsets : Std.TreeMap Label Nat) (widths : List Nat) (placed : List PlacedEvent)
    (n : Nat) : Prop :=
  ∃ i e, placed[i]? = some e ∧ e.isFar offsets = true ∧
    numberAt (placed.map (·.event)) i = placeBy widths n

namespace FarAt

variable {offsets : Std.TreeMap Label Nat} {widths : List Nat} {placed : List PlacedEvent} {n : Nat}

theorem behind_label {e : PlacedEvent} {l : Label} (he : e.event = .label l)
    (h : FarAt offsets widths placed n) : FarAt offsets widths (e :: placed) n := by
  obtain ⟨i, e', hi, hfar, hnumber⟩ := h
  exact ⟨i + 1, e', hi, hfar, by simpa [he] using hnumber⟩

theorem behind {front : List PlacedEvent} {width : Nat} (h : FarAt offsets widths placed n)
    (hwidth : (instructions (front.map (·.event))).length = width) :
    FarAt offsets (width :: widths) (front ++ placed) (n + 1) := by
  obtain ⟨i, e, hi, hfar, hnumber⟩ := h
  refine ⟨front.length + i, e, ?_, hfar, ?_⟩
  · rw [List.getElem?_append_right (Nat.le_add_right _ _), Nat.add_sub_cancel_left, hi]
  · unfold numberAt at hnumber ⊢
    have htake : (front.map (·.event) ++ placed.map (·.event)).take (front.length + i) =
        front.map (·.event) ++ (placed.map (·.event)).take i := by
      rw [← List.length_map (f := (·.event)), List.take_length_add_append]
    rw [List.map_append, htake, instructions_append, List.length_append, hwidth, hnumber,
      placeBy_succ]

end FarAt

theorem lowers_of_bridgeAll {events : List Event} {widths : List Nat} {n : Nat}
    {lowered : List LayoutEvent} (h : Lowers live far n events widths lowered)
    (offsets : Std.TreeMap Label Nat) {placed : List PlacedEvent} (supply : LabelSupply)
    (hplaced : placed.map (·.toLayoutEvent) = lowered) :
    ∃ widths', Lowers live (fun k => far k ∨ ∃ j, k = n + j ∧ FarAt offsets widths placed j) n
      events widths' (bridgeAll offsets placed supply).1 := by
  -- what is far behind one instruction is far behind it and all in front
  have hbehind {n width : Nat} {events : List Event} {widths widths' : List Nat}
      {lowered : List LayoutEvent} (front : List PlacedEvent) {placed : List PlacedEvent}
      (hwidth : (instructions (front.map (·.event))).length = width)
      (h : Lowers live (fun k => far k ∨ ∃ j, k = n + 1 + j ∧ FarAt offsets widths placed j) (n + 1)
        events widths' lowered) :
      Lowers live (fun k => far k ∨ ∃ j, k = n + j ∧
        FarAt offsets (width :: widths) (front ++ placed) j) (n + 1) events widths' lowered :=
    h.mono_far fun k => Or.imp_right fun ⟨j, hk, hfar⟩ => ⟨j + 1, by omega, hfar.behind hwidth⟩
  induction h generalizing placed supply with
  | nil =>
    obtain rfl := List.map_eq_nil_iff.mp hplaced
    exact ⟨[], .nil _⟩
  | @label n l isBridge events widths lowered rest ih =>
    obtain ⟨e, placed, rfl, he, hplaced⟩ := List.map_eq_cons_iff.mp hplaced
    obtain ⟨widths', hwidths⟩ := ih (bridge offsets supply e).2 hplaced
    rw [bridgeAll_cons]
    rcases bridge_cases offsets supply e with hsame | ⟨c, l', hbranch, -⟩
    · rw [hsame, he]
      have hlabel : e.event = .label l := by rw [he]
      exact ⟨widths', .label (hwidths.mono_far fun k => Or.imp_right fun ⟨j, hk, hfar⟩ =>
        ⟨j, hk, hfar.behind_label hlabel⟩)⟩
    · rw [he] at hbranch
      simp at hbranch
  | drop h rest ih =>
    obtain ⟨widths', hwidths⟩ := ih supply hplaced
    exact ⟨0 :: widths', .drop h (hbehind [] rfl hwidths)⟩
  | @keep n i events widths lowered h rest ih =>
    obtain ⟨e, placed, rfl, he, hplaced⟩ := List.map_eq_cons_iff.mp hplaced
    obtain ⟨widths', hwidths⟩ := ih (bridge offsets supply e).2 hplaced
    have hone : (instructions ([e].map (·.event))).length = 1 := by simp [he]
    rw [bridgeAll_cons]
    rcases bridge_cases offsets supply e with hsame | ⟨c, l', hbranch, hfar, hbridge⟩
    · rw [hsame, he]
      exact ⟨1 :: widths', .keep h (hbehind [e] hone hwidths)⟩
    · rw [he] at hbranch
      obtain rfl : i = .jump (.branch c) l' := by simpa using hbranch
      rw [hbridge]
      exact ⟨2 :: widths', .bridge h (.inr ⟨0, rfl, 0, e, rfl, hfar, rfl⟩)
        (hbehind [e] hone hwidths)⟩
  | @bridge n c l l' events widths lowered h hfar rest ih =>
    -- the three events of a bridge are no loose jumps, and stay
    obtain ⟨e₁, placed, rfl, he₁, hplaced⟩ := List.map_eq_cons_iff.mp hplaced
    obtain ⟨e₂, placed, rfl, he₂, hplaced⟩ := List.map_eq_cons_iff.mp hplaced
    obtain ⟨e₃, placed, rfl, he₃, hplaced⟩ := List.map_eq_cons_iff.mp hplaced
    have hstay (e : PlacedEvent) (supply : LabelSupply)
        (he : ∀ c l, e.toLayoutEvent ≠ ⟨.instr (.jump (.branch c) l), false⟩) :
        (bridge offsets supply e).1 = [e.toLayoutEvent] :=
      (bridge_cases offsets supply e).resolve_right fun ⟨c, l, hbranch, _⟩ => he c l hbranch
    rw [bridgeAll_cons, bridgeAll_cons, bridgeAll_cons, hstay e₁ _ (by simp [he₁]),
      hstay e₂ _ (by simp [he₂]), hstay e₃ _ (by simp [he₃]), he₁, he₂, he₃]
    obtain ⟨widths', hwidths⟩ := ih _ hplaced
    have htwo : (instructions ([e₁, e₂, e₃].map (·.event))).length = 2 := by
      simp [he₁, he₂, he₃]
    exact ⟨2 :: widths', .bridge h (.inl hfar) (hbehind [e₁, e₂, e₃] htwo hwidths)⟩

end Layout

/-! ### All rounds -/

open Layout in
/-- In some round of the layout of a body, the conditional jump with a number is far. -/
def Body.Overshoots (body : Body) (method : MethodContext) (p : ConstantPool) (n : Nat) : Prop :=
  ∃ events solution sized widths, Rounds body method p (body.events.map (⟨·, false⟩)) events ∧
    Round body method p events solution sized ∧
    Lowers body.Live (fun _ => True) 0 body.events widths
      ((settle sized).1.map (·.toLayoutEvent)) ∧
    FarAt (labelOffsets (settle sized).1) widths (settle sized).1 n

namespace Layout

open FlowGraph PoolM

variable {body : Body} {method : MethodContext} {far : Nat → Prop}

section Lowered

variable {widths : List Nat} {lowered : List LayoutEvent} (hlabels : body.checkLabels = .ok ())
  (h : Lowers body.Live far 0 body.events widths lowered)
  (hnodup : (placedLabels (lowered.map (·.event))).Nodup)
include hlabels h hnodup

/-- What a body refers to stands for what it has stood for. -/
theorem landing_of_lowers {l : Label} (hl : l ∈ body.references) :
    landing (lowered.map (·.event)) l = placeBy widths (landing body.events l) :=
  h.landing_eq hnodup (Body.mem_of_checkLabels hlabels hl)

theorem relayed_of_lowers : Relayed body.Live far (placeBy widths) 0 0 (program body.events)
    (program (lowered.map (·.event))) := by
  refine h.relayed (fun k => by simp) (fun i hi l hl => ?_) hnodup (fun l _ => by simp)
  exact landing_of_lowers hlabels h hnodup
    (Body.mem_references_of_target (mem_instructions.mp hi) hl)

theorem guards_of_lowers : guards (lowered.map (·.event)) body.handlers =
    (guards body.events body.handlers).map (·.map (placeBy widths)) := by
  unfold guards
  rw [List.map_map]
  refine List.map_congr_left fun handler hhandler => ?_
  have hlanding {l : Label} (hl : l ∈ [handler.start, handler.stop, handler.target]) :=
    landing_of_lowers hlabels h hnodup (Body.mem_references_of_handler hhandler hl)
  simp [Guard.map, hlanding (l := handler.start) (by simp),
    hlanding (l := handler.stop) (by simp), hlanding (l := handler.target) (by simp)]

end Lowered

/-- Nothing more is dropped from events that have been lowered. -/
theorem prune_eq_of_lowers {widths : List Nat} {lowered : List LayoutEvent}
    {solution : FlowSolution} (hlabels : body.checkLabels = .ok ())
    (hlt : ∀ {n : Nat}, body.Live n → n < (instructions body.events).length)
    (h : Lowers body.Live far 0 body.events widths lowered)
    (hsolution : solution.Follows (lowered.map (·.event)) body.handlers) :
    (prune lowered solution).map (·.1) = lowered := by
  have hrelayed := relayed_of_lowers hlabels h hsolution.nodup
  have hguards := guards_of_lowers hlabels h hsolution.nodup
  have hreached {i : Nat} {ins : Instruction Label}
      (hi : (lowered.map (·.event))[i]? = some (.instr ins)) :
      ∃ s, solution.states[i]? = some (some s) := by
    refine (hsolution.state_iff (List.getElem?_eq_some_iff.mp hi).1).mpr ?_
    rw [hguards]
    refine hrelayed.reaches (placeBy_mono widths) (fun hn => ?_) ?_
    · rw [length_program]
      exact hlt hn
    · exact (List.getElem?_eq_some_iff.mp (program_at hi)).1
  have hlength := hsolution.length_eq
  rw [List.length_map] at hlength
  unfold prune
  rw [List.filter_eq_self.mpr, List.map_fst_zip (Nat.le_of_eq hlength.symm)]
  rintro ⟨e, state⟩ hmem
  obtain ⟨i, hi⟩ := List.mem_iff_getElem?.mp hmem
  obtain ⟨he, hstate⟩ := List.getElem?_zip_eq_some.mp hi
  cases hevent : e.event with
  | label l => simp [hevent, Event.isLabel]
  | instr ins =>
    obtain ⟨s, hs⟩ := hreached (show (lowered.map (·.event))[i]? = some (.instr ins) by
      simp [he, hevent])
    rw [Array.getElem?_toList, hs] at hstate
    obtain rfl := Option.some.inj hstate
    simp

/-- No event of a body is a bridge yet. -/
theorem map_event_plain (events : List Event) :
    (events.map (⟨·, false⟩ : Event → LayoutEvent)).map (·.event) = events := by
  simp [Function.comp_def]

/-- Pruning leaves the order of events as it is. -/
theorem prune_sublist {events : List LayoutEvent} {handlers : List Handler}
    {solution : FlowSolution} (h : solution.Follows (events.map (·.event)) handlers) :
    ((prune events solution).map (·.1)).Sublist events := by
  have hlength := h.length_eq
  rw [List.length_map] at hlength
  conv_rhs => rw [← List.map_fst_zip (Nat.le_of_eq hlength.symm)]
  exact List.filter_sublist.map _

/-- Events are unlowered, or lowered and known to be reached. -/
theorem lowers_of_prune {events : List LayoutEvent} {solution : FlowSolution}
    (hlabels : body.checkLabels = .ok ())
    (hevents : events = body.events.map (⟨·, false⟩) ∨
      (∀ {n : Nat}, body.Live n → n < (instructions body.events).length) ∧
        ∃ widths, Lowers body.Live far 0 body.events widths events)
    (hsolution : solution.Follows (events.map (·.event)) body.handlers) :
    (∀ {n : Nat}, body.Live n → n < (instructions body.events).length) ∧
      ∃ widths, Lowers body.Live far 0 body.events widths ((prune events solution).map (·.1)) := by
  rcases hevents with rfl | ⟨hlt, widths, hlowers⟩
  · rw [map_event_plain] at hsolution
    refine ⟨hsolution.reaches_lt, lowers_of_filter hsolution.length_eq fun i ins hi => ?_⟩
    rw [Array.getElem?_toList, Nat.zero_add]
    exact hsolution.state_iff (List.getElem?_eq_some_iff.mp hi).1
  · refine ⟨hlt, widths, ?_⟩
    rw [prune_eq_of_lowers hlabels hlt hlowers hsolution]
    exact hlowers

/-- Rounds only lower the events of a body. -/
theorem lowers_of_rounds {events : List LayoutEvent} {p : ConstantPool} (hp : p.WellFormed)
    (hlabels : body.checkLabels = .ok ())
    (hrounds : Rounds body method p (body.events.map (⟨·, false⟩)) events) :
    events = body.events.map (⟨·, false⟩) ∨
      (∀ {n : Nat}, body.Live n → n < (instructions body.events).length) ∧
        ∃ widths, Lowers body.Live (body.Overshoots method p) 0 body.events widths events := by
  induction hrounds with
  | refl => exact .inl rfl
  | @step events solution sized supply before round ih =>
    obtain ⟨hlt, widths, hlowers⟩ :=
      lowers_of_prune hlabels ih (FlowSolution.follows round.analyzed)
    rw [← round.map_settle hp] at hlowers
    obtain ⟨widths', hwidths⟩ :=
      lowers_of_bridgeAll hlowers (labelOffsets (settle sized).1) supply rfl
    refine .inr ⟨hlt, widths', hwidths.mono_far fun k hk => hk.elim id fun ⟨j, hj, hfar⟩ => ?_⟩
    obtain rfl : k = j := by omega
    exact ⟨events, solution, sized, widths, before, round, hlowers.mono_far fun _ _ =>
      trivial, hfar⟩

/-- What a layout places has been lowered from the events of the body. -/
theorem lowers_of_finds {layout : Layout} {p : ConstantPool} (hp : p.WellFormed)
    (hlabels : body.checkLabels = .ok ()) (h : Finds (ofBody body method) p layout) :
    (∀ {n : Nat}, body.Live n → n < (instructions body.events).length) ∧
      ∃ widths, Lowers body.Live (body.Overshoots method p) 0 body.events widths
        (layout.placed.map (·.toLayoutEvent)) := by
  obtain ⟨events', solution, sized, hrounds, hlayout⟩ := exists_isOf hp h .refl
  have hplaced := hlayout.map_settle hp
  rw [hlayout.settled] at hplaced
  rw [hplaced]
  exact lowers_of_prune hlabels (lowers_of_rounds hp hlabels hrounds)
    (FlowSolution.follows hlayout.analyzed)

/-! ### The last round -/

/-- Behind everything that control reaches an instruction is left. -/
theorem exists_instruction_behind {events : List LayoutEvent} {solution : FlowSolution}
    {handlers : List Handler} (h : solution.Follows (events.map (·.event)) handlers)
    {before after : List (LayoutEvent × Option FlowState)} {e : LayoutEvent} {s : FlowState}
    (hsplit : prune events solution = before ++ (e, some s) :: after) :
    ∃ row ∈ (e, some s) :: after, ∃ ins, row.1.event = .instr ins := by
  obtain ⟨front, back, hzip, -, hback⟩ := List.filter_eq_append_iff.mp hsplit
  obtain ⟨skipped, rest, hback, -, -, hrest⟩ := List.filter_eq_cons_iff.mp hback
  have hat (j : Nat) {row : LayoutEvent × Option FlowState}
      (hrow : (events.zip solution.states.toList)[j]? = some row) :
      (events.map (·.event))[j]? = some row.1.event ∧ solution.states[j]? = some row.2 := by
    obtain ⟨he, hs⟩ := List.getElem?_zip_eq_some.mp hrow
    exact ⟨by simp [he], by simpa using hs⟩
  let i := front.length + skipped.length
  have hi : (events.zip solution.states.toList)[i]? = some (e, some s) := by
    rw [hzip, hback, ← List.append_assoc]
    simp [i]
  obtain ⟨hevent, hstate⟩ := hat i hi
  have hlt := (List.getElem?_eq_some_iff.mp hevent).1
  have hreaches := (h.state_iff hlt).mp ⟨s, hstate⟩
  obtain ⟨j, ins, hj, hnumber⟩ := exists_position (h.reaches_lt hreaches)
  have hle : i ≤ j := by
    refine Nat.le_of_not_lt fun hji => ?_
    have := numberAt_mono (events.map (·.event)) (Nat.succ_le_of_lt hji)
    rw [Nat.succ_eq_add_one, numberAt_instr hj] at this
    omega
  rcases Nat.eq_or_lt_of_le hle with heq | hij
  · rw [heq, hj] at hevent
    exact ⟨_, List.mem_cons_self .., ins, (Option.some.inj hevent).symm⟩
  · obtain ⟨s', hs'⟩ := (h.state_iff (List.getElem?_eq_some_iff.mp hj).1).mpr (hnumber ▸ hreaches)
    obtain ⟨e', he', hins⟩ : ∃ e', events[j]? = some e' ∧ e'.event = .instr ins := by
      simpa using hj
    have hrow : (events.zip solution.states.toList)[j]? = some (e', some s') :=
      List.getElem?_zip_eq_some.mpr ⟨he', by simpa using hs'⟩
    have hbehind : (e', some s') ∈ rest := by
      obtain ⟨k, rfl⟩ : ∃ k, j = i + 1 + k := ⟨j - (i + 1), by omega⟩
      rw [hzip, hback, show front ++ (skipped ++ (e, some s) :: rest) =
        (front ++ skipped ++ [(e, some s)]) ++ rest by simp,
        List.getElem?_append_right (by simp [i]; omega)] at hrow
      exact List.mem_of_getElem? hrow
    refine ⟨(e', some s'), List.mem_cons_of_mem _ ?_, ins, hins⟩
    rw [← hrest]
    exact List.mem_filter.mpr ⟨hbehind, by simp⟩

/-- Nothing is dropped if control reaches every instruction. -/
theorem map_prune_of_reached {events : List LayoutEvent} {handlers : List Handler}
    {solution : FlowSolution} (hsolution : solution.Follows (events.map (·.event)) handlers)
    (hall : ∀ n < (instructions (events.map (·.event))).length,
      Reaches (program (events.map (·.event))) (guards (events.map (·.event)) handlers) n) :
    (prune events solution).map (·.1) = events := by
  have hlength := hsolution.length_eq
  rw [List.length_map] at hlength
  have hkeep : prune events solution = events.zip solution.states.toList := by
    refine List.filter_eq_self.mpr fun (e, state) hrow => ?_
    obtain ⟨i, hi⟩ := List.getElem?_of_mem hrow
    obtain ⟨he, hs⟩ := List.getElem?_zip_eq_some.mp hi
    dsimp only at he hs ⊢
    cases hevent : e.event with
    | label l => rfl
    | instr ins =>
      have hat : (events.map (·.event))[i]? = some (.instr ins) := by simp [he, hevent]
      have hlt := (List.getElem?_eq_some_iff.mp (program_at hat)).1
      rw [length_program] at hlt
      obtain ⟨s, hstate⟩ := (hsolution.state_iff (List.getElem?_eq_some_iff.mp hat).1).mpr
        (hall _ hlt)
      have heq : some state = some (some s) := by
        rw [← hs, ← hstate, Array.getElem?_toList]
      simp [Option.some.inj heq]
  rw [hkeep, List.map_fst_zip (Nat.le_of_eq hlength.symm)]

/-- What is known of a layout that has been made over a pool. -/
structure MadeIn (layout : Layout) (p : ConstantPool) : Prop where
  laid : Laid 0 layout.placed layout.length
  nodup : (placedLabels (layout.placed.map (·.event))).Nodup
  measured : ∀ e ∈ layout.placed, Finds (Extent.ofEvent e.event) p e.extent
  wide : ∀ e ∈ layout.placed, e.wide = true → e.CanGrow
  /-- Behind everything that control reaches an instruction is left. -/
  behind : ∀ {before after : List PlacedEvent} {e : PlacedEvent},
    layout.placed = before ++ e :: after → e.state.isSome = true →
      ∃ e' ∈ e :: after, ∃ ins, e'.event = .instr ins
  nonempty : ∃ e ∈ layout.placed, ∃ ins, e.event = .instr ins

/-- A layout has the events that the last round has kept, with their states and extents. -/
theorem IsOf.forall₂_placed {layout : Layout} {p : ConstantPool} {events : List LayoutEvent}
    {solution : FlowSolution} {sized : List SizedEvent} (hp : p.WellFormed)
    (h : layout.IsOf body method events solution sized p) :
    List.Forall₂ (fun row (e : PlacedEvent) => e.toLayoutEvent = row.1 ∧ e.state = row.2 ∧
      Finds (Extent.ofEvent e.event) p e.extent) (prune events solution) layout.placed := by
  have hmeasured := (settle_spec sized (not_wide_of_finds_measure hp h.measured)).1
  simp only [h.settled] at hmeasured
  have hrows := finds_measure hp h.measured
  generalize prune events solution = rows at hrows
  generalize layout.placed = placed at hmeasured
  clear h
  induction hrows generalizing placed with
  | nil =>
    obtain rfl := List.map_eq_nil_iff.mp hmeasured
    exact .nil
  | @cons row e _ _ hrow _ ih =>
    obtain ⟨e', placed', rfl, he', hmeasured'⟩ := List.map_eq_cons_iff.mp hmeasured
    obtain ⟨extent, hextent, rfl⟩ := hrow
    simp only [SizedEvent.measured, Prod.mk.injEq] at he'
    obtain ⟨hevent, hstate, hsize⟩ := he'
    exact .cons ⟨hevent, hstate, by rwa [hsize, hevent]⟩ (ih _ hmeasured')

theorem IsOf.madeIn {layout : Layout} {p : ConstantPool} {events : List LayoutEvent}
    {solution : FlowSolution} {sized : List SizedEvent} (hp : p.WellFormed)
    (h : layout.IsOf body method events solution sized p) : layout.MadeIn p := by
  obtain ⟨-, hlaid, hwide⟩ := settle_spec sized (not_wide_of_finds_measure hp h.measured)
  rw [h.settled] at hlaid hwide
  have hrows := h.forall₂_placed hp
  have hfollows := FlowSolution.follows h.analyzed
  have hbehind {before after : List PlacedEvent} {e : PlacedEvent}
      (hsplit : layout.placed = before ++ e :: after) (hstate : e.state.isSome = true) :
      ∃ e' ∈ e :: after, ∃ ins, e'.event = .instr ins := by
    rw [hsplit] at hrows
    have hrest := List.forall₂_drop_append _ _ _ hrows
    have hprune := List.take_append_drop before.length (prune events solution)
    obtain ⟨row, rest, ⟨hrow, hstate', -⟩, hafter, hdrop⟩ := List.forall₂_cons_right_iff.mp hrest
    obtain ⟨s, hs⟩ := Option.isSome_iff_exists.mp hstate
    rw [hdrop, show row = (row.1, some s) by rw [← hs, hstate']] at hprune
    obtain ⟨row', hmem, ins, hins⟩ := exists_instruction_behind hfollows hprune.symm
    rw [show (row.1, some s) = row by rw [← hs, hstate'], ← hdrop] at hmem
    obtain ⟨e', he', hevent, -⟩ := hrest.exists_right hmem
    exact ⟨e', he', ins, by rw [← hins, ← hevent]⟩
  have hsub : (layout.placed.map (·.event)).Sublist (events.map (·.event)) := by
    have hplaced : layout.placed.map (·.toLayoutEvent) = (prune events solution).map (·.1) :=
      hrows.map_eq fun _ _ h => h.1
    have := (hplaced ▸ prune_sublist hfollows).map LayoutEvent.event
    rwa [List.map_map] at this
  refine ⟨hlaid, hfollows.nodup.sublist (hsub.filterMap _), fun e he => ?_, hwide, hbehind, ?_⟩
  · obtain ⟨row, -, -, -, hextent⟩ := hrows.exists_left he
    exact hextent
  · obtain ⟨j, ins, hj, hnumber⟩ := exists_position (hfollows.reaches_lt .entry)
    obtain ⟨s, hs⟩ := (hfollows.state_iff (List.getElem?_eq_some_iff.mp hj).1).mpr
      (hnumber ▸ .entry)
    obtain ⟨e, he, hins⟩ : ∃ e, events[j]? = some e ∧ e.event = .instr ins := by simpa using hj
    have hrow : (events.zip solution.states.toList)[j]? = some (e, some s) :=
      List.getElem?_zip_eq_some.mpr ⟨he, by simpa using hs⟩
    obtain ⟨e', he', hevent, -⟩ := hrows.exists_right
      (List.mem_filter.mpr ⟨List.mem_of_getElem? hrow, by simp⟩)
    exact ⟨e', he', ins, by rw [hevent, hins]⟩

theorem map_event_placed (layout : Layout) :
    (layout.placed.map (·.toLayoutEvent)).map (·.event) = layout.placed.map (·.event) :=
      List.map_map

/-- Control does not leave the program of a body. Its layout has the live part of the program, and
labels that the body refers to stand in it for what has become of what they have stood for. -/
theorem MadeIn.exists_relayed {layout : Layout} {p : ConstantPool} (hmade : layout.MadeIn p)
    (hp : p.WellFormed) (hlabels : body.checkLabels = .ok ())
    (h : Finds (ofBody body method) p layout) :
    (∀ {n : Nat}, body.Live n → n < (program body.events).length) ∧
      ∃ widths, Relayed body.Live (body.Overshoots method p) (placeBy widths) 0 0
          (program body.events) (program (layout.placed.map (·.event))) ∧
        ∀ l ∈ body.references, landing (layout.placed.map (·.event)) l =
          placeBy widths (landing body.events l) := by
  obtain ⟨hlt, widths, hlowers⟩ := lowers_of_finds hp hlabels h
  have hnodup := hmade.nodup
  rw [← map_event_placed] at hnodup ⊢
  refine ⟨fun hn => ?_, widths, relayed_of_lowers hlabels hlowers hnodup, fun l hl => ?_⟩
  · rw [length_program]
    exact hlt hn
  · exact landing_of_lowers hlabels hlowers hnodup hl

end Layout
end ClassPatch
