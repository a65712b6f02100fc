import ClassPatch.Proofs.Flow.Levels
import ClassPatch.Proofs.Flow.Pruning

/-!
# Heights by numbers

The instructions that an analysis comes to keep their order when the others are removed. By their
numbers in this order each of them has one state. Wherever control goes on from one of them, another
one is found that has a state of the height in which control arrives.
-/

namespace ClassPatch

namespace FlowSolution

variable (solution : FlowSolution) (events : List Event)

/-- How many of the instructions that are left stand in front of a position. -/
def numberOf (i : Nat) : Nat := numberAt (solution.prune events) (solution.placeOf events i)

/-- The instruction that is left with a number, and the state in which control comes to it. -/
def Stands (n : Nat) (i : Instruction Label) (s : FlowState) : Prop :=
  ∃ k, events[k]? = some (.instr i) ∧ solution.state? k = some s ∧ solution.numberOf events k = n

/-- As many words are on the stack as in front of the instruction that is left with a number. -/
def IsLevel (n : Nat) (s : FlowState) : Prop := ∃ i s', solution.Stands events n i s' ∧ s'.Level s

/-- Where control goes on from the instruction that is left with a number, as many words are on the
stack as arrive. -/
structure Goes (handlers : List Handler) (n : Nat) (i : Instruction Label) (t : Transfer) :
    Prop where
  next : i.isTerminal = false → solution.IsLevel events (n + 1) t.after
  jump : ∀ l ∈ i.targets, solution.IsLevel events (landing (solution.prune events) l) t.arrival
  caught : ∀ handler ∈ handlers, landing (solution.prune events) handler.start ≤ n →
    n < landing (solution.prune events) handler.stop → ∀ s : FlowState, s.stack.length = 1 →
      solution.IsLevel events (landing (solution.prune events) handler.target) s

variable {solution events} {handlers : List Handler} {frames : List (Label × Frame)}
  {method : MethodContext} {g : FlowGraph} {entry : FlowState} {p : FlowProgress}
  (hg : FlowGraph.ofEvents events handlers frames method = .ok g)
  (hsolution : solution.IsOf g entry p)

theorem IsLevel.congr {n : Nat} {s s' : FlowState} (h : solution.IsLevel events n s)
    (hlevel : s.Level s') : solution.IsLevel events n s' := by
  obtain ⟨i, s₀, hstands, hlevel₀⟩ := h
  exact ⟨i, s₀, hstands, Eq.trans hlevel₀ hlevel⟩

/-- What arrives at a height that a number gives comes to stand there. -/
theorem receptive_isLevel (number : Nat → Nat) :
    g.Receptive fun j s => solution.IsLevel events (number j) s where
  hint _ hheight hincoming := hincoming.congr hheight.symm
  merge _ hexisting _ hmerge :=
    hexisting.congr (FlowState.covers_of_merge hmerge).1.stack.length_eq.symm

/-! ### Numbers -/

section Numbers

variable (hsize : solution.states.size = events.length)
include hsize

theorem numberOf_label {k : Nat} {l : Label} (h : events[k]? = some (.label l)) :
    solution.numberOf events (k + 1) = solution.numberOf events k := by
  rw [numberOf, placeOf_label hsize h, numberAt_label (getElem?_prune_label hsize h), numberOf]

theorem numberOf_live {k : Nat} {i : Instruction Label} (h : events[k]? = some (.instr i))
    (hlive : (solution.state? k).isSome) :
    solution.numberOf events (k + 1) = solution.numberOf events k + 1 := by
  rw [numberOf, placeOf_live hsize h hlive, numberAt_instr (getElem?_prune_live hsize h hlive),
    numberOf]

/-- An instruction that is left is among those that are left, with its number. -/
theorem Stands.instructions {n : Nat} {i : Instruction Label} {s : FlowState}
    (h : solution.Stands events n i s) : (instructions (solution.prune events))[n]? = some i := by
  obtain ⟨k, hk, hs, rfl⟩ := h
  exact instructions_at (getElem?_prune_live hsize hk (by rw [hs]; rfl))

/-- A number stands for one instruction. -/
theorem Stands.unique {n : Nat} {i i' : Instruction Label} {s s' : FlowState}
    (h : solution.Stands events n i s) (h' : solution.Stands events n i' s') : i = i' ∧ s = s' := by
  obtain ⟨k, hk, hs, hn⟩ := h
  obtain ⟨k', hk', hs', hn'⟩ := h'
  have hlt {k k' : Nat} {i : Instruction Label} {s : FlowState} (hk : events[k]? = some (.instr i))
      (hs : solution.state? k = some s) (hlt : k < k') :
      solution.numberOf events k < solution.numberOf events k' := by
    have hmono := numberAt_mono (solution.prune events) (@placeOf_mono solution events _ _ hlt)
    have hlive := numberOf_live hsize hk (by rw [hs]; rfl)
    rw [numberOf] at hlive
    exact Nat.lt_of_lt_of_le (Nat.lt_of_lt_of_eq (Nat.lt_succ_self _) hlive.symm) hmono
  obtain rfl : k = k' := by
    rcases Nat.lt_trichotomy k k' with hkk | rfl | hkk
    · have := hlt hk hs hkk
      omega
    · rfl
    · have := hlt hk' hs' hkk
      omega
  exact ⟨Event.instr.inj (Option.some.inj (hk.symm.trans hk')), Option.some.inj (hs.symm.trans hs')⟩

/-- States of the same number are of the same height. -/
theorem IsLevel.level {n : Nat} {s s' : FlowState} (h : solution.IsLevel events n s)
    (h' : solution.IsLevel events n s') : s.Level s' := by
  obtain ⟨i, s₀, hstands, hlevel⟩ := h
  obtain ⟨i', s₀', hstands', hlevel'⟩ := h'
  obtain ⟨-, rfl⟩ := hstands.unique hsize hstands'
  exact Eq.trans (Eq.symm hlevel) hlevel'

end Numbers

/-! ### Control -/

include hg hsolution

/-- Where there is a state, the next instruction that is left has one of its height. -/
theorem isLevel_of_state {k : Nat} {s : FlowState} (hs : solution.state? k = some s) :
    solution.IsLevel events (solution.numberOf events k) s := by
  obtain ⟨e, t, hpassed⟩ := hsolution.toComplete.passes (hsolution.state?_eq_some.mp hs)
  have he : events[k]? = some e := by
    rw [← List.getElem?_toArray, ← (FlowGraph.isOf_of_ofEvents hg).events_eq, hpassed.event]
  cases e with
  | instr i => exact ⟨i, s, ⟨k, he, hs, rfl⟩, rfl⟩
  | label l =>
    have hlt := (List.getElem?_eq_some_iff.mp he).1
    obtain rfl := Except.ok.inj hpassed.transfer
    have hnext : (k + 1, s) ∈ g.edges k (.label l) s (.straight s) := by
      simp [FlowGraph.edges_label]
    obtain ⟨s', hs', hheight, -⟩ := (hpassed.absorbed hnext).state
    rw [← numberOf_label (FlowGraph.size_eq_length hg hsolution) he]
    exact (isLevel_of_state (hsolution.state?_eq_some.mpr hs')).congr hheight
termination_by events.length - k

/-- What arrives somewhere finds its height there. -/
theorem isLevel_of_absorbed {k : Nat} {incoming : FlowState} (h : p.Absorbed g k incoming) :
    solution.IsLevel events (solution.numberOf events k) incoming := by
  obtain ⟨s, hs, hheight, -⟩ := h.state
  exact (isLevel_of_state hg hsolution (hsolution.state?_eq_some.mpr hs)).congr hheight

omit hg hsolution in
/-- A label stands for the number of its position. -/
theorem landing_eq_numberOf (hsize : solution.states.size = events.length)
    (hnodup : (placedLabels events).Nodup) {l : Label} {k : Nat}
    (h : events[k]? = some (.label l)) :
    landing (solution.prune events) l = solution.numberOf events k :=
  landing_at (nodup_placedLabels_prune hsize hnodup) (getElem?_prune_label hsize h)

/-- A label stands for the number of the position that it means. -/
theorem landing_prune {l : Label} {r : Nat} (h : Means events l r) :
    landing (solution.prune events) l = solution.numberOf events r := by
  have hsize := FlowGraph.size_eq_length hg hsolution
  obtain ⟨k, hk, hrow⟩ := h
  rw [landing_eq_numberOf hsize (FlowGraph.isOf_of_ofEvents hg).nodup hk]
  exact numberAt_row (placeOf_mono hrow.le) fun c hc hc' =>
    labels_between_places hsize hrow.le hrow.labels hc hc'

/-- The method is entered with the height of the first instruction that is left. -/
theorem isLevel_entry : solution.IsLevel events 0 entry := by
  simpa [numberOf] using isLevel_of_absorbed hg hsolution hsolution.toComplete.entered

/-- A handler guards by numbers what it guards by positions. -/
theorem covers_of_numbers {handler : Handler} (hmem : handler ∈ handlers) {k : Nat}
    (hk : (solution.state? k).isSome)
    (hstart : landing (solution.prune events) handler.start ≤ solution.numberOf events k)
    (hstop : solution.numberOf events k < landing (solution.prune events) handler.stop) :
    handler.Covers events k ∧ ∃ r, Means events handler.target r := by
  obtain ⟨range, -, hfrom, hto, htarget, -⟩ := (FlowGraph.forall₂_ranges hg).exists_right hmem
  rw [landing_prune hg hsolution hfrom] at hstart
  rw [landing_prune hg hsolution hto] at hstop
  have hvisits := (FlowGraph.visits_iff_live hsolution).mpr hk
  have hle {l : Label} {r : Nat} (hmeans : Means events l r) : r ≤ events.length := by
    obtain ⟨i, hi, hrow⟩ := hmeans
    exact Nat.le_trans hrow.le (Nat.le_of_lt (List.getElem?_eq_some_iff.mp hi).1)
  have hfront : range.start ≤ k := by
    have hnumber := (FlowGraph.numberAt_le_iff hg hsolution hvisits (hle hfrom)).mp hstart
    obtain ⟨i, -, hrow⟩ := hfrom
    by_contra hlt
    have := hrow.isRowStart.number_lt (Nat.lt_of_not_le hlt)
    omega
  have hback : k < range.stop := by
    by_contra hlt
    have hnumber := numberAt_mono (solution.prune events)
      (@placeOf_mono solution events _ _ (Nat.le_of_not_lt hlt))
    exact absurd hstop (Nat.not_lt_of_le hnumber)
  exact ⟨⟨⟨_, hfrom, hfront⟩, ⟨_, hto, hback⟩⟩, _, htarget⟩

/-- Control goes on from every instruction that is left. -/
theorem Stands.goes {n : Nat} {i : Instruction Label} {s : FlowState}
    (h : solution.Stands events n i s) : ∃ k t, g.transferInstruction k s i = .ok t ∧
      solution.Goes events handlers n i t := by
  obtain ⟨k, hk, hs, rfl⟩ := h
  obtain ⟨e, t, hpassed⟩ := hsolution.toComplete.passes (hsolution.state?_eq_some.mp hs)
  have he : events[k]? = some e := by
    rw [← List.getElem?_toArray, ← (FlowGraph.isOf_of_ofEvents hg).events_eq, hpassed.event]
  obtain rfl := Option.some.inj (hk.symm.trans he)
  have hlive : (solution.state? k).isSome := by rw [hs]; rfl
  have harrives {j : Nat} {incoming : FlowState}
      (harrives : Arrives events handlers k (.instr i) s t j incoming) :
      solution.IsLevel events (solution.numberOf events j) incoming :=
    isLevel_of_absorbed hg hsolution
      (hpassed.absorbed (FlowGraph.mem_edges_of_arrives hg hpassed.transfer harrives))
  refine ⟨k, t, hpassed.transfer, ⟨fun hterminal => ?next, fun l hl => ?jump,
    fun handler hmem hstart hstop s' hheight => ?caught⟩⟩
  case next =>
    rw [← numberOf_live (FlowGraph.size_eq_length hg hsolution) hk hlive]
    exact harrives (.next hterminal)
  case jump =>
    obtain ⟨r, hr⟩ := FlowGraph.exists_position_of_transfer hpassed.transfer (l := l) hl
    have hmeans := (FlowGraph.position_eq_ok_iff hg).mp hr
    rw [landing_prune hg hsolution hmeans]
    exact harrives (.jump hl hmeans)
  case caught =>
    obtain ⟨hcovers, r, hmeans⟩ := covers_of_numbers hg hsolution hmem hlive hstart hstop
    rw [landing_prune hg hsolution hmeans]
    exact (harrives (.caught hmem hcovers hmeans (.inl rfl))).congr hheight.symm

omit hg in
/-- The bound on the stack covers the height of every instruction that is left. -/
theorem IsLevel.height_le {n : Nat} {s : FlowState} (h : solution.IsLevel events n s) :
    s.stack.length ≤ p.maxStack := by
  obtain ⟨i, s', ⟨k, -, hs, -⟩, hlevel⟩ := h
  rw [← show s'.stack.length = s.stack.length from hlevel]
  exact hsolution.toComplete.height_le (hsolution.state?_eq_some.mp hs)

end FlowSolution
end ClassPatch
