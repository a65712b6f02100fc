import ClassPatch.Proofs.Evaluation
import ClassPatch.Proofs.Flow.Consistency
import ClassPatch.Proofs.Flow.Locals
import ClassPatch.Proofs.Flow.Words
import ClassPatch.Proofs.Patch.MarkedJumps

/-!
# What a forced jump delivers

The code that takes the place of a conditional jump pops one word. A jump whose condition takes one
word is replaced without a difference: wherever it can be executed, so can the code, and it arrives
at the same label in the same state. A condition of two words leaves its first operand behind.
-/

namespace ClassPatch

namespace FlowState

variable {s s' : FlowState} {count : Nat}

theorem stack_of_pop (h : s.pop count = .ok s') : s'.stack = s.stack.drop count := by
  obtain ⟨-, rfl⟩ := pop_eq_ok.mp h
  rfl

end FlowState

namespace FlowGraph

variable {g : FlowGraph}

/-- The outcome of events in a row, of which only the last one jumps. -/
def transferAll (g : FlowGraph) : Nat → List Event → FlowState → Except Error Transfer
  | _, [], s => .ok (.straight s)
  | index, [e], s => g.transfer index e s
  | index, e :: events, s => do
    let t ← g.transfer index e s
    g.transferAll (index + 1) events t.after

/-- A conditional jump takes its words from the stack and arrives where its target is. -/
theorem transfer_branch {index : Nat} {c : Condition} {l : Label} {s : FlowState} {t : Transfer} :
    g.transfer index (.instr (.jump (.branch c) l)) s = .ok t ↔
      ∃ s' j, s.pop c.words = .ok s' ∧ g.position l = .ok j ∧ t = ⟨s', s', [j]⟩ := by
  constructor
  · intro h
    cases transfer_instr_eq_ok.mp h with
    | jump _ hpop hj => exact ⟨_, _, hpop, hj, rfl⟩
  · rintro ⟨s', j, hpop, hj, rfl⟩
    exact transfer_instr_eq_ok.mpr (.jump nofun hpop hj)

/-- The code of a forced jump takes one word. -/
theorem transferAll_code {index : Nat} {l : Label} {s s' : FlowState} {j : Nat}
    (hpop : s.pop 1 = .ok s') (hj : g.position l = .ok j) :
    g.transferAll index (ForcedJump.code l) s = .ok ⟨s', s', [j]⟩ := by
  have hplain : s.plain Opcode.pop = .ok s' := FlowState.plain_eq_ok.mpr (.take rfl hpop)
  have hfirst : g.transfer index (.instr (.plain Opcode.pop)) s = .ok (.straight s') :=
    transfer_instr_eq_ok.mpr (.plain hplain)
  have hlast : g.transfer (index + 1) (.instr (.jump .goto l)) s' = .ok ⟨s', s', [j]⟩ :=
    transfer_instr_eq_ok.mpr (.jump nofun (FlowState.pop_of_le (Nat.zero_le _)) hj)
  exact Except.bind_eq_ok.mpr ⟨_, hfirst, hlast⟩

end FlowGraph

namespace ForcedJump

variable {c : Condition} {l : Label} {front back : List Event} {handlers : List Handler}
  {frames : List (Label × Frame)} {method : MethodContext} {g : FlowGraph}

theorem placedLabels_splice : placedLabels (front ++ (code l ++ back)) =
    placedLabels (front ++ .instr (.jump (.branch c) l) :: back) := by
  simp [code]

/-- The code of a forced jump can stand wherever the jump can. -/
theorem exists_ofEvents_code (hg : FlowGraph.ofEvents
      (front ++ .instr (.jump (.branch c) l) :: back) handlers frames method = .ok g) :
    ∃ g', FlowGraph.ofEvents (front ++ (code l ++ back)) handlers frames method = .ok g' := by
  have hplaced {m : Label} {r : Nat}
      (hm : Means (front ++ .instr (.jump (.branch c) l) :: back) m r) :
      m ∈ placedLabels (front ++ (code l ++ back)) := by
    obtain ⟨i, hi, -⟩ := hm
    rw [placedLabels_splice]
    exact mem_placedLabels.mpr (List.mem_of_getElem? hi)
  refine FlowGraph.exists_ofEvents ?_ (fun handler hmem m hm => ?_) frames method
  · rw [placedLabels_splice]
    exact (FlowGraph.isOf_of_ofEvents hg).nodup
  · obtain ⟨range, -, hstart, hstop, htarget, -⟩ := (FlowGraph.forall₂_ranges hg).exists_right hmem
    simp only [List.mem_cons, List.not_mem_nil, or_false] at hm
    rcases hm with rfl | rfl | rfl
    · exact hplaced hstart
    · exact hplaced hstop
    · exact hplaced htarget

/-- Where a conditional jump can be executed, so can the code that takes its place. It arrives at
the label that the jump leads to, with the same locals; the stack is the same exactly if the
condition takes one word. -/
theorem arrives_alike_iff (hg : FlowGraph.ofEvents
      (front ++ .instr (.jump (.branch c) l) :: back) handlers frames method = .ok g) :
    ∃ g', FlowGraph.ofEvents (front ++ (code l ++ back)) handlers frames method = .ok g' ∧
      ∀ s t, g.transfer front.length (.instr (.jump (.branch c) l)) s = .ok t →
        ∃ t' j j', g'.transferAll front.length (code l) s = .ok t' ∧
          t.targets = [j] ∧ Means (front ++ .instr (.jump (.branch c) l) :: back) l j ∧
          t'.targets = [j'] ∧ Means (front ++ (code l ++ back)) l j' ∧
          t'.arrival.locals = t.arrival.locals ∧ (t'.arrival = t.arrival ↔ c.words = 1) := by
  obtain ⟨g', hg'⟩ := exists_ofEvents_code hg
  refine ⟨g', hg', fun s t ht => ?_⟩
  obtain ⟨s₁, j, hpop, hj, rfl⟩ := FlowGraph.transfer_branch.mp ht
  have hmeans := (FlowGraph.position_eq_ok_iff hg).mp hj
  obtain ⟨j', hj'⟩ := FlowGraph.exists_position_of_mem hg' (l := l) (by
    obtain ⟨i, hi, -⟩ := hmeans
    rw [placedLabels_splice (c := c)]
    exact mem_placedLabels.mpr (List.mem_of_getElem? hi))
  have hwords : 1 ≤ c.words := by
    cases c <;> decide
  have hle : c.words ≤ s.stack.length := (FlowState.moves_of_pop hpop).le
  have hone := FlowState.pop_of_le (Nat.le_trans hwords hle)
  refine ⟨_, j, j', FlowGraph.transferAll_code hone hj', rfl, hmeans, rfl,
    (FlowGraph.position_eq_ok_iff hg').mp hj', (FlowState.locals_of_pop hpop).symm, fun heq =>
    ?_, fun hc => ?_⟩
  · have hheight := congrArg (fun s : FlowState => s.stack.length) heq
    simp only [FlowState.stack_of_pop hpop, List.length_drop] at hheight
    omega
  · rw [hc] at hpop
    exact Except.ok.inj (hone.symm.trans hpop)

/-- A test of one truth value is replaced without a difference. -/
theorem arrives_alike_ifNe :
    let method : MethodContext := ⟨"A", "m", "()V", true, 49⟩
    let front : List Event := [.instr (.push (.int 1))]
    let branch : Event := .instr (.jump (.branch .ifNe) ⟨0⟩)
    let back : List Event := [.label ⟨0⟩, .instr (.leave none)]
    let s : FlowState := ⟨#[], [.integer]⟩
    ∃ g g' t t', FlowGraph.ofEvents (front ++ branch :: back) [] [] method = .ok g ∧
      FlowGraph.ofEvents (front ++ (code ⟨0⟩ ++ back)) [] [] method = .ok g' ∧
      g.transfer 1 branch s = .ok t ∧ g'.transferAll 1 (code ⟨0⟩) s = .ok t' ∧
      t'.arrival = t.arrival ∧ t.arrival = ⟨#[], []⟩ := by
  intro method front branch back s
  obtain ⟨g, hg⟩ : ∃ g, FlowGraph.ofEvents (front ++ branch :: back) [] [] method = .ok g :=
    FlowGraph.exists_ofEvents (by decide) (by simp) [] method
  obtain ⟨j, hj⟩ := FlowGraph.exists_position_of_mem hg (l := ⟨0⟩) (by decide)
  have ht : g.transfer 1 branch s = .ok ⟨⟨#[], []⟩, ⟨#[], []⟩, [j]⟩ :=
    FlowGraph.transfer_branch.mpr ⟨_, j, rfl, hj, rfl⟩
  obtain ⟨g', hg', hcode⟩ := arrives_alike_iff hg
  obtain ⟨t', -, -, ht', -, -, -, -, -, halike⟩ := hcode s _ ht
  exact ⟨g, g', _, t', hg, hg', ht, ht', halike.mpr rfl, rfl⟩

/-- A comparison of two numbers leaves the first one on the stack when it is taken always. -/
theorem not_arrives_alike_ifIcmpEq :
    let j : ForcedJump := ⟨"x", .branch .ifIcmpEq, .lenient⟩
    let method : MethodContext := ⟨"A", "m", "(I)V", true, 49⟩
    let front : List Event := [.instr (.push (.string "x")), .instr (.plain Opcode.pop),
      .instr (.load .int 0), .instr (.load .int 0)]
    let back : List Event := [.label ⟨0⟩, .instr (.leave none)]
    let events := front ++ .instr (.jump (.branch .ifIcmpEq) ⟨0⟩) :: back
    ∃ r solution solution',
      (j.machine method).run events ⟨⟨1⟩, #[]⟩ = .ok (front ++ (code ⟨0⟩ ++ back)) r ∧
      analyze events [] [] method 1 = .ok solution ∧
      analyze (front ++ (code ⟨0⟩ ++ back)) [] [] method 1 = .ok solution' ∧
      solution.state? 5 = some ⟨#[.integer], []⟩ ∧
      solution'.state? 6 = some ⟨#[.integer], [.integer]⟩ :=
  ⟨_, _, _, by cbv, by cbv, by cbv, by cbv, by cbv⟩

end ForcedJump
end ClassPatch
