import ClassPatch.Proofs.Code.Emission
import ClassPatch.Proofs.Code.Reached
import ClassPatch.Proofs.Evaluation
import ClassPatch.Proofs.Flow.Words

/-!
# The bound on the locals

The bound that is written covers what the body declares, the locals on entry and every slot that an
emitted instruction stores to. A load or a `ret` does not raise it: their slots are covered where
the state in front of them has these slots, and not otherwise.
-/

namespace ClassPatch

open PoolM CodeWriter VerificationType

namespace Instruction

variable {τ : Type}

/-- The slots that an instruction stores to lie below this one. -/
def storesBelow : Instruction τ → Nat
  | store kind slot => slot.toNat + kind.slots
  | increment slot _ => slot.toNat + 1
  | _ => 0

/-- The slots that an instruction only reads lie below this one. -/
def readsBelow : Instruction τ → Nat
  | load kind slot => slot.toNat + kind.slots
  | ret slot => slot.toNat + 1
  | _ => 0

end Instruction

/-! ### Solutions -/

namespace FlowGraph

/-- A value that is stored is as wide as its kind, or wider. -/
theorem slots_le_width (kind : ValueKind) (stored : VerificationType) :
    kind.slots ≤ (kind.primitive?.getD stored).width := by
  cases kind with
  | reference =>
    unfold VerificationType.width
    split <;> simp [ValueKind.slots]
  | _ => exact Nat.le_refl _

/-- Behind an instruction there are the slots that it has stored to. -/
theorem storesBelow_le {g : FlowGraph} {index : Nat} {s : FlowState} {t : Transfer}
    {i : Instruction Label} (h : g.transferInstruction index s i = .ok t) :
    i.storesBelow ≤ t.after.locals.size := by
  cases i with
  | store kind slot =>
    obtain ⟨⟨stored, s₁⟩, -, h⟩ := Except.bind_eq_ok.mp h
    obtain rfl := Except.pure_eq_ok.mp h
    have hwidth := slots_le_width kind stored
    have hsize := FlowState.size_setLocal slot.toNat (kind.primitive?.getD stored) s₁
    show slot.toNat + kind.slots ≤
      (s₁.setLocal slot.toNat (kind.primitive?.getD stored)).locals.size
    omega
  | increment slot delta =>
    obtain rfl := Except.pure_eq_ok.mp h
    have hsize : (s.setLocal slot.toNat .integer).locals.size =
        max s.locals.size (slot.toNat + 1) := FlowState.size_setLocal _ _ s
    show slot.toNat + 1 ≤ (s.setLocal slot.toNat .integer).locals.size
    omega
  | _ => exact Nat.zero_le _

end FlowGraph

namespace FlowSolution

variable {events : List Event} {handlers : List Handler} {frames : List (Label × Frame)}
  {method : MethodContext} {maxLocals : UInt16} {solution : FlowSolution}

/-- The locals of a solution are at least those of every state. -/
theorem size_le_of_analyze (h : analyze events handlers frames method maxLocals = .ok solution)
    {i : Nat} {s : FlowState} (hs : solution.state? i = some s) :
    s.locals.size ≤ solution.maxLocals.toNat := by
  obtain ⟨g, frame, p, -, -, -, hsolution⟩ := exists_isOf h
  rw [hsolution.toNat_maxLocals]
  have hmost : s.locals.size ≤ mostLocals p.states := by
    rw [← hsolution.states]
    exact le_mostLocals (Option.join_eq_some_iff.mp hs)
  exact Nat.le_trans hmost (Nat.le_max_right _ _)

/-- The locals of a solution are at least those that are asked for, those on entry, those of every
state, and all that are stored to. -/
theorem locals_le_of_analyze (h : analyze events handlers frames method maxLocals = .ok solution) :
    maxLocals ≤ solution.maxLocals ∧
    (∀ entry, Frame.entry method = .ok entry →
      (toSlots entry.locals).length ≤ solution.maxLocals.toNat) ∧
    ∀ (i : Nat) (ins : Instruction Label) (s : FlowState), events[i]? = some (.instr ins) →
      solution.states[i]? = some (some s) →
        s.locals.size ≤ solution.maxLocals.toNat ∧ ins.storesBelow ≤ solution.maxLocals.toNat := by
  obtain ⟨g, frame, p, hg, hframe, -, hsearch, hsolution⟩ := exists_search h
  have hcomplete := hsolution.toComplete
  have hbound := hsolution.toNat_maxLocals
  have hstart := FlowGraph.locals_le_of_search hsearch
  refine ⟨?declared, ?entry, ?stored⟩
  case declared =>
    rw [UInt16.le_iff_toNat_le]
    omega
  case entry =>
    intro entry hentry
    obtain rfl := Except.ok.inj (hframe.symm.trans hentry)
    have hsize : (FlowState.ofFrame frame).locals.size = (toSlots frame.locals).length := rfl
    omega
  case stored =>
    intro i ins s hins hs
    rw [hsolution.states] at hs
    obtain ⟨e, t, hpassed⟩ := hcomplete.passes hs
    have he : g.events[i]? = some (.instr ins) := by
      rw [(FlowGraph.isOf_of_ofEvents hg).events_eq, List.getElem?_toArray, hins]
    obtain rfl := Option.some.inj (hpassed.event.symm.trans he)
    have hstate := le_mostLocals hs
    have hafter := hpassed.locals_le
    have hstores := FlowGraph.storesBelow_le hpassed.transfer
    exact ⟨by omega, by omega⟩

end FlowSolution

/-! ### What is written -/

/-- The written bound on the locals covers what the body declares, the locals on entry and all slots
that emitted instructions store to. It covers those that they read where the state in front of the
instruction has them. -/
theorem Body.maxLocals_of_encode {body : Body} {method : MethodContext} {code : Bytes}
    {pool pool' : ConstantPool} (hpool : pool.WellFormed)
    (hencoded : body.encode method pool = .ok code pool') :
    ∃ layout parts, body.EmittedAs method pool' code layout parts ∧
      body.maxLocals ≤ layout.maxLocals ∧
      (∀ entry, Frame.entry method = .ok entry →
        (toSlots entry.locals).length ≤ layout.maxLocals.toNat) ∧
      ∀ e ∈ layout.placed, ∀ i, e.event = .instr i →
        i.storesBelow ≤ layout.maxLocals.toNat ∧ ∃ s, e.state = some s ∧
          (i.readsBelow ≤ s.locals.size → i.readsBelow ≤ layout.maxLocals.toNat) := by
  have hsteady := (body.splits_encode method).steady
  have hpool' := hsteady.wellFormed hpool hencoded
  obtain ⟨layout, parts, h⟩ := Body.exists_emittedAs hpool' (hsteady.finds hpool hencoded)
  obtain ⟨events, solution, sized, -, hisOf⟩ := Layout.exists_isOf hpool' h.ofBody .refl
  obtain ⟨hdeclared, hentry, hslots⟩ := FlowSolution.locals_le_of_analyze hisOf.analyzed
  rw [← hisOf.maxLocals] at hdeclared hentry hslots
  refine ⟨layout, parts, h, hdeclared, hentry, ?_⟩
  intro e he i hi
  obtain ⟨k, hk, hstate, hkept⟩ := hisOf.exists_position hpool' he
  rw [hi] at hk hkept
  obtain ⟨s, hs⟩ := Option.isSome_iff_exists.mp (hkept.resolve_left (by simp [Event.isLabel]))
  obtain ⟨hsize, hstores⟩ := hslots k i s hk (hs ▸ hstate)
  exact ⟨hstores, s, hs, fun hreads => Nat.le_trans hreads hsize⟩

/-- A `long` is stored behind the parameter and read again. -/
theorem Body.maxLocals_of_encode_stored :
    let method : MethodContext := ⟨"A", "m", "(I)V", true, 52⟩
    let body : Body := ⟨0, 0, [.instr (.push (.long 0)), .instr (.store .long 3),
      .instr (.load .long 3), .instr (.leave (some .long))], [], [], [], [], [], [], ⟨0⟩⟩
    let code : Bytes := [0, 2, 0, 5, 0, 0, 0, 4, 9, 66, 33, 173, 0, 0, 0, 0]
    body.encode method .empty = .ok code .empty ∧
    ∃ layout parts, body.EmittedAs method .empty code layout parts ∧
      body.maxLocals ≤ layout.maxLocals ∧
      (∀ entry, Frame.entry method = .ok entry →
        (toSlots entry.locals).length ≤ layout.maxLocals.toNat) ∧
      ∀ e ∈ layout.placed, ∀ i, e.event = .instr i →
        i.storesBelow ≤ layout.maxLocals.toNat ∧ ∃ s, e.state = some s ∧
          (i.readsBelow ≤ s.locals.size → i.readsBelow ≤ layout.maxLocals.toNat) := by
  intro method body code
  have hencoded : body.encode method .empty = .ok code .empty := by cbv
  exact ⟨hencoded, Body.maxLocals_of_encode ConstantPool.wellFormed_empty hencoded⟩

/-- The load of a slot that nothing has been stored to does not raise the bound: what is written has
no locals and reads slot 5. -/
theorem Body.not_maxLocals_of_encode_load :
    let method : MethodContext := ⟨"A", "m", "()V", true, 52⟩
    let events : List Event := [.instr (.load .int 5), .instr (.plain Opcode.pop),
      .instr (.leave none)]
    let body : Body := ⟨0, 0, events, [], [], [], [], [], [], ⟨0⟩⟩
    ∃ code written, body.encode method .empty = .ok code .empty ∧
      Body.decode code .empty method = .ok written ∧ written.events = events ∧
        written.maxLocals = 0 ∧ (Instruction.load .int 5 : Instruction Label).readsBelow = 6 := by
  intro method events body
  have hencoded : body.encode method .empty =
      .ok [0, 1, 0, 0, 0, 0, 0, 4, 21, 5, 87, 177, 0, 0, 0, 0] .empty := by
    cbv
  have hdecoded : Body.decode [0, 1, 0, 0, 0, 0, 0, 4, 21, 5, 87, 177, 0, 0, 0, 0] .empty method =
      .ok { body with maxStack := 1 } := by
    cbv
  exact ⟨_, _, hencoded, hdecoded, rfl, rfl, rfl⟩

end ClassPatch
