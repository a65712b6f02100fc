import ClassPatch.Proofs.Code.Targets
import ClassPatch.Proofs.Flow.Course

/-!
# What types make no difference to

Whether an event is permitted in a state, and how high the stack is behind it, depends on the height
of the stack in front of it only: in a state of the same height it is permitted as well, and leaves
the same height. The only exception is a reference loaded from what is typed as an array of longs or
doubles, which is counted as two words.
-/

namespace ClassPatch

/-- A reference that is loaded from an array is counted as one word. -/
def Event.LoadsWord (e : Event) (s : FlowState) : Prop :=
  e = .instr (.plain Opcode.aaload) →
    s.stack[1]? ≠ some (.object "[J") ∧ s.stack[1]? ≠ some (.object "[D")

namespace FlowState

variable {s s₁ s' s₁' : FlowState}

/-- The same number of words are on the stack. -/
def Level (s s' : FlowState) : Prop := s.stack.length = s'.stack.length

theorem Level.push (h : s.Level s') {t t' : VerificationType} (hwidth : t.width = t'.width) :
    (s.push t).Level (s'.push t') := by
  have hpush (s : FlowState) (t : VerificationType) :
      (s.push t).stack.length = s.stack.length + t.width := by
    simp only [FlowState.push, VerificationType.width]
    split <;> rfl
  rw [Level, hpush, hpush, hwidth, h]

theorem Level.pushResult (h : s.Level s') (d : MethodDescriptor) :
    (s.pushResult d).Level (s'.pushResult d) := by
  unfold FlowState.pushResult
  cases d.result with
  | none => exact h
  | some t => exact h.push rfl

theorem Level.pop (h : s.Level s') {count : Nat} (hpop : s.pop count = .ok s₁) :
    ∃ s₁', s'.pop count = .ok s₁' ∧ s₁.Level s₁' := by
  obtain ⟨hle, rfl⟩ := pop_eq_ok.mp hpop
  rw [h] at hle
  refine ⟨_, pop_of_le hle, ?_⟩
  simp only [Level, List.length_drop]
  rw [h]

theorem Level.popValue (h : s.Level s') {count : Nat} {t : VerificationType}
    (hvalue : s.popValue count = .ok (t, s₁)) :
    ∃ t' s₁', s'.popValue count = .ok (t', s₁') ∧ s₁.Level s₁' := by
  obtain ⟨s₁', hpop', hlevel⟩ := h.pop (popValue_eq_ok.mp hvalue).1
  exact ⟨_, s₁', popValue_eq_ok.mpr ⟨hpop', rfl⟩, hlevel⟩

theorem Level.duplicate (h : s.Level s') {count depth : Nat}
    (hdup : s.duplicate count depth = .ok s₁) : ∃ s₁', s'.duplicate count depth = .ok s₁' ∧
      s₁.Level s₁' := by
  obtain ⟨hle, rfl⟩ := duplicate_eq_ok.mp hdup
  rw [h] at hle
  refine ⟨_, duplicate_eq_ok.mpr ⟨hle, rfl⟩, ?_⟩
  simp only [Level, List.length_append, List.length_take, List.length_drop]
  rw [h]

theorem Level.swap (h : s.Level s') (hswap : s.swap = .ok s₁) : ∃ s₁', s'.swap = .ok s₁' ∧
    s₁.Level s₁' := by
  obtain ⟨hle, hheight, -⟩ := moves_of_swap hswap
  rw [h] at hle hheight
  obtain ⟨first, second, rest, hstack⟩ :
      ∃ first second rest, s'.stack = first :: second :: rest := by
    rcases hstack : s'.stack with _ | ⟨first, _ | ⟨second, rest⟩⟩
    · simp [hstack] at hle
    · simp [hstack] at hle
    · exact ⟨first, second, rest, rfl⟩
  refine ⟨_, swap_eq_ok.mpr ⟨first, second, rest, hstack, rfl⟩, ?_⟩
  rw [Level, hheight, hstack]
  rfl

theorem Level.setLocal (h : s.Level s') (slot : Nat) (t t' : VerificationType) :
    (s.setLocal slot t).Level (s'.setLocal slot t') := h

/-! ### Instructions -/

theorem Level.plain (h : s.Level s') {op : UInt8} (hs : (Event.instr (.plain op)).LoadsWord s)
    (hs' : (Event.instr (.plain op)).LoadsWord s') (hplain : s.plain op = .ok s₁) :
    ∃ s₁', s'.plain op = .ok s₁' ∧ s₁.Level s₁' := by
  cases plain_eq_ok.mp hplain with
  | copy hop hcopy =>
    obtain ⟨s₁', hcopy', hlevel⟩ := h.duplicate hcopy
    exact ⟨s₁', plain_eq_ok.mpr (.copy hop hcopy'), hlevel⟩
  | swap hswap =>
    obtain ⟨s₁', hswap', hlevel⟩ := h.swap hswap
    exact ⟨s₁', plain_eq_ok.mpr (.swap hswap'), hlevel⟩
  | element hpop =>
    obtain ⟨array', after', hpop', hlevel⟩ := h.popValue hpop
    refine ⟨_, plain_eq_ok.mpr (.element hpop'), hlevel.push ?_⟩
    obtain ⟨hlong, hdouble⟩ := hs rfl
    obtain ⟨hlong', hdouble'⟩ := hs' rfl
    rw [type_of_popValue hpop] at hlong hdouble
    rw [type_of_popValue hpop'] at hlong' hdouble'
    rw [width_elementOf (by simpa using hlong) (by simpa using hdouble),
      width_elementOf (by simpa using hlong') (by simpa using hdouble')]
  | take heffect hpop =>
    obtain ⟨s₁', hpop', hlevel⟩ := h.pop hpop
    exact ⟨s₁', plain_eq_ok.mpr (.take heffect hpop'), hlevel⟩
  | compute heffect hpop =>
    obtain ⟨after', hpop', hlevel⟩ := h.pop hpop
    exact ⟨_, plain_eq_ok.mpr (.compute heffect hpop'), hlevel.push rfl⟩

theorem Level.useField (h : s.Level s') {access : FieldAccess} {descriptor : String}
    (hfield : s.useField access descriptor = .ok s₁) :
    ∃ s₁', s'.useField access descriptor = .ok s₁' ∧ s₁.Level s₁' := by
  obtain ⟨t, ht, haccess⟩ := useField_eq_ok.mp hfield
  cases haccess with
  | getStatic => exact ⟨_, useField_eq_ok.mpr ⟨t, ht, .getStatic⟩, h.push rfl⟩
  | putStatic hpop =>
    obtain ⟨s₁', hpop', hlevel⟩ := h.pop hpop
    exact ⟨s₁', useField_eq_ok.mpr ⟨t, ht, .putStatic hpop'⟩, hlevel⟩
  | getField hpop =>
    obtain ⟨after', hpop', hlevel⟩ := h.pop hpop
    exact ⟨_, useField_eq_ok.mpr ⟨t, ht, .getField hpop'⟩, hlevel.push rfl⟩
  | putField hpop =>
    obtain ⟨s₁', hpop', hlevel⟩ := h.pop hpop
    exact ⟨s₁', useField_eq_ok.mpr ⟨t, ht, .putField hpop'⟩, hlevel⟩

/-- A constructor only retypes words. -/
theorem Level.receive (h : s.Level s') (g g' : FlowGraph) (kind : InvokeKind) (owner name : String)
    (receiver receiver' : VerificationType) :
    (s.receive g kind owner name receiver).Level (s'.receive g' kind owner name receiver') := by
  have hheight (s : FlowState) (g : FlowGraph) (receiver : VerificationType) :
      (s.receive g kind owner name receiver).stack.length = s.stack.length := by
    rcases receive_eq g kind owner name receiver s with heq | ⟨new, -, heq⟩
    · rw [heq]
    · rw [heq]
      exact List.length_map _
  rw [Level, hheight, hheight, h]

theorem Level.call (h : s.Level s') {g : FlowGraph} (g' : FlowGraph) {kind : InvokeKind}
    {owner name descriptor : String} (hcall : s.call g kind owner name descriptor = .ok s₁) :
    ∃ s₁', s'.call g' kind owner name descriptor = .ok s₁' ∧ s₁.Level s₁' := by
  obtain ⟨d, hd, hcalls⟩ := call_eq_ok.mp hcall
  cases hcalls with
  | static hpop =>
    obtain ⟨s₂', hpop', hlevel⟩ := h.pop hpop
    exact ⟨_, call_eq_ok.mpr ⟨d, hd, .static hpop'⟩, hlevel.pushResult d⟩
  | member hkind hpop hreceiver =>
    obtain ⟨s₂', hpop', hlevel⟩ := h.pop hpop
    obtain ⟨receiver', s₃', hreceiver', hlevel⟩ := hlevel.popValue hreceiver
    exact ⟨_, call_eq_ok.mpr ⟨d, hd, .member hkind hpop' hreceiver'⟩,
      (hlevel.receive g g' kind owner name _ _).pushResult d⟩

theorem Level.useType (h : s.Level s') {g g' : FlowGraph} {index index' : Nat} {use : TypeUse}
    {className : String} (hnew : use = .newObject → ∃ l, g'.labelBefore? index' = some l)
    (huse : s.useType g index use className = .ok s₁) :
    ∃ s₁', s'.useType g' index' use className = .ok s₁' ∧ s₁.Level s₁' := by
  cases useType_eq_ok.mp huse with
  | newObject =>
    obtain ⟨l, hl⟩ := hnew rfl
    exact ⟨_, useType_eq_ok.mpr (.newObject hl), h.push rfl⟩
  | newArray hpop =>
    obtain ⟨after', hpop', hlevel⟩ := h.pop hpop
    exact ⟨_, useType_eq_ok.mpr (.newArray hpop'), hlevel.push rfl⟩
  | checkCast hpop =>
    obtain ⟨after', hpop', hlevel⟩ := h.pop hpop
    exact ⟨_, useType_eq_ok.mpr (.checkCast hpop'), hlevel.push rfl⟩
  | instanceOf hpop =>
    obtain ⟨after', hpop', hlevel⟩ := h.pop hpop
    exact ⟨_, useType_eq_ok.mpr (.instanceOf hpop'), hlevel.push rfl⟩

end FlowState

/-- What comes of an event in states of the same height. -/
structure Transfer.Level (t t' : Transfer) : Prop where
  after : t.after.Level t'.after
  arrival : t.arrival.Level t'.arrival

theorem Transfer.Level.straight {s s' : FlowState} (h : s.Level s') :
    Transfer.Level (.straight s) (.straight s') := ⟨h, h⟩

namespace FlowGraph

open FlowState

variable {g g' : FlowGraph} {index index' : Nat} {s s' : FlowState} {t : Transfer}

/-- An instruction is permitted in every state of the same height, with a result of the same height,
wherever its targets and the label of a `new` are placed. -/
theorem exists_transferInstruction {i : Instruction Label} {f : Label → Label} (hlevel : s.Level s')
    (h : g.transferInstruction index s i = .ok t)
    (htargets : ∀ l ∈ i.targets, ∃ r, g'.position (f l) = .ok r)
    (hnew : ∀ className, i = .typeUse .newObject className → ∃ l, g'.labelBefore? index' = some l)
    (hs : (Event.instr i).LoadsWord s) (hs' : (Event.instr i).LoadsWord s') :
    ∃ t', g'.transferInstruction index' s' (i.map f) = .ok t' ∧ t.Level t' := by
  have hall : ∃ positions, (i.map f).targets.mapM g'.position = .ok positions := by
    refine Except.exists_mapM fun l' hl' => ?_
    rw [Instruction.targets_map] at hl'
    obtain ⟨l, hl, rfl⟩ := List.mem_map.mp hl'
    exact htargets l hl
  suffices hexecutes : ∃ t', g'.Executes index' s' (i.map f) t' ∧ t.Level t' by
    obtain ⟨t', ht', ht⟩ := hexecutes
    exact ⟨t', transferInstruction_eq_ok.mpr ht', ht⟩
  cases transferInstruction_eq_ok.mp h with
  | push htype => exact ⟨_, .push htype, .straight (hlevel.push rfl)⟩
  | load => exact ⟨_, .load, .straight (hlevel.push (by rw [width_loaded, width_loaded]))⟩
  | store hpop =>
    obtain ⟨stored', s₁', hpop', hlevel⟩ := hlevel.popValue hpop
    exact ⟨_, .store hpop', .straight (hlevel.setLocal _ _ _)⟩
  | increment => exact ⟨_, .increment, .straight (hlevel.setLocal _ _ _)⟩
  | subroutine =>
    obtain ⟨r, hr⟩ := htargets _ (List.mem_singleton.mpr rfl)
    exact ⟨_, .subroutine hr, hlevel, hlevel.push rfl⟩
  | jump hkind hpop =>
    obtain ⟨r, hr⟩ := htargets _ (List.mem_singleton.mpr rfl)
    obtain ⟨s₁', hpop', hlevel⟩ := hlevel.pop hpop
    exact ⟨_, .jump hkind hpop' hr, hlevel, hlevel⟩
  | tableSwitch hpop =>
    obtain ⟨s₁', hpop', hlevel⟩ := hlevel.pop hpop
    obtain ⟨positions', hpositions'⟩ := hall
    exact ⟨_, .tableSwitch hpop' hpositions', hlevel, hlevel⟩
  | lookupSwitch hpop =>
    obtain ⟨s₁', hpop', hlevel⟩ := hlevel.pop hpop
    obtain ⟨positions', hpositions'⟩ := hall
    exact ⟨_, .lookupSwitch hpop' hpositions', hlevel, hlevel⟩
  | field hfield =>
    obtain ⟨s₁', hfield', hlevel⟩ := hlevel.useField hfield
    exact ⟨_, .field hfield', .straight hlevel⟩
  | invoke hcall =>
    obtain ⟨s₁', hcall', hlevel⟩ := hlevel.call g' hcall
    exact ⟨_, .invoke hcall', .straight hlevel⟩
  | invokeDynamic hd hpop =>
    obtain ⟨s₁', hpop', hlevel⟩ := hlevel.pop hpop
    exact ⟨_, .invokeDynamic hd hpop', .straight (hlevel.pushResult _)⟩
  | @typeUse use className _ huse =>
    have hlabel : use = .newObject → ∃ l, g'.labelBefore? index' = some l :=
      fun hobject => hnew className (by rw [hobject])
    obtain ⟨s₁', huse', hlevel⟩ := hlevel.useType hlabel huse
    exact ⟨_, .typeUse huse', .straight hlevel⟩
  | newPrimitives hpop =>
    obtain ⟨s₁', hpop', hlevel⟩ := hlevel.pop hpop
    exact ⟨_, .newPrimitives hpop', .straight (hlevel.push rfl)⟩
  | newArrays hpop =>
    obtain ⟨s₁', hpop', hlevel⟩ := hlevel.pop hpop
    exact ⟨_, .newArrays hpop', .straight (hlevel.push rfl)⟩
  | leave hpop =>
    obtain ⟨s₁', hpop', hlevel⟩ := hlevel.pop hpop
    exact ⟨_, .leave hpop', .straight hlevel⟩
  | ret => exact ⟨_, .ret, .straight hlevel⟩
  | plain hplain =>
    obtain ⟨s₁', hplain', hlevel⟩ := hlevel.plain hs hs' hplain
    exact ⟨_, .plain hplain', .straight hlevel⟩

end FlowGraph
end ClassPatch
