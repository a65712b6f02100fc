import ClassPatch.Proofs.Code.LocalSlots
import ClassPatch.Proofs.Flow.Course
import ClassPatch.Proofs.Flow.Slots
import Mathlib.Order.MinMax

/-!
# What becomes of the locals

An instruction changes the locals only by a store into a slot, or by a constructor that gives
another type to what it has initialized. So the locals of every state are whole words, and they come
to reach no further than the instruction stores, unless a reference is stored from the first half of
a wide value.
-/

namespace ClassPatch

open VerificationType

namespace FlowState

variable {s s' : FlowState}

/-! ### Whole words -/

/-- No value in the locals is separated from its second half. -/
def WholeLocals (s : FlowState) : Prop := Whole s.locals.toList

/-- No value on the stack is separated from its second half. -/
def WholeStack (s : FlowState) : Prop := Whole s.stack.reverse

instance (s : FlowState) : Decidable s.WholeStack :=
  inferInstanceAs (Decidable (Whole s.stack.reverse))

theorem wholeLocals_iff : s.WholeLocals ↔
    ∀ k t, s.locals[k]? = some t → t.isWide = true → s.locals[k + 1]? = some .top := by
  unfold WholeLocals
  rw [whole_iff]
  simp only [Array.getElem?_toList]

theorem wholeLocals_ofFrame (frame : Frame) : (ofFrame frame).WholeLocals := ⟨frame.locals, rfl⟩

/-- The first half of a wide value is not on top of a stack of whole words. -/
theorem WholeStack.top (h : s.WholeStack) {t : VerificationType} (ht : s.stack[0]? = some t) :
    t.isWide = false := by
  by_contra hwide
  cases hstack : s.stack with
  | nil => simp [hstack] at ht
  | cons u stack =>
    obtain rfl : u = t := by simpa [hstack] using ht
    have hsecond := whole_iff.mp h stack.length u (by simp [hstack]) (by simpa using hwide)
    simp [hstack] at hsecond

/-- Slots of which none before a slot holds the first half of a wide value that goes on in it. -/
def unpair (slot : Nat) (locals : Array VerificationType) : Array VerificationType :=
  if 0 < slot && (locals[slot - 1]?.getD .top).isWide then locals.setIfInBounds (slot - 1) .top
  else locals

theorem locals_setLocal (slot : Nat) (t : VerificationType) (s : FlowState) :
    (s.setLocal slot t).locals =
      if t.isWide then ((unpair slot (widen (slot + t.width) s.locals)).setIfInBounds slot
        t).setIfInBounds (slot + 1) .top
      else (unpair slot (widen (slot + t.width) s.locals)).setIfInBounds slot t := rfl

theorem size_unpair (slot : Nat) (locals : Array VerificationType) :
    (unpair slot locals).size = locals.size := by
  unfold unpair
  split
  · exact Array.size_setIfInBounds
  · rfl

/-- A slot is left as it is, or given up for the one behind it. -/
theorem getElem?_unpair (slot : Nat) (locals : Array VerificationType) (k : Nat) :
    (unpair slot locals)[k]? = locals[k]? ∨
      k + 1 = slot ∧ k < locals.size ∧ (unpair slot locals)[k]? = some .top := by
  unfold unpair
  split
  · rename_i hwide
    simp only [Bool.and_eq_true, decide_eq_true_eq] at hwide
    rw [Array.getElem?_setIfInBounds]
    by_cases heq : slot - 1 = k
    · by_cases hlt : k < locals.size
      · exact .inr ⟨by omega, hlt, by rw [if_pos heq, if_pos (by omega)]⟩
      · rw [if_pos heq, if_neg (by omega)]
        exact .inl (Array.getElem?_eq_none (by omega)).symm
    · rw [if_neg heq]
      exact .inl rfl
  · exact .inl rfl

/-- The first half of a wide value is not left in front of the slot. -/
theorem isWide_unpair {k : Nat} {locals : Array VerificationType} {t : VerificationType}
    (h : (unpair (k + 1) locals)[k]? = some t) : t.isWide = false := by
  unfold unpair at h
  split at h
  · rw [Nat.add_sub_cancel, Array.getElem?_setIfInBounds, if_pos rfl] at h
    split at h
    · obtain rfl := Option.some.inj h
      rfl
    · cases h
  · rename_i hnarrow
    simpa [h] using hnarrow

theorem getElem?_widen (count : Nat) (locals : Array VerificationType) (k : Nat) :
    (widen count locals)[k]? =
      if k < locals.size then locals[k]? else if k < count then some .top else none := by
  unfold widen
  rw [Array.getElem?_append]
  split
  · rfl
  · rw [Array.getElem?_replicate]
    split <;> split <;> first | rfl | omega

/-- A store leaves whole words. -/
theorem WholeLocals.setLocal (h : s.WholeLocals) (slot : Nat) (t : VerificationType) :
    (s.setLocal slot t).WholeLocals := by
  rw [wholeLocals_iff] at h ⊢
  have hsize := size_widen (slot + t.width) s.locals
  have hwidth : t.width = if t.isWide then 2 else 1 := rfl
  -- between the slots that are stored to the words are those from before
  have hbefore (k : Nat) (u : VerificationType)
      (hk : (unpair slot (widen (slot + t.width) s.locals))[k]? = some u) (hu : u.isWide = true) :
      k + 1 ≠ slot ∧ (unpair slot (widen (slot + t.width) s.locals))[k + 1]? = some .top := by
    have hne : k + 1 ≠ slot := by
      rintro rfl
      rw [isWide_unpair hk] at hu
      cases hu
    refine ⟨hne, ?_⟩
    rcases getElem?_unpair slot (widen (slot + t.width) s.locals) k with hsame | ⟨heq, -, -⟩
    · rw [hsame, getElem?_widen] at hk
      have hlt : k < s.locals.size := by
        by_contra hlt
        rw [if_neg hlt] at hk
        split at hk
        · obtain rfl := Option.some.inj hk
          cases hu
        · cases hk
      rw [if_pos hlt] at hk
      have hsecond := h k u hk hu
      rcases getElem?_unpair slot (widen (slot + t.width) s.locals)
        (k + 1) with hsame | ⟨-, -, htop⟩
      · rw [hsame, getElem?_widen, if_pos (Array.getElem?_eq_some_iff.mp hsecond).1, hsecond]
      · exact htop
    · exact absurd heq hne
  have hroom := size_unpair slot (widen (slot + t.width) s.locals)
  rw [locals_setLocal]
  intro k u hk hu
  cases hwide : t.isWide with
  | true =>
    rw [hwide, if_pos rfl] at hwidth
    simp only [hwide, if_true, Array.getElem?_setIfInBounds, Array.size_setIfInBounds] at hk ⊢
    split at hk
    · split at hk
      · obtain rfl := Option.some.inj hk
        cases hu
      · cases hk
    · rename_i hsecond
      split at hk
      · subst slot
        rw [if_pos rfl, if_pos (by omega)]
      · rename_i hfirst
        obtain ⟨hne, htop⟩ := hbefore k u hk hu
        rw [if_neg (by omega), if_neg (by omega)]
        exact htop
  | false =>
    simp only [hwide, Bool.false_eq_true, if_false, Array.getElem?_setIfInBounds] at hk ⊢
    split at hk
    · split at hk
      · obtain rfl := Option.some.inj hk
        exact absurd (hu.symm.trans hwide) (by decide)
      · cases hk
    · obtain ⟨hne, htop⟩ := hbefore k u hk hu
      rw [if_neg (by omega)]
      exact htop

theorem WholeLocals.replace (h : s.WholeLocals) {old new : VerificationType} (hold : old ≠ .top)
    (hnew : new.isWide = false) : (s.replace old new).WholeLocals := by
  rw [wholeLocals_iff] at h ⊢
  intro k t hk ht
  simp only [FlowState.replace, Array.getElem?_map, Option.map_eq_some_iff] at hk ⊢
  obtain ⟨u, hu, rfl⟩ := hk
  split at ht
  · rw [hnew] at ht
    cases ht
  · exact ⟨.top, h k u hu ht, if_neg hold.symm⟩

/-- A value that is left when two meet is one that both have been. -/
theorem eq_of_isWide_merge {t u : VerificationType} (h : (t.merge u).isWide = true) : t = u := by
  unfold VerificationType.merge at h
  split at h
  · assumption
  · split at h <;> cases h

theorem WholeLocals.merge {index : Nat} {incoming merged : FlowState} (h : s.WholeLocals)
    (hincoming : incoming.WholeLocals) (hmerge : s.merge index incoming = .ok merged) :
    merged.WholeLocals := by
  rw [wholeLocals_iff] at h hincoming ⊢
  obtain ⟨-, -, rfl⟩ := merge_eq_ok.mp hmerge
  intro k t hk ht
  simp only [mergeLocals, Array.getElem?_mapIdx, Option.map_eq_some_iff] at hk ⊢
  obtain ⟨u, hu, rfl⟩ := hk
  have heq := eq_of_isWide_merge ht
  rw [← heq, VerificationType.merge_self] at ht
  refine ⟨.top, h k u hu ht, ?_⟩
  cases hget : incoming.locals[k]? with
  | none =>
    rw [hget, Option.getD_none] at heq
    rw [heq] at ht
    cases ht
  | some v =>
    rw [hget, Option.getD_some] at heq
    subst heq
    rw [hincoming k u hget ht, Option.getD_some, VerificationType.merge_self]

/-! ### Operations that leave the locals alone -/

theorem locals_of_pop {count : Nat} (h : s.pop count = .ok s') : s'.locals = s.locals := by
  obtain ⟨-, rfl⟩ := pop_eq_ok.mp h
  rfl

theorem locals_of_popValue {count : Nat} {t : VerificationType}
    (h : s.popValue count = .ok (t, s')) : s'.locals = s.locals :=
      locals_of_pop (popValue_eq_ok.mp h).1

theorem locals_push (t : VerificationType) (s : FlowState) : (s.push t).locals = s.locals := rfl

theorem locals_pushResult (d : MethodDescriptor) (s : FlowState) :
    (s.pushResult d).locals = s.locals := by
  unfold pushResult
  cases d.result <;> rfl

theorem locals_of_plain {op : UInt8} (h : s.plain op = .ok s') : s'.locals = s.locals := by
  cases plain_eq_ok.mp h with
  | copy _ hcopy =>
    obtain ⟨-, rfl⟩ := duplicate_eq_ok.mp hcopy
    rfl
  | swap hswap =>
    obtain ⟨first, second, rest, -, rfl⟩ := swap_eq_ok.mp hswap
    rfl
  | element hpop => exact (locals_push _ _).trans (locals_of_popValue hpop)
  | take _ hpop => exact locals_of_pop hpop
  | compute _ hpop => exact (locals_push _ _).trans (locals_of_pop hpop)

theorem locals_of_useField {access : FieldAccess} {descriptor : String}
    (h : s.useField access descriptor = .ok s') : s'.locals = s.locals := by
  obtain ⟨t, -, haccess⟩ := useField_eq_ok.mp h
  cases haccess with
  | getStatic => rfl
  | putStatic hpop | putField hpop => exact locals_of_pop hpop
  | getField hpop => exact (locals_push _ _).trans (locals_of_pop hpop)

theorem locals_of_useType {g : FlowGraph} {index : Nat} {use : TypeUse} {className : String}
    (h : s.useType g index use className = .ok s') : s'.locals = s.locals := by
  cases useType_eq_ok.mp h with
  | newObject => rfl
  | newArray hpop | checkCast hpop | instanceOf hpop =>
    exact (locals_push _ _).trans (locals_of_pop hpop)

/-- An object that has been initialized is of one word, and was none that is unusable. -/
theorem ne_top_of_initialized? {g : FlowGraph} {owner : String} {old new : VerificationType}
    (h : initialized? g owner old = some new) : old ≠ .top ∧ new.isWide = false := by
  cases old <;> cases h
  · exact ⟨nofun, rfl⟩
  · exact ⟨nofun, rfl⟩

/-- A call leaves the locals alone, or gives another type to an object that it has initialized. -/
theorem locals_of_call {g : FlowGraph} {kind : InvokeKind} {owner name descriptor : String}
    (h : s.call g kind owner name descriptor = .ok s') : s'.locals = s.locals ∨
      ∃ old new : VerificationType, old ≠ .top ∧ new.isWide = false ∧
        s'.locals = (s.replace old new).locals := by
  obtain ⟨d, -, hcalls⟩ := call_eq_ok.mp h
  cases hcalls with
  | static hpop => exact .inl ((locals_pushResult d _).trans (locals_of_pop hpop))
  | @member _ receiver _ s₂ _ hpop hreceiver =>
    have hlocals := (locals_of_popValue hreceiver).trans (locals_of_pop hpop)
    rw [locals_pushResult]
    rcases receive_eq g kind owner name receiver s₂ with heq | ⟨new, hnew, heq⟩
    · rw [heq]
      exact .inl hlocals
    · obtain ⟨hold, hwide⟩ := ne_top_of_initialized? hnew
      refine .inr ⟨receiver, new, hold, hwide, ?_⟩
      rw [heq, FlowState.replace, FlowState.replace, hlocals]

end FlowState

/-! ### Instructions -/

open FlowState

/-- How the locals come out of an instruction: as they were, with a slot that it has stored to, or
with another type for an object that has been initialized. -/
inductive Instruction.Leaves (i : Instruction Label) (s : FlowState) : Array VerificationType → Prop
  | same : i.Leaves s s.locals
  | stored {kind : ValueKind} {slot : UInt16} {t : VerificationType} (hi : i = .store kind slot)
      (ht : s.stack[kind.slots - 1]? = some t) :
      i.Leaves s (s.setLocal slot.toNat (kind.primitive?.getD t)).locals
  | incremented {slot : UInt16} {delta : Int16} (hi : i = .increment slot delta) :
      i.Leaves s (s.setLocal slot.toNat .integer).locals
  | initialized {old new : VerificationType} (hold : old ≠ .top) (hnew : new.isWide = false) :
      i.Leaves s (s.replace old new).locals

namespace Instruction.Leaves

variable {i : Instruction Label} {s : FlowState} {locals : Array VerificationType}

theorem of_eq (h : locals = s.locals) : i.Leaves s locals := h ▸ .same

/-- Whole words come out of whole words. -/
theorem whole (h : i.Leaves s locals) (hs : s.WholeLocals) : Whole locals.toList := by
  cases h with
  | same => exact hs
  | stored => exact hs.setLocal _ _
  | incremented => exact hs.setLocal _ _
  | initialized hold hnew => exact hs.replace hold hnew

/-- The locals come to reach no further than is stored, if a value that is stored as a reference is
one word, and one slot further otherwise. -/
private theorem size_le_add (h : i.Leaves s locals) (more : Nat)
    (hwidth : ∀ t, s.stack[0]? = some t → t.width ≤ 1 + more) :
    locals.size ≤ max s.locals.size (i.storesBelow + more) := by
  cases h with
  | same => exact Nat.le_max_left _ _
  | @stored kind slot t hi ht =>
    subst hi
    have hstored : (kind.primitive?.getD t).width ≤ kind.slots + more := by
      cases kind with
      | reference => exact hwidth t ht
      | _ => exact Nat.le_add_right _ _
    rw [size_setLocal]
    exact max_le_max_left _
      (by rw [storesBelow, Nat.add_assoc]; exact Nat.add_le_add_left hstored _)
  | incremented hi =>
    subst hi
    rw [size_setLocal]
    exact max_le_max_left _ (Nat.le_add_right _ _)
  | initialized =>
    rw [FlowState.replace, Array.size_map]
    exact Nat.le_max_left _ _

/-- With whole words on the stack, the locals come to reach no further than is stored. -/
theorem size_le (h : i.Leaves s locals) (hs : s.WholeStack) :
    locals.size ≤ max s.locals.size i.storesBelow :=
  h.size_le_add 0 fun t ht => by
    rw [VerificationType.width, hs.top ht]
    exact Nat.le_refl _

theorem size_le_succ (h : i.Leaves s locals) :
    locals.size ≤ max s.locals.size (i.storesBelow + 1) :=
  h.size_le_add 1 fun t _ => by
    unfold VerificationType.width
    split <;> omega

end Instruction.Leaves

namespace FlowGraph

variable {g : FlowGraph} {index : Nat} {s : FlowState} {t : Transfer}

theorem leaves_of_transferInstruction {i : Instruction Label}
    (h : g.transferInstruction index s i = .ok t) :
    i.Leaves s t.after.locals ∧ t.arrival.locals = t.after.locals := by
  cases transferInstruction_eq_ok.mp h with
  | push | load | subroutine | ret => exact ⟨.same, rfl⟩
  | @store kind slot stored s₁ hpop =>
    have hlocals : (s₁.setLocal slot.toNat (kind.primitive?.getD stored)).locals =
        (s.setLocal slot.toNat (kind.primitive?.getD stored)).locals := by
      rw [locals_setLocal, locals_setLocal, locals_of_popValue hpop]
    refine ⟨?_, rfl⟩
    change Instruction.Leaves _ s (s₁.setLocal slot.toNat (kind.primitive?.getD stored)).locals
    rw [hlocals]
    refine .stored rfl ?_
    cases kind <;> exact type_of_popValue hpop
  | increment => exact ⟨.incremented rfl, rfl⟩
  | jump _ hpop => exact ⟨.of_eq (locals_of_pop hpop), rfl⟩
  | tableSwitch hpop | lookupSwitch hpop | leave hpop => exact ⟨.of_eq (locals_of_pop hpop), rfl⟩
  | field hfield => exact ⟨.of_eq (locals_of_useField hfield), rfl⟩
  | @invoke _ _ _ _ _ s₁ hcall =>
    refine ⟨?_, rfl⟩
    change Instruction.Leaves _ s s₁.locals
    rcases locals_of_call hcall with hsame | ⟨old, new, hold, hnew, hreplaced⟩
    · exact .of_eq hsame
    · rw [hreplaced]
      exact .initialized hold hnew
  | invokeDynamic _ hpop =>
    exact ⟨.of_eq ((locals_pushResult _ _).trans (locals_of_pop hpop)), rfl⟩
  | typeUse huse => exact ⟨.of_eq (locals_of_useType huse), rfl⟩
  | newPrimitives hpop | newArrays hpop =>
    exact ⟨.of_eq ((locals_push _ _).trans (locals_of_pop hpop)), rfl⟩
  | plain hplain => exact ⟨.of_eq (locals_of_plain hplain), rfl⟩

/-- Along every edge of an event the locals are those from before it or from behind it. -/
theorem locals_of_mem_edges {e : Event} (h : g.transfer index e s = .ok t) :
    ∀ edge ∈ g.edges index e s t,
      edge.2.locals = s.locals ∨ edge.2.locals = t.after.locals := by
  have harrival : t.arrival.locals = t.after.locals := by
    cases e with
    | label l =>
      obtain rfl := Except.ok.inj h
      rfl
    | instr i => exact (leaves_of_transferInstruction h).2
  rintro ⟨j, incoming⟩ hedge
  cases carries_iff.mp hedge with
  | caught _ _ _ hlocals => exact hlocals
  | jump => exact .inr harrival
  | next => exact .inr rfl

/-! ### Searches -/

variable {events : List Event} {handlers : List Handler} {frames : List (Label × Frame)}
  {method : MethodContext} {entry : FlowState} {maxLocals : Nat} {q : FlowProgress}

/-- The locals of every state are whole words. -/
theorem wholeLocals_of_searches (hg : ofEvents events handlers frames method = .ok g)
    (hentry : entry.WholeLocals) (h : g.Searches entry maxLocals q) :
    AllStates (fun _ s => s.WholeLocals) q := by
  have hreceptive : g.Receptive fun _ s => s.WholeLocals := by
    refine ⟨fun {i hint incoming} hhint _ _ => ?_, fun _ hs hincoming hmerge =>
      hs.merge hincoming hmerge⟩
    obtain ⟨l, frame, -, -, rfl⟩ := exists_frame_of_hint hg hhint
    exact wholeLocals_ofFrame frame
  refine hreceptive.allStates hentry (fun {i e s t} _ hs he ht edge hedge => ?_) h
  have hafter : t.after.WholeLocals := by
    cases e with
    | label l =>
      obtain rfl := Except.ok.inj ht
      exact hs
    | instr i => exact (leaves_of_transferInstruction ht).1.whole hs
  rcases locals_of_mem_edges ht edge hedge with hlocals | hlocals
  · exact show Whole edge.2.locals.toList from hlocals ▸ hs
  · exact show Whole edge.2.locals.toList from hlocals ▸ hafter

/-- No more locals come up than on entry, in the declared states and behind instructions. -/
theorem size_le_of_searches {n : Nat} (hentry : entry.locals.size ≤ n)
    (hhints : ∀ (r : Nat) (hint : FlowState), g.hints[r]? = some hint → hint.locals.size ≤ n)
    (hleaves :
      ∀ (i : Nat) (ins : Instruction Label) (s : FlowState) (locals : Array VerificationType),
        g.Computes entry maxLocals i s → g.events[i]? = some (.instr ins) → ins.Leaves s locals →
        locals.size ≤ max s.locals.size n)
    (h : g.Searches entry maxLocals q) : AllStates (fun _ s => s.locals.size ≤ n) q ∧
      (maxLocals ≤ n → q.maxLocals ≤ n) := by
  have hafter {i : Nat} {e : Event} {s : FlowState} {t : Transfer}
      (hcomputes : g.Computes entry maxLocals i s) (hs : s.locals.size ≤ n)
      (he : g.events[i]? = some e) (ht : g.transfer i e s = .ok t) :
      t.after.locals.size ≤ n := by
    cases e with
    | label l =>
      obtain rfl := Except.ok.inj ht
      exact hs
    | instr ins =>
      exact Nat.le_trans (hleaves i ins s _ hcomputes he (leaves_of_transferInstruction ht).1)
        (Nat.max_le.mpr ⟨hs, Nat.le_refl n⟩)
  have hreceptive : g.Receptive fun _ s => s.locals.size ≤ n := by
    refine ⟨fun hhint _ _ => hhints _ _ hhint, fun _ hs _ hmerge => ?_⟩
    rwa [(sinks_of_merge hmerge).size]
  have hall {q : FlowProgress} (h : g.Searches entry maxLocals q) :
      AllStates (fun _ s => s.locals.size ≤ n) q := by
    refine hreceptive.allStates hentry (fun {i e s t} hcomputes hs he ht edge hedge => ?_) h
    rcases locals_of_mem_edges ht edge hedge with hlocals | hlocals
    · rwa [hlocals]
    · rw [hlocals]
      exact hafter hcomputes hs he ht
  refine ⟨hall h, fun hasked => h.maxLocals_le (Nat.max_le.mpr ⟨hentry, hasked⟩) ?_⟩
  intro i e s t hcomputes he ht
  obtain ⟨q', hq', hs⟩ := id hcomputes
  exact hafter hcomputes (hall hq' i s hs) he ht

end FlowGraph
end ClassPatch
