import ClassPatch.Code.Assembly
import ClassPatch.Proofs.Descriptor.Grammar
import ClassPatch.Proofs.Flow.Words

/-!
# The words of parameters

The words that the parameters of a method take are summed in 16 bits, but a descriptor may list more
parameters than 16 bits count. The analysis of types takes as many words for a call as have been
summed, and an interface call is written with one more, so both are right exactly as long as the sum
is.
-/

namespace ClassPatch

open FlowState Instruction

/-- The instruction goes on in exactly the states with so many words on the stack, and puts so many
others in their place. -/
def FlowGraph.Takes (g : FlowGraph) (index : Nat) (i : Instruction Label) (taken put : Nat) :
    Prop :=
  ∀ s : FlowState, ((∃ t, g.transferInstruction index s i = .ok t) ↔ taken ≤ s.stack.length) ∧
    ∀ t, g.transferInstruction index s i = .ok t → s.Moves t.after taken put

/-- The parameters of a method count as so many words, on their own and in the analysis of calls. -/
structure CountedAs (text : String) (d : MethodDescriptor) (words : Nat) : Prop where
  slots : d.parameterSlots.toNat = words
  invoke : ∀ (g : FlowGraph) (index : Nat) (kind : InvokeKind) (owner name : String)
    (ofInterface : Bool), g.Takes index (.invoke kind owner name text ofInterface)
      (words + if kind = .static then 0 else 1) d.resultWords
  invokeDynamic : ∀ (g : FlowGraph) (index : Nat) (bootstrap : UInt16) (name : String),
    g.Takes index (.invokeDynamic bootstrap name text) words d.resultWords

/-- An interface call is written with so many words of arguments, or refused with this number. -/
def ArgumentsAs (text : String) (count : Nat) : Prop :=
  ∀ p : ConstantPool, interfaceArguments text p =
    if count ≤ 255 then .ok (UInt8.ofNat count) p
    else .error (.limitExceeded (.interfaceArguments count)) p

variable {text : String} {d : MethodDescriptor}

/-! ### Calls -/

/-- A call succeeds where its arguments are on the stack. -/
theorem exists_call (hd : MethodDescriptor.parse text = .ok d) (g : FlowGraph) (kind : InvokeKind)
    (owner name : String) {s : FlowState}
    (h : d.parameterSlots.toNat + (if kind = .static then 0 else 1) ≤ s.stack.length) :
    ∃ s', s.call g kind owner name text = .ok s' := by
  have hpop := pop_of_le (Nat.le_trans (Nat.le_add_right _ _) h)
  by_cases hstatic : kind = .static
  · subst hstatic
    exact ⟨_, call_eq_ok.mpr ⟨d, hd, .static hpop⟩⟩
  · rw [if_neg hstatic] at h
    have hreceiver : 1 ≤ (s.stack.drop d.parameterSlots.toNat).length := by
      rw [List.length_drop]
      omega
    have hvalue : popValue 1 { s with stack := s.stack.drop d.parameterSlots.toNat } = .ok _ :=
      popValue_eq_ok.mpr ⟨pop_of_le hreceiver, rfl⟩
    exact ⟨_, call_eq_ok.mpr ⟨d, hd, .member hstatic hpop hvalue⟩⟩

theorem takes_of_moves {g : FlowGraph} {index : Nat} {i : Instruction Label} {taken put : Nat}
    (hmoves : ∀ s t, g.transferInstruction index s i = .ok t → s.Moves t.after taken put)
    (hexists : ∀ s : FlowState, taken ≤ s.stack.length →
      ∃ t, g.transferInstruction index s i = .ok t) :
    g.Takes index i taken put := by
  refine fun s => ⟨⟨?_, hexists s⟩, hmoves s⟩
  rintro ⟨t, h⟩
  exact (hmoves s t h).le

theorem takes_invoke (hd : MethodDescriptor.parse text = .ok d) (g : FlowGraph) (index : Nat)
    (kind : InvokeKind) (owner name : String) (ofInterface : Bool) :
    g.Takes index (.invoke kind owner name text ofInterface)
      (d.parameterSlots.toNat + if kind = .static then 0 else 1) d.resultWords := by
  refine takes_of_moves (fun s t h => ?_) fun s h => ?_
  · cases FlowGraph.transferInstruction_eq_ok.mp h with
    | invoke hcall =>
      obtain ⟨d', taken, hd', hmoves, rfl⟩ := moves_of_call hcall
      obtain rfl := Except.ok.inj (hd'.symm.trans hd)
      exact hmoves
  · obtain ⟨s', hcall⟩ := exists_call hd g kind owner name h
    exact ⟨_, FlowGraph.transferInstruction_eq_ok.mpr (.invoke hcall)⟩

theorem takes_invokeDynamic (hd : MethodDescriptor.parse text = .ok d) (g : FlowGraph) (index : Nat)
    (bootstrap : UInt16) (name : String) :
    g.Takes index (.invokeDynamic bootstrap name text) d.parameterSlots.toNat d.resultWords := by
  refine takes_of_moves (fun s t h => ?_) fun s h => ?_
  · cases FlowGraph.transferInstruction_eq_ok.mp h with
    | @invokeDynamic _ _ _ d' _ hd' hpop =>
      obtain rfl := Except.ok.inj (hd'.symm.trans hd)
      exact (moves_of_pop hpop).pushResult d'
  · exact ⟨_, FlowGraph.transferInstruction_eq_ok.mpr (.invokeDynamic hd (pop_of_le h))⟩

/-! ### Counting -/

theorem countedAs_mod (hd : MethodDescriptor.parse text = .ok d) :
    CountedAs text d (d.words % 65536) := by
  rw [← toNat_parameterSlots_mod]
  exact ⟨rfl, takes_invoke hd, takes_invokeDynamic hd⟩

theorem argumentsAs_mod (hd : MethodDescriptor.parse text = .ok d) :
    ArgumentsAs text ((d.words + 1) % 65536) := by
  have hcount : (d.parameterSlots + 1).toNat = (d.words + 1) % 65536 := by
    rw [UInt16.toNat_add, toNat_parameterSlots_mod]
    exact Nat.mod_add_mod ..
  intro p
  rw [← hcount]
  by_cases hle : d.parameterSlots + 1 ≤ 255
  · have hle' : (d.parameterSlots + 1).toNat ≤ 255 := UInt16.le_iff_toNat_le.mp hle
    rw [if_pos hle']
    simp only [interfaceArguments, hd, if_pos hle]
    rfl
  · have hle' : ¬(d.parameterSlots + 1).toNat ≤ 255 :=
      fun h => hle (UInt16.le_iff_toNat_le.mpr h)
    rw [if_neg hle']
    simp only [interfaceArguments, hd, if_neg hle]
    rfl

/-- A number that is too large is told in the refusal. -/
theorem ArgumentsAs.eq_of_lt {count count' : Nat} (h : ArgumentsAs text count)
    (h' : ArgumentsAs text count') (hlt : 255 < count) : count' = count := by
  have heq := (h .empty).symm.trans (h' .empty)
  rw [if_neg (Nat.not_le_of_lt hlt)] at heq
  split at heq
  · cases heq
  · simpa using heq.symm

/-- The parameters of a method count as their words up to a multiple of 65536, alone, in the
analysis of calls and, with the receiver, in what is written for an interface call. So the numbers
are the real ones if and only if 16 bits hold them. -/
theorem countedAs_words_iff (hd : MethodDescriptor.parse text = .ok d) :
    CountedAs text d (d.words % 65536) ∧ (CountedAs text d d.words ↔ d.words < 65536) ∧
    ArgumentsAs text ((d.words + 1) % 65536) ∧
    (ArgumentsAs text (d.words + 1) ↔ d.words + 1 < 65536) := by
  have hcounted := countedAs_mod hd
  have harguments := argumentsAs_mod hd
  refine ⟨hcounted, ⟨fun h => ?_, fun hlt => ?_⟩, harguments, ⟨fun h => ?_, fun hlt => ?_⟩⟩
  · have heq := hcounted.slots.symm.trans h.slots
    omega
  · rwa [Nat.mod_eq_of_lt hlt] at hcounted
  · by_contra hge
    have heq := h.eq_of_lt harguments (by omega)
    omega
  · rwa [Nat.mod_eq_of_lt hlt] at harguments

/-! ### Descriptors with many parameters -/

/-- Parameters of which the last ones take two words each. -/
private def wide (front : List FieldType) (count : Nat) : MethodDescriptor :=
  ⟨front ++ List.replicate count .long, none⟩

theorem parse_wide {front : List FieldType} {text : List Char} (hfront : ∀ t ∈ front, t.Named)
    (htext : front.flatMap FieldType.chars = text) (count : Nat) :
    MethodDescriptor.parse (String.ofList ('(' :: text ++ List.replicate count 'J' ++ [')', 'V'])) =
      .ok (wide front count) := by
  have hlongs : (List.replicate count FieldType.long).flatMap FieldType.chars =
      List.replicate count 'J' := by
    rw [List.flatMap_replicate]
    exact List.flatten_replicate_singleton
  refine MethodDescriptor.parse_eq_ok_iff.mpr ⟨⟨fun t ht => ?_, nofun⟩, ?_⟩
  · obtain ht | ht := List.mem_append.mp ht
    · exact hfront t ht
    · rw [List.eq_of_mem_replicate ht]
      trivial
  · rw [← String.toList_inj, MethodDescriptor.toList_descriptor, wide, List.flatMap_append, hlongs,
      htext, String.toList_ofList]
    rfl

theorem words_wide (front : List FieldType) (count : Nat) :
    (wide front count).words = (front.map (·.slots)).sum + count * 2 := by
  simp [wide, MethodDescriptor.words, FieldType.slots]

/-- With one `int` and 32767 `long`s the words of the parameters fit, but not with a receiver: an
interface call is written as if it had no arguments at all. -/
theorem countedAs_words_iff_full :
    let text := String.ofList (['(', 'I'] ++ List.replicate 32767 'J' ++ [')', 'V'])
    ∃ d, MethodDescriptor.parse text = .ok d ∧ d.words = 65535 ∧ CountedAs text d 65535 ∧
      ArgumentsAs text 0 ∧ ¬ArgumentsAs text 65536 := by
  intro text
  have hd := @parse_wide [.int] ['I'] (by simp [FieldType.Named]) rfl 32767
  have hwords : (wide [.int] 32767).words = 65535 := words_wide [.int] 32767
  obtain ⟨-, hcounted, harguments, hreal⟩ := countedAs_words_iff hd
  rw [hwords] at hcounted harguments hreal
  exact ⟨_, hd, hwords, hcounted.mpr (by decide), harguments, fun h => absurd (hreal.mp h)
    (by decide)⟩

/-- With 32768 `long`s no parameter is counted: a call takes only its receiver, and an interface
call is written as if it had one argument. -/
theorem not_countedAs_longs :
    let text := String.ofList (['('] ++ List.replicate 32768 'J' ++ [')', 'V'])
    ∃ d, MethodDescriptor.parse text = .ok d ∧ d.words = 65536 ∧ d.parameterSlots = 0 ∧
      CountedAs text d 0 ∧ ArgumentsAs text 1 ∧
      ¬CountedAs text d d.words ∧ ¬ArgumentsAs text (d.words + 1) := by
  intro text
  have hd := @parse_wide [] [] (by simp) rfl 32768
  have hwords : (wide [] 32768).words = 65536 := words_wide [] 32768
  have hcounted := countedAs_mod hd
  have harguments := argumentsAs_mod hd
  rw [hwords] at hcounted harguments
  refine ⟨_, hd, hwords, UInt16.toNat_inj.mp hcounted.slots, hcounted, harguments, fun h => ?_,
    fun h => ?_⟩
  · have heq := hcounted.slots.symm.trans h.slots
    rw [hwords] at heq
    exact absurd heq (by decide)
  · rw [hwords] at h
    exact absurd (h.eq_of_lt harguments (by decide)) (by decide)

end ClassPatch
