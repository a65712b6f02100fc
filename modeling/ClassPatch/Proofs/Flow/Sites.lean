import ClassPatch.Proofs.Flow.Solving

/-!
# Sites that states know

Types name the sites of objects that are not initialized yet. The only sites that an event adds to a
state are those of `new` instructions, so whatever is true of these and of the sites in declared
states is true of all sites that come up. An event does the same in two graphs that agree on the
sites which its state knows.
-/

namespace ClassPatch

/-- A type names no site, or one that is known. -/
def VerificationType.IsKnown (known : Label → Prop) : VerificationType → Prop
  | .uninitialized l => known l
  | _ => True

variable {known : Label → Prop}

namespace VerificationType

theorem isKnown_verification (t : FieldType) : IsKnown known t.verification := by
  cases t <;> trivial

theorem isKnown_of_primitive? {kind : ValueKind} {t : VerificationType}
    (h : kind.primitive? = some t) : IsKnown known t := by
  cases kind <;> cases h <;> trivial

theorem IsKnown.merge {t u : VerificationType} (ht : IsKnown known t) :
    IsKnown known (t.merge u) := by
  unfold VerificationType.merge
  split
  · exact ht
  · split <;> trivial

/-- Opcodes without operands push numbers. -/
theorem isKnown_of_plainEffect {op : UInt8} {taken : Nat} {t : VerificationType}
    (h : FlowState.plainEffect op = some (taken, some t)) : IsKnown known t := by
  have hall : ∀ n : Fin 256, ∀ row ∈ FlowState.plainEffect (UInt8.ofNat n), ∀ t ∈ row.2,
      t = .integer ∨ t = .long ∨ t = .float ∨ t = .double := by
    decide +kernel
  have hop := hall ⟨op.toNat, op.toNat_lt⟩
  rw [UInt8.ofNat_toNat] at hop
  rcases hop _ h t rfl with rfl | rfl | rfl | rfl <;> trivial

theorem isKnown_elementOf (t : VerificationType) : IsKnown known (FlowState.elementOf t) := by
  unfold FlowState.elementOf
  split
  · trivial
  · split
    · trivial
    · split
      · exact isKnown_verification _
      · trivial
    · trivial
  · trivial

end VerificationType

open VerificationType

theorem Value.isKnown_verification {v : Value} {t : VerificationType}
    (h : v.verification = .ok t) : IsKnown known t := by
  cases v with
  | dynamic index descriptor =>
    obtain ⟨type, -, rfl⟩ := Except.map_eq_ok.mp h
    exact VerificationType.isKnown_verification type
  | _ =>
    cases h
    trivial

namespace FlowState

variable {s s' s₁ incoming : FlowState} {t : VerificationType}

/-- All sites in a state are known. -/
structure Knows (known : Label → Prop) (s : FlowState) : Prop where
  locals : ∀ t ∈ s.locals, IsKnown known t
  stack : ∀ t ∈ s.stack, IsKnown known t

namespace Knows

theorem localAt (h : s.Knows known) (slot : Nat) : IsKnown known (s.localAt slot) := by
  unfold FlowState.localAt
  cases hslot : s.locals[slot]? with
  | none => trivial
  | some t => exact h.locals t (Array.mem_of_getElem? hslot)

theorem push (h : s.Knows known) (ht : IsKnown known t) : (s.push t).Knows known where
  locals := h.locals
  stack := by
    unfold FlowState.push
    split
    · simpa using ⟨trivial, ht, h.stack⟩
    · simpa using ⟨ht, h.stack⟩

theorem pop {count : Nat} (h : s.Knows known) (hpop : s.pop count = .ok s') : s'.Knows known := by
  obtain ⟨-, rfl⟩ := pop_eq_ok.mp hpop
  exact ⟨h.locals, fun t ht => h.stack t (List.mem_of_mem_drop ht)⟩

theorem popValue {count : Nat} (h : s.Knows known) (hpop : s.popValue count = .ok (t, s')) :
    IsKnown known t ∧ s'.Knows known := by
  obtain ⟨hafter, rfl⟩ := popValue_eq_ok.mp hpop
  refine ⟨?_, h.pop hafter⟩
  rw [List.getLastD_eq_getLast?]
  cases hlast : (s.stack.take count).getLast? with
  | none => trivial
  | some t => exact h.stack t (List.mem_of_mem_take (List.mem_of_getLast? hlast))

theorem duplicate {count depth : Nat} (h : s.Knows known)
    (hduplicate : s.duplicate count depth = .ok s') : s'.Knows known := by
  obtain ⟨-, rfl⟩ := duplicate_eq_ok.mp hduplicate
  refine ⟨h.locals, fun t ht => h.stack t ?_⟩
  simp only [List.mem_append] at ht
  rcases ht with (ht | ht) | ht
  · exact List.mem_of_mem_take ht
  · exact List.mem_of_mem_take ht
  · exact List.mem_of_mem_drop ht

theorem swap (h : s.Knows known) (hswap : s.swap = .ok s') : s'.Knows known := by
  obtain ⟨first, second, rest, hstack, rfl⟩ := swap_eq_ok.mp hswap
  refine ⟨h.locals, fun t ht => h.stack t ?_⟩
  rw [hstack]
  exact (List.Perm.swap first second rest).mem_iff.mp ht

theorem setLocal (h : s.Knows known) (slot : Nat) (ht : IsKnown known t) :
    (s.setLocal slot t).Knows known := by
  have hset {locals : Array VerificationType} {u : VerificationType} (slot : Nat)
      (hlocals : ∀ t ∈ locals, IsKnown known t) (hu : IsKnown known u) :
      ∀ t ∈ locals.setIfInBounds slot u, IsKnown known t := by
    intro t hmem
    rcases Array.mem_or_eq_of_mem_setIfInBounds hmem with hmem | rfl
    · exact hlocals t hmem
    · exact hu
  have hwiden (count : Nat) : ∀ t ∈ widen count s.locals, IsKnown known t := by
    intro t hmem
    simp only [widen, Array.mem_append, Array.mem_replicate] at hmem
    rcases hmem with hmem | ⟨-, rfl⟩
    · exact h.locals t hmem
    · trivial
  refine ⟨?_, h.stack⟩
  unfold FlowState.setLocal
  dsimp only
  have hspoiled (spoils : Bool) : ∀ u ∈ if spoils then
      (widen (slot + t.width) s.locals).setIfInBounds (slot - 1) .top
      else widen (slot + t.width) s.locals, IsKnown known u := by
    split
    · exact hset _ (hwiden _) trivial
    · exact hwiden _
  split
  · exact hset _ (hset _ (hspoiled _) ht) trivial
  · exact hset _ (hspoiled _) ht

theorem replace (h : s.Knows known) (old : VerificationType) {new : VerificationType}
    (hnew : IsKnown known new) : (s.replace old new).Knows known where
  locals := by
    intro t ht
    obtain ⟨u, hu, rfl⟩ := Array.mem_map.mp ht
    split
    · exact hnew
    · exact h.locals u hu
  stack := by
    intro t ht
    obtain ⟨u, hu, rfl⟩ := List.mem_map.mp ht
    split
    · exact hnew
    · exact h.stack u hu

theorem pushResult (h : s.Knows known) (d : MethodDescriptor) : (s.pushResult d).Knows known := by
  unfold FlowState.pushResult
  cases d.result with
  | none => exact h
  | some t => exact h.push (VerificationType.isKnown_verification t)

theorem merge {index : Nat} {merged : FlowState} (h : s.Knows known)
    (hmerge : s.merge index incoming = .ok merged) : merged.Knows known := by
  obtain ⟨-, -, rfl⟩ := merge_eq_ok.mp hmerge
  refine ⟨fun t ht => ?_, fun t ht => ?_⟩
  · obtain ⟨slot, hslot, rfl⟩ := Array.mem_mapIdx.mp ht
    exact (h.locals _ (Array.getElem_mem hslot)).merge
  · rw [← List.map_uncurry_zip_eq_zipWith] at ht
    obtain ⟨⟨t', u⟩, hpair, rfl⟩ := List.mem_map.mp ht
    exact (h.stack t' (List.of_mem_zip hpair).1).merge

end Knows

theorem knows_ofFrame {frame : Frame}
    (h : ∀ t ∈ frame.locals ++ frame.stack, IsKnown known t) : (ofFrame frame).Knows known := by
  have hslots {types : List VerificationType} (h : ∀ t ∈ types, IsKnown known t) :
      ∀ t ∈ toSlots types, IsKnown known t := by
    intro t ht
    obtain ⟨u, hu, ht⟩ := List.mem_flatMap.mp ht
    split at ht
    · simp only [List.mem_cons, List.not_mem_nil, or_false] at ht
      rcases ht with rfl | rfl
      · exact h _ hu
      · trivial
    · obtain rfl := List.mem_singleton.mp ht
      exact h _ hu
  refine ⟨fun t ht => ?_, fun t ht => ?_⟩
  · refine hslots (fun t ht => h t (List.mem_append_left _ ht)) t ?_
    simpa [ofFrame] using ht
  · refine hslots (fun t ht => h t (List.mem_append_right _ ht)) t ?_
    simpa [ofFrame] using ht

/-- A method is entered without objects that a `new` has made. -/
theorem knows_entry {method : MethodContext} {frame : Frame} (h : Frame.entry method = .ok frame) :
    (ofFrame frame).Knows known := by
  obtain ⟨d, -, h⟩ := Except.bind_eq_ok.mp h
  obtain rfl := Except.pure_eq_ok.mp h
  have hparameters : ∀ t ∈ d.parameters.map FieldType.verification, IsKnown known t := by
    intro t ht
    obtain ⟨type, -, rfl⟩ := List.mem_map.mp ht
    exact isKnown_verification type
  have hreceiver : IsKnown known (Frame.receiver method) := by
    unfold Frame.receiver
    split <;> trivial
  refine knows_ofFrame fun t ht => ?_
  rw [List.append_nil] at ht
  dsimp only at ht
  split at ht
  · exact hparameters t ht
  · rcases List.mem_cons.mp ht with rfl | ht
    · exact hreceiver
    · exact hparameters t ht

namespace Knows

/-! ### Instructions -/

theorem plain {op : UInt8} (h : s.Knows known) (hplain : s.plain op = .ok s') :
    s'.Knows known := by
  cases plain_eq_ok.mp hplain with
  | copy _ hcopy => exact h.duplicate hcopy
  | swap hswap => exact h.swap hswap
  | element hpop => exact (h.popValue hpop).2.push (isKnown_elementOf _)
  | take _ hpop => exact h.pop hpop
  | compute heffect hpop => exact (h.pop hpop).push (isKnown_of_plainEffect heffect)

theorem loaded (h : s.Knows known) (kind : ValueKind) (slot : Nat) :
    IsKnown known (s.loaded kind slot) := by
  unfold FlowState.loaded
  split
  · exact isKnown_of_primitive? ‹_›
  · split
    · exact h.localAt slot
    · trivial

theorem useField {access : FieldAccess} {descriptor : String} (h : s.Knows known)
    (hfield : s.useField access descriptor = .ok s') : s'.Knows known := by
  obtain ⟨t, -, haccess⟩ := useField_eq_ok.mp hfield
  cases haccess with
  | getStatic => exact h.push (VerificationType.isKnown_verification t)
  | putStatic hpop | putField hpop => exact h.pop hpop
  | getField hpop => exact (h.pop hpop).push (VerificationType.isKnown_verification t)

/-- An object is initialized to one of a class. -/
theorem receive (h : s.Knows known) (g : FlowGraph) (kind : InvokeKind) (owner name : String)
    (receiver : VerificationType) : (s.receive g kind owner name receiver).Knows known := by
  rcases receive_eq g kind owner name receiver s with heq | ⟨new, hnew, heq⟩
  · rwa [heq]
  · rw [heq]
    refine h.replace receiver ?_
    cases receiver <;> cases hnew <;> trivial

theorem call {g : FlowGraph} {kind : InvokeKind} {owner name descriptor : String}
    (h : s.Knows known) (hcall : s.call g kind owner name descriptor = .ok s') :
    s'.Knows known := by
  obtain ⟨d, -, hcalls⟩ := call_eq_ok.mp hcall
  cases hcalls with
  | static hpop => exact (h.pop hpop).pushResult d
  | member _ hpop hreceiver =>
    have hknows := ((h.pop hpop).popValue hreceiver).2
    exact (hknows.receive g kind owner name _).pushResult d

theorem useType {g : FlowGraph} {index : Nat} {use : TypeUse} {className : String}
    (hnew : ∀ l, g.labelBefore? index = some l → known l) (h : s.Knows known)
    (huse : s.useType g index use className = .ok s') : s'.Knows known := by
  cases useType_eq_ok.mp huse with
  | @newObject l hl => exact h.push (hnew l hl)
  | newArray hpop | checkCast hpop | instanceOf hpop => exact (h.pop hpop).push trivial

end Knows
end FlowState

namespace FlowGraph

open FlowState

variable {g g' : FlowGraph} {index : Nat} {s : FlowState} {t : Transfer}

/-- The outcome of an event knows the sites that the state before it knows and that of the event. -/
theorem knows_of_transferInstruction {i : Instruction Label}
    (hnew : ∀ l, g.labelBefore? index = some l → known l) (hs : s.Knows known)
    (h : g.transferInstruction index s i = .ok t) : t.after.Knows known ∧
      t.arrival.Knows known := by
  have hstraight {s' : FlowState} (hs' : s'.Knows known) :
      (Transfer.straight s').after.Knows known ∧ (Transfer.straight s').arrival.Knows known :=
    ⟨hs', hs'⟩
  cases transferInstruction_eq_ok.mp h with
  | @push value _ htype => exact hstraight (hs.push (value.isKnown_verification htype))
  | @load kind => exact hstraight (hs.push (hs.loaded kind _))
  | @store kind _ _ _ hpop =>
    obtain ⟨hstored, hs₁⟩ := hs.popValue hpop
    refine hstraight (hs₁.setLocal _ ?_)
    cases hprimitive : kind.primitive? with
    | none => exact hstored
    | some type => exact isKnown_of_primitive? hprimitive
  | increment => exact hstraight (hs.setLocal _ trivial)
  | subroutine => exact ⟨hs, hs.push trivial⟩
  | jump _ hpop => exact ⟨hs.pop hpop, hs.pop hpop⟩
  | tableSwitch hpop | lookupSwitch hpop => exact ⟨hs.pop hpop, hs.pop hpop⟩
  | field hfield => exact hstraight (hs.useField hfield)
  | invoke hcall => exact hstraight (hs.call hcall)
  | invokeDynamic _ hpop => exact hstraight ((hs.pop hpop).pushResult _)
  | typeUse huse => exact hstraight (hs.useType hnew huse)
  | newPrimitives hpop | newArrays hpop => exact hstraight ((hs.pop hpop).push trivial)
  | leave hpop => exact hstraight (hs.pop hpop)
  | ret => exact hstraight hs
  | plain hplain => exact hstraight (hs.plain hplain)

theorem knows_of_transfer {e : Event} (hnew : ∀ l, g.labelBefore? index = some l → known l)
    (hs : s.Knows known) (h : g.transfer index e s = .ok t) :
    t.after.Knows known ∧ t.arrival.Knows known := by
  cases e with
  | label l =>
    obtain rfl := Except.ok.inj h
    exact ⟨hs, hs⟩
  | instr i => exact knows_of_transferInstruction hnew hs h

/-- What flows along the edges of an event knows the same sites. -/
theorem knows_of_edges {e : Event} (hranges : ∀ range ∈ g.ranges, IsKnown known range.caught)
    (hnew : ∀ l, g.labelBefore? index = some l → known l) (hs : s.Knows known)
    (h : g.transfer index e s = .ok t) : ∀ edge ∈ g.edges index e s t, edge.2.Knows known := by
  obtain ⟨hafter, harrival⟩ := knows_of_transfer hnew hs h
  rintro ⟨j, incoming⟩ hmem
  cases carries_iff.mp hmem with
  | @caught range locals hrange _ _ hlocals =>
    have hcaught : ∀ t ∈ [range.caught], IsKnown known t := by
      simpa using hranges range hrange
    rcases hlocals with rfl | rfl
    · exact ⟨hs.locals, hcaught⟩
    · exact ⟨hafter.locals, hcaught⟩
  | jump => exact harrival
  | next => exact hafter

/-! ### Two graphs -/

/-- At two positions the graphs agree on what an event refers to, up to a renaming of positions. -/
structure Agrees (g g' : FlowGraph) (known : Label → Prop) (rename : Nat → Nat) (i c : Nat)
    (e : Event) : Prop where
  method : g'.method = g.method
  newClass : ∀ l, known l → g'.newClass? l = g.newClass? l
  labelBefore : ∀ l, g.labelBefore? i = some l → g'.labelBefore? c = some l
  position : ∀ l ∈ e.targets, ∀ r, g.position l = .ok r → g'.position l = .ok (rename r)

variable {rename : Nat → Nat} {i c : Nat} {s' : FlowState}

theorem call_of_agrees {kind : InvokeKind} {owner name descriptor : String}
    (hmethod : g'.method = g.method) (hclass : ∀ l, known l → g'.newClass? l = g.newClass? l)
    (hs : s.Knows known) (h : s.call g kind owner name descriptor = .ok s') :
    s.call g' kind owner name descriptor = .ok s' := by
  obtain ⟨d, hd, hcalls⟩ := call_eq_ok.mp h
  refine call_eq_ok.mpr ⟨d, hd, ?_⟩
  cases hcalls with
  | static hpop => exact .static hpop
  | @member _ receiver _ s₂ hkind hpop hreceiver =>
    have hknown := ((hs.pop hpop).popValue hreceiver).1
    have hinitialized : initialized? g' owner receiver = initialized? g owner receiver := by
      cases receiver with
      | uninitializedThis => simp only [initialized?, hmethod]
      | uninitialized site => simp only [initialized?, hclass site hknown]
      | _ => rfl
    have hreceive :
        s₂.receive g kind owner name receiver = s₂.receive g' kind owner name receiver := by
      rw [receive, receive, hinitialized]
    rw [hreceive]
    exact .member hkind hpop hreceiver

theorem mapM_position {labels : List Label} {positions : List Nat}
    (hposition : ∀ l ∈ labels, ∀ r, g.position l = .ok r → g'.position l = .ok (rename r))
    (h : labels.mapM g.position = .ok positions) :
    labels.mapM g'.position = .ok (positions.map rename) := by
  rw [Except.mapM_eq_ok] at h ⊢
  exact List.forall₂_map_right_iff.mpr (h.imp_of_mem fun l hl r _ hr => hposition l hl r hr)

/-- Where graphs agree, events have the same outcome. -/
theorem Agrees.transfer {e : Event} (hagrees : g.Agrees g' known rename i c e)
    (hs : s.Knows known) (h : g.transfer i e s = .ok t) :
    g'.transfer c e s = .ok { t with targets := t.targets.map rename } := by
  cases e with
  | label l =>
    obtain rfl := Except.ok.inj h
    rfl
  | instr ins =>
    refine transferInstruction_eq_ok.mpr ?_
    have hposition := hagrees.position
    cases transferInstruction_eq_ok.mp h with
    | subroutine hr => exact .subroutine (hposition _ (List.mem_singleton.mpr rfl) _ hr)
    | jump hkind hpop hr => exact .jump hkind hpop (hposition _ (List.mem_singleton.mpr rfl) _ hr)
    | tableSwitch hpop hpositions => exact .tableSwitch hpop (mapM_position hposition hpositions)
    | lookupSwitch hpop hpositions => exact .lookupSwitch hpop (mapM_position hposition hpositions)
    | invoke hcall => exact .invoke (call_of_agrees hagrees.method hagrees.newClass hs hcall)
    | typeUse huse =>
      refine .typeUse (useType_eq_ok.mpr ?_)
      cases useType_eq_ok.mp huse with
      | @newObject l hl => exact .newObject (hagrees.labelBefore l hl)
      | newArray hpop => exact .newArray hpop
      | checkCast hpop => exact .checkCast hpop
      | instanceOf hpop => exact .instanceOf hpop
    | push htype => exact .push htype
    | load => exact .load
    | store hpop => exact .store hpop
    | increment => exact .increment
    | field hfield => exact .field hfield
    | invokeDynamic hd hpop => exact .invokeDynamic hd hpop
    | newPrimitives hpop => exact .newPrimitives hpop
    | newArrays hpop => exact .newArrays hpop
    | leave hpop => exact .leave hpop
    | ret => exact .ret
    | plain hplain => exact .plain hplain

end FlowGraph
end ClassPatch
