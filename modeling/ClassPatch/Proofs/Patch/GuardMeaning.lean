import ClassPatch.Proofs.Code.Execution
import ClassPatch.Proofs.Flow.Paths
import ClassPatch.Proofs.Patch.GuardPlacement
import ClassPatch.Proofs.Patch.LabelKeeping

/-!
# What a guard means

Executed with a bean type and a property in its slots, a guard jumps to its exit if the property is
to be skipped, and else goes on to the code behind it; nothing is left on the stack and no local is
changed. In the method that it is placed in, control comes to the trigger only through the first
event of the guard.
-/

namespace ClassPatch

namespace World

variable {ρ : Type} (w : World ρ)

/-- An object compares like a text. -/
structure Spells (x : ρ) (text : String) : Prop where
  equals (other : String) :
    w.invoke "java/lang/String" "equals" "(Ljava/lang/Object;)Z" (w.text other) [.ref (some x)] =
      some (.bool (other = text))
  endsWith (suffix : String) :
    w.invoke "java/lang/String" "endsWith" "(Ljava/lang/String;)Z" x [.ref (some (w.text suffix))] =
      some (.bool (suffix.toList <:+ text.toList))

/-- What a property says of itself: its name, its type if it has one, and the classes that the type
may be assigned to. -/
structure Describes (property : ρ) (name : String) (type : Option ρ) (covers : String → Bool) :
    Prop where
  getName : ∃ x, w.Spells x name ∧
    w.invoke PropertyGuard.descriptorClass "getName" "()Ljava/lang/String;" property [] =
      some (.ref (some x))
  getPropertyType :
    w.invoke PropertyGuard.descriptorClass "getPropertyType" "()Ljava/lang/Class;" property [] =
      some (.ref type)
  isAssignableFrom {t : ρ} (htype : type = some t) (className : String) :
    w.invoke "java/lang/Class" "isAssignableFrom" "(Ljava/lang/Class;)Z" (w.classOf className)
      [.ref (some t)] = some (.bool (covers className))

end World

namespace PropertyGuard

open World

variable {ρ : Type} [DecidableEq ρ] {w : World ρ} {block events : List Event} {e : Moment ρ}
  {locals : UInt16 → Operand ρ} {stack : List (Operand ρ)}

/-! ### Single calls -/

section Calls

variable {receiver : ρ} {x argument : Operand ρ} {owner name descriptor : String}

theorem ends_call (result : FieldType)
    (hparse : MethodDescriptor.parse descriptor = .ok ⟨[], some result⟩)
    (hslots : result.slots = 1) (hreturns : w.invoke owner name descriptor receiver [] = some x) :
    w.Ends block ⟨.ahead (call owner name descriptor :: events), locals,
      .ref (some receiver) :: stack⟩ e ↔ w.Ends block ⟨.ahead events, locals, x :: stack⟩ e :=
  ends_invoke hparse (by simp [hslots]) rfl hreturns

theorem ends_call_one (parameter result : FieldType)
    (hparse : MethodDescriptor.parse descriptor = .ok ⟨[parameter], some result⟩)
    (hslots : result.slots = 1 ∧ parameter.slots = 1)
    (hreturns : w.invoke owner name descriptor receiver [argument] = some x) :
    w.Ends block ⟨.ahead (call owner name descriptor :: events), locals,
      argument :: .ref (some receiver) :: stack⟩ e ↔
    w.Ends block ⟨.ahead events, locals, x :: stack⟩ e :=
  ends_invoke hparse (by simp [hslots]) rfl hreturns

end Calls

/-! ### The parts of a guard -/

section Parts

variable {g : PropertyGuard} {subject : UInt16} {exit checks done : Label} {bean : Option ρ}
  {property : ρ} {name : String} {type : Option ρ} {covers : String → Bool}

theorem ends_loadReference {slot : UInt16} {object : Option ρ} (h : locals slot = .ref object) :
    w.Ends block ⟨.ahead (loadReference slot :: events), locals, stack⟩ e ↔
      w.Ends block ⟨.ahead events, locals, .ref object :: stack⟩ e :=
  ends_load h

theorem ends_pushClass (className : String) :
    w.Ends block ⟨.ahead (pushClass className :: events), locals, stack⟩ e ↔
      w.Ends block ⟨.ahead events, locals, .ref (some (w.classOf className)) :: stack⟩ e :=
  ends_push rfl

theorem ends_pushText (text : String) :
    w.Ends block ⟨.ahead (.instr (.push (.string text)) :: events), locals, stack⟩ e ↔
      w.Ends block ⟨.ahead events, locals, .ref (some (w.text text)) :: stack⟩ e :=
  ends_push rfl

/-- A jump if a truth value is true. -/
theorem ends_ifNe (b : Bool) (l : Label) :
    w.Ends block ⟨.ahead (jump (.branch .ifNe) l :: events), locals, .bool b :: stack⟩ e ↔
      w.Ends block ⟨if b then Control.land block l else .ahead events, locals, stack⟩ e :=
  ends_branch (by cases b <;> rfl)

/-- A jump if a truth value is false. -/
theorem ends_ifEq (b : Bool) (l : Label) :
    w.Ends block ⟨.ahead (jump (.branch .ifEq) l :: events), locals, .bool b :: stack⟩ e ↔
      w.Ends block ⟨if b then .ahead events else Control.land block l, locals, stack⟩ e := by
  have htest : Condition.ifEq.test? (.bool b :: stack) = some (!b, stack) := by
    cases b <;> rfl
  refine (ends_branch htest).trans ?_
  cases b <;> rfl

/-- A jump if two references differ. -/
theorem ends_ifAcmpNe (a b : Option ρ) (l : Label) :
    w.Ends block ⟨.ahead (jump (.branch .ifAcmpNe) l :: events), locals, .ref b :: .ref a ::
      stack⟩ e ↔
        w.Ends block ⟨if a = b then .ahead events else Control.land block l, locals, stack⟩ e := by
  refine (ends_branch rfl).trans ?_
  by_cases h : a = b <;> simp [h]

/-- A jump if a reference is null. -/
theorem ends_ifNull (a : Option ρ) (l : Label) :
    w.Ends block ⟨.ahead (jump (.branch .ifNull) l :: events), locals, .ref a :: stack⟩ e ↔
      w.Ends block ⟨if a = none then Control.land block l else .ahead events, locals, stack⟩ e := by
  refine (ends_branch rfl).trans ?_
  by_cases h : a = none <;> simp [h]

theorem ends_getName {x : ρ}
    (h : w.invoke descriptorClass "getName" "()Ljava/lang/String;" property [] =
      some (.ref (some x))) :
    w.Ends block ⟨.ahead (getName :: events), locals, .ref (some property) :: stack⟩ e ↔
      w.Ends block ⟨.ahead events, locals, .ref (some x) :: stack⟩ e :=
  ends_call (.object "java/lang/String") (by cbv) rfl h

theorem ends_getPropertyType (h : w.Describes property name type covers) :
    w.Ends block ⟨.ahead (getPropertyType :: events), locals, .ref (some property) :: stack⟩ e ↔
      w.Ends block ⟨.ahead events, locals, .ref type :: stack⟩ e :=
  ends_call (.object "java/lang/Class") (by cbv) rfl h.getPropertyType

theorem ends_equals {x : ρ} (h : w.Spells x name) (other : String) :
    w.Ends block ⟨.ahead (call "java/lang/String" "equals" "(Ljava/lang/Object;)Z" :: events),
      locals, .ref (some x) :: .ref (some (w.text other)) :: stack⟩ e ↔
    w.Ends block ⟨.ahead events, locals, .bool (other = name) :: stack⟩ e :=
  ends_call_one (.object "java/lang/Object") .boolean (by cbv) ⟨rfl, rfl⟩
    (h.equals other)

theorem ends_endsWith {x : ρ} (h : w.Spells x name) (suffix : String) :
    w.Ends block ⟨.ahead (call "java/lang/String" "endsWith" "(Ljava/lang/String;)Z" :: events),
      locals, .ref (some (w.text suffix)) :: .ref (some x) :: stack⟩ e ↔
    w.Ends block ⟨.ahead events, locals, .bool (suffix.toList <:+ name.toList) :: stack⟩ e :=
  ends_call_one (.object "java/lang/String") .boolean (by cbv) ⟨rfl, rfl⟩
    (h.endsWith suffix)

/-- The name check ends at the exit unless the name is allowed or the bean is of another type. -/
theorem ends_nameCheck (hbean : locals g.typeSlot = .ref bean)
    (hsubject : locals subject = .ref (some property)) (h : w.Describes property name type covers) :
    w.Ends block ⟨.ahead (g.nameCheck subject exit checks ++ events), locals, stack⟩ e ↔
      w.Ends block ⟨Control.land block
        (if bean = some (w.classOf g.guardedType) ∧
            ¬(name = g.allowedName ∨ g.allowedSuffix.toList <:+ name.toList)
          then exit else checks), locals, stack⟩ e := by
  obtain ⟨x, hx, hname⟩ := h.getName
  simp only [nameCheck, List.cons_append, List.nil_append]
  rw [ends_pushClass, ends_loadReference hbean, ends_ifAcmpNe]
  by_cases htype : some (w.classOf g.guardedType) = bean
  · rw [if_pos htype, ends_pushText, ends_loadReference hsubject, ends_getName hname,
      ends_equals hx, ends_ifNe]
    by_cases hallowed : g.allowedName = name
    · simp [hallowed]
    · rw [decide_eq_false hallowed, if_neg Bool.false_ne_true, ends_loadReference hsubject,
        ends_getName hname, ends_pushText, ends_endsWith hx, ends_ifNe]
      by_cases hsuffix : g.allowedSuffix.toList <:+ name.toList
      · simp [hsuffix]
      · rw [decide_eq_false hsuffix, if_neg Bool.false_ne_true, jump, ends_goto]
        simp [htype, Ne.symm hallowed, hsuffix]
  · simp [htype, Ne.symm htype]

/-- A type test pushes whether the type of the property is covered. -/
theorem ends_typeTest (hsubject : locals subject = .ref (some property))
    (h : w.Describes property name type covers) {t : ρ} (htype : type = some t)
    (className : String) :
    w.Ends block ⟨.ahead (typeTest subject className ++ events), locals, stack⟩ e ↔
      w.Ends block ⟨.ahead events, locals, .bool (covers className) :: stack⟩ e := by
  simp only [typeTest, List.cons_append, List.nil_append]
  rw [ends_pushClass, ends_loadReference hsubject, ends_getPropertyType h, htype]
  exact ends_call_one (.object "java/lang/Class") .boolean (by cbv) ⟨rfl, rfl⟩
    (h.isAssignableFrom htype className)

/-- The type checks end at the exit if one of the types covers that of the property. -/
theorem ends_typeChecks (hsubject : locals subject = .ref (some property))
    (h : w.Describes property name type covers) {t : ρ} (htype : type = some t)
    (hexit : Control.land block exit = .left exit) (hdone : Control.land block done = .ahead [])
    (classNames : List String) :
    w.Ends block ⟨.ahead (typeChecks subject exit done classNames ++ [.label done]), locals,
      stack⟩ e ↔
        e = ⟨if ∃ c ∈ classNames, covers c = true then .left exit else .ahead [], locals,
          stack⟩ := by
  fun_induction typeChecks subject exit done classNames with
  | case1 =>
    rw [List.nil_append, ends_label, ends_nil]
    simp
  | case2 className =>
    rw [List.append_assoc, ends_typeTest hsubject h htype, List.cons_append, ends_ifEq]
    cases hcovers : covers className
    · simp [hdone, ends_nil, hcovers]
    · simp [jump, ends_goto, hexit, ends_left, hcovers]
  | case3 className rest hrest ih =>
    rw [List.append_assoc, ends_typeTest hsubject h htype, List.cons_append, ends_ifNe]
    cases hcovers : covers className
    · rw [if_neg Bool.false_ne_true, ih]
      simp [hcovers]
    · simp [hexit, ends_left, hcovers]

/-- The code behind the name check. -/
theorem code_eq : g.code subject exit checks done = g.nameCheck subject exit checks ++
    .label checks :: loadReference subject :: getPropertyType :: jump (.branch .ifNull) done ::
      (typeChecks subject exit done g.forbiddenTypes ++ [.label done]) := by
  simp [code]

/-- The exit is not in the guard. -/
theorem land_code_exit (g : PropertyGuard) (subject : UInt16) (hchecks : exit ≠ checks)
    (hdone : exit ≠ done) : Control.land (g.code subject exit checks done) exit = .left exit := by
  refine Control.land_of_not_mem ?_
  rw [placedLabels_code]
  simp [hchecks, hdone]

/-- A property that passes the name check comes to the test of its type. -/
theorem land_code_checks (g : PropertyGuard) (subject : UInt16) (exit checks done : Label) :
    Control.land (g.code subject exit checks done) checks =
      .ahead (loadReference subject :: getPropertyType :: jump (.branch .ifNull) done ::
        (typeChecks subject exit done g.forbiddenTypes ++ [.label done])) := by
  rw [code_eq]
  exact Control.land_append (by simp [placedLabels_nameCheck]) _

/-- A property that passes all checks comes to the end of the guard. -/
theorem land_code_done (g : PropertyGuard) (subject : UInt16) (exit : Label) (h : done ≠ checks) :
    Control.land (g.code subject exit checks done) done = .ahead [] := by
  refine Control.land_append ?_ []
  simp [placedLabels_nameCheck, placedLabels_typeChecks, loadReference, getPropertyType, call,
    jump, h]

/-- A guard ends at its exit if the property is to be skipped, and else at its end. -/
theorem ends_code (hlabels : [exit, checks, done].Nodup) (hbean : locals g.typeSlot = .ref bean)
    (hsubject : locals subject = .ref (some property)) (h : w.Describes property name type covers) :
    w.Ends (g.code subject exit checks done)
        ⟨.ahead (g.code subject exit checks done), locals, stack⟩ e ↔
      e = ⟨if (bean = some (w.classOf g.guardedType) ∧
              ¬(name = g.allowedName ∨ g.allowedSuffix.toList <:+ name.toList)) ∨
            (type ≠ none ∧ ∃ c ∈ g.forbiddenTypes, covers c = true)
          then .left exit else .ahead [], locals, stack⟩ := by
  obtain ⟨⟨hne, hne'⟩, hdistinct⟩ : (exit ≠ checks ∧ exit ≠ done) ∧ checks ≠ done := by
    simpa using hlabels
  have hexit := land_code_exit g subject hne hne'
  have hchecks := land_code_checks g subject exit checks done
  have hdone := land_code_done g subject exit hdistinct.symm
  -- the block stays as it is while control goes through its events
  generalize hblock : g.code subject exit checks done = block at hexit hchecks hdone ⊢
  rw [show Control.ahead block = .ahead (g.nameCheck subject exit checks ++ _) from
    congrArg _ (hblock.symm.trans code_eq), ends_nameCheck hbean hsubject h]
  by_cases hname : bean = some (w.classOf g.guardedType) ∧
      ¬(name = g.allowedName ∨ g.allowedSuffix.toList <:+ name.toList)
  · rw [if_pos hname, hexit, ends_left, if_pos (.inl hname)]
  · rw [if_neg hname, hchecks, ends_loadReference hsubject, ends_getPropertyType h, ends_ifNull]
    cases type with
    | none =>
      rw [if_pos rfl, hdone, ends_nil, if_neg]
      simpa using hname
    | some t =>
      rw [if_neg (Option.some_ne_none t), ends_typeChecks hsubject h rfl hexit hdone]
      simp only [hname, false_or, ne_eq, reduceCtorEq, not_false_eq_true, true_and]

end Parts

/-! ### The way to the trigger -/

section Placed

variable {g : PropertyGuard} {method : MethodContext} {out : List Event} {r r' : PatchState}

/-- A guard calls no subroutine. -/
theorem jsr_not_mem_code (g : PropertyGuard) (subject : UInt16) (exit checks done l : Label) :
    .instr (.jump .jsr l) ∉ g.code subject exit checks done := by
  have htests : ∀ names, .instr (.jump .jsr l) ∉ typeChecks subject exit done names := by
    intro names
    fun_induction typeChecks subject exit done names with
    | case1 => simp
    | case2 name => simp [typeTest, pushClass, loadReference, getPropertyType, call, jump]
    | case3 name rest hrest ih =>
      simp [typeTest, pushClass, loadReference, getPropertyType, call, jump, ih]
  simp [code, nameCheck, htests, pushClass, loadReference, getPropertyType, getName, call, jump]

/-- The exit of a window is the target of one of its jumps. -/
theorem mem_targets_of_firstExit? {events : List Event} {exit : Label}
    (h : firstExit? events = some exit) : ∃ e ∈ events, exit ∈ e.targets := by
  obtain ⟨e, he, hexit⟩ := List.mem_filterMap.mp (List.mem_of_find?_eq_some h)
  refine ⟨e, he, ?_⟩
  unfold Event.gotoTarget? at hexit
  split at hexit
  · obtain rfl := Option.some.inj hexit
    exact List.mem_singleton_self _
  · cases hexit

/-- A run that changes anything puts one guard in front of a trigger. -/
theorem placed_of_run {events : List Event} (hrun : (g.machine method).run events r = .ok out r')
    (hchanged : out ≠ events) : ∃ front trigger back subject exit,
      events = front ++ .instr trigger :: back ∧ g.IsTrigger trigger ∧
      (∃ e ∈ front, exit ∈ e.targets) ∧
      out = front ++ (g.code subject exit r.labels.fresh r.labels.advance.fresh ++
        .instr trigger :: back) := by
  obtain ⟨result, labels', hplaces⟩ := exists_places g events r.labels
  obtain ⟨rfl, -⟩ := (hplaces.yields method).unique (PatchM.Yields.ok_iff.mpr ⟨r'.log, hrun⟩)
  cases hplaces with
  | absent => exact absurd rfl hchanged
  | guarded => exact absurd rfl hchanged
  | @placed before inside after trigger subject exit window _ _ hexit =>
    refine ⟨before ++ pushClass g.guardedType :: inside, trigger, after, subject, exit, ?_,
      window.trigger, ?_, ?_⟩
    · rw [window.events_eq, List.append_assoc, List.cons_append]
    · obtain ⟨e, he, hmem⟩ := mem_targets_of_firstExit? hexit
      exact ⟨e, List.mem_append_right _ (List.mem_cons_of_mem _ he), hmem⟩
    · rw [List.append_assoc, List.cons_append]

end Placed

/-- A guard jumps to its exit if the bean is of the guarded type and the name of the property is not
allowed, or if the property has a type that may be assigned to a forbidden one; else it goes on to
the code behind it. The stack and the locals are as before. And in a method that a guard is placed
in, with labels that are not in use, every path to the trigger goes through the first event of the
guard. -/
theorem guards_trigger (g : PropertyGuard) :
    (∀ (ρ : Type) [DecidableEq ρ] (w : World ρ) (subject : UInt16) (exit checks done : Label)
        (locals : UInt16 → Operand ρ) (stack : List (Operand ρ)) (bean : Option ρ) (property : ρ)
        (name : String) (type : Option ρ) (covers : String → Bool),
      [exit, checks, done].Nodup → locals g.typeSlot = .ref bean →
      locals subject = .ref (some property) → w.Describes property name type covers →
      ∀ e, w.Ends (g.code subject exit checks done)
          ⟨.ahead (g.code subject exit checks done), locals, stack⟩ e ↔
        e = ⟨if (bean = some (w.classOf g.guardedType) ∧
                ¬(name = g.allowedName ∨ g.allowedSuffix.toList <:+ name.toList)) ∨
              (type ≠ none ∧ ∃ c ∈ g.forbiddenTypes, covers c = true)
            then .left exit else .ahead [], locals, stack⟩) ∧
    ∀ (method : MethodContext) (handlers : List Handler) (events out : List Event)
      (r r' : PatchState), (g.machine method).run events r = .ok out r' → out ≠ events →
      r.labels.fresh.IsUnused events handlers → r.labels.advance.fresh.IsUnused events handlers →
      ∃ front trigger back subject exit, events = front ++ .instr trigger :: back ∧
        g.IsTrigger trigger ∧ [exit, r.labels.fresh, r.labels.advance.fresh].Nodup ∧
        out = front ++ (g.code subject exit r.labels.fresh r.labels.advance.fresh ++
          .instr trigger :: back) ∧
        ∀ path : List Nat, path.IsChain (Leads out handlers) → path.head? = some 0 →
          front.length + (g.code subject exit r.labels.fresh r.labels.advance.fresh).length ∈ path →
          front.length ∈ path := by
  refine ⟨?_, ?_⟩
  · intro ρ _ w subject exit checks done locals stack bean property name type covers hlabels hbean
      hsubject h e
    exact ends_code hlabels hbean hsubject h
  · intro method handlers events out r r' hrun hchanged hchecks hdone
    obtain ⟨front, trigger, back, subject, exit, rfl, htrigger, ⟨e, he, hexit⟩, rfl⟩ :=
      placed_of_run hrun hchanged
    have hmem : e ∈ front ++ .instr trigger :: back := List.mem_append_left _ he
    refine ⟨front, trigger, back, subject, exit, rfl, htrigger, ?_, rfl,
      fun path hpath hhead hend => ?_⟩
    · have hne := r.labels.fresh_ne_fresh_advance
      have hne' := ne_of_mem_of_not_mem hexit (hchecks.targets e hmem)
      have hne'' := ne_of_mem_of_not_mem hexit (hdone.targets e hmem)
      simp [hne, hne', hne'']
    · refine mem_of_isChain (fun l hl => ?_) (jsr_not_mem_code _ _ _ _ _) hpath
        (fun a ha => ?_) ?_ hend
      · rw [placedLabels_code] at hl
        simp only [List.mem_cons, List.not_mem_nil, or_false] at hl
        rcases hl with rfl | rfl
        · exact hchecks
        · exact hdone
      · obtain rfl : 0 = a := Option.some.inj (hhead.symm.trans ha)
        exact fun h => Nat.not_lt_zero _ h.1
      · refine ⟨Nat.lt_add_of_pos_right ?_, Nat.le_refl _⟩
        rw [code, List.length_append]
        exact Nat.succ_pos _

end PropertyGuard

/-- Objects that are known by what they say. -/
inductive Thing
  | text (text : String)
  | type (name : String)
  | property (name : String) (type : Option String)
  deriving DecidableEq

/-- A world of such objects, where a class covers itself. -/
def Thing.world : World Thing where
  text := text
  classOf := type
  invoke owner method _ receiver arguments :=
    match owner, method, receiver, arguments with
    | "java/beans/PropertyDescriptor", "getName", property name _, [] =>
      some (.ref (some (text name)))
    | "java/beans/PropertyDescriptor", "getPropertyType", property _ t, [] =>
      some (.ref (t.map type))
    | "java/lang/String", "equals", x, [.ref y] => some (.bool (some x = y))
    | "java/lang/String", "endsWith", text x, [.ref (some (text y))] =>
      some (.bool (y.toList <:+ x.toList))
    | "java/lang/Class", "isAssignableFrom", x, [.ref (some y)] => some (.bool (x = y))
    | _, _, _, _ => none

theorem Thing.spells (text : String) : world.Spells (.text text) text where
  equals other := by simp [world]
  endsWith suffix := rfl

/-- A property of the world has the type that it says. -/
theorem Thing.describes (name type : String) :
    world.Describes (.property name (some type)) name (some (.type type)) (· = type) where
  getName := ⟨.text name, spells name, rfl⟩
  getPropertyType := rfl
  isAssignableFrom htype className := by
    obtain rfl := Option.some.inj htype
    simp [world]

namespace PropertyGuard

/-- A guard that forbids class loaders skips a property that is one, and a path to the trigger on
which all checks are passed goes through its first event. -/
theorem guards_trigger_classLoader :
    let g : PropertyGuard :=
      ⟨"java/lang/Class", "TRACE", 1, "name", "Name", ["java/lang/ClassLoader"]⟩
    let code := g.code 2 ⟨0⟩ ⟨2⟩ ⟨3⟩
    let locals : UInt16 → Operand Thing := fun slot =>
      .ref (if slot = 1 then Thing.type "Bean"
        else Thing.property "loader" (some "java/lang/ClassLoader"))
    let trigger : Instruction Label := .field .getStatic "Introspector" "TRACE" "Z"
    let front := [jump .goto ⟨1⟩, .instr (.store .reference 2), pushClass "java/lang/Class",
      jump .goto ⟨0⟩, .label ⟨1⟩]
    let back := [.label ⟨0⟩, .instr (.leave none)]
    let path := [0, 4, 5, 6, 7, 19, 20, 21, 22, 29, 30]
    Thing.world.Ends code ⟨.ahead code, locals, [.int 7]⟩ ⟨.left ⟨0⟩, locals, [.int 7]⟩ ∧
      path.IsChain (Leads (front ++ (code ++ .instr trigger :: back)) []) ∧
      front.length ∈ path := by
  intro g code locals trigger front back path
  have hends : Thing.world.Ends code ⟨.ahead code, locals, [.int 7]⟩
      ⟨.left ⟨0⟩, locals, [.int 7]⟩ := by
    refine ((guards_trigger g).1 Thing Thing.world 2 ⟨0⟩ ⟨2⟩ ⟨3⟩ locals [.int 7]
      (some (.type "Bean")) (.property "loader" (some "java/lang/ClassLoader")) "loader"
      (some (.type "java/lang/ClassLoader")) (· = "java/lang/ClassLoader") (by decide) rfl rfl
      (Thing.describes _ _) _).mpr ?_
    simp [g]
  have window : g.Window (front ++ .instr trigger :: back)
      [jump .goto ⟨1⟩, .instr (.store .reference 2)] [jump .goto ⟨0⟩, .label ⟨1⟩] trigger back :=
    { events_eq := rfl
      first := by decide
      trigger := ⟨_, _, rfl⟩
      nearest := by simp [IsTrigger, jump] }
  have hplaces : g.Places (front ++ .instr trigger :: back) ⟨2⟩
      (.ok (front ++ (code ++ .instr trigger :: back))) ⟨4⟩ :=
    .placed window (by simp [PushesForbidden, pushClass, jump]) rfl rfl
  obtain ⟨log, hrun⟩ := hplaces.yields (r := ⟨⟨2⟩, #[]⟩) ⟨"Introspector", "find", "()V", false, 52⟩
  have hchanged : front ++ (code ++ .instr trigger :: back) ≠ front ++ .instr trigger :: back :=
    fun h => absurd (congrArg List.length h) (by decide)
  have hchain : path.IsChain (Leads (front ++ (code ++ .instr trigger :: back)) []) := by
    simp only [path, List.isChain_cons_cons, List.isChain_singleton, and_true]
    exact ⟨.jump rfl (.head _) (.of_instr rfl rfl), .next rfl rfl, .next rfl rfl, .next rfl rfl,
      .jump rfl (.head _) (.of_instr rfl rfl), .next rfl rfl, .next rfl rfl, .next rfl rfl,
      .jump rfl (.head _) (.of_instr rfl rfl), .next rfl rfl⟩
  obtain ⟨front', trigger', back', subject, exit, hevents, ⟨owner, descriptor, rfl⟩, -, -,
    hpaths⟩ :=
    (guards_trigger g).2 _ [] _ _ _ _ hrun hchanged ⟨by decide, by decide, by simp⟩
      ⟨by decide, by decide, by simp⟩
  -- there is one trigger, so the guard stands where it is known to
  have hfront : front'.length = front.length := by
    have hget : (front ++ .instr trigger :: back)[front'.length]? =
        some (.instr (.field .getStatic owner g.triggerField descriptor)) := by
      rw [hevents, List.getElem?_append_right (Nat.le_refl _), Nat.sub_self,
        List.getElem?_cons_zero]
    generalize front'.length = n at hget
    rcases n with _ | _ | _ | _ | _ | _ | _ | _ | n <;>
      simp [front, back, jump, pushClass, trigger] at hget ⊢
  rw [hfront] at hpaths
  exact ⟨hends, hchain, hpaths path hchain rfl (show 5 + 25 ∈ path by decide)⟩

end PropertyGuard
end ClassPatch
