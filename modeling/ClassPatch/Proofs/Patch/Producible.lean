import ClassPatch.Patch.Basic
import ClassPatch.Proofs.ClassFile.Codec
import ClassPatch.Proofs.ClassFile.Edit
import ClassPatch.Proofs.Evaluation

/-!
# Classes that can be produced

Classes come from names or from bytes, and are then changed by calls: constants are added to the
pool, methods are added, bodies are written and patches applied. Calls may fail, and what they did
before they failed stays. Every class that such a history leads to is intact: all references in its
pool fit, and the names that it is found by can be looked up. So whatever can be written of it is
read back as the same class.
-/

namespace ClassPatch

open PoolM

/-! ### Calls -/

/-- The class that an edit leaves, whatever its outcome. -/
def ClassEdit.after {α : Type} : EStateM.Result Error ClassFile α → ClassFile
  | .ok _ c => c
  | .error _ c => c

/-- A call that may change a class. -/
inductive ClassCall
  | onPool (call : PoolCall)
  | addMethod (flags : AccessFlags) (name descriptor : String) (body : Option Body)
  | setBody (index : Nat) (body : Body)
  | apply (p : Patch) (log : Log)

/-- The class that the call leaves, whatever its outcome. -/
def ClassCall.after (c : ClassFile) : ClassCall → ClassFile
  | .onPool call => ClassEdit.after (ClassEdit.onPool call.run c)
  | .addMethod flags name descriptor body =>
    ClassEdit.after (ClassFile.addMethod flags name descriptor body c)
  | .setBody index body => ClassEdit.after (ClassFile.setBody index body c)
  | .apply p log => (p.apply c log).classFile

namespace ClassFile

/-- The class has been made or read, and then been changed by calls. -/
inductive Producible : ClassFile → Prop
  | new {name : String} {superName : Option String} {major : UInt16} {c : ClassFile}
      (h : ClassFile.new name superName major = .ok c) : Producible c
  | ofBytes {bytes : Bytes} {c : ClassFile} (h : ClassFile.ofBytes bytes = .ok c) : Producible c
  | call {c : ClassFile} (h : Producible c) (call : ClassCall) : Producible (call.after c)

/-! ### Intact classes -/

/-- The references in the pool fit, and the names of the class can be looked up. -/
structure Intact (c : ClassFile) : Prop where
  wellFormed : c.pool.WellFormed
  sound : c.pool.Sound
  names : c.checkNames = .ok ()

namespace Intact

variable {c : ClassFile}

/-- The pool may grow, and methods may come whose names are in the pool. -/
theorem grown (h : c.Intact) {c' : ClassFile} (hgrown : GrownFrom c.pool c'.pool)
    (hthis : c'.thisClass = c.thisClass) (hsuper : c'.superClass = c.superClass)
    (hinterfaces : c'.interfaces = c.interfaces)
    (hmethods : ∀ m ∈ c'.methods.toList, (∃ m₀ ∈ c.methods.toList,
        m.name = m₀.name ∧ m.descriptor = m₀.descriptor) ∨
      (∃ s, c'.pool.text m.name = .ok s) ∧ ∃ s, c'.pool.text m.descriptor = .ok s) :
    c'.Intact where
  wellFormed := hgrown.wellFormed
  sound := hgrown.keeps ConstantPool.lasting_sound h.sound
  names := by
    refine checkNames_mono hgrown.le hthis hsuper hinterfaces (fun m hm => ?_) h.names
    obtain ⟨m₀, hm₀, hname, hdescriptor⟩ | hnew := hmethods m hm
    · obtain ⟨-, -, -, hold⟩ := checkNames_eq_ok.mp h.names
      obtain ⟨⟨s, hs⟩, ⟨t, ht⟩⟩ := hold m₀ hm₀
      rw [hname, hdescriptor]
      exact ⟨⟨s, ConstantPool.text_mono hgrown.le hs⟩, ⟨t, ConstantPool.text_mono hgrown.le ht⟩⟩
    · exact hnew

/-- Additions to the pool alone. -/
theorem withPool (h : c.Intact) {pool : ConstantPool} (hgrown : GrownFrom c.pool pool) :
    { c with pool }.Intact :=
  h.grown hgrown rfl rfl rfl fun m hm => .inl ⟨m, hm, rfl, rfl⟩

theorem onPool {α : Type} (h : c.Intact) {change : PoolM α} (hsteady : Steady change) :
    (ClassEdit.after (ClassEdit.onPool change c)).Intact := by
  have hgrown := hsteady.grownFrom_after h.wellFormed
  rw [ClassEdit.onPool, EStateM.run]
  cases hchange : change c.pool with
  | ok x pool =>
    rw [hchange] at hgrown
    exact h.withPool hgrown
  | error e pool =>
    rw [hchange] at hgrown
    exact h.withPool hgrown

/-- A method that keeps its name and its descriptor. -/
theorem modifyMethod (h : c.Intact) (index : Nat) {f : Member → Member}
    (hf : ∀ m, (f m).name = m.name ∧ (f m).descriptor = m.descriptor) :
    (c.modifyMethod index f).Intact := by
  refine h.grown (.refl h.wellFormed) rfl rfl rfl fun m hm => .inl ?_
  rw [ClassFile.modifyMethod, Array.toList_modify] at hm
  obtain ⟨i, hi⟩ := List.getElem?_of_mem hm
  rw [List.getElem?_modify] at hi
  obtain ⟨m₀, hm₀, rfl⟩ := Option.map_eq_some_iff.mp hi
  refine ⟨m₀, List.mem_of_getElem? hm₀, ?_⟩
  split
  · exact hf m₀
  · exact ⟨rfl, rfl⟩

theorem setBody (h : c.Intact) (index : Nat) (body : Body) :
    (ClassEdit.after (ClassFile.setBody index body c)).Intact := by
  obtain ⟨pool, hgrown, ⟨e, herror⟩ | ⟨f, hf, hok⟩⟩ := setBody_cases index body h.wellFormed
  · rw [herror]
    exact h.withPool hgrown
  · rw [hok]
    exact (h.withPool hgrown).modifyMethod index hf

/-- An edit goes on with what the one before it leaves. -/
theorem bind {α β : Type} {m : ClassEdit α} {f : α → ClassEdit β}
    (hm : (ClassEdit.after (m c)).Intact)
    (hf : ∀ x c', c'.Intact → (ClassEdit.after (f x c')).Intact) :
    (ClassEdit.after ((m >>= f) c)).Intact := by
  simp only [Bind.bind, EStateM.bind]
  cases hc : m c with
  | error e c' =>
    rw [hc] at hm
    exact hm
  | ok x c' =>
    rw [hc] at hm
    exact hf x c' hm

/-- A method under a name that enters the pool before it. -/
theorem addMethod (h : c.Intact) (flags : AccessFlags) (name descriptor : String)
    (body : Option Body) :
    (ClassEdit.after (ClassFile.addMethod flags name descriptor body c)).Intact := by
  unfold ClassFile.addMethod
  refine bind (by cases MethodDescriptor.parse descriptor <;> exact h) fun _ c₀ h₀ => ?_
  have hnamed := (steady_text name).grownFrom_after h₀.wellFormed
  rw [ClassEdit.onPool_bind]
  cases hname : text name c₀.pool with
  | error e pool =>
    rw [hname] at hnamed
    exact h₀.withPool hnamed
  | ok i pool =>
    rw [hname] at hnamed
    replace hnamed : GrownFrom c₀.pool pool := hnamed
    have hdescribed := (steady_text descriptor).grownFrom_after hnamed.wellFormed
    dsimp only
    rw [ClassEdit.onPool_bind]
    dsimp only
    cases hdescriptor : text descriptor pool with
    | error e pool' =>
      rw [hdescriptor] at hdescribed
      exact h₀.withPool (hnamed.trans hdescribed)
    | ok j pool' =>
      rw [hdescriptor] at hdescribed
      replace hdescribed : GrownFrom pool pool' := hdescribed
      have hadded : Intact { c₀ with
          pool := pool'
          methods := c₀.methods.push ⟨flags, i, j, []⟩ } := by
        refine h₀.grown (hnamed.trans hdescribed) rfl rfl rfl fun m hm => ?_
        rw [Array.toList_push, List.mem_append, List.mem_singleton] at hm
        obtain hm | rfl := hm
        · exact .inl ⟨m, hm, rfl, rfl⟩
        · exact .inr ⟨⟨name, text_of_text h₀.wellFormed hname hdescribed.le⟩,
            descriptor, text_of_text hnamed.wellFormed hdescriptor (ConstantPool.le_refl _)⟩
      cases body with
      | none => exact hadded
      | some body =>
        exact bind (m := ClassFile.setBody _ body) (f := fun _ => pure _) (hadded.setBody _ body)
          fun _ _ h' => h'

/-- Bodies that are written one behind the other. -/
theorem carryOut (h : c.Intact) (edits : List MethodEdit) :
    (ClassEdit.after (Patch.carryOut edits c)).Intact := by
  induction edits generalizing c with
  | nil => exact h
  | cons edit edits ih => exact bind (h.setBody edit.index edit.body) fun _ _ h' => ih h'

/-- A patch that is not carried out leaves the class alone. -/
theorem apply (h : c.Intact) (p : Patch) (log : Log) : (p.apply c log).classFile.Intact := by
  rw [Patch.apply]
  split
  · exact h
  · exact h
  · exact h
  · rename_i edits _ _ _
    have hcarried := h.carryOut edits
    rw [EStateM.run]
    cases hc : Patch.carryOut edits c with
    | ok _ c' | error _ c' =>
      rw [hc] at hcarried
      exact hcarried

/-- Whatever a call does, the class is left intact. -/
theorem call (h : c.Intact) : ∀ call : ClassCall, (call.after c).Intact
  | .onPool call => h.onPool call.steady_run
  | .addMethod flags name descriptor body => h.addMethod flags name descriptor body
  | .setBody index body => h.setBody index body
  | .apply p log => h.apply p log

end Intact

theorem intact_of_ofBytes {bytes : Bytes} {c : ClassFile} (h : ofBytes bytes = .ok c) : c.Intact :=
  ⟨(pool_of_ofBytes h).1, (pool_of_ofBytes h).2, names_of_ofBytes h⟩

theorem intact_of_new {name : String} {superName : Option String} {major : UInt16} {c : ClassFile}
    (h : ClassFile.new name superName major = .ok c) : c.Intact := by
  have hempty := ConstantPool.wellFormed_empty
  have hsound : ConstantPool.empty.Sound := ⟨[], rfl, nofun⟩
  unfold ClassFile.new at h
  dsimp only at h
  split at h
  · rename_i thisClass superClass pool hnames
    obtain rfl := Except.ok.inj h
    obtain ⟨i, pool₁, hthis, hnames⟩ := EStateM.bind_eq_ok.mp hnames
    have hgrown := (steady_classRef name).grownFrom hempty hthis
    cases superName with
    | none =>
      obtain ⟨heq, rfl⟩ := EStateM.pure_eq_ok.mp hnames
      obtain ⟨rfl, rfl⟩ := Prod.mk.inj heq
      refine ⟨hgrown.wellFormed, hgrown.keeps ConstantPool.lasting_sound hsound, ?_⟩
      refine checkNames_eq_ok.mpr ⟨⟨name, ?_⟩, ⟨none, rfl⟩, nofun, nofun⟩
      exact className_of_classRef hempty hthis (ConstantPool.le_refl _)
    | some superName =>
      obtain ⟨j, pool₂, hsuper, hnames⟩ := EStateM.bind_eq_ok.mp hnames
      obtain ⟨heq, rfl⟩ := EStateM.pure_eq_ok.mp hnames
      obtain ⟨rfl, rfl⟩ := Prod.mk.inj heq
      have hgrown' := (steady_classRef superName).grownFrom hgrown.wellFormed hsuper
      have hsound' := (hgrown.trans hgrown').keeps ConstantPool.lasting_sound hsound
      refine ⟨hgrown'.wellFormed, hsound', ?_⟩
      refine checkNames_eq_ok.mpr ⟨⟨name, ?_⟩, ?_, nofun, nofun⟩
      · exact className_of_classRef hempty hthis hgrown'.le
      · refine ⟨some superName, ?_⟩
        rw [ClassFile.superName, if_neg (ne_zero_of_classRef hgrown.wellFormed hsuper),
          className_of_classRef hgrown.wellFormed hsuper (ConstantPool.le_refl _)]
        rfl
  · cases h

/-- Every history leads to intact classes. -/
theorem Producible.intact {c : ClassFile} (h : c.Producible) : c.Intact := by
  induction h with
  | new h => exact intact_of_new h
  | ofBytes h => exact intact_of_ofBytes h
  | call _ call ih => exact ih.call call

/-- Calls lead from classes that can be produced to such classes. -/
theorem Producible.foldl {c : ClassFile} (h : c.Producible) (calls : List ClassCall) :
    (calls.foldl ClassCall.after c).Producible :=
  List.foldlRecOn calls _ h fun _ hc call _ => hc.call call

/-- Two classes have the same parts. The tables of their pools do not count. -/
structure SameAs (c c' : ClassFile) : Prop where
  version : c.version = c'.version
  pool : c.pool.slots = c'.pool.slots
  flags : c.flags = c'.flags
  thisClass : c.thisClass = c'.thisClass
  superClass : c.superClass = c'.superClass
  interfaces : c.interfaces = c'.interfaces
  fields : c.fields = c'.fields
  methods : c.methods = c'.methods
  attributes : c.attributes = c'.attributes

/-- Whatever can be written of a class is read back as the same class, wherever the class comes from
and whatever has been tried on it. -/
theorem ofBytes_of_producible {c : ClassFile} {bytes : Bytes} (h : c.Producible)
    (hwrite : c.toBytes = .ok bytes) : ∃ c', ofBytes bytes = .ok c' ∧ c'.SameAs c :=
  ⟨_, ofBytes_of_toBytes h.intact.sound h.intact.names hwrite,
    ⟨rfl, rfl, rfl, rfl, rfl, rfl, rfl, rfl, rfl⟩⟩

private def returning : Body where
  maxStack := 0
  maxLocals := 0
  events := [.instr (.leave none)]
  handlers := []
  lines := []
  localVariables := []
  localVariableTypes := []
  frames := []
  attributes := []
  labels := ⟨0⟩

/-- A method that returns and a reference to a field are added; there is no second method that could
get a body. -/
theorem ofBytes_of_producible_edited :
    ∃ c bytes c', Producible c ∧ c.toBytes = .ok bytes ∧ ofBytes bytes = .ok c' ∧ c'.SameAs c := by
  have h : ∃ c bytes, ClassFile.new "A" (some "B") 52 = .ok c ∧
      ClassFile.toBytes (List.foldl ClassCall.after c
        [.addMethod ⟨9⟩ "m" "()V" (some returning), .onPool (.member .field "A" "f" "I"),
          .setBody 1 returning]) = .ok bytes :=
    ⟨_, _, by cbv, by cbv⟩
  obtain ⟨c, bytes, hnew, hwrite⟩ := h
  obtain ⟨c', hread⟩ := ofBytes_of_producible ((Producible.new hnew).foldl _) hwrite
  exact ⟨_, bytes, c', (Producible.new hnew).foldl _, hwrite, hread⟩

end ClassFile
end ClassPatch
