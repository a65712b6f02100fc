import ClassPatch.Proofs.Code.LargerPools
import ClassPatch.Proofs.Patch.Producible
import Mathlib.Data.List.Infix
import Mathlib.Logic.Relation

/-!
# Pools are only appended to

Every operation that may change a pool leaves all of its slots in front, on any input and whatever
the outcome. So does every sequence of them, and whatever could be looked up or decoded with a pool
before such a sequence gives the same after it. Nothing is asked of the pool.
-/

namespace ClassPatch

open PoolM

/-! ### Computations over pools and classes -/

/-- A constant is added behind all slots, if at all. -/
theorem PoolM.isPrefix_intern (c : Constant) (p : ConstantPool) :
    p.slots.toList <+: (after (intern c p)).slots.toList := by
  obtain ⟨i, -, h⟩ | ⟨-, -, h⟩ | ⟨-, -, h⟩ := intern_cases c p
  · rw [h, after]
  · rw [h, after]
    exact slots_appended p c
  · rw [h, after]

/-- What changes a pool by additions leaves all slots in front. -/
theorem PoolM.Steady.isPrefix {α : Type} {m : PoolM α} (h : Steady m) (p : ConstantPool) :
    p.slots.toList <+: (after (m p)).slots.toList :=
  h.adds (P := fun q => p.slots.toList <+: q.slots.toList)
    (fun c q hq => hq.trans (isPrefix_intern c q)) (List.prefix_refl _)

namespace ClassEdit

variable {α β : Type}

/-- The edit leaves all slots of the pool in front, whatever its outcome. -/
def Appends (m : ClassEdit α) : Prop :=
  ∀ c : ClassFile, c.pool.slots.toList <+: (after (m c)).pool.slots.toList

theorem appends_pure (x : α) : Appends (pure x : ClassEdit α) := fun _ => List.prefix_refl _

theorem appends_lookUp (f : ClassFile → Except Error α) : Appends (lookUp f) := by
  intro c
  rw [lookUp, EStateM.get_bind]
  cases f c <;> exact List.prefix_refl _

theorem appends_modify {f : ClassFile → ClassFile} (hf : ∀ c, (f c).pool = c.pool) :
    Appends (modify f) := by
  intro c
  show c.pool.slots.toList <+: (f c).pool.slots.toList
  rw [hf]

theorem appends_onPool {change : PoolM α} (h : Steady change) : Appends (onPool change) := by
  intro c
  have hslots := h.isPrefix c.pool
  rw [onPool, EStateM.run]
  cases hchange : change c.pool with
  | ok x pool => rwa [hchange] at hslots
  | error e pool => rwa [hchange] at hslots

theorem Appends.bind {m : ClassEdit α} {f : α → ClassEdit β} (hm : m.Appends)
    (hf : ∀ x, (f x).Appends) : (m >>= f).Appends := by
  intro c
  have hslots := hm c
  simp only [Bind.bind, EStateM.bind]
  cases hmc : m c with
  | error e c' => rwa [hmc] at hslots
  | ok x c' =>
    rw [hmc] at hslots
    exact hslots.trans (hf x c')

end ClassEdit

namespace ClassFile

open ClassEdit

theorem appends_setBody (index : Nat) (body : Body) : (setBody index body).Appends := by
  refine (appends_lookUp _).bind fun context => ?_
  refine (appends_onPool (body.splits_encode context).steady).bind fun payload => ?_
  refine (appends_lookUp _).bind fun position => ?_
  cases position with
  | some position => exact appends_modify fun _ => rfl
  | none => exact (appends_onPool (steady_text _)).bind fun name => appends_modify fun _ => rfl

theorem appends_addMethod (flags : AccessFlags) (name descriptor : String) (body : Option Body) :
    (addMethod flags name descriptor body).Appends := by
  refine Appends.bind ((appends_lookUp _).bind fun _ => appends_pure _) fun _ => ?_
  refine (appends_onPool (steady_text name)).bind fun name => ?_
  refine (appends_onPool (steady_text descriptor)).bind fun descriptor => ?_
  refine Appends.bind (fun _ => List.prefix_refl _) fun c => ?_
  refine Appends.bind ?_ fun _ => ?_
  · exact appends_modify fun _ => rfl
  · cases body with
    | some body => exact (appends_setBody _ body).bind fun _ => appends_pure _
    | none => exact appends_pure _

theorem appends_carryOut (edits : List MethodEdit) : (Patch.carryOut edits).Appends := by
  induction edits with
  | nil => exact appends_pure _
  | cons edit edits ih => exact (appends_setBody edit.index edit.body).bind fun _ => ih

/-- A patch that is not carried out leaves the class alone. -/
theorem isPrefix_apply (p : Patch) (c : ClassFile) (log : Log) :
    c.pool.slots.toList <+: (p.apply c log).classFile.pool.slots.toList := by
  rw [Patch.apply]
  split
  · exact List.prefix_refl _
  · exact List.prefix_refl _
  · exact List.prefix_refl _
  · rename_i edits _ _ _
    have hslots := appends_carryOut edits c
    rw [EStateM.run]
    cases hc : Patch.carryOut edits c with
    | ok _ c' | error _ c' => rwa [hc] at hslots

theorem isPrefix_after (c : ClassFile) (call : ClassCall) :
    c.pool.slots.toList <+: (call.after c).pool.slots.toList := by
  cases call with
  | onPool call => exact appends_onPool call.steady_run c
  | addMethod flags name descriptor body => exact appends_addMethod flags name descriptor body c
  | setBody index body => exact appends_setBody index body c
  | apply p log => exact isPrefix_apply p c log

end ClassFile

namespace ConstantPool

/-! ### Changes of a pool -/

/-- The second pool is what an operation leaves of the first, which may have failed. -/
inductive Changes : ConstantPool → ConstantPool → Prop
  | intern (c : Constant) (p : ConstantPool) : Changes p (after (PoolM.intern c p))
  | call (call : PoolCall) (p : ConstantPool) : Changes p (after (call.run p))
  | frames (frames : List (Nat × Frame)) (initial : Frame) (offsetOf : Label → Except Error Nat)
      (p : ConstantPool) : Changes p (after (StackMap.encode frames initial offsetOf p))
  | code (body : Body) (method : MethodContext) (p : ConstantPool) :
      Changes p (after (body.encode method p))
  | classFile (c : ClassFile) (call : ClassCall) : Changes c.pool (call.after c).pool

variable {p q : ConstantPool}

theorem Changes.isPrefix (h : Changes p q) : p.slots.toList <+: q.slots.toList := by
  cases h with
  | intern c => exact isPrefix_intern c p
  | call call => exact call.steady_run.isPrefix p
  | frames frames initial offsetOf => exact (StackMap.steady_encode frames initial).isPrefix p
  | code body method => exact (body.splits_encode method).steady.isPrefix p
  | classFile c call => exact c.isPrefix_after call

/-- All that a pool is asked for has the same answer in another one, where there has been one. -/
structure Preserves (p q : ConstantPool) : Prop where
  slots : p.slots.toList <+: q.slots.toList
  get : ∀ {i c}, p.get i = .ok c → q.get i = .ok c
  text : ∀ {i s}, p.text i = .ok s → q.text i = .ok s
  className : ∀ {i s}, p.className i = .ok s → q.className i = .ok s
  nameAndType : ∀ {i s}, p.nameAndType i = .ok s → q.nameAndType i = .ok s
  memberRef : ∀ {i m}, p.memberRef i = .ok m → q.memberRef i = .ok m
  body : ∀ {data : Bytes} {method : MethodContext} {body : Body},
    Body.decode data p method = .ok body → Body.decode data q method = .ok body

/-- Whatever a pool goes through, no answer changes. -/
theorem preserves_of_changes (h : Relation.ReflTransGen Changes p q) : p.Preserves q := by
  have hslots : p.slots.toList <+: q.slots.toList := by
    induction h with
    | refl => exact List.prefix_refl _
    | tail _ hlast ih => exact ih.trans hlast.isPrefix
  exact {
    slots := hslots
    get := get_of_isPrefix hslots
    text := text_of_isPrefix hslots
    className := className_of_isPrefix hslots
    nameAndType := nameAndType_of_isPrefix hslots
    memberRef := memberRef_of_isPrefix hslots
    body := Body.decode_of_isPrefix hslots }

/-- Code that reads a field, and is kept with an attribute whose name is not in the pool. -/
private def unnamed : Body where
  maxStack := 1
  maxLocals := 0
  events := [.instr (.field .getStatic "A" "f" "I"), .instr (.leave (some .int))]
  handlers := []
  lines := []
  localVariables := []
  localVariableTypes := []
  frames := []
  attributes := [⟨9, []⟩]
  labels := ⟨0⟩

/-- A class enters the empty pool. Writing the code then fails, but only behind its reference to the
field, which stays. The class is still where it has been. -/
theorem preserves_of_changes_failed :
    ∃ p e q, (PoolCall.classRef "A").run empty = .ok 2 p ∧
      unnamed.encode ⟨"A", "m", "()I", true, 48⟩ p = .error e q ∧ p.size < q.size ∧
      p.className 2 = .ok "A" ∧ p.Preserves q ∧ empty.Preserves q := by
  have h : ∃ p e q, (PoolCall.classRef "A").run empty = .ok 2 p ∧
      unnamed.encode ⟨"A", "m", "()I", true, 48⟩ p = .error e q ∧ p.size < q.size ∧
      p.className 2 = .ok "A" :=
    ⟨_, _, _, by cbv, by cbv, by cbv, by cbv⟩
  obtain ⟨p, e, q, hclass, hcode, hmore, hname⟩ := h
  have hfirst := Changes.call (.classRef "A") empty
  rw [hclass, after] at hfirst
  have hsecond := Changes.code unnamed ⟨"A", "m", "()I", true, 48⟩ p
  rw [hcode, after] at hsecond
  exact ⟨p, e, q, hclass, hcode, hmore, hname, preserves_of_changes (.single hsecond),
    preserves_of_changes (.tail (.single hfirst) hsecond)⟩

end ConstantPool
end ClassPatch
