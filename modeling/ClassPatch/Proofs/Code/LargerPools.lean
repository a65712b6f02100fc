import ClassPatch.Code.Decode
import ClassPatch.Proofs.ConstantPool.Growth

/-!
# Code in larger pools

What code refers to stays in place when a pool grows. So code that can be read over a pool is read
alike over every pool that begins with the same slots.

`m.RepeatedBy m'` says that the second computation does the same wherever the first one succeeds.
Its rules follow the structure of a computation.
-/

/-! ### Repeated successes -/

namespace Except

variable {ε α β : Type}

/-- The second outcome is the first one, unless that is an error. -/
def RepeatedBy (x y : Except ε α) : Prop := ∀ a, x = .ok a → y = .ok a

namespace RepeatedBy

theorem refl (x : Except ε α) : RepeatedBy x x := fun _ h => h

theorem bind {x y : Except ε α} {f g : α → Except ε β} (h : RepeatedBy x y)
    (hf : ∀ a, RepeatedBy (f a) (g a)) : RepeatedBy (x >>= f) (y >>= g) := by
  intro b hb
  obtain ⟨a, ha, hb⟩ := bind_eq_ok.mp hb
  exact bind_eq_ok.mpr ⟨a, h a ha, hf a b hb⟩

theorem map {x y : Except ε α} {f : α → β} (h : RepeatedBy x y) :
    RepeatedBy (f <$> x) (f <$> y) := by
  intro b hb
  obtain ⟨a, ha, hb⟩ := map_eq_ok.mp hb
  exact map_eq_ok.mpr ⟨a, h a ha, hb⟩

theorem ite {c : Prop} [Decidable c] {x y x' y' : Except ε α} (h : RepeatedBy x y)
    (h' : RepeatedBy x' y') : RepeatedBy (if c then x else x') (if c then y else y') := by
  split <;> assumption

theorem mapM {f g : α → Except ε β} (h : ∀ a, RepeatedBy (f a) (g a)) (xs : List α) :
    RepeatedBy (xs.mapM f) (xs.mapM g) := by
  intro ys hys
  exact mapM_eq_ok.mpr ((mapM_eq_ok.mp hys).imp fun x y => h x y)

end RepeatedBy
end Except

namespace EStateM

variable {ε σ α β : Type}

/-- Wherever the first computation succeeds, the second one does the same. -/
def RepeatedBy (m m' : EStateM ε σ α) : Prop := ∀ s x s', m s = .ok x s' → m' s = .ok x s'

namespace RepeatedBy

theorem refl (m : EStateM ε σ α) : RepeatedBy m m := fun _ _ _ h => h

theorem throw (e : ε) (m : EStateM ε σ α) : RepeatedBy (throw e) m :=
  fun _ _ _ h => absurd h throw_ne_ok

theorem bind {m m' : EStateM ε σ α} {f g : α → EStateM ε σ β} (h : RepeatedBy m m')
    (hf : ∀ x, RepeatedBy (f x) (g x)) : RepeatedBy (m >>= f) (m' >>= g) := by
  intro s y s'' hy
  obtain ⟨x, s', hx, hy⟩ := bind_eq_ok.mp hy
  exact bind_eq_ok.mpr ⟨x, s', h s x s' hx, hf x s' y s'' hy⟩

/-- Both computations begin alike. -/
theorem andThen (m : EStateM ε σ α) {f g : α → EStateM ε σ β}
    (hf : ∀ x, RepeatedBy (f x) (g x)) : RepeatedBy (m >>= f) (m >>= g) :=
  (refl m).bind hf

theorem ite {c : Prop} [Decidable c] {m m' n n' : EStateM ε σ α} (h : RepeatedBy m m')
    (h' : RepeatedBy n n') : RepeatedBy (if c then m else n) (if c then m' else n') := by
  split <;> assumption

theorem mapM {f g : α → EStateM ε σ β} (h : ∀ a, RepeatedBy (f a) (g a)) (xs : List α) :
    RepeatedBy (xs.mapM f) (xs.mapM g) := by
  induction xs with
  | nil => exact refl _
  | cons x xs ih =>
    rw [List.mapM_cons, List.mapM_cons]
    exact (h x).bind fun _ => ih.bind fun _ => refl _

theorem foldlM {f g : β → α → EStateM ε σ β} (h : ∀ b a, RepeatedBy (f b a) (g b a)) (b : β)
    (xs : List α) : RepeatedBy (xs.foldlM f b) (xs.foldlM g b) := by
  induction xs generalizing b with
  | nil => exact refl _
  | cons x xs ih =>
    rw [List.foldlM_cons, List.foldlM_cons]
    exact (h b x).bind ih

end RepeatedBy
end EStateM

namespace ClassPatch

open ConstantPool

theorem Reader.repeatedBy_ofExcept {α : Type} {x y : Except Error α} (h : x.RepeatedBy y) :
    EStateM.RepeatedBy (Reader.ofExcept x) (Reader.ofExcept y) := by
  cases x with
  | error e => exact .throw e _
  | ok a =>
    rw [h a rfl]
    exact .refl _

/-- What can be read over one parse can be read over another. -/
theorem Reader.repeatedBy_parse {α : Type} {r r' : Reader α} (h : EStateM.RepeatedBy r r')
    (bytes : Bytes) : (r.parse bytes).RepeatedBy (r'.parse bytes) := by
  intro x hx
  rw [Reader.parse, EStateM.run] at hx ⊢
  split at hx
  · rename_i c hr
    rw [h _ _ _ hr]
    exact hx
  · cases hx

variable {p q : ConstantPool} (hpq : p.slots.toList <+: q.slots.toList)

include hpq

/-! ### Instructions -/

namespace Instruction

open Reader EStateM.RepeatedBy

theorem repeatedBy_loadable (index : UInt16) (wide : Bool) :
    (loadable p index wide).RepeatedBy (loadable q index wide) := by
  refine Except.RepeatedBy.bind (fun _ => get_of_isPrefix hpq) fun c => ?_
  refine Except.RepeatedBy.bind ?_ fun _ => .refl _
  cases c with
  | string | classRef | methodType => exact Except.RepeatedBy.map fun _ => text_of_isPrefix hpq
  | dynamic => exact Except.RepeatedBy.map fun _ => nameAndType_of_isPrefix hpq
  | _ => exact .refl _

theorem repeatedBy_readLoad (index : UInt16) (wide : Bool) :
    EStateM.RepeatedBy (readLoad p index wide) (readLoad q index wide) :=
  (repeatedBy_ofExcept (repeatedBy_loadable hpq index wide)).bind fun _ => .refl _

theorem repeatedBy_readField (offset : Nat) (access : FieldAccess) :
    EStateM.RepeatedBy (readField p offset access) (readField q offset access) :=
  andThen _ fun _ => (repeatedBy_ofExcept fun _ => memberRef_of_isPrefix hpq).bind fun _ => .refl _

theorem repeatedBy_readInvoke (offset : Nat) (kind : InvokeKind) :
    EStateM.RepeatedBy (readInvoke p offset kind) (readInvoke q offset kind) :=
  andThen _ fun _ => (repeatedBy_ofExcept fun _ => memberRef_of_isPrefix hpq).bind fun _ => .refl _

theorem repeatedBy_readInvokeDynamic (offset : Nat) :
    EStateM.RepeatedBy (readInvokeDynamic p offset) (readInvokeDynamic q offset) := by
  refine andThen _ fun index => andThen _ fun _ =>
    (repeatedBy_ofExcept fun _ => get_of_isPrefix hpq).bind fun found => ?_
  cases found with
  | invokeDynamic =>
    exact (repeatedBy_ofExcept fun _ => nameAndType_of_isPrefix hpq).bind fun _ => .refl _
  | _ => exact .refl _

theorem repeatedBy_readTypeUse (use : TypeUse) :
    EStateM.RepeatedBy (readTypeUse p use) (readTypeUse q use) :=
  andThen _ fun _ => (repeatedBy_ofExcept fun _ => className_of_isPrefix hpq).bind fun _ => .refl _

theorem repeatedBy_readOperands (offset : Nat) (op : UInt8) :
    EStateM.RepeatedBy (readOperands p offset op) (readOperands q offset op) := by
  unfold readOperands
  split
  case h_3 | h_4 | h_5 => exact andThen _ fun _ => repeatedBy_readLoad hpq _ _
  case h_10 | h_11 | h_12 | h_13 => exact repeatedBy_readField hpq _ _
  case h_14 | h_15 | h_16 | h_17 => exact repeatedBy_readInvoke hpq _ _
  case h_18 => exact repeatedBy_readInvokeDynamic hpq _
  case h_19 | h_20 | h_21 | h_22 => exact repeatedBy_readTypeUse hpq _
  case h_25 =>
    exact andThen _ fun _ =>
      (repeatedBy_ofExcept fun _ => className_of_isPrefix hpq).bind fun _ => .refl _
  all_goals exact .refl _

theorem repeatedBy_read : EStateM.RepeatedBy (read p) (read q) := by
  refine andThen _ fun offset => andThen _ fun op => ?_
  unfold readBehind
  split
  · exact .refl _
  · exact repeatedBy_readOperands hpq _ _

end Instruction

theorem Disassembly.repeatedBy_readFrom (c : Cursor) (before : Disassembly) :
    (readFrom p c before).RepeatedBy (readFrom q c before) := by
  intro code h
  fun_induction readFrom p c before with
  | case1 c before hmore i c' hread ih =>
    have hread' := Instruction.repeatedBy_read hpq c i c' hread
    rw [readFrom, if_pos hmore]
    split
    · rename_i i' c'' hq
      obtain ⟨rfl, rfl⟩ := EStateM.Result.ok.inj (hread'.symm.trans hq)
      exact ih h
    · rename_i e c'' hq
      cases hread'.symm.trans hq
  | case2 => cases h
  | case3 c before hmore =>
    rw [readFrom, if_neg hmore]
    exact h

/-! ### Stack maps -/

namespace StackMap

open EStateM.RepeatedBy

variable {σ : Type} (labelAt : Nat → StateM σ Label)

theorem repeatedBy_readType :
    EStateM.RepeatedBy (readType p labelAt) (readType q labelAt) := by
  unfold readType
  refine andThen _ fun tag => ?_
  split
  case h_8 =>
    refine andThen _ fun index => ?_
    cases hname : p.className index with
    | error e => exact .throw e _
    | ok name =>
      rw [className_of_isPrefix hpq hname]
      exact .refl _
  all_goals exact .refl _

theorem repeatedBy_readTypes (count : Nat) :
    EStateM.RepeatedBy (readTypes p labelAt count) (readTypes q labelAt count) :=
  mapM (fun _ => repeatedBy_readType hpq labelAt) _

theorem repeatedBy_readFrame (previous : Frame) :
    EStateM.RepeatedBy (readFrame p labelAt previous) (readFrame q labelAt previous) := by
  have htypes := repeatedBy_readTypes hpq labelAt
  have htype := repeatedBy_readType hpq labelAt
  refine andThen _ fun form => ite (.refl _) (ite (htype.bind fun _ => .refl _) (ite (.refl _) ?_))
  refine andThen _ fun delta => ite (htype.bind fun _ => .refl _) (ite (.refl _) (ite (.refl _) ?_))
  refine ite ((htypes _).bind fun _ => .refl _) ?_
  exact andThen _ fun _ => (htypes _).bind fun _ => andThen _ fun _ => (htypes _).bind fun _ =>
    .refl _

theorem repeatedBy_read (initial : Frame) :
    EStateM.RepeatedBy (read p initial labelAt) (read q initial labelAt) := by
  have hnext (sofar : Base × List (Nat × Frame)) :
      EStateM.RepeatedBy (readNext p labelAt sofar) (readNext q labelAt sofar) :=
    (repeatedBy_readFrame hpq labelAt _).bind fun _ => .refl _
  exact andThen _ fun _ => (foldlM (fun sofar _ => hnext sofar) _ _).bind fun _ => .refl _

end StackMap

/-! ### Bodies -/

theorem CodeAttribute.repeatedBy_ofAttribute (a : Attribute) :
    (ofAttribute p a).RepeatedBy (ofAttribute q a) :=
  Except.RepeatedBy.bind (fun _ => text_of_isPrefix hpq) fun _ => .refl _

namespace CodeListing

variable {listing : CodeListing} {method : MethodContext}

theorem repeatedBy_read : EStateM.RepeatedBy (read p method) (read q method) := by
  refine .andThen _ fun _ => .andThen _ fun _ => .andThen _ fun bytes => ?_
  have hcode := Reader.repeatedBy_ofExcept (Disassembly.repeatedBy_readFrom hpq (.ofBytes bytes) [])
  have hattributes (attributes : List Attribute) := Reader.repeatedBy_ofExcept
    (Except.RepeatedBy.mapM (CodeAttribute.repeatedBy_ofAttribute hpq) attributes)
  refine .ite (.andThen _ fun _ => ?_) ?_
  all_goals
    exact hcode.bind fun _ => .andThen _ fun _ => .andThen _ fun _ =>
      (hattributes _).bind fun _ => .refl _

theorem repeatedBy_frames (initial : Frame) :
    (listing.frames p initial).RepeatedBy (listing.frames q initial) := by
  unfold frames
  split
  · exact .refl _
  · rename_i data _
    intro x hx
    dsimp only [StackMap.decode] at hx ⊢
    split at hx
    · rename_i rows cursor offsets hread
      rw [StackMap.repeatedBy_read hpq numberOffset initial _ _ _ hread]
      exact hx
    · cases hx

theorem repeatedBy_handlerOf (table : LabelTable) (row : HandlerRow) :
    (handlerOf p table row).RepeatedBy (handlerOf q table row) := by
  refine .bind (.refl _) fun _ => .bind (.refl _) fun _ => .bind (.refl _) fun _ => ?_
  exact .ite (.refl _) (.bind (fun _ => className_of_isPrefix hpq) fun _ => .refl _)

theorem repeatedBy_body : (listing.body p method).RepeatedBy (listing.body q method) := by
  refine .bind (.refl _) fun _ => .bind (.refl _) fun initial => ?_
  refine .bind (repeatedBy_frames hpq initial) fun _ => .bind (.refl _) fun table => ?_
  refine .bind (.refl _) fun _ => .bind ?_ fun _ => .refl _
  exact .mapM (repeatedBy_handlerOf hpq table) _

end CodeListing

/-- Code is decoded alike over every pool that begins with the same slots. -/
theorem Body.decode_of_isPrefix {data : Bytes} {method : MethodContext} {body : Body}
    (h : Body.decode data p method = .ok body) : Body.decode data q method = .ok body :=
  Except.RepeatedBy.bind (Reader.repeatedBy_parse (CodeListing.repeatedBy_read hpq) data)
    (fun _ => CodeListing.repeatedBy_body hpq) body h

end ClassPatch
