import ClassPatch.Proofs.Code.Lowering
import ClassPatch.Proofs.Patch.Rewriting

/-!
# Machines that leave everything as it is

Machines that look for a pattern do not care where a jump leads, so what they do is a matter of the
`shapes` of the instructions. A `Watch` follows the shapes and says which of them a machine leaves
as they are. Where it finds code `Quiet`, a machine that it `Tracks` leaves the code as it is.
-/

namespace ClassPatch

/-- The instruction whatever it jumps to. -/
def Instruction.shape {τ : Type} (i : Instruction τ) : Instruction Unit := i.map fun _ => ()

@[simp] theorem Instruction.shape_map {σ τ : Type} (f : σ → τ) (i : Instruction σ) :
    (i.map f).shape = i.shape :=
  map_map f _ i

@[simp] theorem Instruction.shape_push {τ : Type} (v : Value) :
    (push v : Instruction τ).shape = push v := rfl

/-- The instructions of some events, whatever they jump to. -/
def shapes (events : List Event) : List (Instruction Unit) := (instructions events).map (·.shape)

@[simp] theorem shapes_nil : shapes [] = [] := rfl

@[simp] theorem shapes_label (l : Label) (events : List Event) :
    shapes (.label l :: events) = shapes events := rfl

@[simp] theorem shapes_instr (i : Instruction Label) (events : List Event) :
    shapes (.instr i :: events) = i.shape :: shapes events := rfl

@[simp] theorem shapes_append (events events' : List Event) :
    shapes (events ++ events') = shapes events ++ shapes events' := by
  simp [shapes]

theorem map_shape_program (events : List Event) :
    (program events).map (·.shape) = shapes events := by
  simp [program, shapes, Function.comp_def]

/-- A way to follow code, and the instructions that a machine leaves as they are. -/
structure Watch (τ : Type) where
  next : τ → Instruction Unit → τ
  Leaves : τ → Instruction Unit → Prop

namespace Watch

variable {σ τ : Type} (w : Watch τ)

/-- What is known behind some code. -/
def after (t : τ) (code : List (Instruction Unit)) : τ := code.foldl w.next t

/-- Every instruction of the code is left as it is. -/
def Quiet : τ → List (Instruction Unit) → Prop
  | _, [] => True
  | t, i :: code => w.Leaves t i ∧ Quiet (w.next t i) code

@[simp] theorem after_nil (t : τ) : w.after t [] = t := rfl

@[simp] theorem after_cons (t : τ) (i : Instruction Unit) (code : List (Instruction Unit)) :
    w.after t (i :: code) = w.after (w.next t i) code := rfl

@[simp] theorem after_append (t : τ) (code code' : List (Instruction Unit)) :
    w.after t (code ++ code') = w.after (w.after t code) code' :=
  List.foldl_append

@[simp] theorem quiet_nil (t : τ) : w.Quiet t [] := trivial

@[simp] theorem quiet_cons (t : τ) (i : Instruction Unit) (code : List (Instruction Unit)) :
    w.Quiet t (i :: code) ↔ w.Leaves t i ∧ w.Quiet (w.next t i) code := Iff.rfl

@[simp] theorem quiet_append (t : τ) (code code' : List (Instruction Unit)) :
    w.Quiet t (code ++ code') ↔ w.Quiet t code ∧ w.Quiet (w.after t code) code' := by
  induction code generalizing t with
  | nil => simp
  | cons i code ih => simp [ih, and_assoc]

/-- What the watch knows behind one more instruction. -/
theorem after_take_succ (t : τ) {code : List (Instruction Unit)} {n : Nat} {i : Instruction Unit}
    (h : code[n]? = some i) :
    w.after t (code.take (n + 1)) = w.next (w.after t (code.take n)) i := by
  simp [List.take_add_one, h]

/-- The watch goes along with a machine: what `rel` says of both stays true as long as instructions
are left as they are, and the machine leaves those that the watch says it leaves. -/
structure Tracks (w : Watch τ) (m : Machine σ) (rel : σ → τ → Prop) : Prop where
  label : ∀ {s t}, rel s t → ∀ l r, ∃ s', m.step s (.label l) r = .ok (s', [.label l]) r ∧ rel s' t
  instr : ∀ {s t i}, rel s t → w.Leaves t i.shape → ∀ r, ∃ s' r',
    m.step s (.instr i) r = .ok (s', [.instr i]) r' ∧ rel s' (w.next t i.shape)
  finish : m.AddsNothing

/-- A machine leaves quiet code as it is. -/
theorem Tracks.output_eq {w : Watch τ} {m : Machine σ} {rel : σ → τ → Prop} (h : w.Tracks m rel)
    {s : σ} {t : τ} (hrel : rel s t) {events : List Event} (hquiet : w.Quiet t (shapes events))
    (r : PatchState) : ∃ r', m.output s events r = .ok events r' := by
  induction events generalizing s t r with
  | nil => exact ⟨r, congrFun (h.finish s) r⟩
  | cons e events ih =>
    have hcons {s' : σ} {t' : τ} {r₁ : PatchState} (hstep : m.step s e r = .ok (s', [e]) r₁)
        (hrel' : rel s' t') (hquiet' : w.Quiet t' (shapes events)) :
        ∃ r', m.output s (e :: events) r = .ok (e :: events) r' := by
      obtain ⟨r', hrest⟩ := ih hrel' hquiet' r₁
      exact ⟨r', EStateM.bind_eq_ok.mpr ⟨_, r₁, hstep, EStateM.bind_eq_ok.mpr ⟨_, r', hrest, rfl⟩⟩⟩
    cases e with
    | label l =>
      obtain ⟨s', hstep, hrel'⟩ := h.label hrel l r
      exact hcons hstep hrel' hquiet
    | instr i =>
      obtain ⟨hleaves, hquiet⟩ := hquiet
      obtain ⟨s', r₁, hstep, hrel'⟩ := h.instr hrel hleaves r
      exact hcons hstep hrel' hquiet

end Watch

namespace Relayed

variable {live far : Nat → Prop} {place : Nat → Nat} {n m : Nat}
    {code code' : List (Instruction Nat)}

/-- What becomes of code in two parts. -/
theorem split {front back : List (Instruction Nat)}
    (h : Relayed live far place n m (front ++ back) code') :
    ∃ front' back', code' = front' ++ back' ∧ Relayed live far place n m front front' ∧
      Relayed live far place (n + front.length) (m + front'.length) back back' := by
  induction front generalizing n m code' with
  | nil => exact ⟨[], code', rfl, .nil h.place_eq, h⟩
  | cons i front ih =>
    cases h with
    | drop hn hdead rest =>
      obtain ⟨front', back', rfl, hfront, hback⟩ := ih rest
      refine ⟨front', back', rfl, .drop hn hdead hfront, ?_⟩
      rwa [List.length_cons, Nat.add_comm front.length, ← Nat.add_assoc]
    | keep hn hlive rest =>
      obtain ⟨front', back', rfl, hfront, hback⟩ := ih rest
      refine ⟨_ :: front', back', rfl, .keep hn hlive hfront, ?_⟩
      rwa [List.length_cons, List.length_cons, Nat.add_comm front.length,
        Nat.add_comm front'.length, ← Nat.add_assoc, ← Nat.add_assoc]
    | bridge hn hlive hfar rest =>
      obtain ⟨front', back', rfl, hfront, hback⟩ := ih rest
      refine ⟨_ :: _ :: front', back', rfl, .bridge hn hlive hfar hfront, ?_⟩
      rwa [List.length_cons, List.length_cons, List.length_cons, Nat.add_comm front.length,
        Nat.add_assoc front'.length, Nat.add_comm front'.length, ← Nat.add_assoc, ← Nat.add_assoc]

/-- A push that is live is kept. -/
theorem push_of_live {v : Value} (h : Relayed live far place n m (.push v :: code) code')
    (hlive : live n) :
    ∃ back, code' = .push v :: back ∧ Relayed live far place (n + 1) (m + 1) code back := by
  cases h with
  | drop _ hdead _ => exact absurd hlive hdead
  | keep _ _ rest => exact ⟨_, rfl, rest⟩

end Relayed

/-- The strategy finds nothing to do. -/
def Strategy.Ignores (strategy : Strategy) (method : MethodContext) (events : List Event) : Prop :=
  ∀ r, ∃ r', strategy.run method events r = .ok events r'

end ClassPatch
