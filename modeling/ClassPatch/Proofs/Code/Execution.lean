import ClassPatch.Descriptor.Method
import ClassPatch.Proofs.Code.Program
import Mathlib.Logic.Function.Basic

/-!
# Executing blocks of events

What code does that pushes constants, moves values between the stack and the locals, calls methods
of objects and jumps. What a method returns is up to a `World`. A block of events is executed until
control leaves it, at its end or by a jump to a label that it does not place: `World.Ends` says in
which moment. Values of two words are not treated, nor are instructions that do anything else.
-/

namespace ClassPatch

/-- A value of one word. -/
inductive Operand (ρ : Type)
  | int (value : Int32)
  | ref (object : Option ρ)
  deriving DecidableEq

namespace Operand

variable {ρ : Type}

/-- A truth value is a number. -/
def bool (b : Bool) : Operand ρ := .int (if b then 1 else 0)

def kind : Operand ρ → ValueKind
  | .int _ => .int
  | .ref _ => .reference

end Operand

/-- The objects that code meets, and what their methods return. -/
structure World (ρ : Type) where
  /-- The object that a constant text is. -/
  text : String → ρ
  /-- The object that stands for a class. -/
  classOf : String → ρ
  /-- What a method returns for an object and arguments, if it returns. -/
  invoke (owner name descriptor : String) (receiver : ρ) (arguments : List (Operand ρ)) :
    Option (Operand ρ)

/-! ### Conditions -/

namespace Condition

variable {ρ : Type} [DecidableEq ρ]

/-- Whether the condition holds for the operands on top of a stack, and what is below them. -/
def test? : Condition → List (Operand ρ) → Option (Bool × List (Operand ρ))
  | ifEq, .int a :: below => some (decide (a = 0), below)
  | ifNe, .int a :: below => some (decide (a ≠ 0), below)
  | ifLt, .int a :: below => some (decide (a < 0), below)
  | ifGe, .int a :: below => some (decide (0 ≤ a), below)
  | ifGt, .int a :: below => some (decide (0 < a), below)
  | ifLe, .int a :: below => some (decide (a ≤ 0), below)
  | ifIcmpEq, .int b :: .int a :: below => some (decide (a = b), below)
  | ifIcmpNe, .int b :: .int a :: below => some (decide (a ≠ b), below)
  | ifIcmpLt, .int b :: .int a :: below => some (decide (a < b), below)
  | ifIcmpGe, .int b :: .int a :: below => some (decide (b ≤ a), below)
  | ifIcmpGt, .int b :: .int a :: below => some (decide (b < a), below)
  | ifIcmpLe, .int b :: .int a :: below => some (decide (a ≤ b), below)
  | ifAcmpEq, .ref b :: .ref a :: below => some (decide (a = b), below)
  | ifAcmpNe, .ref b :: .ref a :: below => some (decide (a ≠ b), below)
  | ifNull, .ref a :: below => some (decide (a = none), below)
  | ifNonNull, .ref a :: below => some (decide (a ≠ none), below)
  | _, _ => none

end Condition

/-! ### Steps -/

/-- Where control is. -/
inductive Control
  /-- In a block, in front of some of its events. -/
  | ahead (events : List Event)
  /-- At a label that the block does not place. -/
  | left (target : Label)
  deriving DecidableEq

namespace Control

/-- Control has left the block. -/
def IsOut : Control → Prop
  | ahead events => events = []
  | left _ => True

/-- Control has jumped to a label. -/
def land : List Event → Label → Control
  | [], l => left l
  | .label l' :: events, l => if l' = l then ahead events else land events l
  | .instr _ :: events, l => land events l

/-- A jump to a label that is placed goes on behind it. -/
theorem land_append {front : List Event} {l : Label} (hfront : l ∉ placedLabels front)
    (back : List Event) : land (front ++ .label l :: back) l = ahead back := by
  induction front with
  | nil => exact if_pos rfl
  | cons e front ih =>
    cases e with
    | label l' =>
      rw [placedLabels_label, List.mem_cons, not_or] at hfront
      exact (if_neg (Ne.symm hfront.1)).trans (ih hfront.2)
    | instr i => exact ih hfront

/-- A jump to another label leaves the block. -/
theorem land_of_not_mem {events : List Event} {l : Label} (h : l ∉ placedLabels events) :
    land events l = left l := by
  induction events with
  | nil => rfl
  | cons e events ih =>
    cases e with
    | label l' =>
      rw [placedLabels_label, List.mem_cons, not_or] at h
      exact (if_neg (Ne.symm h.1)).trans (ih h.2)
    | instr i => exact ih h

end Control

/-- Where control is, with the locals by slot and the stack, its top first. -/
structure Moment (ρ : Type) where
  control : Control
  locals : UInt16 → Operand ρ
  stack : List (Operand ρ)

namespace World

variable {ρ : Type} (w : World ρ)

/-- What a constant pushes. -/
def constant? : Value → Option (Operand ρ)
  | .null => some (.ref none)
  | .int value => some (.int value)
  | .string text => some (.ref (some (w.text text)))
  | .classRef name => some (.ref (some (w.classOf name)))
  | _ => none

/-- What a call leaves on the stack; the receiver is below the arguments and must not be null. -/
def call? (owner name descriptor : String) (stack : List (Operand ρ)) : Option (List (Operand ρ)) :=
  match MethodDescriptor.parse descriptor with
  | .ok ⟨parameters, some result⟩ =>
    if (result :: parameters).all (·.slots = 1) then
      match stack.drop parameters.length with
      | .ref (some receiver) :: below =>
        (w.invoke owner name descriptor receiver (stack.take parameters.length).reverse).map
          (· :: below)
      | _ => none
    else none
  | _ => none

variable [DecidableEq ρ]

/-- The locals and the stack behind an instruction, and where it jumps if it does. -/
def execute? (i : Instruction Label) (locals : UInt16 → Operand ρ) (stack : List (Operand ρ)) :
    Option ((UInt16 → Operand ρ) × List (Operand ρ) × Option Label) :=
  match i, stack with
  | .push value, stack => (w.constant? value).map fun x => (locals, x :: stack, none)
  | .load kind slot, stack =>
    if (locals slot).kind = kind then some (locals, locals slot :: stack, none) else none
  | .store kind slot, x :: below =>
    if x.kind = kind then some (Function.update locals slot x, below, none) else none
  | .jump (.branch c) l, stack =>
    (c.test? stack).map fun (holds, below) => (locals, below, if holds then some l else none)
  | .jump .goto l, stack => some (locals, stack, some l)
  | .invoke .virtual owner name descriptor _, stack =>
    (w.call? owner name descriptor stack).map fun stack => (locals, stack, none)
  | _, _ => none

/-- The next moment, if control is in the block and can go on. -/
def step? (block : List Event) (m : Moment ρ) : Option (Moment ρ) :=
  match m.control with
  | .ahead (.label _ :: events) => some { m with control := .ahead events }
  | .ahead (.instr i :: events) =>
    (w.execute? i m.locals m.stack).map fun (locals, stack, target?) =>
      ⟨(target?.map (Control.land block)).getD (.ahead events), locals, stack⟩
  | .ahead [] | .left _ => none

/-- Control leaves the block in the second moment if it is in the first one now. -/
inductive Ends (w : World ρ) (block : List Event) : Moment ρ → Moment ρ → Prop
  | out {m : Moment ρ} (h : m.control.IsOut) : Ends w block m m
  | step {m m' e : Moment ρ} (h : w.step? block m = some m') (rest : Ends w block m' e) :
      Ends w block m e

variable {w} {block events : List Event} {m m' e e' : Moment ρ} {locals : UInt16 → Operand ρ}
  {stack : List (Operand ρ)}

theorem step?_of_isOut (h : m.control.IsOut) : w.step? block m = none := by
  obtain ⟨control, locals, stack⟩ := m
  cases control with
  | ahead events =>
    obtain rfl := h
    rfl
  | left target => rfl

theorem ends_iff_of_isOut (h : m.control.IsOut) : w.Ends block m e ↔ e = m := by
  constructor
  · intro hends
    cases hends with
    | out => rfl
    | step hstep => cases (step?_of_isOut h).symm.trans hstep
  · rintro rfl
    exact .out h

theorem ends_iff_of_step? (h : w.step? block m = some m') : w.Ends block m e ↔
    w.Ends block m' e := by
  constructor
  · intro hends
    cases hends with
    | out hout => cases (step?_of_isOut hout).symm.trans h
    | step hstep rest =>
      obtain rfl := Option.some.inj (hstep.symm.trans h)
      exact rest
  · exact .step h

/-- Control leaves a block in one way. -/
theorem Ends.unique (h : w.Ends block m e) (h' : w.Ends block m e') : e = e' := by
  induction h with
  | out hout => exact ((ends_iff_of_isOut hout).mp h').symm
  | step hstep _ ih => exact ih ((ends_iff_of_step? hstep).mp h')

/-! ### Single events -/

theorem ends_nil : w.Ends block ⟨.ahead [], locals, stack⟩ e ↔ e = ⟨.ahead [], locals, stack⟩ :=
  ends_iff_of_isOut rfl

theorem ends_left (l : Label) :
    w.Ends block ⟨.left l, locals, stack⟩ e ↔ e = ⟨.left l, locals, stack⟩ :=
  ends_iff_of_isOut trivial

theorem ends_label (l : Label) : w.Ends block ⟨.ahead (.label l :: events), locals, stack⟩ e ↔
    w.Ends block ⟨.ahead events, locals, stack⟩ e :=
  ends_iff_of_step? rfl

theorem ends_push {value : Value} {x : Operand ρ} (h : w.constant? value = some x) :
    w.Ends block ⟨.ahead (.instr (.push value) :: events), locals, stack⟩ e ↔
      w.Ends block ⟨.ahead events, locals, x :: stack⟩ e :=
  ends_iff_of_step? (by simp [step?, execute?, h])

theorem ends_load {slot : UInt16} {x : Operand ρ} (h : locals slot = x) :
    w.Ends block ⟨.ahead (.instr (.load x.kind slot) :: events), locals, stack⟩ e ↔
      w.Ends block ⟨.ahead events, locals, x :: stack⟩ e :=
  ends_iff_of_step? (by simp [step?, execute?, h])

theorem ends_branch {c : Condition} {l : Label} {holds : Bool} {below : List (Operand ρ)}
    (h : c.test? stack = some (holds, below)) :
    w.Ends block ⟨.ahead (.instr (.jump (.branch c) l) :: events), locals, stack⟩ e ↔
      w.Ends block ⟨if holds then Control.land block l else .ahead events, locals, below⟩ e :=
  ends_iff_of_step? (by cases holds <;> simp [step?, execute?, h])

theorem ends_goto (l : Label) :
    w.Ends block ⟨.ahead (.instr (.jump .goto l) :: events), locals, stack⟩ e ↔
      w.Ends block ⟨Control.land block l, locals, stack⟩ e :=
  ends_iff_of_step? rfl

/-- A method that takes some arguments and returns a value puts it in their place. -/
theorem ends_invoke {owner name descriptor : String} {ofInterface : Bool}
    {parameters : List FieldType} {result : FieldType} {receiver : ρ}
    {arguments below : List (Operand ρ)} {x : Operand ρ}
    (hparse : MethodDescriptor.parse descriptor = .ok ⟨parameters, some result⟩)
    (hslots : (result :: parameters).all (·.slots = 1) = true)
    (hlength : arguments.length = parameters.length)
    (hreturns : w.invoke owner name descriptor receiver arguments = some x) :
    w.Ends block ⟨.ahead (.instr (.invoke .virtual owner name descriptor ofInterface) :: events),
      locals, arguments.reverse ++ .ref (some receiver) :: below⟩ e ↔
    w.Ends block ⟨.ahead events, locals, x :: below⟩ e := by
  refine ends_iff_of_step? ?_
  have hcall : w.call? owner name descriptor
      (arguments.reverse ++ .ref (some receiver) :: below) = some (x :: below) := by
    have hreverse : parameters.length = arguments.reverse.length := by
      rw [List.length_reverse, hlength]
    rw [call?, hparse]
    simp only [if_pos hslots, hreverse, List.drop_left, List.take_left, List.reverse_reverse,
      hreturns, Option.map_some]
  simp [step?, execute?, hcall]

end World
end ClassPatch
