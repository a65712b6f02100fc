import ClassPatch.Code.Body
import ClassPatch.Proofs.Code.Targets

/-!
# Programs by instruction numbers

What a list of events says, labels aside, is a list of instructions whose targets are the numbers
of instructions: a label stands for the number of instructions in front of it. `Reaches` is what
control can reach in such a program, through jumps and switches, by going on to the instruction
behind and by exceptions.
-/

namespace ClassPatch

/-- The label that an event places. -/
def Event.label? : Event → Option Label
  | label l => some l
  | instr _ => none

/-- The instruction that an event is. -/
def Event.instr? : Event → Option (Instruction Label)
  | label _ => none
  | instr i => some i

/-- The labels that events place, in their order. -/
def placedLabels (events : List Event) : List Label := events.filterMap Event.label?

/-- The instructions among some events. -/
def instructions (events : List Event) : List (Instruction Label) := events.filterMap Event.instr?

@[simp] theorem placedLabels_nil : placedLabels [] = [] := rfl

@[simp] theorem placedLabels_label (l : Label) (events : List Event) :
    placedLabels (.label l :: events) = l :: placedLabels events := rfl

@[simp] theorem placedLabels_instr (i : Instruction Label) (events : List Event) :
    placedLabels (.instr i :: events) = placedLabels events := rfl

@[simp] theorem placedLabels_append (events events' : List Event) :
    placedLabels (events ++ events') = placedLabels events ++ placedLabels events' :=
  List.filterMap_append

@[simp] theorem instructions_nil : instructions [] = [] := rfl

@[simp] theorem instructions_label (l : Label) (events : List Event) :
    instructions (.label l :: events) = instructions events := rfl

@[simp] theorem instructions_instr (i : Instruction Label) (events : List Event) :
    instructions (.instr i :: events) = i :: instructions events := rfl

@[simp] theorem instructions_append (events events' : List Event) :
    instructions (events ++ events') = instructions events ++ instructions events' :=
  List.filterMap_append

theorem mem_placedLabels {events : List Event} {l : Label} :
    l ∈ placedLabels events ↔ .label l ∈ events := by
  induction events with
  | nil => simp [placedLabels]
  | cons e events ih => cases e <;> simp [ih]

/-- The number of instructions in front of a label. -/
def landing : List Event → Label → Nat
  | [], _ => 0
  | .label l' :: events, l => if l' = l then 0 else landing events l
  | .instr _ :: events, l => landing events l + 1

/-- The instructions with the numbers of those that they jump to. -/
def program (events : List Event) : List (Instruction Nat) :=
  (instructions events).map (·.map (landing events))

@[simp] theorem length_program (events : List Event) :
    (program events).length = (instructions events).length := by
  simp [program]

theorem mem_instructions {events : List Event} {i : Instruction Label} :
    i ∈ instructions events ↔ .instr i ∈ events := by
  induction events with
  | nil => simp
  | cons e events ih => cases e <;> simp [ih]

/-- Guarded instructions, from `start` up to but without `stop`, and where their handler begins. -/
structure Guard where
  start : Nat
  stop : Nat
  target : Nat
  deriving DecidableEq

/-- The guard with other numbers. -/
def Guard.map (f : Nat → Nat) (guard : Guard) : Guard :=
  ⟨f guard.start, f guard.stop, f guard.target⟩

/-- The handlers of some events by instruction numbers. -/
def guards (events : List Event) (handlers : List Handler) : List Guard :=
  handlers.map fun h => ⟨landing events h.start, landing events h.stop, landing events h.target⟩

/-- Control can reach an instruction of a program from its first one. -/
inductive Reaches (code : List (Instruction Nat)) (guards : List Guard) : Nat → Prop
  | entry : Reaches code guards 0
  | next {n : Nat} {i : Instruction Nat} (h : Reaches code guards n) (hi : code[n]? = some i)
      (hterminal : i.isTerminal = false) : Reaches code guards (n + 1)
  | jump {n t : Nat} {i : Instruction Nat} (h : Reaches code guards n) (hi : code[n]? = some i)
      (ht : t ∈ i.targets) : Reaches code guards t
  | caught {n : Nat} (guard : Guard) (h : Reaches code guards n) (hguard : guard ∈ guards)
      (hstart : guard.start ≤ n) (hstop : n < guard.stop) : Reaches code guards guard.target

/-! ### Numbers of positions -/

/-- The number of instructions in front of a position. -/
def numberAt (events : List Event) (i : Nat) : Nat := (instructions (events.take i)).length

@[simp] theorem numberAt_zero (events : List Event) : numberAt events 0 = 0 := rfl

@[simp] theorem numberAt_cons_label (l : Label) (events : List Event) (i : Nat) :
    numberAt (.label l :: events) (i + 1) = numberAt events i := rfl

@[simp] theorem numberAt_cons_instr (ins : Instruction Label) (events : List Event) (i : Nat) :
    numberAt (.instr ins :: events) (i + 1) = numberAt events i + 1 := rfl

theorem numberAt_label {events : List Event} {i : Nat} {l : Label}
    (h : events[i]? = some (.label l)) : numberAt events (i + 1) = numberAt events i := by
  simp [numberAt, List.take_add_one, h, instructions, Event.instr?]

theorem numberAt_instr {events : List Event} {i : Nat} {ins : Instruction Label}
    (h : events[i]? = some (.instr ins)) : numberAt events (i + 1) = numberAt events i + 1 := by
  simp [numberAt, List.take_add_one, h, instructions, Event.instr?]

theorem numberAt_le_succ (events : List Event) (i : Nat) :
    numberAt events i ≤ numberAt events (i + 1) := by
  simp [numberAt, instructions, List.take_add_one]

theorem numberAt_mono (events : List Event) {i j : Nat} (h : i ≤ j) :
    numberAt events i ≤ numberAt events j := by
  induction h with
  | refl => exact Nat.le_refl _
  | step _ ih => exact Nat.le_trans ih (numberAt_le_succ events _)

theorem numberAt_length (events : List Event) :
    numberAt events events.length = (instructions events).length := by
  simp [numberAt]

/-- A row of labels has one number. -/
theorem numberAt_row {events : List Event} {r i : Nat} (hle : r ≤ i)
    (h : ∀ k, r ≤ k → k < i → ∃ l, events[k]? = some (.label l)) :
    numberAt events i = numberAt events r := by
  induction hle with
  | refl => rfl
  | @step i hle ih =>
    obtain ⟨l, hl⟩ := h i hle (Nat.lt_succ_self i)
    rw [Nat.succ_eq_add_one, numberAt_label hl]
    exact ih fun k hr hk => h k hr (Nat.lt_succ_of_lt hk)

theorem instructions_at {events : List Event} {i : Nat} {ins : Instruction Label}
    (h : events[i]? = some (.instr ins)) :
    (instructions events)[numberAt events i]? = some ins := by
  induction events generalizing i with
  | nil => simp at h
  | cons e events ih =>
    cases i with
    | zero =>
      obtain rfl := Option.some.inj h
      rfl
    | succ i => cases e <;> simpa using ih (by simpa using h)

/-- Every instruction has a position. -/
theorem exists_position {events : List Event} {n : Nat} (h : n < (instructions events).length) :
    ∃ i ins, events[i]? = some (.instr ins) ∧ numberAt events i = n := by
  induction events generalizing n with
  | nil => simp [instructions] at h
  | cons e events ih =>
    cases e with
    | label l =>
      obtain ⟨i, ins, hi, hn⟩ := ih h
      exact ⟨i + 1, ins, by simpa using hi, hn⟩
    | instr ins =>
      cases n with
      | zero => exact ⟨0, ins, rfl, rfl⟩
      | succ n =>
        obtain ⟨i, ins', hi, hn⟩ := ih (Nat.lt_of_succ_lt_succ h)
        exact ⟨i + 1, ins', by simpa using hi, congrArg Nat.succ hn⟩

/-- A label that is placed once stands for the number of its position. -/
theorem landing_at {events : List Event} {i : Nat} {l : Label}
    (hnodup : (placedLabels events).Nodup) (h : events[i]? = some (.label l)) :
    landing events l = numberAt events i := by
  induction events generalizing i with
  | nil => simp at h
  | cons e events ih =>
    cases i with
    | zero =>
      obtain rfl := Option.some.inj h
      simp [landing]
    | succ i =>
      have hi : events[i]? = some (.label l) := by simpa using h
      cases e with
      | label l' =>
        obtain ⟨hnew, hnodup⟩ := List.nodup_cons.mp hnodup
        have hne : l' ≠ l := by
          rintro rfl
          exact hnew (mem_placedLabels.mpr (List.mem_of_getElem? hi))
        rw [landing, if_neg hne, ih hnodup hi, numberAt_cons_label]
      | instr ins => rw [landing, ih hnodup hi, numberAt_cons_instr]

/-- The labels of the first instruction are those in front of it. -/
theorem landing_eq_zero_iff {before after : List Event} (hbefore : instructions before = [])
    {ins : Instruction Label} {l : Label} :
    landing (before ++ .instr ins :: after) l = 0 ↔ l ∈ placedLabels before := by
  induction before with
  | nil => simp [landing]
  | cons e before ih =>
    cases e with
    | instr ins' => simp at hbefore
    | label l' =>
      rw [List.cons_append, landing, placedLabels_label, List.mem_cons, ← ih hbefore]
      by_cases heq : l' = l
      · simp [heq]
      · simp [heq, Ne.symm heq]

theorem program_at {events : List Event} {i : Nat} {ins : Instruction Label}
    (h : events[i]? = some (.instr ins)) :
    (program events)[numberAt events i]? = some (ins.map (landing events)) := by
  simp [program, instructions_at h]

end ClassPatch
