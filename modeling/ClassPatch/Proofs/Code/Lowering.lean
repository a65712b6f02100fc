import ClassPatch.Proofs.Code.Placement
import ClassPatch.Proofs.Flow.Reachability
import Mathlib.Algebra.Ring.Nat

/-!
# What layout makes of a program

Layout drops what control does not reach and bridges far conditional jumps. `Relayed` says so of
programs by instruction numbers, with the function `place` from the numbers before to those after,
and `Lowers` of events with their labels. The rounds of a layout only prune in the first: control
that reaches an instruction reaches what became of it, so later rounds find nothing to drop.
-/

namespace ClassPatch

/-- The second program has exactly the live instructions of the first in their order, with jumps
to where their targets have come, and some conditional jumps bridged that are far. -/
inductive Relayed (live far : Nat → Prop) (place : Nat → Nat) :
    Nat → Nat → List (Instruction Nat) → List (Instruction Nat) → Prop
  | nil {n m : Nat} (hn : place n = m) : Relayed live far place n m [] []
  | drop {n m : Nat} {i : Instruction Nat} {code code' : List (Instruction Nat)} (hn : place n = m)
      (h : ¬live n) (rest : Relayed live far place (n + 1) m code code') :
      Relayed live far place n m (i :: code) code'
  | keep {n m : Nat} {i : Instruction Nat} {code code' : List (Instruction Nat)} (hn : place n = m)
      (h : live n) (rest : Relayed live far place (n + 1) (m + 1) code code') :
      Relayed live far place n m (i :: code) (i.map place :: code')
  | bridge {n m t : Nat} {c : Condition} {code code' : List (Instruction Nat)} (hn : place n = m)
      (h : live n) (hfar : far n) (rest : Relayed live far place (n + 1) (m + 2) code code') :
      Relayed live far place n m (.jump (.branch c) t :: code)
        (.jump (.branch c.opposite) (m + 2) :: .jump .goto (place t) :: code')

/-- The events after layout are those before, without instructions that are not live and with some
far conditional jumps bridged. Each instruction leaves as many as `widths` says. -/
inductive Lowers (live far : Nat → Prop) :
    Nat → List Event → List Nat → List LayoutEvent → Prop
  | nil (n : Nat) : Lowers live far n [] [] []
  | label {n : Nat} {l : Label} {isBridge : Bool} {events : List Event} {widths : List Nat}
      {lowered : List LayoutEvent} (rest : Lowers live far n events widths lowered) :
      Lowers live far n (.label l :: events) widths (⟨.label l, isBridge⟩ :: lowered)
  | drop {n : Nat} {i : Instruction Label} {events : List Event} {widths : List Nat}
      {lowered : List LayoutEvent} (h : ¬live n)
      (rest : Lowers live far (n + 1) events widths lowered) :
      Lowers live far n (.instr i :: events) (0 :: widths) lowered
  | keep {n : Nat} {i : Instruction Label} {events : List Event} {widths : List Nat}
      {lowered : List LayoutEvent} (h : live n)
      (rest : Lowers live far (n + 1) events widths lowered) :
      Lowers live far n (.instr i :: events) (1 :: widths) (⟨.instr i, false⟩ :: lowered)
  | bridge {n : Nat} {c : Condition} {l l' : Label} {events : List Event} {widths : List Nat}
      {lowered : List LayoutEvent} (h : live n) (hfar : far n)
      (rest : Lowers live far (n + 1) events widths lowered) :
      Lowers live far n (.instr (.jump (.branch c) l) :: events) (2 :: widths)
        (⟨.instr (.jump (.branch c.opposite) l'), true⟩ :: ⟨.instr (.jump .goto l), false⟩ ::
          ⟨.label l', false⟩ :: lowered)

/-- The number of instructions that the first ones leave. -/
def placeBy (widths : List Nat) (n : Nat) : Nat := (widths.take n).sum

@[simp] theorem placeBy_zero (widths : List Nat) : placeBy widths 0 = 0 := rfl

@[simp] theorem placeBy_succ (width : Nat) (widths : List Nat) (n : Nat) :
    placeBy (width :: widths) (n + 1) = width + placeBy widths n := rfl

theorem placeBy_mono (widths : List Nat) {n m : Nat} (h : n ≤ m) :
    placeBy widths n ≤ placeBy widths m := by
  induction widths generalizing n m with
  | nil => simp [placeBy]
  | cons width widths ih =>
    cases n with
    | zero => simp
    | succ n =>
      obtain ⟨m, rfl⟩ : ∃ m', m = m' + 1 := ⟨m - 1, by omega⟩
      have := ih (n := n) (m := m) (by omega)
      simp only [placeBy_succ]
      omega

namespace Lowers

variable {live far : Nat → Prop} {n : Nat} {events : List Event} {widths : List Nat}
  {lowered : List LayoutEvent}

theorem mono_far {far' : Nat → Prop} (h : Lowers live far n events widths lowered)
    (himp : ∀ k, far k → far' k) : Lowers live far' n events widths lowered := by
  induction h with
  | nil => exact .nil _
  | label _ ih => exact .label ih
  | drop h _ ih => exact .drop h ih
  | keep h _ ih => exact .keep h ih
  | bridge h hfar _ ih => exact .bridge h (himp _ hfar) ih

/-- Every label that was placed still is. -/
theorem placed (h : Lowers live far n events widths lowered) :
    ∀ l ∈ placedLabels events, l ∈ placedLabels (lowered.map (·.event)) := by
  induction h with
  | nil => simp
  | label _ ih =>
    simp only [List.map_cons, placedLabels_label, List.mem_cons]
    exact fun l hl => hl.imp_right (ih l)
  | drop _ _ ih => exact ih
  | keep _ _ ih => exact ih
  | bridge _ _ _ ih => exact fun l hl => List.mem_cons_of_mem _ (ih l hl)

theorem placedLabels_sublist (h : Lowers live far n events widths lowered) :
    (placedLabels events).Sublist (placedLabels (lowered.map (·.event))) := by
  induction h with
  | nil => exact .slnil
  | label _ ih => exact ih.cons_cons _
  | drop _ _ ih => exact ih
  | keep _ _ ih => exact ih
  | bridge _ _ _ ih => exact ih.cons _

/-- Nothing changes if control reaches every instruction and none jumps under a condition. -/
theorem map_event_eq (h : Lowers live far n events widths lowered)
    (hlive : ∀ k < (instructions events).length, live (n + k))
    (hjumps : ∀ c l, .jump (.branch c) l ∉ instructions events) :
    lowered.map (·.event) = events := by
  have hstep {n : Nat} {i : Instruction Label} {events : List Event}
      (hlive : ∀ k < (instructions (.instr i :: events)).length, live (n + k)) :
      live n ∧ ∀ k < (instructions events).length, live (n + 1 + k) := by
    refine ⟨hlive 0 (Nat.succ_pos _), fun k hk => ?_⟩
    rw [Nat.add_assoc, Nat.add_comm 1 k]
    exact hlive (k + 1) (Nat.succ_lt_succ hk)
  have htail {i : Instruction Label} {events : List Event}
      (hjumps : ∀ c l, .jump (.branch c) l ∉ instructions (.instr i :: events)) :
      ∀ c l, .jump (.branch c) l ∉ instructions events :=
    fun c l hmem => hjumps c l (List.mem_cons_of_mem _ hmem)
  induction h with
  | nil => rfl
  | label rest ih => exact congrArg _ (ih hlive hjumps)
  | drop h rest ih => exact absurd (hstep hlive).1 h
  | keep h rest ih => exact congrArg _ (ih (hstep hlive).2 (htail hjumps))
  | @bridge n c l => exact absurd (List.mem_cons_self ..) (hjumps c l)

/-- A label stands for what has become of the instructions behind it. -/
theorem landing_eq (h : Lowers live far n events widths lowered)
    (hnodup : (placedLabels (lowered.map (·.event))).Nodup) {l : Label}
    (hl : l ∈ placedLabels events) :
    landing (lowered.map (·.event)) l = placeBy widths (landing events l) := by
  induction h with
  | nil => simp at hl
  | @label n l' isBridge events widths lowered rest ih =>
    simp only [List.map_cons, placedLabels_label, landing] at hnodup hl ⊢
    split
    · rfl
    · rename_i hne
      exact ih (List.nodup_cons.mp hnodup).2 ((List.mem_cons.mp hl).resolve_left (Ne.symm hne))
  | drop _ _ ih => simpa [landing] using ih hnodup hl
  | keep _ _ ih =>
    simp only [List.map_cons, landing, placeBy_succ, ih hnodup hl]
    omega
  | @bridge n c l₁ l' events widths lowered _ _ rest ih =>
    simp only [List.map_cons, placedLabels_instr, placedLabels_label] at hnodup
    obtain ⟨hnew, hnodup⟩ := List.nodup_cons.mp hnodup
    have hne : l' ≠ l := by
      rintro rfl
      exact hnew (rest.placed _ hl)
    simp only [List.map_cons, landing, placeBy_succ, if_neg hne, ih hnodup hl]
    omega

private theorem place_succ {place : Nat → Nat} {m width : Nat} {widths : List Nat}
    (h : ∀ k, place (n + k) = m + placeBy (width :: widths) k) (k : Nat) :
    place (n + 1 + k) = m + width + placeBy widths k := by
  have := h (k + 1)
  rw [placeBy_succ] at this
  rw [show n + 1 + k = n + (k + 1) by omega, this]
  omega

/-- Lowered events are a relayed program. -/
theorem relayed (h : Lowers live far n events widths lowered) {before after : Label → Nat}
    {place : Nat → Nat} {m : Nat} (hplace : ∀ k, place (n + k) = m + placeBy widths k)
    (htargets : ∀ i ∈ instructions events, ∀ l ∈ i.targets, after l = place (before l))
    (hnodup : (placedLabels (lowered.map (·.event))).Nodup)
    (hafter : ∀ l ∈ placedLabels (lowered.map (·.event)),
      after l = m + landing (lowered.map (·.event)) l) :
    Relayed live far place n m ((instructions events).map (·.map before))
      ((instructions (lowered.map (·.event))).map (·.map after)) := by
  induction h generalizing m with
  | nil => exact .nil (hplace 0)
  | @label n l' isBridge events widths lowered rest ih =>
    simp only [List.map_cons, placedLabels_label] at hnodup hafter
    obtain ⟨hnew, hnodup⟩ := List.nodup_cons.mp hnodup
    refine ih hplace htargets hnodup fun l hl => ?_
    have hne : l' ≠ l := by
      rintro rfl
      exact hnew hl
    simpa [landing, hne] using hafter l (List.mem_cons_of_mem _ hl)
  | drop h rest ih =>
    simp only [instructions_instr, List.forall_mem_cons] at htargets
    exact .drop (hplace 0) h (ih (place_succ hplace) htargets.2 hnodup hafter)
  | @keep n i events widths lowered h rest ih =>
    simp only [instructions_instr, List.forall_mem_cons] at htargets
    have hi : i.map after = (i.map before).map place := by
      rw [Instruction.map_map]
      exact Instruction.map_congr htargets.1
    simp only [List.map_cons, instructions_instr, hi]
    refine .keep (hplace 0) h (ih (place_succ hplace) htargets.2 hnodup fun l hl => ?_)
    rw [hafter l hl, List.map_cons, landing]
    omega
  | @bridge n c l l' events widths lowered h hfar rest ih =>
    simp only [instructions_instr, List.forall_mem_cons, Instruction.targets,
      List.mem_singleton, forall_eq] at htargets
    simp only [List.map_cons, placedLabels_instr, placedLabels_label] at hnodup hafter
    obtain ⟨hnew, hnodup⟩ := List.nodup_cons.mp hnodup
    have hbridge : after l' = m + 2 := by
      rw [hafter l' (List.mem_cons_self ..)]
      simp [landing]
    simp only [List.map_cons, instructions_instr, instructions_label, Instruction.map,
      hbridge, htargets.1]
    refine .bridge (hplace 0) h hfar (ih (place_succ hplace) htargets.2 hnodup fun l₁ hl₁ => ?_)
    have hne : l' ≠ l₁ := by
      rintro rfl
      exact hnew hl₁
    rw [hafter l₁ (List.mem_cons_of_mem _ hl₁)]
    simp only [landing, if_neg hne]
    omega

end Lowers

/-! ### Control goes where its instructions have gone -/

namespace Relayed

variable {live far : Nat → Prop} {place : Nat → Nat} {n m : Nat}
    {code code' : List (Instruction Nat)}

theorem place_eq (h : Relayed live far place n m code code') : place n = m := by
  cases h <;> assumption

/-- What becomes of an instruction that is live. -/
inductive Fate (place : Nat → Nat) (code' : List (Instruction Nat)) (m : Nat)
    (i : Instruction Nat) (start stop : Nat) : Prop
  | kept {j : Nat} (hstart : start = m + j) (hstop : stop = m + j + 1)
      (hi : code'[j]? = some (i.map place))
  | bridged {c : Condition} {t j : Nat} (hstart : start = m + j) (hstop : stop = m + j + 2)
      (hi : i = .jump (.branch c) t)
      (hover : code'[j]? = some (.jump (.branch c.opposite) (m + j + 2)))
      (hgoto : code'[j + 1]? = some (.jump .goto (place t)))

theorem Fate.behind {i : Instruction Nat} {start stop : Nat} (front : List (Instruction Nat))
    (h : Fate place code' (m + front.length) i start stop) :
    Fate place (front ++ code') m i start stop := by
  have hskip (j : Nat) : (front ++ code')[front.length + j]? = code'[j]? := by
    rw [List.getElem?_append_right (Nat.le_add_right _ _), Nat.add_sub_cancel_left]
  rcases h with @⟨j, hstart, hstop, hi⟩ | @⟨c, t, j, hstart, hstop, hi, hover, hgoto⟩
  · exact .kept (by omega) (by omega) ((hskip j).trans hi)
  · refine .bridged (by omega) (by omega) hi ((hskip j).trans ?_) ((hskip (j + 1)).trans hgoto)
    rw [← Nat.add_assoc m, hover]

theorem fate (h : Relayed live far place n m code code') {k : Nat} {i : Instruction Nat}
    (hi : code[k]? = some i) (hlive : live (n + k)) :
    Fate place code' m i (place (n + k)) (place (n + k + 1)) := by
  induction h generalizing k with
  | nil => simp at hi
  | @drop n m i' code code' hn hdead rest ih =>
    cases k with
    | zero => exact absurd hlive hdead
    | succ k =>
      rw [show n + (k + 1) = n + 1 + k by omega] at hlive ⊢
      exact ih (by simpa using hi) hlive
  | @keep n m i' code code' hn h rest ih =>
    cases k with
    | zero =>
      obtain rfl := Option.some.inj hi
      exact .kept (j := 0) hn rest.place_eq rfl
    | succ k =>
      rw [show n + (k + 1) = n + 1 + k by omega] at hlive ⊢
      exact (ih (by simpa using hi) hlive).behind [_]
  | @bridge n m t c code code' hn h hfar rest ih =>
    cases k with
    | zero =>
      obtain rfl := Option.some.inj hi
      exact .bridged (j := 0) hn rest.place_eq rfl rfl rfl
    | succ k =>
      rw [show n + (k + 1) = n + 1 + k by omega] at hlive ⊢
      exact (ih (by simpa using hi) hlive).behind [_, _]

/-- Everything in the second program has come from something live. -/
theorem exists_origin (h : Relayed live far place n m code code') {j : Nat}
    (hj : j < code'.length) : ∃ k i, code[k]? = some i ∧ live (n + k) ∧ place (n + k) ≤ m + j ∧
      m + j < place (n + k + 1) := by
  induction h generalizing j with
  | nil => simp at hj
  | @drop n m i' code code' hn hdead rest ih =>
    obtain ⟨k, i, hi, hlive, hle, hlt⟩ := ih hj
    rw [show n + 1 + k = n + (k + 1) by omega] at hlive hle hlt
    exact ⟨k + 1, i, hi, hlive, hle, hlt⟩
  | @keep n m i' code code' hn h rest ih =>
    cases j with
    | zero => exact ⟨0, i', rfl, h, by simp [hn], by simp [rest.place_eq]⟩
    | succ j =>
      obtain ⟨k, i, hi, hlive, hle, hlt⟩ := ih (by simpa using hj)
      rw [show n + 1 + k = n + (k + 1) by omega] at hlive hle hlt
      exact ⟨k + 1, i, hi, hlive, by omega, by omega⟩
  | @bridge n m t c code code' hn h hfar rest ih =>
    rcases j with _ | _ | j
    · exact ⟨0, _, rfl, h, by simp [hn], by simp [rest.place_eq]⟩
    · exact ⟨0, _, rfl, h, by simp [hn], by simp [rest.place_eq]⟩
    · obtain ⟨k, i, hi, hlive, hle, hlt⟩ := ih (by simpa using hj)
      rw [show n + 1 + k = n + (k + 1) by omega] at hlive hle hlt
      exact ⟨k + 1, i, hi, hlive, by omega, by omega⟩

variable {guards : List Guard}

/-- Control that reaches an instruction reaches what has become of it. -/
theorem reaches_place (h : Relayed (Reaches code guards) far place 0 0 code code')
    (hmono : ∀ {a b : Nat}, a ≤ b → place a ≤ place b)
    (hlt : ∀ {n : Nat}, Reaches code guards n → n < code.length) {n : Nat}
    (hn : Reaches code guards n) : Reaches code' (guards.map (·.map place)) (place n) := by
  have hfate {n : Nat} {i : Instruction Nat} (hn : Reaches code guards n)
      (hi : code[n]? = some i) : Fate place code' 0 i (place n) (place (n + 1)) := by
    simpa using h.fate hi (by simpa using hn)
  induction hn with
  | entry =>
    rw [h.place_eq]
    exact .entry
  | @next n i hn hi hterminal ih =>
    rcases hfate hn hi with @⟨j, hstart, hstop, hj⟩ | @⟨c, t, j, hstart, hstop, rfl, hover, hgoto⟩
    · rw [hstop]
      rw [hstart] at ih
      exact .next ih (by simpa using hj) (by rwa [Instruction.isTerminal_map])
    · rw [hstop]
      rw [hstart] at ih
      exact .jump ih (by simpa using hover) (by simp [Instruction.targets])
  | @jump n t i hn hi ht ih =>
    rcases hfate hn hi with @⟨j, hstart, hstop, hj⟩ | @⟨c, t', j, hstart, hstop, rfl, hover, hgoto⟩
    · rw [hstart] at ih
      refine .jump ih (by simpa using hj) ?_
      rw [Instruction.targets_map]
      exact List.mem_map_of_mem ht
    · obtain rfl : t = t' := by simpa [Instruction.targets] using ht
      rw [hstart] at ih
      exact .jump (.next ih (by simpa using hover) rfl) (by simpa using hgoto)
        (by simp [Instruction.targets])
  | @caught n guard hn hguard hstart hstop ih =>
    obtain ⟨i, hi⟩ : ∃ i, code[n]? = some i := ⟨_, List.getElem?_eq_getElem (hlt hn)⟩
    have hgoes : place n < place (n + 1) := by
      rcases hfate hn hi with @⟨j, hs, ht, -⟩ | @⟨c, t', j, hs, ht, -⟩ <;> omega
    refine .caught (guard.map place) ih (List.mem_map_of_mem hguard) (hmono hstart) ?_
    exact Nat.lt_of_lt_of_le hgoes (hmono hstop)

/-- Nothing that has been kept is out of reach. -/
theorem reaches (h : Relayed (Reaches code guards) far place 0 0 code code')
    (hmono : ∀ {a b : Nat}, a ≤ b → place a ≤ place b)
    (hlt : ∀ {n : Nat}, Reaches code guards n → n < code.length) {m : Nat}
    (hm : m < code'.length) : Reaches code' (guards.map (·.map place)) m := by
  obtain ⟨n, i, hi, hlive, hle, hgt⟩ := h.exists_origin hm
  simp only [Nat.zero_add] at hlive hle hgt
  have hplace := h.reaches_place hmono hlt hlive
  have hfate : Fate place code' 0 i (place n) (place (n + 1)) := by
    simpa using h.fate hi (by simpa using hlive)
  rcases hfate with @⟨j, hstart, hstop, -⟩ | @⟨c, t, j, hstart, hstop, -, hover, -⟩
  · rwa [show m = place n by omega]
  · rcases Nat.eq_or_lt_of_le hle with heq | hlt'
    · rwa [← heq]
    · rw [show m = 0 + j + 1 by omega]
      rw [hstart] at hplace
      exact .next hplace (by simpa using hover) rfl

end Relayed
end ClassPatch
