import ClassPatch.Proofs.Code.Program
import Mathlib.Data.List.Nodup
import Mathlib.Data.List.Range

/-!
# Labels that a supply has handed out

A supply serves some events if they place exactly the labels that it has handed out, refer to no
others, and place one directly in front of every `new`. Rewriting events one by one keeps this so,
as long as labels stay, new labels come from the supply, and no `new` is added.
-/

namespace ClassPatch

/-- The label of a number. -/
def Label.ofNat (n : Nat) : Label := ⟨UInt32.ofNat n⟩

/-! ### Supplies -/

namespace LabelSupply

variable {supply supply' : LabelSupply} {labels labels' : List Label}

/-- The labels are all that the supply has handed out, in some order. -/
structure HandedOut (supply : LabelSupply) (labels : List Label) : Prop where
  next : supply.next = UInt32.ofNat labels.length
  numbered : labels.Perm ((List.range labels.length).map Label.ofNat)

/-- The supply hands out labels, in their order. -/
inductive HandsOut : LabelSupply → List Label → LabelSupply → Prop
  | nil (supply : LabelSupply) : HandsOut supply [] supply
  | cons {supply supply' : LabelSupply} {labels : List Label}
      (h : HandsOut supply.advance labels supply') :
      HandsOut supply (supply.fresh :: labels) supply'

/-- Two labels in a row are different. -/
theorem fresh_ne_fresh_advance (supply : LabelSupply) : supply.fresh ≠ supply.advance.fresh := by
  intro h
  have hnext : supply.next = supply.next + 1 := Label.mk.inj h
  simp at hnext

namespace HandedOut

theorem perm (h : supply.HandedOut labels) (hperm : labels.Perm labels') :
    supply.HandedOut labels' where
  next := hperm.length_eq ▸ h.next
  numbered := hperm.length_eq ▸ hperm.symm.trans h.numbered

/-- Numbers in order are handed out, up to the next one. -/
theorem range (n : Nat) : HandedOut ⟨UInt32.ofNat n⟩ ((List.range n).map Label.ofNat) where
  next := by simp
  numbered := by simp

theorem fresh (h : supply.HandedOut labels) :
    supply.advance.HandedOut (supply.fresh :: labels) where
  next := by
    rw [advance, List.length_cons, UInt32.ofNat_add, h.next]
    rfl
  numbered := by
    rw [List.length_cons, List.range_succ, List.map_append]
    have hfresh : [labels.length].map Label.ofNat = [supply.fresh] := by
      rw [LabelSupply.fresh, h.next]
      rfl
    rw [hfresh]
    exact (h.numbered.cons _).trans (List.perm_append_singleton _ _).symm

theorem handsOut (h : supply.HandedOut labels) (hout : supply.HandsOut labels' supply') :
    supply'.HandedOut (labels' ++ labels) := by
  induction hout generalizing labels with
  | nil => exact h
  | @cons supply supply' labels' _ ih => exact (ih h.fresh).perm List.perm_middle

/-- Labels are not handed out twice before 32 bits are used up. -/
theorem nodup (h : supply.HandedOut labels) (hle : labels.length ≤ UInt32.size) : labels.Nodup := by
  refine h.numbered.nodup_iff.mpr (List.Nodup.map_on (fun m hm n hn heq => ?_) List.nodup_range)
  have hlt {k : Nat} (hk : k ∈ List.range labels.length) : k < UInt32.size :=
    Nat.lt_of_lt_of_le (List.mem_range.mp hk) hle
  have hnumber := congrArg UInt32.toNat (Label.mk.inj heq)
  rwa [UInt32.toNat_ofNat_of_lt' (hlt hm), UInt32.toNat_ofNat_of_lt' (hlt hn)] at hnumber

end HandedOut
end LabelSupply

/-! ### Labels in front of new objects -/

/-- The event makes an object. -/
def Event.isNew : Event → Bool
  | .instr (.typeUse .newObject _) => true
  | _ => false

/-- A label stands directly in front of every `new`. `marked` tells whether one stands in front of
all events. -/
def NewsMarked (marked : Bool) : List Event → Prop
  | [] => True
  | e :: events => (e.isNew = true → marked = true) ∧ NewsMarked e.isLabel events

namespace NewsMarked

variable {marked marked' : Bool} {events front : List Event}

theorem mono (h : NewsMarked marked events) (hmarked : marked = true → marked' = true) :
    NewsMarked marked' events := by
  cases events with
  | nil => trivial
  | cons e events => exact ⟨fun hnew => hmarked (h.1 hnew), h.2⟩

/-- Nothing has to stand in front of other events. -/
theorem append (hfront : ∀ e ∈ front, e.isNew = false) (h : NewsMarked false events)
    (marked : Bool) : NewsMarked marked (front ++ events) := by
  induction front generalizing marked with
  | nil => exact h.mono nofun
  | cons e front ih =>
    rw [List.forall_mem_cons] at hfront
    exact ⟨fun hnew => absurd (hfront.1.symm.trans hnew) nofun, ih hfront.2 _⟩

end NewsMarked

/-- The label in front of a `new` is the event before it. -/
theorem newsMarked_iff {events : List Event} {marked : Bool} :
    NewsMarked marked events ↔ ∀ (i : Nat) (className : String),
      events[i]? = some (.instr (.typeUse .newObject className)) →
        i = 0 ∧ marked = true ∨ ∃ k l, i = k + 1 ∧ events[k]? = some (.label l) := by
  induction events generalizing marked with
  | nil => simp [NewsMarked]
  | cons e events ih =>
    rw [NewsMarked, ih]
    constructor
    · rintro ⟨hnew, hevents⟩ i className hi
      cases i with
      | zero =>
        obtain rfl := by simpa using hi
        exact .inl ⟨rfl, hnew rfl⟩
      | succ i =>
        rcases hevents i className (by simpa using hi) with ⟨rfl, hlabel⟩ | ⟨k, l, rfl, hk⟩
        · cases e with
          | label l => exact .inr ⟨0, l, rfl, rfl⟩
          | instr ins => cases hlabel
        · exact .inr ⟨k + 1, l, rfl, by simpa using hk⟩
    · intro h
      refine ⟨fun hnew => ?_, fun i className hi => ?_⟩
      · unfold Event.isNew at hnew
        split at hnew
        · rename_i className
          rcases h 0 className rfl with ⟨-, hmarked⟩ | ⟨k, l, hk, -⟩
          · exact hmarked
          · cases hk
        · cases hnew
      · rcases h (i + 1) className (by simpa using hi) with ⟨hzero, -⟩ | ⟨k, l, hk, hl⟩
        · cases hzero
        · obtain rfl := Nat.succ.inj hk
          cases i with
          | zero =>
            obtain rfl := by simpa using hl
            exact .inl ⟨rfl, rfl⟩
          | succ k => exact .inr ⟨k, l, rfl, by simpa using hl⟩

/-! ### Rewriting -/

/-- What may become of an event if some labels are known: it stays, or it is an instruction in place
of which others are put. They use known labels and new ones that they place themselves. -/
inductive Event.Becomes (known : Label → Prop) (supply : LabelSupply) :
    Event → LabelSupply → List Event → Prop
  | kept (e : Event) : Becomes known supply e supply [e]
  | replaced {supply' : LabelSupply} (i : Instruction Label) {front : List Event}
      (fresh : supply.HandsOut (placedLabels front) supply')
      (news : ∀ e ∈ front, e.isNew = false)
      (targets : ∀ e ∈ front, ∀ l ∈ e.targets, known l ∨ l ∈ placedLabels front) :
      Becomes known supply (.instr i) supply' front

theorem Event.Becomes.dropped {known : Label → Prop} {supply : LabelSupply}
    (i : Instruction Label) : Becomes known supply (.instr i) supply [] :=
  .replaced i (.nil supply) (by simp) (by simp)

/-- Events are rewritten one by one. -/
inductive Rewrites (known : Label → Prop) :
    LabelSupply → List Event → LabelSupply → List Event → Prop
  | nil (supply : LabelSupply) : Rewrites known supply [] supply []
  | cons {supply supply' supply'' : LabelSupply} {e : Event} {events front out : List Event}
      (head : e.Becomes known supply supply' front)
      (rest : Rewrites known supply' events supply'' out) :
      Rewrites known supply (e :: events) supply'' (front ++ out)

namespace Rewrites

variable {known : Label → Prop} {supply supply' : LabelSupply} {events out : List Event}

/-- An instruction is dropped. -/
theorem drop (i : Instruction Label) (h : Rewrites known supply events supply' out) :
    Rewrites known supply (.instr i :: events) supply' out :=
  .cons (.dropped i) h

/-- Labels that are placed stay so. -/
theorem placed (h : Rewrites known supply events supply' out) :
    ∀ l ∈ placedLabels events, l ∈ placedLabels out := by
  induction h with
  | nil => simp
  | cons head _ ih =>
    intro l hl
    rw [placedLabels_append, List.mem_append]
    cases head with
    | kept e =>
      rw [← List.singleton_append, placedLabels_append, List.mem_append] at hl
      exact hl.imp_right (ih l)
    | replaced i => exact .inr (ih l hl)

/-- The labels that are new come from the supply. -/
theorem handedOut (h : Rewrites known supply events supply' out)
    (hsupply : supply.HandedOut (placedLabels events)) : supply'.HandedOut (placedLabels out) := by
  -- the labels in front of the events that are rewritten next are handed out as well
  suffices hall : ∀ before, supply.HandedOut (before ++ placedLabels events) →
      supply'.HandedOut (before ++ placedLabels out) from hall [] hsupply
  clear hsupply
  induction h with
  | nil => exact fun _ h => h
  | @cons supply supply₁ supply' e events front out head _ ih =>
    intro before h
    rw [placedLabels_append, ← List.append_assoc]
    refine ih _ ?_
    cases head with
    | kept e =>
      rwa [List.append_assoc, ← placedLabels_append, List.singleton_append]
    | replaced i fresh =>
      rw [placedLabels_instr] at h
      refine (h.handsOut fresh).perm ?_
      rw [← List.append_assoc]
      exact List.perm_append_comm.append_right _

theorem newsMarked (h : Rewrites known supply events supply' out) {marked : Bool}
    (hmarked : NewsMarked marked events) : NewsMarked marked out := by
  induction h generalizing marked with
  | nil => trivial
  | cons head _ ih =>
    cases head with
    | kept e => exact ⟨hmarked.1, ih hmarked.2⟩
    | replaced i fresh news => exact NewsMarked.append news (ih hmarked.2) marked

/-- What is referred to afterwards is known or new. -/
theorem targets (h : Rewrites known supply events supply' out)
    (hknown : ∀ e ∈ events, ∀ l ∈ e.targets, known l) :
    ∀ e ∈ out, ∀ l ∈ e.targets, known l ∨ l ∈ placedLabels out := by
  induction h with
  | nil => simp
  | @cons supply supply₁ supply' e events front out head _ ih =>
    rw [List.forall_mem_cons] at hknown
    intro e' he' l hl
    rw [placedLabels_append, List.mem_append]
    rcases List.mem_append.mp he' with he' | he'
    · cases head with
      | kept e =>
        obtain rfl := List.mem_singleton.mp he'
        exact .inl (hknown.1 l hl)
      | replaced i fresh news targets => exact (targets e' he' l hl).imp_right .inl
    · exact (ih hknown.2 e' he' l hl).imp_right .inr

end Rewrites

/-! ### Supplies that serve -/

/-- The supply has handed out exactly the labels that the events place, all labels that the events
refer to are among them, and one is in front of every `new`. -/
structure LabelSupply.Serves (supply : LabelSupply) (events : List Event) : Prop where
  handedOut : supply.HandedOut (placedLabels events)
  targets : ∀ e ∈ events, ∀ l ∈ e.targets, l ∈ placedLabels events
  news : NewsMarked false events

/-- A supply that serves some events serves what becomes of them. -/
theorem LabelSupply.Serves.rewritten {supply supply' : LabelSupply} {events out : List Event}
    (h : supply.Serves events)
    (hout : Rewrites (· ∈ placedLabels events) supply events supply' out) : supply'.Serves out where
  handedOut := hout.handedOut h.handedOut
  targets e he l hl := (hout.targets h.targets e he l hl).elim (hout.placed l) id
  news := hout.newsMarked h.news

end ClassPatch
