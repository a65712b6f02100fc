import ClassPatch.Flow.State
import Mathlib.Data.List.Forall2

/-!
# Merging is a join

A type covers another one if merging the other into it changes nothing. `Covers` is a preorder and
what a merge gives covers both of its sides; the same holds of states word by word.
-/

namespace ClassPatch

namespace VerificationType

/-- Merging `u` into `t` changes nothing. -/
def Covers (t u : VerificationType) : Prop := t.merge u = t

theorem covers_iff {t u : VerificationType} :
    t.Covers u ↔ t = u ∨ t = .top ∨ (u = .null ∧ ∃ name, t = .object name) ∨
      (t = .object rootClass ∧ ∃ name, u = .object name) := by
  cases t <;> cases u <;> simp [Covers, merge]
  case object.object n m =>
    by_cases h : n = m <;> simp [h, eq_comm]

theorem covers_refl (t : VerificationType) : t.Covers t := merge_self t

theorem top_covers (t : VerificationType) : Covers .top t := covers_iff.mpr (.inr (.inl rfl))

theorem eq_top_of_covers {t : VerificationType} (h : t.Covers .top) : t = .top := by
  rcases covers_iff.mp h with h | h | ⟨h, -⟩ | ⟨-, name, h⟩
  · exact h
  · exact h
  · simp at h
  · simp at h

theorem Covers.trans {t u v : VerificationType} (h : t.Covers u) (h' : u.Covers v) :
    t.Covers v := by
  rw [covers_iff] at h h' ⊢
  rcases h with rfl | rfl | ⟨rfl, n, rfl⟩ | ⟨rfl, n, rfl⟩
  · exact h'
  · exact .inr (.inl rfl)
  · rcases h' with rfl | h' | ⟨-, m, h'⟩ | ⟨h', -⟩
    · exact .inr (.inr (.inl ⟨rfl, n, rfl⟩))
    all_goals simp at h'
  · rcases h' with rfl | h' | ⟨rfl, -⟩ | ⟨-, m, rfl⟩
    · exact .inr (.inr (.inr ⟨rfl, n, rfl⟩))
    · simp at h'
    · exact .inr (.inr (.inl ⟨rfl, rootClass, rfl⟩))
    · exact .inr (.inr (.inr ⟨rfl, m, rfl⟩))

theorem covers_merge (t u : VerificationType) :
    (t.merge u).Covers t ∧ (t.merge u).Covers u := by
  by_cases heq : t = u
  · subst heq
    simp [covers_refl]
  · cases t <;> cases u <;> simp_all [merge, covers_iff]

end VerificationType

namespace FlowState

open VerificationType

/-- Merging `incoming` into `s` changes nothing. -/
structure Covers (s incoming : FlowState) : Prop where
  stack : List.Forall₂ VerificationType.Covers s.stack incoming.stack
  locals : ∀ {slot : Nat} {t : VerificationType}, s.locals[slot]? = some t →
    t.Covers (incoming.localAt slot)

theorem covers_refl (s : FlowState) : s.Covers s where
  stack := List.forall₂_same.mpr fun t _ => VerificationType.covers_refl t
  locals h := by
    rw [localAt, h]
    exact VerificationType.covers_refl _

private theorem forall₂_trans {ts us vs : List VerificationType}
    (h : List.Forall₂ VerificationType.Covers ts us)
    (h' : List.Forall₂ VerificationType.Covers us vs) :
    List.Forall₂ VerificationType.Covers ts vs := by
  induction h generalizing vs with
  | nil => exact h'
  | cons ht _ ih =>
    cases h' with
    | cons hu h' => exact .cons (VerificationType.Covers.trans ht hu) (ih h')

theorem Covers.trans {s u v : FlowState} (h : s.Covers u) (h' : u.Covers v) : s.Covers v where
  stack := forall₂_trans h.stack h'.stack
  locals {slot t} ht := by
    have hu := h.locals ht
    cases hslot : u.locals[slot]? with
    | some t' =>
      rw [localAt, hslot] at hu
      exact VerificationType.Covers.trans hu (h'.locals hslot)
    | none =>
      rw [localAt, hslot] at hu
      rw [eq_top_of_covers hu]
      exact top_covers _

private theorem zipWith_merge_eq {ts us : List VerificationType} (hlen : ts.length = us.length) :
    ts.zipWith VerificationType.merge us = ts ↔ List.Forall₂ VerificationType.Covers ts us := by
  induction ts generalizing us with
  | nil =>
    cases us with
    | nil => simp
    | cons u us => simp at hlen
  | cons t ts ih =>
    cases us with
    | nil => simp at hlen
    | cons u us => simp [ih (by simpa using hlen), VerificationType.Covers]

private theorem mergeLocals_eq {existing incoming : Array VerificationType} :
    mergeLocals existing incoming = existing ↔
      ∀ (slot : Nat) (t : VerificationType), existing[slot]? = some t →
        t.Covers (incoming[slot]?.getD .top) := by
  have hslots (slot : Nat) : (mergeLocals existing incoming)[slot]? = existing[slot]? ↔
      ∀ t, existing[slot]? = some t → t.Covers (incoming[slot]?.getD .top) := by
    simp only [mergeLocals, Array.getElem?_mapIdx]
    cases existing[slot]? <;> simp [VerificationType.Covers]
  constructor
  · exact fun h slot => (hslots slot).mp (by rw [h])
  · exact fun h => Array.ext_getElem? fun slot => (hslots slot).mpr (h slot)

/-- Words that cover each other pairwise are no conflict. -/
private theorem conflict?_eq_none {ts us : List VerificationType}
    (h : List.Forall₂ VerificationType.Covers ts us) : conflict? ts us = none := by
  unfold conflict?
  rw [List.find?_eq_none]
  rintro ⟨t, u⟩ hmem
  have hmem := List.mem_reverse.mp hmem
  have hcovers : t.Covers u := by
    clear * - h hmem
    induction h with
    | nil => simp at hmem
    | cons hcovers _ ih =>
      rcases List.mem_cons.mp hmem with heq | hmem
      · obtain ⟨rfl, rfl⟩ := Prod.mk.inj heq
        exact hcovers
      · exact ih hmem
  have hmerge : t.merge u = t := hcovers
  simp [hmerge]

theorem merge_eq_ok {index : Nat} {s incoming merged : FlowState} :
    merge index s incoming = .ok merged ↔ s.stack.length = incoming.stack.length ∧
      conflict? s.stack incoming.stack = none ∧ merged = {
        locals := mergeLocals s.locals incoming.locals
        stack := s.stack.zipWith VerificationType.merge incoming.stack } := by
  constructor
  · intro h
    unfold merge at h
    split at h
    · rename_i hheight
      split at h
      · cases h
      · rename_i hnone
        exact ⟨hheight, hnone, (Except.ok.inj h).symm⟩
    · cases h
  · rintro ⟨hheight, hnone, rfl⟩
    unfold merge
    rw [if_pos hheight, hnone]

/-- A stack that covers another one stays as it is. -/
theorem merge_of_stack {index : Nat} {s incoming : FlowState}
    (h : List.Forall₂ VerificationType.Covers s.stack incoming.stack) :
    merge index s incoming = .ok { s with locals := mergeLocals s.locals incoming.locals } := by
  refine merge_eq_ok.mpr ⟨h.length_eq, conflict?_eq_none h, ?_⟩
  rw [(zipWith_merge_eq h.length_eq).mpr h]

theorem merge_eq_self {index : Nat} {s incoming : FlowState} :
    merge index s incoming = .ok s ↔ s.Covers incoming := by
  constructor
  · intro h
    obtain ⟨hlen, -, heq⟩ := merge_eq_ok.mp h
    refine ⟨(zipWith_merge_eq hlen).mp (congrArg FlowState.stack heq).symm, fun {slot t} ht => ?_⟩
    exact mergeLocals_eq.mp (congrArg FlowState.locals heq).symm slot t ht
  · intro h
    have hlocals : mergeLocals s.locals incoming.locals = s.locals :=
      mergeLocals_eq.mpr fun slot t ht => h.locals ht
    rw [merge_of_stack h.stack, hlocals]

/-- What a merge gives covers both of its sides and keeps their height. -/
theorem covers_of_merge {index : Nat} {s incoming merged : FlowState}
    (h : merge index s incoming = .ok merged) : merged.Covers s ∧ merged.Covers incoming := by
  obtain ⟨hlen, -, rfl⟩ := merge_eq_ok.mp h
  have hstack : List.Forall₂ VerificationType.Covers
        (s.stack.zipWith VerificationType.merge incoming.stack) s.stack ∧
      List.Forall₂ VerificationType.Covers
        (s.stack.zipWith VerificationType.merge incoming.stack) incoming.stack := by
    clear * - hlen
    generalize s.stack = ts at hlen
    generalize incoming.stack = us at hlen
    induction ts generalizing us with
    | nil =>
      cases us with
      | nil => simp
      | cons u us => simp at hlen
    | cons t ts ih =>
      cases us with
      | nil => simp at hlen
      | cons u us =>
        have := ih us (by simpa using hlen)
        simp [this, covers_merge]
  have hlocals {slot : Nat} {t : VerificationType}
      (ht : (mergeLocals s.locals incoming.locals)[slot]? = some t) :
      t = (s.localAt slot).merge (incoming.localAt slot) := by
    simp only [mergeLocals, Array.getElem?_mapIdx] at ht
    cases hs : s.locals[slot]? with
    | none => simp [hs] at ht
    | some t' =>
      rw [hs] at ht
      simpa [localAt, hs] using ht.symm
  exact ⟨⟨hstack.1, fun ht => hlocals ht ▸ (covers_merge _ _).1⟩,
    ⟨hstack.2, fun ht => hlocals ht ▸ (covers_merge _ _).2⟩⟩

end FlowState
end ClassPatch
