import ClassPatch.Proofs.Bytes.Reading
import ClassPatch.Proofs.Code.Writing

/-!
# Instructions as they are read

Every instruction that is read can stand in code over the pool that it was read with. The proofs
follow the structure of the readers, by the rules of `Reader.Gives`.
-/

namespace ClassPatch

open Reader

variable {pool : ConstantPool}

namespace Instruction

theorem properIn_of_loadable {index : UInt16} {wide : Bool} {v : Value}
    (h : loadable pool index wide = .ok v) : v.ProperIn pool := by
  obtain ⟨c, hget, h⟩ := Except.bind_eq_ok.mp h
  obtain ⟨w, hpushed, h⟩ := Except.bind_eq_ok.mp h
  have hget := ConstantPool.get_eq_ok.mp hget
  split at h
  · obtain rfl := Except.pure_eq_ok.mp h
    cases c with
    | methodHandle kind reference =>
      obtain rfl := Except.ok.inj hpushed
      exact ⟨kind, reference, hget⟩
    | dynamic bootstrap signature =>
      obtain ⟨⟨name, descriptor⟩, hsignature, rfl⟩ := Except.map_eq_ok.mp hpushed
      exact ⟨bootstrap, signature, name, hget, hsignature⟩
    | string text | classRef text | methodType text =>
      obtain ⟨_, -, rfl⟩ := Except.map_eq_ok.mp hpushed
      trivial
    | integer value | float bits | long value | double bits =>
      obtain rfl := Except.ok.inj hpushed
      trivial
    | _ => simp [pushed] at hpushed
  · exact absurd h Except.throw_ne_ok

theorem gives_readLoad (index : UInt16) (wide : Bool) :
    Gives (readLoad pool index wide) (ProperIn pool) :=
  Gives.ofExcept.bind fun _ h => .pure (properIn_of_loadable h)

theorem gives_readJump (offset : Nat) (op : UInt8) (kind : Jump) :
    Gives (readJump offset op kind) (ProperIn pool) :=
  .ite (fun _ => .andThen fun _ => .pure trivial)
    (fun _ => .andThen fun _ => .andThen fun _ => .pure trivial)

theorem gives_readTableSwitch (offset : Nat) :
    Gives (readTableSwitch offset) (ProperIn pool) := by
  refine .andThen fun _ => .andThen fun default => .andThen fun low => .andThen fun high => ?_
  refine .ite (fun _ => ?_) fun hrange => ?_
  · exact (Gives.throw (P := fun _ => False) _).bind fun _ h => h.elim
  · refine .andThen fun _ => (Gives.times _ _).bind fun targets hcount => .pure ?_
    exact ⟨Int32.not_lt.mp hrange, hcount⟩

/-- The keys of the cases that have been read increase, the last one first. -/
theorem gives_readCase (offset : Nat) (before : List (Int32 × Nat))
    (hbefore : (before.map (·.1)).Pairwise (· > ·)) :
    Gives (readCase offset before) fun after => (after.map (·.1)).Pairwise (· > ·) := by
  refine .andThen fun key => .andThen fun place => ?_
  cases before with
  | nil => exact .pure (List.pairwise_singleton _ _)
  | cons last before =>
    refine .ite (fun _ => .throw _) fun hkey => .pure ?_
    have hlast : last.1 < key := Int32.not_le.mp hkey
    simp only [List.map_cons, List.pairwise_cons, List.mem_cons, forall_eq_or_imp] at hbefore ⊢
    exact ⟨⟨hlast, fun k hk => Int32.lt_trans (hbefore.1 k hk) hlast⟩, hbefore⟩

theorem gives_readLookupSwitch (offset : Nat) :
    Gives (readLookupSwitch offset) (ProperIn pool) := by
  refine .andThen fun _ => .andThen fun default => .andThen fun count => ?_
  refine .ite (fun _ => ?_) fun _ => ?_
  · exact (Gives.throw (P := fun _ => False) _).bind fun _ h => h.elim
  · refine .andThen fun _ => ?_
    refine (Gives.iterate (gives_readCase offset) _ List.Pairwise.nil).bind fun cases hcases => ?_
    refine .pure ?_
    simpa [ProperIn, List.pairwise_reverse] using hcases

theorem gives_readField (offset : Nat) (access : FieldAccess) :
    Gives (readField pool offset access) (ProperIn pool) :=
  .andThen fun _ => .andThen fun _ => .ite (fun _ => .pure trivial) fun _ => .throw _

theorem gives_readInvoke (offset : Nat) (kind : InvokeKind) :
    Gives (readInvoke pool offset kind) (ProperIn pool) := by
  refine .andThen fun _ => .andThen fun ref => ?_
  cases kind <;> cases ref.kind <;>
    first
    | exact .throw _
    | exact .pure fun _ => rfl
    | exact .pure fun h => nomatch h
    | exact .andThen fun _ => .throw _
    | exact .andThen fun _ => .pure fun _ => rfl

theorem gives_readInvokeDynamic (offset : Nat) :
    Gives (readInvokeDynamic pool offset) (ProperIn pool) := by
  refine .andThen fun index => .andThen fun _ => Gives.ofExcept.bind fun c hget => ?_
  cases c with
  | invokeDynamic bootstrap signature =>
    refine Gives.ofExcept.bind fun (name, descriptor) hsignature => .pure ?_
    exact ⟨bootstrap, signature, ConstantPool.get_eq_ok.mp hget, hsignature⟩
  | _ => exact .throw _

theorem gives_readWide (offset : Nat) : Gives (readWide offset) (ProperIn pool) :=
  .andThen fun _ => .ite (fun _ => .andThen fun _ => .pure trivial) fun _ =>
    .ite (fun _ => .andThen fun _ => .pure trivial) fun _ =>
      .ite (fun _ => .andThen fun _ => .pure trivial) fun _ =>
        .ite (fun _ => .andThen fun _ => .andThen fun _ => .pure trivial) fun _ => .throw _

theorem gives_readOperands (offset : Nat) (op : UInt8) :
    Gives (readOperands pool offset op) (ProperIn pool) := by
  unfold readOperands
  split
  case h_1 | h_2 | h_7 => exact .andThen fun _ => .pure trivial
  case h_3 | h_4 | h_5 => exact .andThen fun _ => gives_readLoad _ _
  case h_6 => exact .andThen fun _ => .andThen fun _ => .pure trivial
  case h_8 => exact gives_readTableSwitch _
  case h_9 => exact gives_readLookupSwitch _
  case h_10 | h_11 | h_12 | h_13 => exact gives_readField _ _
  case h_14 | h_15 | h_16 | h_17 => exact gives_readInvoke _ _
  case h_18 => exact gives_readInvokeDynamic _
  case h_19 | h_20 | h_21 | h_22 => exact .andThen fun _ => .andThen fun _ => .pure trivial
  case h_23 =>
    refine .andThen fun code => .ite (fun hcode => .pure ?_) fun _ => .throw _
    simpa [ProperIn] using hcode
  case h_24 => exact gives_readWide _
  case h_25 =>
    refine .andThen fun _ => .andThen fun _ => .andThen fun dimensions => ?_
    exact .ite (fun _ => .throw _) fun hdimensions => .pure hdimensions
  case h_26 =>
    refine .ite (fun _ => .andThen fun _ => .pure trivial) fun _ =>
      .ite (fun _ => .andThen fun _ => .pure trivial) fun _ => ?_
    split
    · exact gives_readJump _ _ _
    · exact .throw _

private theorem of_ite_eq_some {α : Type} {c : Prop} [Decidable c] {a b : α} {o : Option α}
    (h : (if c then some a else o) = some b) : c ∧ b = a ∨ o = some b := by
  split at h
  · exact .inl ⟨‹_›, (Option.some.inj h).symm⟩
  · exact .inr h

theorem properIn_of_ofByte? {op : UInt8} {i : Instruction Nat} (h : ofByte? op = some i) :
    i.ProperIn pool := by
  unfold ofByte? at h
  iterate 13
    rcases of_ite_eq_some h with ⟨-, rfl⟩ | h
    · trivial
  rcases of_ite_eq_some h with ⟨hplain, rfl⟩ | h
  · exact hplain
  · simp at h

/-- An instruction that is read can stand in code over the pool. -/
theorem properIn_of_read {c c' : Cursor} {i : Instruction Nat} (h : read pool c = .ok i c') :
    i.ProperIn pool := by
  have hgives : Gives (read pool) (ProperIn pool) := by
    refine .andThen fun offset => .andThen fun op => ?_
    unfold readBehind
    split
    · exact .pure (properIn_of_ofByte? ‹_›)
    · exact gives_readOperands _ _
  exact hgives c i c' h

end Instruction
end ClassPatch
