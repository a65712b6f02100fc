import ClassPatch.Proofs.ConstantPool.Codec
import ClassPatch.Proofs.Evaluation

/-!
# Adding and looking up agree

The table of a pool leads from every constant to the first slot that holds it. This holds of the
empty pool and of every pool that has been read, duplicates included, and additions keep it. In such
a pool, what an addition returns is the index of an entry that resolves to what was added, adding it
again changes nothing, and adding a constant fails exactly if the constant is new and does not fit.
-/

namespace ClassPatch

open PoolM

namespace ConstantPool

/-! ### Tables of first indices -/

/-- The table has the first index of every constant in the slots, and no other constants. -/
def IndexesFirst (slots : List (Option Constant)) (table : Std.TreeMap Constant UInt16) : Prop :=
  ∀ c : Constant, table[c]? = (slots.idxOf? (some c)).map UInt16.ofNat

section IndexesFirst

variable {slots : List (Option Constant)} {table : Std.TreeMap Constant UInt16} {c d : Constant}

/-- Slots at the end count only for constants that do not stand in front of them. -/
theorem idxOf?_append_slots (slots more : List (Option Constant)) (c : Constant) :
    (slots ++ more).idxOf? (some c) =
      (slots.idxOf? (some c)).or ((more.idxOf? (some c)).map (· + slots.length)) :=
  List.findIdx?_append

theorem idxOf?_slots (c d : Constant) :
    c.slots.idxOf? (some d) = if c = d then some 0 else none := by
  have hsecond : [none].idxOf? (some d) = none := by simp
  rw [Constant.slots]
  split <;> simp [List.idxOf?_cons, hsecond]

theorem IndexesFirst.skip (h : IndexesFirst slots table) :
    IndexesFirst (slots ++ [none]) table := by
  intro c
  rw [h, idxOf?_append_slots]
  simp

theorem IndexesFirst.insertIfNew (h : IndexesFirst slots table) (c : Constant) :
    IndexesFirst (slots ++ [some c]) (table.insertIfNew c (UInt16.ofNat slots.length)) := by
  intro d
  have hnew : c ∈ table ↔ (slots.idxOf? (some c)).isSome := by
    rw [Std.TreeMap.mem_iff_isSome_getElem?, h, Option.isSome_map]
  simp only [Std.TreeMap.getElem?_insertIfNew, Std.LawfulEqCmp.compare_eq_iff_eq, hnew, h d,
    idxOf?_append_slots]
  by_cases hcd : c = d
  · subst hcd
    cases hfound : slots.idxOf? (some c) with
    | none => simp
    | some i => simp
  · rw [if_neg fun hboth => hcd hboth.1]
    simp [List.idxOf?_cons, hcd]

end IndexesFirst

/-- The table of a pool has the first index of every constant. -/
def FirstIndexed (p : ConstantPool) : Prop := IndexesFirst p.slots.toList p.indices

theorem firstIndexed_empty : empty.FirstIndexed := by
  intro c
  simp [empty]

/-- The table that is made of slots, whatever stands in them. -/
theorem firstIndexed_ofSlots (slots : Array (Option Constant)) : (ofSlots slots).FirstIndexed := by
  have hempty : IndexesFirst [] ∅ := fun c => by simp
  change IndexesFirst ([] ++ slots.toList) (indexed slots)
  rw [indexed, show 0 = ([] : List (Option Constant)).length from rfl]
  -- along the slots, the table has those that have been passed
  generalize slots.toList = back
  generalize ([] : List (Option Constant)) = front at hempty ⊢
  generalize (∅ : Std.TreeMap Constant UInt16) = table at hempty
  induction back generalizing front table with
  | nil => simpa using hempty
  | cons slot back ih =>
    rw [List.zipIdx_cons, List.foldl_cons, ← List.singleton_append, ← List.append_assoc]
    cases slot with
    | none => simpa using ih (front ++ [none]) table hempty.skip
    | some c => simpa using ih (front ++ [some c]) _ (hempty.insertIfNew c)

theorem firstIndexed_of_read {p : ConstantPool} {c c' : Cursor} (h : read c = .ok p c') :
    p.FirstIndexed := by
  obtain ⟨missing, slots, c₁, c₂, -, -, rfl, -⟩ := exists_of_read h
  exact firstIndexed_ofSlots slots

theorem FirstIndexed.getElem?_eq_none {p : ConstantPool} (h : p.FirstIndexed) {c : Constant} :
    p.indices[c]? = none ↔ some c ∉ p.slots := by
  rw [h, Option.map_eq_none_iff, List.idxOf?_eq_none_iff, Array.mem_toList_iff]

/-- A new constant is added behind all slots. -/
theorem FirstIndexed.appended {p : ConstantPool} (h : p.FirstIndexed) {c : Constant}
    (hnew : p.indices[c]? = none) : (appended p c).FirstIndexed := by
  intro d
  have hfirst := h d
  rw [getElem?_indices_appended, toList_slots_appended, idxOf?_append_slots, idxOf?_slots]
  split
  · rename_i hcd
    rw [← hcd, hnew, eq_comm, Option.map_eq_none_iff] at hfirst
    rw [← hcd, hfirst]
    simp [size]
  · rw [hfirst]
    simp

theorem keptByIntern_firstIndexed : KeptByIntern FirstIndexed := by
  intro c p h
  obtain ⟨i, -, hintern⟩ | ⟨hnew, -, hintern⟩ | ⟨-, -, hintern⟩ := intern_cases c p
  · rwa [hintern]
  · rw [hintern]
    exact h.appended hnew
  · rwa [hintern]

/-- Where there are not more slots than indices, an index is the number of its slot. -/
theorem FirstIndexed.map_toNat {p : ConstantPool} (h : p.FirstIndexed) (hsize : p.size ≤ capacity)
    (c : Constant) : (p.indices[c]?).map UInt16.toNat = p.slots.idxOf? (some c) := by
  have hfirst := h c
  have harray : p.slots.idxOf? (some c) = p.slots.toList.idxOf? (some c) :=
    List.idxOf?_toArray (some c) p.slots.toList
  rw [harray, hfirst, Option.map_map]
  cases hfound : p.slots.toList.idxOf? (some c) with
  | none => rfl
  | some i =>
    obtain ⟨hlt, -⟩ := List.idxOf?_eq_some_iff.mp hfound
    have hlt' : i < 65536 := by
      rw [Array.length_toList] at hlt
      exact Nat.lt_of_lt_of_le hlt (Nat.le_succ_of_le hsize)
    exact congrArg some (UInt16.toNat_ofNat_of_lt' hlt')

/-! ### Second slots -/

/-- The slot behind a wide constant is not used. -/
theorem Sound.getElem?_of_isWide {p : ConstantPool} (h : p.Sound) {j : Nat} {c : Constant}
    (hc : p.slots[j]? = some (some c)) (hwide : c.isWide = true) : p.slots[j + 1]? = some none := by
  obtain ⟨cs, hslots, -⟩ := h
  rw [← Array.getElem?_toList, hslots] at hc ⊢
  cases j with
  | zero => simp at hc
  | succ j =>
    rw [List.getElem?_cons_succ] at hc ⊢
    clear hslots
    induction cs generalizing j with
    | nil => simp at hc
    | cons d cs ih =>
      rw [List.flatMap_cons] at hc ⊢
      -- the constant is the first one, or it stands behind the slots of the first one
      cases j with
      | zero =>
        obtain rfl : d = c := by
          rw [Constant.slots] at hc
          split at hc <;> simpa using hc
        simp [Constant.slots, hwide]
      | succ j =>
        rw [Constant.slots] at hc ⊢
        split at hc
        · rename_i hd
          rw [if_pos hd]
          cases j with
          | zero => simp at hc
          | succ j => exact ih j hc
        · rename_i hd
          rw [if_neg hd]
          exact ih j hc

end ConstantPool

/-! ### What additions return -/

/-- The index resolves to what the call adds. -/
def PoolCall.Resolves (p : ConstantPool) (i : UInt16) : PoolCall → Prop
  | .text value => p.text i = .ok value
  | .classRef name => p.className i = .ok name
  | .string value => ∃ j, p.get i = .ok (.string j) ∧ p.text j = .ok value
  | .methodType descriptor => ∃ j, p.get i = .ok (.methodType j) ∧ p.text j = .ok descriptor
  | .nameAndType name descriptor => p.nameAndType i = .ok (name, descriptor)
  | .member kind owner name descriptor => p.memberRef i = .ok { kind, owner, name, descriptor }

namespace PoolCall

open ConstantPool

variable {p p' : ConstantPool} {i : UInt16}

theorem resolves_of_run {call : PoolCall} (hp : p.WellFormed) (h : call.run p = .ok i p') :
    call.Resolves p' i := by
  cases call with
  | text value => exact text_of_text hp h (le_refl p')
  | classRef name => exact className_of_classRef hp h (le_refl p')
  | string value =>
    obtain ⟨j, hget, htext⟩ := text_of_string hp h (le_refl p')
    exact ⟨j, get_eq_ok.mpr hget, htext⟩
  | methodType descriptor =>
    obtain ⟨j, hget, htext⟩ := text_of_methodType hp h (le_refl p')
    exact ⟨j, get_eq_ok.mpr hget, htext⟩
  | nameAndType name descriptor => exact nameAndType_of_nameAndType hp h (le_refl p')
  | member kind owner name descriptor => exact memberRef_of_member hp h (le_refl p')

/-- What resolves is the index of an entry. -/
theorem exists_of_resolves {call : PoolCall} (h : call.Resolves p i) : ∃ c, p.get? i = some c := by
  cases call with
  | text value =>
    obtain ⟨bytes, hget, -⟩ := text_eq_ok.mp h
    exact ⟨_, hget⟩
  | classRef name =>
    obtain ⟨j, hget, -⟩ := className_eq_ok.mp h
    exact ⟨_, hget⟩
  | string value | methodType descriptor =>
    obtain ⟨j, hget, -⟩ := h
    exact ⟨_, get_eq_ok.mp hget⟩
  | nameAndType name descriptor =>
    obtain ⟨j, k, hget, -⟩ := nameAndType_eq_ok.mp h
    exact ⟨_, hget⟩
  | member kind owner name descriptor =>
    obtain ⟨j, k, hget, -⟩ := memberRef_eq_ok.mp h
    exact ⟨_, hget⟩

end PoolCall

namespace ConstantPool

/-! ### Pools of every history -/

/-- The pool is the empty one or has been read, and then been changed by additions. They may have
failed, and what they added before stays. -/
inductive Reachable : ConstantPool → Prop
  | empty : Reachable empty
  | read {p : ConstantPool} {c c' : Cursor} (h : read c = .ok p c') : Reachable p
  | call {p : ConstantPool} (h : Reachable p) (call : PoolCall) : Reachable (after (call.run p))

/-- What every history of a pool keeps. -/
structure Regular (p : ConstantPool) : Prop where
  wellFormed : p.WellFormed
  sound : p.Sound
  firstIndexed : p.FirstIndexed

theorem Regular.call {p : ConstantPool} (h : p.Regular) (call : PoolCall) :
    (after (call.run p)).Regular := by
  have hgrown := call.steady_run.grownFrom_after h.wellFormed
  exact ⟨hgrown.wellFormed, hgrown.keeps lasting_sound h.sound,
    call.steady_run.adds keptByIntern_firstIndexed h.firstIndexed⟩

theorem Reachable.regular {p : ConstantPool} (h : p.Reachable) : p.Regular := by
  induction h with
  | empty => exact ⟨wellFormed_empty, ⟨[], rfl, nofun⟩, firstIndexed_empty⟩
  | read h => exact ⟨wellFormed_of_read h, sound_of_read h, firstIndexed_of_read h⟩
  | call _ call ih => exact ih.call call

/-- Looking up and adding agree. -/
structure Agrees (p : ConstantPool) : Prop where
  /-- The table has the first index of every constant in the pool, and nothing else. -/
  first : ∀ c : Constant, (p.indices[c]?).map UInt16.toNat = p.slots.idxOf? (some c)
  /-- What has been added is found under its index, which is no unusable one, and is added again
  without change. -/
  added : ∀ (call : PoolCall) {i : UInt16} {p' : ConstantPool}, call.run p = .ok i p' →
    i ≠ 0 ∧ (∀ j c, p'.get? j = some c → c.isWide = true → i.toNat ≠ j.toNat + 1) ∧
      call.Resolves p' i ∧ call.run p' = .ok i p'
  /-- A constant is refused if it is new and does not fit, and only then. -/
  refused : ∀ c : Constant, (∃ e p', intern c p = .error e p') ↔
    some c ∉ p.slots ∧ capacity < p.size + c.width
  /-- The pool is then left as it is. -/
  unchanged : ∀ {c : Constant} {e : Error} {p' : ConstantPool},
    intern c p = .error e p' → e = .limitExceeded .poolFull ∧ p' = p

theorem Regular.added {p : ConstantPool} (h : p.Regular) (call : PoolCall) {i : UInt16}
    {p' : ConstantPool} (hrun : call.run p = .ok i p') :
    i ≠ 0 ∧ (∀ j c, p'.get? j = some c → c.isWide = true → i.toNat ≠ j.toNat + 1) ∧
      call.Resolves p' i ∧ call.run p' = .ok i p' := by
  have hregular := h.call call
  rw [hrun, after] at hregular
  have hresolves := call.resolves_of_run h.wellFormed hrun
  obtain ⟨c, hc⟩ := call.exists_of_resolves hresolves
  refine ⟨hregular.wellFormed.ne_zero hc, fun j d hd hwide heq => ?_, hresolves,
    call.steady_run.finds h.wellFormed hrun⟩
  have hsecond := hregular.sound.getElem?_of_isWide (get?_eq_some.mp hd) hwide
  rw [get?_eq_some, heq, hsecond] at hc
  cases hc

theorem Regular.refused {p : ConstantPool} (h : p.Regular) (c : Constant) :
    (∃ e p', intern c p = .error e p') ↔ some c ∉ p.slots ∧ capacity < p.size + c.width := by
  rw [← h.firstIndexed.getElem?_eq_none]
  obtain ⟨i, hfound, hintern⟩ | ⟨hnew, hroom, hintern⟩ | ⟨hnew, hfull, hintern⟩ := intern_cases c p
  · simp [hintern, hfound]
  · simp [hintern, Nat.not_lt_of_le hroom]
  · simp [hintern, hnew, hfull]

theorem unchanged_of_refused {p p' : ConstantPool} {c : Constant} {e : Error}
    (h : intern c p = .error e p') : e = .limitExceeded .poolFull ∧ p' = p := by
  obtain ⟨i, -, hintern⟩ | ⟨-, -, hintern⟩ | ⟨-, -, hintern⟩ := intern_cases c p
  · cases hintern.symm.trans h
  · cases hintern.symm.trans h
  · obtain ⟨rfl, rfl⟩ := EStateM.Result.error.inj (hintern.symm.trans h)
    exact ⟨rfl, rfl⟩

/-- In every pool that a history leads to, looking up and adding agree. -/
theorem agrees_of_reachable {p : ConstantPool} (h : p.Reachable) : p.Agrees where
  first := h.regular.firstIndexed.map_toNat h.regular.wellFormed.size_le
  added := h.regular.added
  refused := h.regular.refused
  unchanged := unchanged_of_refused

/-- A text stands in two slots, with a wide constant between them, and the name of a class is the
second one. -/
private def doubled : ConstantPool :=
  ofSlots #[none, some (.utf8 [65]), some (.long 7), none, some (.utf8 [65]), some (.classRef 4)]

/-- The pool is read, and a class of that name is added: it is named by the first text. -/
theorem agrees_of_reachable_doubled :
    ∃ c c' p, ConstantPool.read c = .ok doubled c' ∧ (PoolCall.classRef "A").run doubled = .ok 6 p ∧
      p.get? 6 = some (.classRef 1) ∧ p.Agrees := by
  have hread : ∃ c', ConstantPool.read (Cursor.ofBytes
      [0, 6, 1, 0, 1, 65, 5, 0, 0, 0, 0, 0, 0, 0, 7, 1, 0, 1, 65, 7, 0, 4]) = .ok doubled c' :=
    ⟨_, by cbv⟩
  have hclass : ∃ p, (PoolCall.classRef "A").run doubled = .ok 6 p ∧
      p.get? 6 = some (.classRef 1) :=
    ⟨_, by cbv, by cbv⟩
  obtain ⟨c', hread⟩ := hread
  obtain ⟨p, hclass, hget⟩ := hclass
  have hagrees := agrees_of_reachable ((Reachable.read hread).call (.classRef "A"))
  rw [hclass, after] at hagrees
  exact ⟨_, c', p, hread, hclass, hget, hagrees⟩

end ConstantPool
end ClassPatch
