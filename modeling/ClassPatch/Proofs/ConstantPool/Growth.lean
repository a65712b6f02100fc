import ClassPatch.ConstantPool.Codec
import ClassPatch.Proofs.Outcome
import ClassPatch.Proofs.Text.ModifiedUtf8

/-!
# Pools only grow

A pool is below another one, `p ≤ q`, if the other has all its slots in front, finds every constant
where it did, and is the same unless it has more slots. What a pool resolves, a larger one resolves
to the same. A pool that is read from bytes or made from the empty one by additions is `WellFormed`:
index zero stays empty, no more than `capacity` indices are taken, and a constant that is looked up
is found where the look-up says.
-/

namespace ClassPatch

theorem Constant.stored_injective {c d : Constant} (h : c.tag :: c.payload = d.tag :: d.payload) :
    c = d := by
  have word {α : Type} [Word α] {x y : α} (hxy : Word.encode x = Word.encode y) : x = y := by
    rw [← Word.decode_encode x, hxy, Word.decode_encode]
  have two {x y x' y' : UInt16} (hxy : Word.encode x ++ Word.encode y =
      Word.encode x' ++ Word.encode y') : x = x' ∧ y = y' := by
    obtain ⟨hx, hy⟩ := List.append_inj hxy (by simp)
    exact ⟨word hx, word hy⟩
  -- Tags tell the constructors apart, so the cases off the diagonal go first.
  rcases c with _ | _ | _ | _ | _ | _ | _ | ⟨_ | _ | _, _, _⟩ | _ | _ | _ | _ | _ | _ | _ <;>
    rcases d with _ | _ | _ | _ | _ | _ | _ | ⟨_ | _ | _, _, _⟩ | _ | _ | _ | _ | _ | _ | _ <;>
    simp only [List.cons.injEq, Constant.tag, Constant.payload] at h <;>
    first
    | exact absurd h.1 (by decide)
    | rw [word h.2]
    | (obtain ⟨rfl, rfl⟩ := two h.2; rfl)
    | (obtain ⟨hfirst, hsecond⟩ := List.append_inj h.2 (by simp)
       first
       | rw [hsecond]
       | rw [word hfirst, word hsecond])

/-- The constant is of a kind that references are made to. -/
def Constant.hasKind (c : Constant) : ConstantKind → Bool
  | .utf8 => c.isUtf8
  | .classRef => c.isClassRef
  | .nameAndType => c.isNameAndType
  | .member => c.isMember

/-- The slots that a constant takes. -/
def Constant.slots (c : Constant) : List (Option Constant) :=
  if c.isWide then [some c, none] else [some c]

instance : Std.LawfulEqOrd Constant where
  eq_of_compare {c d} h := Constant.stored_injective <|
    Std.LawfulEqOrd.eq_of_compare (α := Bytes) (a := c.tag :: c.payload) (b := d.tag :: d.payload) h

namespace ConstantPool

/-- Every slot and every look-up of a pool stays in another one that has more slots, if it is not
the same. -/
structure Grows (p q : ConstantPool) : Prop where
  slots : p.slots.toList <+: q.slots.toList
  indices : ∀ {c : Constant} {i : UInt16}, p.indices[c]? = some i → q.indices[c]? = some i
  more : q = p ∨ p.size < q.size

instance : LE ConstantPool := ⟨Grows⟩

variable {p q r : ConstantPool}

theorem le_refl (p : ConstantPool) : p ≤ p := ⟨List.prefix_refl _, id, .inl rfl⟩

theorem size_le_of_le (h : p ≤ q) : p.size ≤ q.size := by
  rcases h.more with rfl | hlt
  · exact Nat.le_refl _
  · exact Nat.le_of_lt hlt

theorem le_trans (h₁ : p ≤ q) (h₂ : q ≤ r) : p ≤ r := by
  refine ⟨h₁.slots.trans h₂.slots, fun h => h₂.indices (h₁.indices h), ?_⟩
  rcases h₁.more with rfl | hlt
  · exact h₂.more
  · exact .inr (Nat.lt_of_lt_of_le hlt (size_le_of_le h₂))

/-- A pool that has not got more slots is the same. -/
theorem eq_of_le_of_size_le (h : p ≤ q) (hsize : q.size ≤ p.size) : q = p :=
  h.more.resolve_right (Nat.not_lt_of_le hsize)

/-- What the additions of the library keep. -/
structure WellFormed (p : ConstantPool) : Prop where
  zero : p.slots[0]? = some none
  size_le : p.size ≤ capacity
  found : ∀ {c : Constant} {i : UInt16}, p.indices[c]? = some i → p.get? i = some c

/-! ### Looking up in a larger pool -/

theorem get?_eq_some {i : UInt16} {c : Constant} :
    p.get? i = some c ↔ p.slots[i.toNat]? = some (some c) := by
  simp [get?, Option.join_eq_some_iff]

theorem get?_of_isPrefix (h : p.slots.toList <+: q.slots.toList) {i : UInt16} {c : Constant}
    (hc : p.get? i = some c) : q.get? i = some c := by
  obtain ⟨more, hmore⟩ := h
  rw [get?_eq_some, ← Array.getElem?_toList] at hc ⊢
  rw [← hmore, List.getElem?_append_left (List.getElem?_eq_some_iff.mp hc).1, hc]

theorem get?_mono (h : p ≤ q) {i : UInt16} {c : Constant} (hc : p.get? i = some c) :
    q.get? i = some c :=
  get?_of_isPrefix h.slots hc

theorem get_eq_ok {i : UInt16} {c : Constant} : p.get i = .ok c ↔ p.get? i = some c := by
  unfold get
  split <;> simp_all

theorem get_of_isPrefix (h : p.slots.toList <+: q.slots.toList) {i : UInt16} {c : Constant}
    (hc : p.get i = .ok c) : q.get i = .ok c :=
  get_eq_ok.mpr (get?_of_isPrefix h (get_eq_ok.mp hc))

theorem expect_eq_ok {i : UInt16} {wanted : ConstantKind} :
    p.expect i wanted = .ok () ↔ ∃ c, p.get? i = some c ∧ c.hasKind wanted = true := by
  rw [expect, Except.bind_eq_ok]
  simp only [get_eq_ok]
  constructor
  · rintro ⟨c, hc, hfits⟩
    refine ⟨c, hc, ?_⟩
    by_contra hkind
    cases wanted <;> simp_all [Constant.hasKind]
  · rintro ⟨c, hc, hkind⟩
    exact ⟨c, hc, by cases wanted <;> exact if_pos hkind⟩

theorem check_nameAndType {i j : UInt16} : p.check (.nameAndType i j) = .ok () ↔
    p.expect i .utf8 = .ok () ∧ p.expect j .utf8 = .ok () := by
  rw [check, Except.check_bind_eq_ok]

theorem check_member {kind : MemberKind} {i j : UInt16} : p.check (.member kind i j) = .ok () ↔
    p.expect i .classRef = .ok () ∧ p.expect j .nameAndType = .ok () := by
  rw [check, Except.check_bind_eq_ok]

/-- References that fit do so whatever stands behind them. -/
theorem check_of_isPrefix (h : p.slots.toList <+: q.slots.toList) {c : Constant}
    (hp : p.check c = .ok ()) : q.check c = .ok () := by
  have hexpect {i : UInt16} {wanted : ConstantKind} (hi : p.expect i wanted = .ok ()) :
      q.expect i wanted = .ok () := by
    obtain ⟨d, hd, hkind⟩ := expect_eq_ok.mp hi
    exact expect_eq_ok.mpr ⟨d, get?_of_isPrefix h hd, hkind⟩
  cases c with
  | classRef | string | methodType | moduleName | packageName | dynamic | invokeDynamic =>
    rw [check] at hp ⊢
    exact hexpect hp
  | member kind owner signature =>
    obtain ⟨howner, hsignature⟩ := check_member.mp hp
    exact check_member.mpr ⟨hexpect howner, hexpect hsignature⟩
  | nameAndType name descriptor =>
    obtain ⟨hname, hdescriptor⟩ := check_nameAndType.mp hp
    exact check_nameAndType.mpr ⟨hexpect hname, hexpect hdescriptor⟩
  | methodHandle kind reference =>
    rw [check] at hp ⊢
    split at hp
    · rename_i hkind
      rw [if_pos hkind]
      exact hexpect hp
    · cases hp
  | utf8 | integer | float | long | double => exact hp

theorem text_eq_ok {i : UInt16} {s : String} :
    p.text i = .ok s ↔
      ∃ bytes, p.get? i = some (.utf8 bytes) ∧ Text.ModifiedUtf8.decode bytes = .ok s := by
  unfold text
  cases hc : p.get i with
  | error e =>
    simp only [bind, Except.bind, reduceCtorEq, false_iff, not_exists, not_and]
    intro bytes hget
    rw [get_eq_ok.mpr hget] at hc
    simp at hc
  | ok c =>
    rw [get_eq_ok] at hc
    cases c <;> simp [hc, bind, Except.bind, wrongKind]

theorem text_of_isPrefix (h : p.slots.toList <+: q.slots.toList) {i : UInt16} {s : String}
    (hs : p.text i = .ok s) : q.text i = .ok s := by
  obtain ⟨bytes, hget, hdecode⟩ := text_eq_ok.mp hs
  exact text_eq_ok.mpr ⟨bytes, get?_of_isPrefix h hget, hdecode⟩

theorem text_mono (h : p ≤ q) {i : UInt16} {s : String} (hs : p.text i = .ok s) :
    q.text i = .ok s :=
  text_of_isPrefix h.slots hs

theorem className_eq_ok {i : UInt16} {s : String} :
    p.className i = .ok s ↔ ∃ name, p.get? i = some (.classRef name) ∧ p.text name = .ok s := by
  unfold className
  cases hc : p.get i with
  | error e =>
    simp only [bind, Except.bind, reduceCtorEq, false_iff, not_exists, not_and]
    intro name hget
    rw [get_eq_ok.mpr hget] at hc
    simp at hc
  | ok c =>
    rw [get_eq_ok] at hc
    cases c <;> simp [hc, bind, Except.bind, wrongKind]

theorem className_of_isPrefix (h : p.slots.toList <+: q.slots.toList) {i : UInt16} {s : String}
    (hs : p.className i = .ok s) : q.className i = .ok s := by
  obtain ⟨name, hget, htext⟩ := className_eq_ok.mp hs
  exact className_eq_ok.mpr ⟨name, get?_of_isPrefix h hget, text_of_isPrefix h htext⟩

theorem className_mono (h : p ≤ q) {i : UInt16} {s : String} (hs : p.className i = .ok s) :
    q.className i = .ok s :=
  className_of_isPrefix h.slots hs

theorem nameAndType_eq_ok {i : UInt16} {s t : String} :
    p.nameAndType i = .ok (s, t) ↔
      ∃ name descriptor, p.get? i = some (.nameAndType name descriptor) ∧
        p.text name = .ok s ∧ p.text descriptor = .ok t := by
  unfold nameAndType
  cases hc : p.get i with
  | error e =>
    simp only [bind, Except.bind, reduceCtorEq, false_iff, not_exists, not_and]
    intro name descriptor hget
    rw [get_eq_ok.mpr hget] at hc
    simp at hc
  | ok c =>
    rw [get_eq_ok] at hc
    cases c with
    | nameAndType name descriptor =>
      simp only [hc, bind, Except.bind, pure, Except.pure, Option.some.injEq,
        Constant.nameAndType.injEq]
      constructor
      · intro h
        refine ⟨name, descriptor, ⟨rfl, rfl⟩, ?_⟩
        cases hn : p.text name <;> cases hd : p.text descriptor <;> simp_all
      · rintro ⟨_, _, ⟨rfl, rfl⟩, hn, hd⟩
        simp [hn, hd]
    | _ => simp [hc, bind, Except.bind, wrongKind]

theorem nameAndType_of_isPrefix (h : p.slots.toList <+: q.slots.toList) {i : UInt16}
    {s : String × String} (hs : p.nameAndType i = .ok s) : q.nameAndType i = .ok s := by
  obtain ⟨name, descriptor, hget, hname, hdescriptor⟩ := nameAndType_eq_ok.mp hs
  exact nameAndType_eq_ok.mpr
    ⟨name, descriptor, get?_of_isPrefix h hget, text_of_isPrefix h hname,
      text_of_isPrefix h hdescriptor⟩

theorem nameAndType_mono (h : p ≤ q) {i : UInt16} {s : String × String}
    (hs : p.nameAndType i = .ok s) : q.nameAndType i = .ok s :=
  nameAndType_of_isPrefix h.slots hs

theorem memberRef_eq_ok {i : UInt16} {m : MemberRef} :
    p.memberRef i = .ok m ↔
      ∃ owner signature, p.get? i = some (.member m.kind owner signature) ∧
        p.className owner = .ok m.owner ∧
        p.nameAndType signature = .ok (m.name, m.descriptor) := by
  unfold memberRef
  cases hc : p.get i with
  | error e =>
    simp only [bind, Except.bind, reduceCtorEq, false_iff, not_exists, not_and]
    intro owner signature hget
    rw [get_eq_ok.mpr hget] at hc
    simp at hc
  | ok c =>
    rw [get_eq_ok] at hc
    cases c with
    | member kind owner signature =>
      obtain ⟨kind', owner', name', descriptor'⟩ := m
      cases hs : p.nameAndType signature with
      | error e => simp [hc, hs, bind, Except.bind]
      | ok st =>
        obtain ⟨s, t⟩ := st
        cases ho : p.className owner with
        | error e => simp [hc, hs, ho, bind, Except.bind]
        | ok o =>
          simp only [hc, hs, ho, bind, Except.bind, pure, Except.pure, Except.ok.injEq,
            MemberRef.mk.injEq, Option.some.injEq, Constant.member.injEq]
          constructor
          · rintro ⟨rfl, rfl, rfl, rfl⟩
            exact ⟨owner, signature, ⟨rfl, rfl, rfl⟩, ho, hs⟩
          · rintro ⟨_, _, ⟨rfl, rfl, rfl⟩, ho', hs'⟩
            rw [ho] at ho'
            rw [hs] at hs'
            simp only [Except.ok.injEq, Prod.mk.injEq] at ho' hs'
            exact ⟨rfl, ho', hs'⟩
    | _ => simp [hc, bind, Except.bind, wrongKind]

theorem memberRef_of_isPrefix (h : p.slots.toList <+: q.slots.toList) {i : UInt16} {m : MemberRef}
    (hm : p.memberRef i = .ok m) : q.memberRef i = .ok m := by
  obtain ⟨owner, signature, hget, howner, hsignature⟩ := memberRef_eq_ok.mp hm
  exact memberRef_eq_ok.mpr ⟨owner, signature, get?_of_isPrefix h hget,
    className_of_isPrefix h howner, nameAndType_of_isPrefix h hsignature⟩

theorem WellFormed.ne_zero (h : p.WellFormed) {i : UInt16} {c : Constant}
    (hc : p.get? i = some c) : i ≠ 0 := by
  rintro rfl
  have hzero := h.zero
  rw [get?_eq_some] at hc
  simp_all

/-! ### Pools that are well formed -/

theorem wellFormed_empty : empty.WellFormed where
  zero := rfl
  size_le := by decide
  found h := by simp [empty] at h

/-- The table finds constants only where the slots have them. -/
private def Finds (slots : Array (Option Constant)) (table : Std.TreeMap Constant UInt16) : Prop :=
  ∀ (c : Constant) (i : UInt16), table[c]? = some i → slots[i.toNat]? = some (some c)

private theorem finds_insertIfNew {slots : Array (Option Constant)} {c : Constant} {index : Nat}
    {table : Std.TreeMap Constant UInt16} (hsize : slots.size ≤ 65536)
    (hc : slots[index]? = some (some c)) (h : Finds slots table) :
    Finds slots (table.insertIfNew c (UInt16.ofNat index)) := by
  intro d i hd
  rw [Std.TreeMap.getElem?_insertIfNew] at hd
  split at hd
  · rename_i hnew
    obtain rfl : c = d := Std.LawfulEqCmp.compare_eq_iff_eq.mp hnew.1
    obtain rfl := by simpa using hd
    have hlt : index < slots.size := (Array.getElem?_eq_some_iff.mp hc).1
    rwa [UInt16.toNat_ofNat_of_lt' (show index < 65536 by omega)]
  · exact h d i hd

theorem finds_indexed {slots : Array (Option Constant)} (hsize : slots.size ≤ 65536) :
    Finds slots (indexed slots) := by
  have hrows : ∀ row ∈ slots.toList.zipIdx, slots[row.2]? = some row.1 := by
    intro row hmem
    simpa using List.mem_zipIdx_iff_getElem?.mp hmem
  have hempty : Finds slots ∅ := fun c i h => by simp at h
  rw [indexed]
  generalize slots.toList.zipIdx = rows at hrows
  generalize (∅ : Std.TreeMap Constant UInt16) = table at hempty
  induction rows generalizing table with
  | nil => exact hempty
  | cons row rows ih =>
    obtain ⟨slot, index⟩ := row
    have hrow := hrows _ (List.mem_cons_self ..)
    refine ih (fun row hmem => hrows row (List.mem_cons_of_mem _ hmem)) _ ?_
    cases slot with
    | none => exact hempty
    | some c => exact finds_insertIfNew hsize hrow hempty

theorem slots_of_readSlots {missing : Nat} {slots slots' : Array (Option Constant)}
    {c c' : Cursor} (h : readSlots slots missing c = .ok slots' c') :
    slots'.size = slots.size + missing ∧
      ∃ cs : List Constant, slots'.toList = slots.toList ++ cs.flatMap Constant.slots := by
  fun_induction readSlots slots missing generalizing c with
  | case1 slots =>
    obtain ⟨rfl, -⟩ := EStateM.pure_eq_ok.mp h
    exact ⟨rfl, [], (List.append_nil _).symm⟩
  | case2 slots missing ih ih' =>
    obtain ⟨entry, c₁, -, h⟩ := EStateM.bind_eq_ok.mp h
    split at h
    · rename_i hwide
      cases missing with
      | zero => exact absurd h EStateM.throw_ne_ok
      | succ missing =>
        obtain ⟨hsize, cs, hcs⟩ := ih entry h
        simp only [Array.size_push, Array.toList_push, List.append_assoc] at hsize hcs
        exact ⟨by omega, entry :: cs, by simpa [Constant.slots, hwide] using hcs⟩
    · rename_i hnarrow
      obtain ⟨hsize, cs, hcs⟩ := ih' entry h
      simp only [Array.size_push, Array.toList_push] at hsize hcs
      exact ⟨by omega, entry :: cs, by simpa [Constant.slots, hnarrow] using hcs⟩

theorem wellFormed_ofSlots {slots : Array (Option Constant)} (hzero : slots[0]? = some none)
    (hsize : slots.size ≤ capacity) : (ofSlots slots).WellFormed where
  zero := hzero
  size_le := hsize
  found h := get?_eq_some.mpr (finds_indexed (Nat.le_succ_of_le hsize) _ _ h)

/-- A pool that has been read is made of the slots that its bytes give, and has passed the check. -/
theorem exists_of_read {pool : ConstantPool} {c c' : Cursor} (h : read c = .ok pool c') :
    ∃ missing slots c₁ c₂, missing < capacity ∧ readSlots #[none] missing c₁ = .ok slots c₂ ∧
      pool = ofSlots slots ∧ (pool.entries.forM fun x => pool.check x.1) = .ok () := by
  obtain ⟨count, c₁, -, h⟩ := EStateM.bind_eq_ok.mp h
  have hcount := count.toNat_lt
  cases hmissing : count.toNat with
  | zero =>
    simp only [hmissing] at h
    exact absurd h EStateM.throw_ne_ok
  | succ missing =>
    simp only [hmissing] at h
    obtain ⟨slots, c₂, hslots, h⟩ := EStateM.bind_eq_ok.mp h
    cases hcheck : (ofSlots slots).entries.forM fun x => (ofSlots slots).check x.1 with
    | error e =>
      rw [hcheck] at h
      exact absurd h EStateM.throw_ne_ok
    | ok _ =>
      rw [hcheck] at h
      obtain ⟨rfl, -⟩ := EStateM.pure_eq_ok.mp h
      exact ⟨missing, slots, c₁, c₂, by simp only [capacity]; omega, hslots, rfl, hcheck⟩

/-- A pool that has been read is well formed. -/
theorem wellFormed_of_read {pool : ConstantPool} {c c' : Cursor}
    (h : read c = .ok pool c') : pool.WellFormed := by
  obtain ⟨missing, slots, c₁, c₂, hmissing, hslots, rfl, -⟩ := exists_of_read h
  obtain ⟨hsize, cs, hcs⟩ := slots_of_readSlots hslots
  have hsize' : slots.size = 1 + missing := hsize
  refine wellFormed_ofSlots ?_ (by omega)
  rw [← Array.getElem?_toList, hcs]
  rfl

end ConstantPool
end ClassPatch
