import ClassPatch.Proofs.Bytes.Reading
import ClassPatch.Proofs.ConstantPool.Interning

/-!
# Pools are read back

A pool is sound if its slots are those of a list of constants, each in as many indices as it takes,
and all references among them have the right kinds. A pool that has been read is sound, and adding
a constant whose references fit keeps it so. What is written of a sound pool is read back with the
same slots.
-/

namespace ClassPatch

open PoolM Reader

namespace Constant

/-- What follows the tag is read back. -/
theorem reads_payload {c : Constant} (htext : ∀ bytes, c = .utf8 bytes → bytes.length ≤ 65535)
    (offset pos : Nat) (back : Bytes) : Reads (readPayload c.tag offset) pos c.payload back c := by
  cases c with
  | utf8 bytes => exact (reads_sized16 pos back (Nat.lt_succ_of_le (htext bytes rfl))).map
  | member kind owner signature =>
    cases kind <;> exact (reads_word owner pos _).map.seq (reads_word signature _ back)
  | nameAndType first second | dynamic first second | invokeDynamic first second =>
    exact (reads_word first pos _).map.seq (reads_word second _ back)
  | methodHandle kind reference =>
    exact (reads_word kind pos _).map.seq (reads_word reference _ back)
  | integer value | float value | long value | double value | classRef value | string value
  | methodType value | moduleName value | packageName value => exact (reads_word value pos back).map

theorem encode_eq_ok {c : Constant} {bytes : Bytes} (h : c.encode = .ok bytes) :
    bytes = c.tag :: c.payload ∧ ∀ text, c = .utf8 text → text.length ≤ 65535 := by
  cases c with
  | utf8 text =>
    rw [encode] at h
    split at h
    · rename_i hlength
      refine ⟨(Except.ok.inj h).symm, ?_⟩
      rintro _ ⟨⟩
      exact hlength
    · cases h
  | _ => exact ⟨(Except.ok.inj h).symm, nofun⟩

theorem reads_encode {c : Constant} {bytes : Bytes} (h : c.encode = .ok bytes) (pos : Nat)
    (back : Bytes) : Reads read pos bytes back c := by
  obtain ⟨rfl, htext⟩ := encode_eq_ok h
  exact (reads_position pos _).bind_nil (Reads.u8_bind (reads_payload htext _ _ _))

end Constant

namespace ConstantPool

/-- The pool holds these constants, in order, and all references among them fit. -/
structure Holds (p : ConstantPool) (cs : List Constant) : Prop where
  slots : p.slots.toList = none :: cs.flatMap Constant.slots
  check : ∀ c ∈ cs, p.check c = .ok ()

/-- The pool is the form of some list of constants. -/
def Sound (p : ConstantPool) : Prop := ∃ cs, p.Holds cs

variable {p : ConstantPool} {cs : List Constant}

/-- The constants are all that stands in their slots. -/
theorem filterMap_slots (cs : List Constant) : (cs.flatMap Constant.slots).filterMap id = cs := by
  induction cs with
  | nil => rfl
  | cons c cs ih =>
    have hc : c.slots.filterMap id = [c] := by
      rw [Constant.slots]
      split <;> rfl
    rw [List.flatMap_cons, List.filterMap_append, hc, ih, List.singleton_append]

theorem map_entries (p : ConstantPool) :
    p.entries.map Prod.fst = p.slots.toList.filterMap id := by
  have hrow (row : Option Constant × Nat) : (row.1.map (·, row.2)).map Prod.fst = row.1 := by
    cases row.1 <;> rfl
  calc p.entries.map Prod.fst
      = p.slots.toList.zipIdx.filterMap Prod.fst := by
        rw [entries, List.map_filterMap]
        exact List.filterMap_congr fun row _ => hrow row
    _ = (p.slots.toList.zipIdx.map Prod.fst).filterMap id := by
        rw [List.filterMap_map, Function.id_comp]
    _ = p.slots.toList.filterMap id := by rw [List.zipIdx_map_fst]

theorem map_entries_of_slots (h : p.slots.toList = none :: cs.flatMap Constant.slots) :
    p.entries.map Prod.fst = cs := by
  rw [map_entries, h]
  exact filterMap_slots cs

/-- All references fit if the check of the whole pool finds nothing. -/
theorem forM_entries (h : p.slots.toList = none :: cs.flatMap Constant.slots) :
    (p.entries.forM fun x => p.check x.1) = .ok () ↔ ∀ c ∈ cs, p.check c = .ok () := by
  rw [Except.forM_eq_ok, ← map_entries_of_slots h, List.forall_mem_map]

/-- What a pool has been read from holds constants whose references fit. -/
theorem sound_of_read {c c' : Cursor} (h : read c = .ok p c') : p.Sound := by
  obtain ⟨missing, slots, c₁, c₂, -, hslots, rfl, hcheck⟩ := exists_of_read h
  obtain ⟨-, cs, hcs⟩ := slots_of_readSlots hslots
  exact ⟨cs, hcs, (forM_entries hcs).mp hcheck⟩

/-- A pool stays sound when a constant is added whose references fit. -/
theorem lasting_sound : Lasting Sound := by
  rintro p c ⟨cs, hslots, hcheck⟩ hc
  refine ⟨cs ++ [c], ?_, ?_⟩
  · rw [toList_slots_appended, hslots, List.flatMap_append, List.flatMap_singleton,
      List.cons_append]
  · intro d hd
    apply check_of_isPrefix (slots_appended p c)
    rw [List.mem_append, List.mem_singleton] at hd
    obtain hd | rfl := hd
    · exact hcheck d hd
    · exact hc

/-! ### Reading a pool back -/

/-- The constants are read back into their slots. -/
theorem reads_readSlots {rows : List Bytes}
    (h : List.Forall₂ (fun c row => c.encode = .ok row) cs rows)
    (slots : Array (Option Constant)) (pos : Nat) (back : Bytes) :
    Reads (readSlots slots (cs.flatMap Constant.slots).length) pos rows.flatten back
      (slots ++ (cs.flatMap Constant.slots).toArray) := by
  induction h generalizing slots pos with
  | nil =>
    rw [List.flatMap_nil, List.length_nil, readSlots, Array.append_empty]
    exact .pure _ _ _
  | @cons c row cs rows hrow _ ih =>
    have hread := Constant.reads_encode hrow pos (rows.flatten ++ back)
    rw [List.flatMap_cons, List.flatten_cons, Constant.slots]
    by_cases hwide : c.isWide
    · have hslots := ih ((slots.push (some c)).push none) (pos + row.length)
      rw [if_pos hwide]
      refine hread.bind ?_
      rw [if_pos hwide]
      simpa using hslots
    · have hslots := ih (slots.push (some c)) (pos + row.length)
      rw [if_neg hwide, List.singleton_append, List.length_cons, readSlots]
      refine hread.bind ?_
      rw [if_neg hwide]
      simpa using hslots

/-- A sound pool is read back with the same slots. -/
theorem reads_encode (hp : p.Sound) {bytes : Bytes} (h : p.encode = .ok bytes) (pos : Nat)
    (back : Bytes) : Reads read pos bytes back (ofSlots p.slots) := by
  obtain ⟨cs, hslots, hcheck⟩ := hp
  have hsize : p.size = (cs.flatMap Constant.slots).length + 1 := by
    rw [size, ← Array.length_toList, hslots, List.length_cons]
  rw [encode] at h
  split at h
  · rename_i hroom
    obtain ⟨rows, hrows, h⟩ := Except.bind_eq_ok.mp h
    obtain rfl := Except.pure_eq_ok.mp h
    replace hrows : List.Forall₂ (fun c row => c.encode = .ok row) cs rows := by
      rw [← map_entries_of_slots hslots, List.forall₂_map_left_iff]
      exact Except.mapM_eq_ok.mp hrows
    have hread := reads_readSlots hrows #[none] (pos + 2) back
    have hback : #[none] ++ (cs.flatMap Constant.slots).toArray = p.slots := by
      rw [← Array.toList_inj, hslots]
      simp
    rw [hback] at hread
    refine (reads_word _ pos _).bind ?_
    rw [UInt16.toNat_ofNat_of_lt' (Nat.lt_succ_of_le hroom), hsize]
    refine hread.bind_last ?_
    have hfits : ((ofSlots p.slots).entries.forM fun x => (ofSlots p.slots).check x.1) = .ok () :=
      (forM_entries hslots).mpr hcheck
    dsimp only
    rw [hfits]
    exact .pure _ _ _
  · exact absurd h Except.throw_ne_ok

end ConstantPool
end ClassPatch
