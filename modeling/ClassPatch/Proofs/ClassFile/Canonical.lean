import ClassPatch.ClassFile.Codec
import ClassPatch.Proofs.Code.TableCodec
import ClassPatch.Proofs.ConstantPool.Codec
import ClassPatch.Proofs.Evaluation

/-!
# Class files are preserved

Every byte string that is read as a class is the stored form of that class: the format leaves no
choice that reading would forget. The readers are followed one by one, each with the stored form of
what it gives as the bytes that it has taken.
-/

namespace ClassPatch

open Reader

/-! ### Constants -/

namespace Constant

/-- An entry that holds one number. -/
theorem takes_payload {α : Type} [Word α] {tag : UInt8} {f : α → Constant}
    (hf : ∀ x, (f x).encode = .ok (tag :: Word.encode x)) :
    Takes (f <$> word α) fun c taken => c.encode = .ok (tag :: taken) :=
  .map ((takes_word α).mono fun x _ htaken => htaken ▸ hf x)

/-- An entry that holds two numbers. -/
theorem takes_payload₂ {α β : Type} [Word α] [Word β] {tag : UInt8} {f : α → β → Constant}
    (hf : ∀ x y, (f x y).encode = .ok (tag :: (Word.encode x ++ Word.encode y))) :
    Takes (f <$> word α <*> word β) fun c taken => c.encode = .ok (tag :: taken) := by
  have hfirst : Takes (f <$> word α) fun g taken => ∃ x, g = f x ∧ taken = Word.encode x :=
    .map ((takes_word α).mono fun x _ htaken => ⟨x, rfl, htaken⟩)
  refine hfirst.seq (takes_word β) ?_
  rintro _ _ y _ ⟨x, rfl, rfl⟩ rfl
  exact hf x y

/-- What is read behind a tag is stored behind that tag. -/
theorem takes_readPayload (tag : UInt8) (offset : Nat) :
    Takes (readPayload tag offset) fun c taken => c.encode = .ok (tag :: taken) := by
  unfold readPayload
  split
  case h_1 =>
    refine .map (takes_sized16.mono fun bytes taken h => ?_)
    rw [encode, if_pos h.2, h.1]
    rfl
  case h_8 | h_9 | h_10 | h_11 | h_12 | h_14 | h_15 => exact takes_payload₂ fun _ _ => rfl
  case h_18 => exact .fault _
  all_goals exact takes_payload fun _ => rfl

theorem takes_read : Takes read fun c taken => c.encode = .ok taken :=
  takes_position.bind_nil fun offset =>
    takes_u8.bind fun tag _ htag => htag ▸ takes_readPayload tag offset

end Constant

namespace Member

theorem takes_read : Takes read fun m taken => m.encode = .ok taken := by
  refine takes_u16.bind fun flags taken hflags => ?_
  refine takes_u16.bind fun name taken' hname => ?_
  refine takes_u16.bind fun descriptor taken'' hdescriptor => ?_
  refine Attribute.takes_readList.bind fun attributes taken''' hattributes => .pure ?_
  simp [encode, hattributes, hflags, hname, hdescriptor]

theorem takes_readList (limit : Nat → Limit) :
    Takes readList fun ms taken => encodeList limit ms = .ok taken := by
  refine takes_u16.bind fun count taken hcount => ?_
  refine (takes_times takes_read _).mono fun ms taken' h => ?_
  obtain ⟨hlength, rows, hrows, rfl⟩ := h
  rw [hcount]
  exact encode_counted _ hlength hrows

end Member

/-! ### Pools -/

namespace ConstantPool

/-- The entries that have been read fill the slots behind those that were there. -/
theorem takes_readSlots (slots : Array (Option Constant)) (missing : Nat) :
    Takes (readSlots slots missing) fun slots' taken =>
      slots'.size = slots.size + missing ∧
      ∃ cs rows, slots'.toList = slots.toList ++ cs.flatMap Constant.slots ∧
        List.Forall₂ (fun c row => c.encode = .ok row) cs rows ∧ taken = rows.flatten := by
  fun_induction readSlots slots missing with
  | case1 slots => exact .pure ⟨rfl, [], [], by simp, .nil, rfl⟩
  | case2 slots missing ih ih' =>
    refine Constant.takes_read.bind fun c taken hc => ?_
    split
    · rename_i hwide
      cases missing with
      | zero => exact .fault _
      | succ missing =>
        refine (ih c).mono fun slots' taken' h => ?_
        obtain ⟨hsize, cs, rows, hslots, hrows, rfl⟩ := h
        simp only [Array.size_push, Array.toList_push, List.append_assoc] at hsize hslots
        refine ⟨by omega, c :: cs, taken :: rows, ?_, .cons hc hrows, rfl⟩
        simp [hslots, Constant.slots, hwide]
    · rename_i hnarrow
      refine (ih' c).mono fun slots' taken' h => ?_
      obtain ⟨hsize, cs, rows, hslots, hrows, rfl⟩ := h
      simp only [Array.size_push, Array.toList_push, List.append_assoc] at hsize hslots
      refine ⟨by omega, c :: cs, taken :: rows, ?_, .cons hc hrows, rfl⟩
      simp [hslots, Constant.slots, hnarrow]

/-- Pools whose slots are those of some constants are stored as these, behind their size. -/
theorem encode_of_slots {p : ConstantPool} {cs : List Constant} {rows : List Bytes}
    {count : UInt16} (hsize : p.size = count.toNat)
    (hslots : p.slots.toList = none :: cs.flatMap Constant.slots)
    (hrows : List.Forall₂ (fun c row => c.encode = .ok row) cs rows) :
    p.encode = .ok (Word.encode count ++ rows.flatten) := by
  have hcount := count.toNat_lt
  have hentries : p.entries.mapM (fun x => x.1.encode) = .ok rows := by
    rw [← map_entries_of_slots hslots, List.forall₂_map_left_iff] at hrows
    exact Except.mapM_eq_ok.mpr hrows
  rw [encode, if_pos (by omega), hsize, UInt16.ofNat_toNat]
  exact Except.bind_eq_ok.mpr ⟨rows, hentries, rfl⟩

theorem takes_read : Takes read fun p taken => p.encode = .ok taken := by
  refine takes_u16.bind fun count taken hcount => ?_
  dsimp only
  split
  · exact .fault _
  · rename_i missing hmissing
    refine (takes_readSlots #[none] missing).bind fun slots taken' h => ?_
    obtain ⟨hsize, cs, rows, hslots, hrows, rfl⟩ := h
    have hcount' : slots.size = count.toNat := by
      rw [hsize, hmissing, Nat.add_comm]
      rfl
    split
    · refine .pure ?_
      rw [List.append_nil, hcount]
      exact encode_of_slots hcount' hslots hrows
    · exact .throw _

end ConstantPool

/-! ### Classes -/

namespace ClassFile

theorem takes_u16List : Takes u16List fun is taken => encodeInterfaces is = .ok taken := by
  refine takes_u16.bind fun count taken hcount => (takes_ensure _).bind_nil fun _ => ?_
  refine (takes_times takes_u16 _).mono fun is taken' h => ?_
  obtain ⟨hlength, rows, hrows, rfl⟩ := h
  have hbound := count.toNat_lt
  have hflatten : is.map (fun index => Word.encode index) = rows := by
    rw [← List.forall₂_eq_eq_eq, List.forall₂_map_left_iff]
    exact hrows.imp fun _ _ hrow => hrow.symm
  rw [encodeInterfaces, if_pos (by omega), hlength, UInt16.ofNat_toNat, hcount, List.flatMap_def,
    hflatten]

/-- The bytes that a class has been read from are its stored form. -/
theorem takes_read : Takes read fun c taken => c.toBytes = .ok taken := by
  refine takes_u32.bind fun word taken hword => ?_
  split
  · exact .fault_bind _
  · rename_i hmagic
    refine takes_u16.bind fun minor _ hminor => ?_
    refine takes_u16.bind fun major _ hmajor => ?_
    refine ConstantPool.takes_read.bind fun pool _ hpool => ?_
    refine takes_u16.bind fun flags _ hflags => ?_
    refine takes_u16.bind fun thisClass _ hthis => ?_
    refine takes_u16.bind fun superClass _ hsuper => ?_
    refine takes_u16List.bind fun interfaces _ hinterfaces => ?_
    refine (Member.takes_readList .fields).bind fun fields _ hfields => ?_
    refine (Member.takes_readList .methods).bind fun methods _ hmethods => ?_
    refine Attribute.takes_readList.bind fun attributes _ hattributes => ?_
    refine takes_hasMore.bind_nil fun more => ?_
    dsimp only
    split
    · exact takes_remaining.bind_nil fun _ => .fault_bind _
    · refine .pure ?_
      obtain rfl := not_ne_iff.mp hmagic
      refine Except.bind_eq_ok.mpr ⟨_, hpool, ?_⟩
      refine Except.bind_eq_ok.mpr ⟨_, hinterfaces, ?_⟩
      refine Except.bind_eq_ok.mpr ⟨_, hfields, ?_⟩
      refine Except.bind_eq_ok.mpr ⟨_, hmethods, ?_⟩
      refine Except.bind_eq_ok.mpr ⟨_, hattributes, ?_⟩
      rw [hword, hminor, hmajor, hflags, hthis, hsuper, Except.pure_eq_ok]
      simp only [List.append_assoc, List.append_nil]

/-- Nothing is left behind a class. -/
theorem exhausts_read : Exhausts read := by
  refine .bind fun word => ?_
  split
  · exact .fault_bind _
  · refine .bind fun minor => .bind fun major => .bind fun pool => ?_
    refine .bind fun flags => .bind fun thisClass => .bind fun superClass => ?_
    refine .bind fun interfaces => .bind fun fields => .bind fun methods => ?_
    exact .bind fun attributes => .hasMore (.bind fun _ => .fault_bind _)

variable {c : ClassFile} {bytes : Bytes}

/-- What has been read is stored as the bytes that it has been read from. -/
theorem toBytes_of_ofBytes (h : ofBytes bytes = .ok c) : c.toBytes = .ok bytes := by
  obtain ⟨c', hread, h⟩ := Except.bind_eq_ok.mp h
  obtain ⟨-, h⟩ := Except.check_bind_eq_ok.mp h
  obtain rfl := Except.pure_eq_ok.mp h
  exact takes_read.of_parse exhausts_read hread

/-- A constant in two indices, and a method with an attribute and a flag of its own. -/
private def marked : ClassFile where
  version := ⟨52, 0⟩
  pool := .ofSlots #[none, some (.utf8 [65]), some (.classRef 1), some (.long 9), none]
  flags := ⟨33⟩
  thisClass := 2
  superClass := 0
  interfaces := [2]
  fields := []
  methods := #[⟨⟨0x8001⟩, 1, 1, [⟨1, [7, 7]⟩]⟩]
  attributes := []

theorem toBytes_of_ofBytes_marked :
    ∃ bytes, ofBytes bytes = .ok marked ∧ marked.toBytes = .ok bytes := by
  have h : ofBytes [0xCA, 0xFE, 0xBA, 0xBE, 0, 0, 0, 52, 0, 5, 1, 0, 1, 65, 7, 0, 1,
      5, 0, 0, 0, 0, 0, 0, 0, 9, 0, 33, 0, 2, 0, 0, 0, 1, 0, 2, 0, 0, 0, 1,
      0x80, 1, 0, 1, 0, 1, 0, 1, 0, 1, 0, 0, 0, 2, 7, 7, 0, 0] = .ok marked := by
    cbv
  exact ⟨_, h, toBytes_of_ofBytes h⟩

end ClassFile
end ClassPatch
