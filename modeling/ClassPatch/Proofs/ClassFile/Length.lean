import ClassPatch.ClassFile.Codec
import ClassPatch.Proofs.Bytes.Missing
import ClassPatch.Proofs.Evaluation

/-!
# Class files have one length

Every part of a class file says how long it is before it begins, or how many parts of its own it
has. So all of its readers are local, and only the end of the class looks at what is left. Of a byte
string that is read as a class, no proper prefix and no proper extension is read as a class: the one
is too short, and the other has bytes behind its class.
-/

namespace ClassPatch

open Reader

namespace Attribute

theorem local_read : Local read :=
  local_u16.bind fun _ => local_sized32.bind fun _ => .pure _

theorem local_readList : Local readList :=
  local_u16.bind fun _ => (local_ensure _).bind fun _ => local_times local_read _

end Attribute

namespace Member

theorem local_read : Local read :=
  local_u16.bind fun _ => local_u16.bind fun _ => local_u16.bind fun _ =>
    Attribute.local_readList.bind fun _ => .pure _

theorem local_readList : Local readList := local_u16.bind fun _ => local_times local_read _

end Member

namespace Constant

theorem local_readPayload (tag : UInt8) (offset : Nat) : Local (readPayload tag offset) := by
  rw [readPayload.eq_def]
  split
  case h_1 => exact local_sized16.map
  case h_8 | h_9 | h_10 | h_11 | h_12 | h_14 | h_15 =>
    exact .seq (.map (local_word _)) (local_word _)
  case h_18 => exact .fault _
  all_goals exact .map (local_word _)

theorem local_read : Local read :=
  local_position.bind fun offset => local_u8.bind fun tag => local_readPayload tag offset

end Constant

namespace ConstantPool

theorem local_readSlots (slots : Array (Option Constant)) (missing : Nat) :
    Local (readSlots slots missing) := by
  fun_induction readSlots slots missing with
  | case1 slots => exact .pure slots
  | case2 slots missing ih ih' =>
    refine Constant.local_read.bind fun c => .ite ?_ (ih' c)
    cases missing with
    | zero => exact .fault _
    | succ missing => exact ih c

/-- What is checked behind the entries concerns them alone. -/
theorem local_read : Local read := by
  refine local_u16.bind fun count => ?_
  dsimp only
  split
  · exact .fault _
  · refine (local_readSlots _ _).bind fun slots => ?_
    split
    · exact .pure _
    · exact .throw _

end ConstantPool

namespace ClassFile

theorem delimits_read : Delimits (fun count => .malformed (.classFile (.trailing count))) read := by
  refine .bind local_u32 fun word => .ite (.fault_bind _) ?_
  refine .bind local_u16 fun minor => .bind local_u16 fun major => ?_
  refine .bind ConstantPool.local_read fun pool => .bind local_u16 fun flags => ?_
  refine .bind local_u16 fun thisClass => .bind local_u16 fun superClass => ?_
  refine .bind local_u16List fun interfaces => .bind Member.local_readList fun fields => ?_
  refine .bind Member.local_readList fun methods => ?_
  exact .bind Attribute.local_readList fun attributes => .atEnd

variable {c : ClassFile} {bytes : Bytes}

/-- Bytes of a class are refused when some are cut off at the end, and when others are put behind
them. -/
theorem ofBytes_of_isPrefix (h : ofBytes bytes = .ok c) :
    (∀ short, short <+: bytes → short ≠ bytes → ofBytes short = .error .outOfBounds) ∧
    ∀ long, bytes <+: long → long ≠ bytes → ofBytes long =
      .error (.malformed (.classFile (.trailing (long.length - bytes.length)))) := by
  have hrefused {bytes : Bytes} {e : Error} (he : read.parse bytes = .error e) :
      ofBytes bytes = .error e := by
    rw [ofBytes, he]
    rfl
  obtain ⟨c', hread, -⟩ := Except.bind_eq_ok.mp h
  constructor
  · rintro short ⟨more, rfl⟩ hne
    have hmore : more ≠ [] := fun hnil => hne (by rw [hnil, List.append_nil])
    exact hrefused (delimits_read.parse_of_append hread hmore)
  · rintro long ⟨more, rfl⟩ hne
    have hmore : more ≠ [] := fun hnil => hne (by rw [hnil, List.append_nil])
    rw [List.length_append, Nat.add_sub_cancel_left]
    exact hrefused (delimits_read.parse_append hread hmore)

/-- A class with a wide constant, an interface, and a field that has an attribute. -/
private def fielded : ClassFile where
  version := ⟨52, 0⟩
  pool := .ofSlots #[none, some (.utf8 [65]), some (.classRef 1), some (.double 1), none]
  flags := ⟨33⟩
  thisClass := 2
  superClass := 0
  interfaces := [2]
  fields := [⟨⟨9⟩, 1, 1, [⟨1, [0, 3]⟩]⟩]
  methods := #[]
  attributes := []

/-- Cut off in the payload of its field, and with two more bytes. -/
theorem ofBytes_of_isPrefix_fielded :
    ∃ bytes, ofBytes bytes = .ok fielded ∧ ofBytes (bytes.take 53) = .error .outOfBounds ∧
      ofBytes (bytes ++ [0, 0]) = .error (.malformed (.classFile (.trailing 2))) := by
  have h : ofBytes [0xCA, 0xFE, 0xBA, 0xBE, 0, 0, 0, 52, 0, 5, 1, 0, 1, 65, 7, 0, 1,
      6, 0, 0, 0, 0, 0, 0, 0, 1, 0, 33, 0, 2, 0, 0, 0, 1, 0, 2, 0, 1,
      0, 9, 0, 1, 0, 1, 0, 1, 0, 1, 0, 0, 0, 2, 0, 3, 0, 0, 0, 0] = .ok fielded := by
    cbv
  obtain ⟨hshort, hlong⟩ := ofBytes_of_isPrefix h
  exact ⟨_, h, hshort _ (List.take_prefix 53 _) (by decide),
    hlong _ (List.prefix_append _ [0, 0]) (by decide)⟩

end ClassFile
end ClassPatch
