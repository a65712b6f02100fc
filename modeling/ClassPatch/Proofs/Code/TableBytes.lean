import ClassPatch.Proofs.Code.Decodable
import ClassPatch.Proofs.Code.StoredForm
import ClassPatch.Proofs.Evaluation

/-!
# Bytes of tables that are lost

Bytes behind the rows of a table for lines or variables do not matter: whatever they are, the same
body is decoded, and they are lost when it is written. A stack map is read to its end, but of
several only the last one is looked at.
-/

namespace ClassPatch

open Reader CodeWriter

variable {pool : ConstantPool} {method : MethodContext}

/-! ### Sizes -/

theorem LineRow.Stored.length_eq {row : LineRow} {bytes : Bytes} (h : row.Stored bytes) :
    bytes.length = 4 := by
  rw [h.bytes_eq, List.length_append, length_offsetBytes, Word.length_encode]
  rfl

theorem VariableRow.Stored.length_eq {row : VariableRow} {bytes : Bytes} (h : row.Stored bytes) :
    bytes.length = 10 := by
  rw [h.bytes_eq]
  simp only [List.length_append, length_offsetBytes, Word.length_encode]
  rfl

namespace CodeAttribute

/-- The number of bytes that hold what an attribute says. -/
def size : CodeAttribute → Nat
  | .lines rows => 2 + 4 * rows.length
  | .localVariables rows => 2 + 10 * rows.length
  | .localVariableTypes rows => 2 + 10 * rows.length
  | .stackMap data => data.length
  | .other a => a.payload.length

/-- The surplus is what makes an attribute longer than its count and rows. -/
theorem Holds.length_payload {a : Attribute} {x : CodeAttribute} {surplus : Bytes}
    (h : Holds pool a x surplus) : a.payload.length = x.size + surplus.length := by
  have hvariables {rows : List VariableRow} {stored : Bytes}
      (hrows : StoredRows VariableRow.Stored rows stored) : stored.length = 2 + 10 * rows.length :=
    hrows.length_eq fun _ _ hrow => hrow.length_eq
  cases h with
  | lines _ hrows hpayload =>
    have hlines := hrows.length_eq fun _ _ hrow => hrow.length_eq
    rw [hpayload, List.length_append, hlines, size]
  | localVariables _ hrows hpayload =>
    rw [hpayload, List.length_append, hvariables hrows, size]
  | localVariableTypes _ hrows hpayload =>
    rw [hpayload, List.length_append, hvariables hrows, size]
  | stackMap | other => rfl

/-- What is named a line table holds lines. -/
theorem Holds.exists_lines {a : Attribute} {x : CodeAttribute} {surplus : Bytes}
    (h : Holds pool a x surplus) (hname : pool.text a.name = .ok lineTable) :
    ∃ rows, x = .lines rows := by
  have hsame {name : String} (hname' : pool.text a.name = .ok name) : lineTable = name :=
    Except.ok.inj (hname.symm.trans hname')
  cases h with
  | lines => exact ⟨_, rfl⟩
  | localVariables hname' => exact absurd (hsame hname') (by decide)
  | localVariableTypes hname' => exact absurd (hsame hname') (by decide)
  | stackMap hname' => exact absurd (hsame hname') (by decide)
  | other hother =>
    obtain ⟨name, hname', hnot⟩ := isOther_iff.mp hother
    exact absurd (hsame hname' ▸ List.mem_cons_self) hnot

end CodeAttribute

/-! ### Stack maps -/

namespace StackMap

/-- A stack map is read to its end: no byte is left behind its count and its frames. -/
def ReadWhole (pool : ConstantPool) (initial : Frame) (data : Bytes) : Prop :=
  ∃ frames c offsets, StackMap.read pool initial CodeListing.numberOffset
    (Cursor.ofBytes data, #[]) = .ok frames (c, offsets) ∧ c.rest = []

theorem rest_of_read {σ : Type} {initial : Frame} {labelAt : Nat → StateM σ Label} {c c' : Cursor}
    {s s' : σ} {frames : List (Nat × Frame)}
    (h : StackMap.read pool initial labelAt (c, s) = .ok frames (c', s')) : c'.rest = [] := by
  obtain ⟨count, s₁, -, h⟩ := EStateM.bind_eq_ok.mp h
  obtain ⟨⟨base, found⟩, ⟨c₂, s₂⟩, -, h⟩ := EStateM.bind_eq_ok.mp h
  obtain ⟨more, s₃, hmore, h⟩ := EStateM.bind_eq_ok.mp h
  obtain ⟨rfl, rfl⟩ := EStateM.Result.ok.inj hmore
  split at h
  · obtain ⟨_, _, hthrow, -⟩ := EStateM.bind_eq_ok.mp h
    exact absurd hthrow EStateM.throw_ne_ok
  · rename_i hnone
    obtain ⟨-, hstate⟩ := EStateM.pure_eq_ok.mp h
    obtain ⟨rfl, -⟩ := Prod.mk.inj hstate
    exact Cursor.rest_of_hasMore (Bool.eq_false_iff.mpr hnone)

end StackMap

/-- The stack map of a listing that becomes a body has been read to its end. -/
theorem CodeListing.readWhole_of_body {listing : CodeListing} {body : Body} {data : Bytes}
    (h : listing.body pool method = .ok body) (hdata : listing.stackMap = some data) :
    ∃ initial, Frame.entry method = .ok initial ∧ StackMap.ReadWhole pool initial data := by
  obtain ⟨initial, frames, offsets, table, hdecodes⟩ := CodeListing.body_eq_ok.mp h
  have hframes := hdecodes.unplaced
  rw [CodeListing.frames, hdata] at hframes
  obtain ⟨found, hfound, -⟩ := Except.bind_eq_ok.mp hframes
  split at hfound
  · rename_i found' c state hread
    exact ⟨initial, hdecodes.entry, found', c, state, hread, StackMap.rest_of_read hread⟩
  · cases hfound

/-- In a payload that is accepted every table for lines or variables holds its count and its rows,
and perhaps a surplus, while the last stack map is read to its end. Every other payload that holds
the same rows, whatever its surplus is, is decoded to the same body. -/
theorem Body.surplus_of_decode {data : Bytes} {body : Body}
    (h : Body.decode data pool method = .ok body) :
    ∃ (listing : CodeListing) (code handlers list : Bytes) (attributes : List Attribute)
      (said : List CodeAttribute), data = listing.payload code handlers list ∧
        listing.Stored pool code handlers list attributes said ∧
        (∀ map, listing.stackMap = some map →
          ∃ initial, Frame.entry method = .ok initial ∧ StackMap.ReadWhole pool initial map) ∧
        ∀ code' handlers' list' attributes' said',
          listing.Stored pool code' handlers' list' attributes' said' →
            Body.decode (listing.payload code' handlers' list') pool method = .ok body := by
  obtain ⟨listing, hread, -, hbody⟩ := Body.exists_listing h
  obtain ⟨code, handlers, list, attributes, said, hdata, hstored⟩ :=
    CodeListing.parse_read_eq_ok.mp hread
  refine ⟨listing, code, handlers, list, attributes, said, hdata, hstored,
    fun map hmap => CodeListing.readWhole_of_body hbody hmap, ?_⟩
  intro code' handlers' list' attributes' said' hstored'
  exact Except.bind_eq_ok.mpr ⟨listing, CodeListing.parse_read_eq_ok.mpr
    ⟨code', handlers', list', attributes', said', rfl, hstored'⟩, hbody⟩

/-- A pool that names line tables. -/
private def namesOfLines : ConstantPool := .ofSlots #[none,
  some (.utf8 [76, 105, 110, 101, 78, 117, 109, 98, 101, 114, 84, 97, 98, 108, 101])]

/-- Two instructions with two line tables, behind the rows of which are two bytes and one byte. -/
theorem Body.surplus_of_decode_twoTables :
    let data : Bytes := [0, 0, 0, 0, 0, 0, 0, 2, 0, 177, 0, 0, 0, 2,
      0, 1, 0, 0, 0, 8, 0, 1, 0, 0, 0, 7, 254, 255, 0, 1, 0, 0, 0, 7, 0, 1, 0, 1, 0, 8, 255]
    let method : MethodContext := ⟨"A", "m", "()V", true, 52⟩
    ∃ body, Body.decode data namesOfLines method = .ok body ∧
      ∃ (listing : CodeListing) (code handlers list : Bytes) (attributes : List Attribute)
        (said : List CodeAttribute), data = listing.payload code handlers list ∧
          listing.Stored namesOfLines code handlers list attributes said ∧
          (∀ map, listing.stackMap = some map →
            ∃ initial, Frame.entry method = .ok initial ∧
              StackMap.ReadWhole namesOfLines initial map) ∧
          ∀ code' handlers' list' attributes' said',
            listing.Stored namesOfLines code' handlers' list' attributes' said' →
              Body.decode (listing.payload code' handlers' list') namesOfLines method =
                .ok body := by
  intro data method
  have hdecoded : Body.decode data namesOfLines method = .ok
      ⟨0, 0, [.label ⟨0⟩, .instr (.plain Opcode.nop), .label ⟨1⟩, .instr (.leave none)], [],
        [⟨⟨0⟩, 7⟩, ⟨⟨1⟩, 8⟩], [], [], [], [], ⟨2⟩⟩ := by
    cbv
  exact ⟨_, hdecoded, Body.surplus_of_decode hdecoded⟩

/-- A line table with one row and a byte behind it is accepted, and it is written without that
byte. -/
theorem Body.not_consumed_of_decode :
    let method : MethodContext := ⟨"A", "m", "()V", true, 52⟩
    let head : Bytes := [0, 0, 0, 0, 0, 0, 0, 1, 177, 0, 0]
    let table : Attribute := ⟨1, [0, 1, 0, 0, 0, 7, 255]⟩
    ∃ list body code, Attribute.encodeList [table] = .ok list ∧
      Body.decode (head ++ list) namesOfLines method = .ok body ∧
      (∀ x, ¬CodeAttribute.Holds namesOfLines table x []) ∧
      body.encode method namesOfLines = .ok code namesOfLines ∧
      Attribute.encodeList [⟨1, [0, 1, 0, 0, 0, 7]⟩] = .ok (code.drop head.length) := by
  intro method head table
  have hlist :
      Attribute.encodeList [table] = .ok [0, 1, 0, 1, 0, 0, 0, 7, 0, 1, 0, 0, 0, 7, 255] := by
    cbv
  have hdecoded : Body.decode (head ++ [0, 1, 0, 1, 0, 0, 0, 7, 0, 1, 0, 0, 0, 7, 255]) namesOfLines
      method = .ok
        ⟨0, 0, [.label ⟨0⟩, .instr (.leave none)], [], [⟨⟨0⟩, 7⟩], [], [], [], [], ⟨1⟩⟩ := by
    cbv
  have hname : namesOfLines.text table.name = .ok CodeAttribute.lineTable := by cbv
  refine ⟨_, _, [0, 0, 0, 0, 0, 0, 0, 1, 177, 0, 0, 0, 1, 0, 1, 0, 0, 0, 6, 0, 1, 0, 0, 0, 7],
    hlist, hdecoded, fun x hx => ?_, by cbv, by cbv⟩
  obtain ⟨rows, rfl⟩ := hx.exists_lines hname
  have hseven : 7 = 2 + 4 * rows.length + 0 := hx.length_payload
  omega

end ClassPatch
