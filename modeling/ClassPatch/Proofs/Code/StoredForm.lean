import ClassPatch.Code.Decode
import ClassPatch.Proofs.Code.TableCodec

/-!
# The stored form of code attributes

The payload of a code attribute is read exactly if it consists of sizes, instructions, exception
table and attributes, where each attribute that is a table holds rows behind their count. Behind the
rows of a table for lines or variables more bytes may stand, and nothing looks at them.
-/

namespace ClassPatch

open Reader CodeWriter

variable {pool : ConstantPool} {method : MethodContext}

/-! ### Rows -/

/-- The bytes hold a row of the exception table of `length` bytes of code. -/
structure HandlerRow.Stored (length : Nat) (row : HandlerRow) (bytes : Bytes) : Prop where
  start_lt : row.start < row.stop
  stop_le : row.stop ≤ length
  target_lt : row.target < length
  bytes_eq : bytes = offsetBytes row.start ++ offsetBytes row.stop ++ offsetBytes row.target ++
    Word.encode row.catchType

/-- The bytes hold a row of the line table. -/
structure LineRow.Stored (row : LineRow) (bytes : Bytes) : Prop where
  start_le : row.start ≤ 65535
  bytes_eq : bytes = offsetBytes row.start ++ Word.encode row.number

/-- The bytes hold a row of one of the tables for variables. -/
structure VariableRow.Stored (row : VariableRow) (bytes : Bytes) : Prop where
  start_le_stop : row.start ≤ row.stop
  start_le : row.start ≤ 65535
  length_le : row.stop - row.start ≤ 65535
  bytes_eq : bytes = offsetBytes row.start ++ offsetBytes (row.stop - row.start) ++
    Word.encode row.name ++ Word.encode row.descriptor ++ Word.encode row.slot

namespace CodeWriter

theorem offsetBytes_toNat (word : UInt16) : offsetBytes word.toNat = Word.encode word := by
  rw [offsetBytes, UInt16.ofNat_toNat]

theorem length_offsetBytes (offset : Nat) : (offsetBytes offset).length = 2 := Word.length_encode _

end CodeWriter

theorem HandlerRow.exact_read {length : Nat} (hlength : length ≤ 65535) :
    Exact (read length) (Stored length) where
  takes := by
    refine takes_u16.bind fun start _ hstart => takes_u16.bind fun stop _ hstop => ?_
    refine takes_u16.bind fun target _ htarget => takes_u16.bind fun catchType _ hcatch => ?_
    split
    · rename_i hrange
      simp only [Bool.and_eq_true, decide_eq_true_eq] at hrange
      refine .pure ⟨hrange.1.1, hrange.1.2, hrange.2, ?_⟩
      rw [hstart, hstop, htarget, hcatch]
      simp only [offsetBytes_toNat, List.append_assoc, List.append_nil]
    · exact .fault _
  reads row bytes h pos back := by
    rw [h.bytes_eq]
    exact HandlerRow.reads row hlength h.start_lt h.stop_le h.target_lt pos back

theorem LineRow.exact_read : Exact read Stored where
  takes := by
    refine takes_u16.bind fun start _ hstart => takes_u16.bind fun number _ hnumber => ?_
    refine .pure ⟨Nat.le_of_lt_succ start.toNat_lt, ?_⟩
    rw [hstart, hnumber, offsetBytes_toNat, List.append_nil]
  reads row bytes h pos back := by
    rw [h.bytes_eq]
    exact LineRow.reads row h.start_le pos back

theorem VariableRow.exact_read : Exact read Stored where
  takes := by
    refine takes_u16.bind fun start _ hstart => takes_u16.bind fun length _ hlength => ?_
    refine takes_u16.bind fun name _ hname => takes_u16.bind fun descriptor _ hdescriptor => ?_
    refine takes_u16.bind fun slot _ hslot => .pure ?_
    have hrange : start.toNat + length.toNat - start.toNat = length.toNat :=
      Nat.add_sub_cancel_left ..
    refine ⟨Nat.le_add_right _ _, Nat.le_of_lt_succ start.toNat_lt, ?_, ?_⟩
    · rw [hrange]
      exact Nat.le_of_lt_succ length.toNat_lt
    · rw [hrange, hstart, hlength, hname, hdescriptor, hslot]
      simp only [offsetBytes_toNat, List.append_assoc, List.append_nil]
  reads row bytes h pos back := by
    rw [h.bytes_eq]
    exact VariableRow.reads row h.start_le_stop h.start_le h.length_le pos back

/-! ### Attributes -/

namespace CodeAttribute

/-- The payload of an attribute holds what has been read from it, and `surplus` behind that. -/
inductive Holds (pool : ConstantPool) (a : Attribute) : CodeAttribute → Bytes → Prop
  | lines {rows : List LineRow} {stored surplus : Bytes} (hname : pool.text a.name = .ok lineTable)
      (hrows : StoredRows LineRow.Stored rows stored) (hpayload : a.payload = stored ++ surplus) :
      Holds pool a (.lines rows) surplus
  | localVariables {rows : List VariableRow} {stored surplus : Bytes}
      (hname : pool.text a.name = .ok variableTable)
      (hrows : StoredRows VariableRow.Stored rows stored)
      (hpayload : a.payload = stored ++ surplus) : Holds pool a (.localVariables rows) surplus
  | localVariableTypes {rows : List VariableRow} {stored surplus : Bytes}
      (hname : pool.text a.name = .ok variableTypeTable)
      (hrows : StoredRows VariableRow.Stored rows stored)
      (hpayload : a.payload = stored ++ surplus) : Holds pool a (.localVariableTypes rows) surplus
  | stackMap (hname : pool.text a.name = .ok stackMapTable) : Holds pool a (.stackMap a.payload) []
  | other (hother : IsOther pool a) : Holds pool a (.other a) []

/-- A table is read as the rows that its payload holds, whatever stands behind them. -/
theorem rows_eq_ok {ρ : Type} {r : Reader ρ} {R : ρ → Bytes → Prop} (h : Exact r R)
    {wrap : List ρ → CodeAttribute} {payload : Bytes} {x : CodeAttribute} :
    wrap <$> (readRows r).parse payload = .ok x ↔ ∃ rows stored surplus, StoredRows R rows stored ∧
      payload = stored ++ surplus ∧ wrap rows = x := by
  rw [Except.map_eq_ok]
  constructor
  · rintro ⟨rows, hrows, hwrap⟩
    obtain ⟨stored, surplus, hpayload, hstored⟩ := h.readRows.parse_eq_ok.mp hrows
    exact ⟨rows, stored, surplus, hstored, hpayload, hwrap⟩
  · rintro ⟨rows, stored, surplus, hstored, hpayload, hwrap⟩
    exact ⟨rows, h.readRows.parse_eq_ok.mpr ⟨stored, surplus, hpayload, hstored⟩, hwrap⟩

/-- An attribute is read as what it holds, whatever its surplus is. -/
theorem ofAttribute_eq_ok {a : Attribute} {x : CodeAttribute} :
    ofAttribute pool a = .ok x ↔ ∃ surplus, Holds pool a x surplus := by
  constructor
  · intro h
    obtain ⟨name, hname, -⟩ := Except.bind_eq_ok.mp h
    by_cases hlines : name = lineTable
    · rw [ofAttribute_lineTable (hlines ▸ hname), rows_eq_ok LineRow.exact_read] at h
      obtain ⟨rows, stored, surplus, hstored, hpayload, rfl⟩ := h
      exact ⟨surplus, .lines (hlines ▸ hname) hstored hpayload⟩
    by_cases hvariables : name = variableTable
    · rw [ofAttribute_variableTable (hvariables ▸ hname), rows_eq_ok VariableRow.exact_read] at h
      obtain ⟨rows, stored, surplus, hstored, hpayload, rfl⟩ := h
      exact ⟨surplus, .localVariables (hvariables ▸ hname) hstored hpayload⟩
    by_cases htypes : name = variableTypeTable
    · rw [ofAttribute_variableTypeTable (htypes ▸ hname), rows_eq_ok VariableRow.exact_read] at h
      obtain ⟨rows, stored, surplus, hstored, hpayload, rfl⟩ := h
      exact ⟨surplus, .localVariableTypes (htypes ▸ hname) hstored hpayload⟩
    by_cases hmap : name = stackMapTable
    · rw [ofAttribute_stackMapTable (hmap ▸ hname)] at h
      obtain rfl := Except.ok.inj h
      exact ⟨[], .stackMap (hmap ▸ hname)⟩
    · have hother : IsOther pool a :=
        isOther_iff.mpr ⟨name, hname, by simp [hlines, hvariables, htypes, hmap]⟩
      obtain rfl := Except.ok.inj (hother.symm.trans h)
      exact ⟨[], .other hother⟩
  · rintro ⟨surplus, h⟩
    cases h with
    | lines hname hrows hpayload =>
      rw [ofAttribute_lineTable hname]
      exact (rows_eq_ok LineRow.exact_read).mpr ⟨_, _, _, hrows, hpayload, rfl⟩
    | localVariables hname hrows hpayload =>
      rw [ofAttribute_variableTable hname]
      exact (rows_eq_ok VariableRow.exact_read).mpr ⟨_, _, _, hrows, hpayload, rfl⟩
    | localVariableTypes hname hrows hpayload =>
      rw [ofAttribute_variableTypeTable hname]
      exact (rows_eq_ok VariableRow.exact_read).mpr ⟨_, _, _, hrows, hpayload, rfl⟩
    | stackMap hname => exact ofAttribute_stackMapTable hname
    | other hother => exact hother

/-- The attributes hold what is said, each with some surplus. -/
def AllHold (pool : ConstantPool) (attributes : List Attribute) (said : List CodeAttribute) :
    Prop :=
  List.Forall₂ (fun a x => ∃ surplus, Holds pool a x surplus) attributes said

theorem mapM_ofAttribute_eq_ok {attributes : List Attribute} {said : List CodeAttribute} :
    attributes.mapM (ofAttribute pool) = .ok said ↔ AllHold pool attributes said := by
  simp only [Except.mapM_eq_ok, ofAttribute_eq_ok, AllHold]

end CodeAttribute

/-! ### Payloads -/

namespace CodeListing

/-- The tables of a listing are what its attributes say. Of several stack maps it is the last
one. -/
structure Tabulates (listing : CodeListing) (said : List CodeAttribute) : Prop where
  lines : listing.lines = said.flatMap CodeAttribute.lineRows
  localVariables : listing.localVariables = said.flatMap CodeAttribute.variableRows
  localVariableTypes : listing.localVariableTypes = said.flatMap CodeAttribute.variableTypeRows
  stackMap : listing.stackMap = (said.filterMap CodeAttribute.stackMap?).getLast?
  attributes : listing.attributes = said.filterMap CodeAttribute.other?

/-- A payload with the sizes of a listing, in which the code, the exception table and the attributes
take the given bytes. -/
def payload (listing : CodeListing) (code handlers list : Bytes) : Bytes :=
  Word.encode listing.maxStack ++ (Word.encode listing.maxLocals ++
    (Word.encode (UInt32.ofNat code.length) ++ code ++ (handlers ++ list)))

/-- The bytes hold the parts of a listing. -/
structure Stored (pool : ConstantPool) (listing : CodeListing) (code handlers list : Bytes)
    (attributes : List Attribute) (said : List CodeAttribute) : Prop where
  length_eq : listing.length = code.length
  length_pos : 0 < code.length
  length_le : code.length ≤ maxCodeLength
  code_eq : Disassembly.ofBytes pool code = .ok listing.code
  handlers : StoredRows (HandlerRow.Stored code.length) listing.handlers handlers
  list : Attribute.encodeList attributes = .ok list
  holds : CodeAttribute.AllHold pool attributes said
  tables : listing.Tabulates said

variable {listing : CodeListing} {code handlers list : Bytes} {attributes : List Attribute}
  {said : List CodeAttribute}

theorem takes_read : Takes (read pool method) fun listing taken =>
    ∃ code handlers list attributes said, taken = listing.payload code handlers list ∧
      listing.Stored pool code handlers list attributes said := by
  refine takes_u16.bind fun maxStack _ hstack => takes_u16.bind fun maxLocals _ hlocals => ?_
  refine takes_sized32.bind fun code _ hcode => ?_
  dsimp only
  split
  · exact .fault_bind _
  · rename_i hlength
    simp only [Bool.or_eq_true, decide_eq_true_eq, not_or, Nat.not_lt] at hlength
    have hhandlers := (HandlerRow.exact_read hlength.2).readRows.takes
    refine takes_ofExcept.bind fun disassembly _ hdisassembly => ?_
    refine hhandlers.bind fun handlers stored hstored => ?_
    refine Attribute.takes_readList.bind fun attributes list hlist => ?_
    refine takes_ofExcept.bind fun said _ hsaid => takes_hasMore.bind_nil fun more => ?_
    split
    · exact .fault_bind _
    · refine .pure ⟨code, stored, list, attributes, said, ?bytes, ?parts⟩
      case parts =>
        exact ⟨rfl, Nat.pos_of_ne_zero hlength.1, hlength.2, hdisassembly.1, hstored, hlist,
          CodeAttribute.mapM_ofAttribute_eq_ok.mp hsaid.1, ⟨rfl, rfl, rfl, rfl, rfl⟩⟩
      case bytes =>
        rw [hstack, hlocals, hcode.1, hdisassembly.2, hsaid.2, List.append_nil, List.append_nil]
        rfl

theorem exhausts_read : Exhausts (read pool method) := by
  refine .bind fun maxStack => .bind fun maxLocals => .bind fun code => ?_
  dsimp only
  split
  · exact .fault_bind _
  · refine .bind fun disassembly => .bind fun handlers => .bind fun attributes =>
      .bind fun said => ?_
    exact .hasMore (.fault_bind _)

theorem Stored.reads (h : listing.Stored pool code handlers list attributes said) (pos : Nat) :
    Reads (read pool method) pos (listing.payload code handlers list) [] listing := by
  have hsize : code.length < UInt32.size := Nat.lt_of_le_of_lt h.length_le (by decide)
  have hlength : ¬(code.length = 0 || code.length > maxCodeLength) = true := by
    have hpos := h.length_pos
    have hle := h.length_le
    simp only [Bool.or_eq_true, decide_eq_true_eq]
    omega
  have hhandlers := (HandlerRow.exact_read h.length_le).readRows.reads _ _ h.handlers
  refine (reads_word listing.maxStack _ _).bind ((reads_word listing.maxLocals _ _).bind ?_)
  refine (reads_sized32 _ _ hsize).bind ?_
  dsimp only
  rw [if_neg hlength, h.code_eq]
  refine (reads_ofExcept _ _).bind_nil ((hhandlers _ _).bind ?_)
  refine (Attribute.reads_encodeList h.list _ _).bind_last ?_
  rw [CodeAttribute.mapM_ofAttribute_eq_ok.mpr h.holds]
  refine (reads_ofExcept _ _).bind_nil ((reads_hasMore _ _).bind_nil (.ite_neg (by simp) ?_))
  rw [← h.tables.lines, ← h.tables.localVariables, ← h.tables.localVariableTypes,
    ← h.tables.stackMap, ← h.tables.attributes, ← h.length_eq]
  exact .pure listing _ _

/-- A payload is read exactly if it has this form. -/
theorem parse_read_eq_ok {data : Bytes} : (read pool method).parse data = .ok listing ↔
    ∃ code handlers list attributes said, data = listing.payload code handlers list ∧
      listing.Stored pool code handlers list attributes said := by
  constructor
  · exact takes_read.of_parse exhausts_read
  · rintro ⟨code, handlers, list, attributes, said, rfl, h⟩
    exact (h.reads 0).parse

end CodeListing

end ClassPatch
