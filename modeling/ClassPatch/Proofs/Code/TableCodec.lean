import ClassPatch.Proofs.Bytes.Taking
import ClassPatch.Proofs.Code.CodeBytes

/-!
# Tables are read back

The rows of the exception table and of the tables for lines and variables are read as they have been
written, and so are the attributes that hold them. What has been read as a list of attributes is
written as the same bytes.
-/

namespace ClassPatch

open PoolM Reader

/-! ### Counted lists -/

/-- The stored form of a list is the count that stood in front of it and the stored elements. -/
theorem encode_counted {α : Type} {f : α → Except Error Bytes} {xs : List α} {rows : List Bytes}
    {count : UInt16} (e : Error) (hlength : xs.length = count.toNat)
    (hrows : List.Forall₂ (fun x row => f x = .ok row) xs rows) :
    (if xs.length ≤ 65535 then do
        let encoded ← xs.mapM f
        return Word.encode (UInt16.ofNat xs.length) ++ encoded.flatten
      else throw e) = .ok (Word.encode count ++ rows.flatten) := by
  have hcount := count.toNat_lt
  rw [if_pos (by omega), Except.mapM_eq_ok.mpr hrows, hlength, UInt16.ofNat_toNat]
  rfl

/-! ### Attributes -/

namespace Attribute

theorem takes_read : Takes read fun a taken => a.encode = .ok taken := by
  refine takes_u16.bind fun name taken hname => ?_
  refine takes_sized32.bind fun payload taken' hpayload => .pure ?_
  rw [encode, if_pos hpayload.2, hname, hpayload.1]
  simp

theorem takes_readList : Takes readList fun as taken => encodeList as = .ok taken := by
  refine takes_u16.bind fun count taken hcount => (takes_ensure _).bind_nil fun _ => ?_
  refine (takes_times takes_read _).mono fun as taken' h => ?_
  obtain ⟨hlength, rows, hrows, rfl⟩ := h
  rw [hcount]
  exact encode_counted _ hlength hrows

theorem reads_encode {a : Attribute} {bytes : Bytes} (h : a.encode = .ok bytes) (pos : Nat)
    (back : Bytes) : Reads read pos bytes back a := by
  unfold encode at h
  split at h
  · rename_i hlength
    obtain rfl := Except.ok.inj h
    rw [List.append_assoc]
    exact (reads_word a.name _ _).bind ((reads_sized32 _ _ hlength).bind_pure)
  · simp at h

theorem length_encode {a : Attribute} {bytes : Bytes} (h : a.encode = .ok bytes) :
    bytes.length = 6 + a.payload.length := by
  unfold encode at h
  split at h
  · obtain rfl := Except.ok.inj h
    simp [Word.length_encode, Word.width]
    omega
  · simp at h

/-- Every attribute has a header of six bytes. -/
theorem length_flatten_encode {attributes : List Attribute} {rows : List Bytes}
    (h : List.Forall₂ (fun a row => encode a = .ok row) attributes rows) :
    attributes.length * 6 ≤ rows.flatten.length := by
  induction h with
  | nil => simp
  | cons hrow _ ih =>
    have hlength := length_encode hrow
    rw [List.length_cons, List.flatten_cons, List.length_append]
    omega

/-- A list of attributes is read back. -/
theorem reads_encodeList {attributes : List Attribute} {bytes : Bytes}
    (h : encodeList attributes = .ok bytes) (pos : Nat) (back : Bytes) :
    Reads readList pos bytes back attributes := by
  unfold encodeList at h
  split at h
  · rename_i hcount
    obtain ⟨rows, hrows, h⟩ := Except.bind_eq_ok.mp h
    obtain rfl := Except.pure_eq_ok.mp h
    replace hrows := Except.mapM_eq_ok.mp hrows
    have hroom : attributes.length * 6 ≤ (rows.flatten ++ back).length := by
      have := length_flatten_encode hrows
      rw [List.length_append]
      omega
    refine (reads_word _ pos _).bind ?_
    rw [UInt16.toNat_ofNat_of_lt' (by simpa using Nat.lt_succ_of_le hcount)]
    refine Reads.bind_nil (f := fun _ => times attributes.length read)
      (reads_ensure _ hroom) (reads_times ?_)
    exact hrows.flip.imp fun row a hrow pos back => reads_encode hrow pos back
  · exact absurd h Except.throw_ne_ok

end Attribute

/-! ### Rows -/

/-- An offset in front of what the rest of a reader takes. -/
theorem Reader.Reads.offset_bind {β : Type} {f : UInt16 → Reader β} {offset pos : Nat}
    {bytes back : Bytes} {y : β} (h : offset ≤ 65535)
    (hf : ∀ word : UInt16, word.toNat = offset → Reads (f word) (pos + 2) bytes back y) :
    Reads (u16 >>= f) pos (CodeWriter.offsetBytes offset ++ bytes) back y :=
  (reads_word _ pos _).bind (hf _ (UInt16.toNat_ofNat_of_lt' (Nat.lt_succ_of_le h)))

/-- A placed handler as a row of the exception table. -/
def CodeWriter.PlacedHandler.row (h : PlacedHandler) : HandlerRow :=
  ⟨h.start, h.stop, h.target.offset, h.catchType⟩

theorem HandlerRow.reads (row : HandlerRow) {length : Nat} (hlength : length ≤ 65535)
    (hstart : row.start < row.stop) (hstop : row.stop ≤ length) (htarget : row.target < length)
    (pos : Nat) (back : Bytes) :
    Reads (read length) pos (CodeWriter.offsetBytes row.start ++ CodeWriter.offsetBytes row.stop ++
      CodeWriter.offsetBytes row.target ++ Word.encode row.catchType) back row := by
  simp only [List.append_assoc]
  refine .offset_bind (by omega) fun start hs => .offset_bind (by omega) fun stop ht =>
    .offset_bind (by omega) fun target hc => (reads_word row.catchType _ _).bind_last ?_
  rw [hs, ht, hc]
  exact .ite_pos (by simp [hstart, hstop, htarget]) (.pure _ _ _)

theorem LineRow.reads (row : LineRow) (h : row.start ≤ 65535) (pos : Nat) (back : Bytes) :
    Reads read pos (CodeWriter.offsetBytes row.start ++ Word.encode row.number) back row := by
  refine .offset_bind h fun start hs => ?_
  rw [hs]
  exact (reads_word row.number _ _).bind_pure

theorem VariableRow.reads (row : VariableRow) (hle : row.start ≤ row.stop)
    (hstart : row.start ≤ 65535) (hlength : row.stop - row.start ≤ 65535) (pos : Nat)
    (back : Bytes) :
    Reads read pos (CodeWriter.offsetBytes row.start ++
      CodeWriter.offsetBytes (row.stop - row.start) ++ Word.encode row.name ++
        Word.encode row.descriptor ++ Word.encode row.slot) back row := by
  simp only [List.append_assoc]
  refine .offset_bind (by omega) fun start hs => .offset_bind (by omega) fun length hl =>
    (reads_word row.name _ _).bind ((reads_word row.descriptor _ _).bind ?_)
  rw [hs, hl, Nat.add_sub_cancel' hle]
  exact (reads_word row.slot _ _).bind_pure

/-! ### Tables in attributes -/

namespace CodeAttribute

/-- The attributes of a table: none if it has no rows. -/
def ofRows {ρ : Type} (wrap : List ρ → CodeAttribute) (rows : List ρ) : List CodeAttribute :=
  if rows.isEmpty then [] else [wrap rows]

/-- An attribute of code that is kept as it is. -/
def IsOther (pool : ConstantPool) (a : Attribute) : Prop := ofAttribute pool a = .ok (.other a)

theorem isOther_iff {pool : ConstantPool} {a : Attribute} : IsOther pool a ↔
    ∃ name, pool.text a.name = .ok name ∧
      name ∉ [lineTable, variableTable, variableTypeTable, stackMapTable] := by
  have hparse {ρ : Type} {x : Except Error ρ} {wrap : ρ → CodeAttribute}
      (hne : ∀ rows, wrap rows ≠ .other a) :
      ¬(do return wrap (← x) : Except Error CodeAttribute) = .ok (.other a) := by
    intro h
    obtain ⟨rows, -, h⟩ := Except.bind_eq_ok.mp h
    exact hne rows (Except.pure_eq_ok.mp h)
  simp only [IsOther, ofAttribute, Except.bind_eq_ok]
  refine exists_congr fun name => and_congr_right fun _ => ?_
  simp only [List.mem_cons, List.not_mem_nil, or_false, not_or]
  split
  · rename_i hname
    exact iff_of_false (hparse fun rows => nofun) fun h => h.1 hname
  · rename_i hline
    split
    · rename_i hname
      exact iff_of_false (hparse fun rows => nofun) fun h => h.2.1 hname
    · rename_i hvariable
      split
      · rename_i hname
        exact iff_of_false (hparse fun rows => nofun) fun h => h.2.2.1 hname
      · rename_i htype
        split
        · rename_i hname
          exact iff_of_false (fun h => nomatch Except.pure_eq_ok.mp h) fun h => h.2.2.2 hname
        · rename_i hmap
          exact iff_of_true rfl ⟨hline, hvariable, htype, hmap⟩

theorem IsOther.mono {p q : ConstantPool} (hpq : p ≤ q) {a : Attribute} (h : IsOther p a) :
    IsOther q a := by
  obtain ⟨name, hname, hnot⟩ := isOther_iff.mp h
  exact isOther_iff.mpr ⟨name, ConstantPool.text_mono hpq hname, hnot⟩

variable {pool : ConstantPool} {a : Attribute}

theorem ofAttribute_lineTable (h : pool.text a.name = .ok lineTable) :
    ofAttribute pool a = .lines <$> (readRows LineRow.read).parse a.payload := by
  unfold ofAttribute
  rw [h]
  cases (readRows LineRow.read).parse a.payload <;> rfl

theorem ofAttribute_variableTable (h : pool.text a.name = .ok variableTable) :
    ofAttribute pool a = .localVariables <$> (readRows VariableRow.read).parse a.payload := by
  unfold ofAttribute
  rw [h]
  cases (readRows VariableRow.read).parse a.payload <;> rfl

theorem ofAttribute_variableTypeTable (h : pool.text a.name = .ok variableTypeTable) :
    ofAttribute pool a = .localVariableTypes <$> (readRows VariableRow.read).parse a.payload := by
  unfold ofAttribute
  rw [h]
  cases (readRows VariableRow.read).parse a.payload <;> rfl

theorem ofAttribute_stackMapTable (h : pool.text a.name = .ok stackMapTable) :
    ofAttribute pool a = .ok (.stackMap a.payload) := by
  unfold ofAttribute
  rw [h]
  rfl

/-- What is named by an index that spells the name of the stack map is read without comparing
names. -/
theorem ofAttribute_eq_of_stackMapTable {index : UInt16} (h : pool.text index = .ok stackMapTable) :
    ofAttribute pool =
      fun a => if a.name = index then .ok (.stackMap a.payload) else ofAttribute pool a := by
  funext a
  split
  · rename_i hname
    exact ofAttribute_stackMapTable (hname ▸ h)
  · rfl

end CodeAttribute

namespace CodeWriter

variable {p q : ConstantPool} {name : String} {limit : Nat → Limit} {table : List Attribute}

/-- A table is written as nothing or as one attribute. -/
theorem table_cases {rows : List Bytes} (hp : p.WellFormed) (hpq : p ≤ q)
    (h : Finds (tableAttribute name limit rows) p table) :
    (rows = [] ∧ table = []) ∨ ∃ index, rows ≠ [] ∧ rows.length < 65536 ∧
      q.text index = .ok name ∧
      table = [⟨index, Word.encode (UInt16.ofNat rows.length) ++ rows.flatten⟩] := by
  unfold tableAttribute at h
  split at h
  · rename_i hempty
    exact .inl ⟨by simpa using hempty, (finds_pure.mp h).symm⟩
  · rename_i hempty
    obtain ⟨count, hcount, h⟩ := (finds_bind (steady_countBytes _ _)
      (fun _ => (steady_text _).bind fun _ => .pure _) hp).mp h
    obtain ⟨index, hindex, h⟩ := (finds_bind (steady_text _) (fun _ => .pure _) hp).mp h
    obtain rfl := finds_pure.mp h
    unfold countBytes at hcount
    split at hcount
    · rename_i hle
      obtain rfl := finds_pure.mp hcount
      exact .inr ⟨index, by simpa using hempty, Nat.lt_succ_of_le hle,
        text_of_text hp hindex hpq, rfl⟩
    · exact absurd hcount not_finds_throw

/-- A table is read back as its rows. -/
theorem ofAttribute_table {ρ : Type} {wrap : List ρ → CodeAttribute} {r : Reader ρ}
    {rows : List Bytes} {xs : List ρ} (hp : p.WellFormed) (hpq : p ≤ q)
    (hwrap : ∀ a, q.text a.name = .ok name →
      CodeAttribute.ofAttribute q a = wrap <$> (readRows r).parse a.payload)
    (hrows : List.Forall₂ (fun row x => ∀ pos back, Reads r pos row back x) rows xs)
    (h : Finds (tableAttribute name limit rows) p table) :
    table.mapM (CodeAttribute.ofAttribute q) = .ok (CodeAttribute.ofRows wrap xs) := by
  have hlength := hrows.length_eq
  rcases table_cases hp hpq h with ⟨rfl, rfl⟩ | ⟨index, hne, hcount, hname, rfl⟩
  · cases hrows
    rfl
  · have hread : Reads (readRows r) 0 _ [] xs := reads_readRows (hlength ▸ hcount) hrows
    have hparse := hread.parse
    rw [← hlength] at hparse
    have hxs : xs.isEmpty = false := by
      cases hrows with
      | nil => exact absurd rfl hne
      | cons => rfl
    have hattribute : CodeAttribute.ofAttribute q
        ⟨index, Word.encode (UInt16.ofNat rows.length) ++ rows.flatten⟩ = .ok (wrap xs) :=
      (hwrap _ hname).trans (by rw [hparse]; rfl)
    simp only [List.mapM_cons, List.mapM_nil, hattribute, CodeAttribute.ofRows, hxs]
    rfl

/-- Rows that are left out are missing among those that are read. -/
private theorem forall₂_filterMap {α ρ : Type} {row : α → Except Error (Option Bytes)}
    {expected : α → Option ρ} {r : Reader ρ} {xs : List α} {all : List (Option Bytes)}
    (hrow : ∀ x b, row x = .ok b → (b = none ∧ expected x = none) ∨
      ∃ bytes y, b = some bytes ∧ expected x = some y ∧ ∀ pos back, Reads r pos bytes back y)
    (h : xs.mapM row = .ok all) :
    List.Forall₂ (fun bytes y => ∀ pos back, Reads r pos bytes back y) (all.filterMap id)
      (xs.filterMap expected) := by
  induction Except.mapM_eq_ok.mp h with
  | nil => exact .nil
  | @cons x b xs all hx _ ih =>
    have ih := ih (Except.mapM_eq_ok.mpr ‹_›)
    rcases hrow x b hx with ⟨rfl, hnone⟩ | ⟨bytes, y, rfl, hsome, hreads⟩
    · simpa [hnone] using ih
    · simpa [hsome] using ⟨hreads, ih⟩

end CodeWriter

namespace Layout

variable {layout : Layout} {p q : ConstantPool}

/-- The row of a line that begins inside the code. -/
def lineRow? (layout : Layout) (line : Line) : Option LineRow :=
  if layout.offset line.start < layout.length then some ⟨layout.offset line.start, line.number⟩
  else none

/-- The row of a variable whose range is not empty. -/
def variableRow? (layout : Layout) (v : Variable) : Option VariableRow :=
  if layout.offset v.start < layout.offset v.stop then
    some ⟨layout.offset v.start, layout.offset v.stop, v.name, v.descriptor, v.slot⟩
  else none

/-- Nothing lies behind the end of the code. -/
theorem MadeIn.offset_le (h : layout.MadeIn p) (l : Label) : layout.offset l ≤ layout.length := by
  unfold offset
  cases hplace : layout.places[l]? with
  | none => exact Nat.zero_le _
  | some e => exact Nat.le_trans (Nat.le_add_right _ _) (h.laid.le_stop e (mem_of_places hplace).1)

/-- The lines of a layout are read back. -/
theorem ofAttribute_lines (hp : p.WellFormed) (hpq : p ≤ q) (hlength : layout.length ≤ 65535)
    {lines : List Line} {table : List Attribute}
    (h : CodeWriter.FindsTable p CodeAttribute.lineTable .lines
      (CodeWriter.lineRow layout.places layout.length) lines table) :
    table.mapM (CodeAttribute.ofAttribute q) =
      .ok (CodeAttribute.ofRows .lines (lines.filterMap layout.lineRow?)) := by
  obtain ⟨rows, hrows, htable⟩ := h
  refine CodeWriter.ofAttribute_table hp hpq (fun a => CodeAttribute.ofAttribute_lineTable)
    (CodeWriter.forall₂_filterMap (fun line b hb => ?_) hrows) htable
  obtain ⟨offset, hoffset, hb⟩ := Except.bind_eq_ok.mp hb
  obtain rfl := offset_of_offsetOf hoffset
  obtain rfl := Except.pure_eq_ok.mp hb
  unfold lineRow?
  split
  · rename_i hlt
    have hle : layout.offset line.start ≤ 65535 := by omega
    exact .inr ⟨_, _, rfl, rfl, LineRow.reads ⟨_, _⟩ hle⟩
  · exact .inl ⟨rfl, rfl⟩

/-- The variables of a layout are read back, whichever table they are in. -/
theorem ofAttribute_variables (hp : p.WellFormed) (hpq : p ≤ q) (hmade : layout.MadeIn p)
    (hlength : layout.length ≤ 65535) {name : String}
    {wrap : List VariableRow → CodeAttribute} (hwrap : ∀ a, q.text a.name = .ok name →
      CodeAttribute.ofAttribute q a = wrap <$> (readRows VariableRow.read).parse a.payload)
    {vs : List Variable} {table : List Attribute}
    (h : CodeWriter.FindsTable p name .localVariables
      (CodeWriter.variableRow layout.places) vs table) :
    table.mapM (CodeAttribute.ofAttribute q) =
      .ok (CodeAttribute.ofRows wrap (vs.filterMap layout.variableRow?)) := by
  obtain ⟨rows, hrows, htable⟩ := h
  refine CodeWriter.ofAttribute_table hp hpq hwrap
    (CodeWriter.forall₂_filterMap (fun v b hb => ?_) hrows) htable
  obtain ⟨start, hstart, hb⟩ := Except.bind_eq_ok.mp hb
  obtain ⟨stop, hstop, hb⟩ := Except.bind_eq_ok.mp hb
  obtain rfl := offset_of_offsetOf hstart
  obtain rfl := offset_of_offsetOf hstop
  obtain rfl := Except.pure_eq_ok.mp hb
  unfold variableRow?
  split
  · rename_i hlt
    have hstop := Nat.le_trans (hmade.offset_le v.stop) hlength
    have hstart := Nat.le_trans (Nat.le_of_lt hlt) hstop
    have hrange := Nat.le_trans (Nat.sub_le _ (layout.offset v.start)) hstop
    exact .inr ⟨_, _, rfl, rfl, VariableRow.reads ⟨_, _, _, _, _⟩ (Nat.le_of_lt hlt) hstart hrange⟩
  · exact .inl ⟨rfl, rfl⟩

/-- The attributes that are kept are read back as themselves. -/
theorem ofAttribute_kept (hpq : p ≤ q) {attributes kept : List Attribute}
    (hother : ∀ a ∈ attributes, CodeAttribute.IsOther p a)
    (h : CodeWriter.keptAttributes p attributes = .ok kept) :
    kept.mapM (CodeAttribute.ofAttribute q) = .ok (kept.map .other) := by
  refine Except.mapM_eq_map fun a ha => (hother a ?_).mono hpq
  obtain ⟨named, hnamed, h⟩ := Except.bind_eq_ok.mp h
  obtain rfl := Except.pure_eq_ok.mp h
  obtain ⟨row, hrow, rfl⟩ := List.mem_map.mp ha
  obtain ⟨a', ha', hrow'⟩ := (Except.mapM_eq_ok.mp hnamed).exists_left (List.mem_filter.mp hrow).1
  obtain ⟨name, -, hrow'⟩ := Except.bind_eq_ok.mp hrow'
  obtain rfl := Except.pure_eq_ok.mp hrow'
  exact ha'

end Layout
end ClassPatch
