import ClassPatch.Proofs.Outcome
import ClassPatch.Proofs.Text.ModifiedUtf8
import Mathlib.Data.List.Chain

/-!
# Shortest spellings

Which bytes text is stored in is a choice only as far as code units can be spelled in more bytes
than they need. For each number of bytes there is at most one spelling of a unit, and writing takes
the shortest. So a byte string is what would be written for its text exactly if no spelling in it is
longer than it has to be, which can be seen from each two bytes that stand side by side.
-/

namespace ClassPatch.Text.ModifiedUtf8

variable {unit : UInt16} {row row' bytes : Bytes} {text : String}

/-! ### Bytes of text -/

/-- Spellings are free of zero and of bytes that no unit begins with. -/
theorem Spells.bounded (h : Spells unit row) : ∀ b ∈ row, b ≠ 0 ∧ b < 0xF0 := by
  have hbounded {b : UInt8} (hpos : 0 < b.toNat) (hlt : b.toNat < 0xF0) : b ≠ 0 ∧ b < 0xF0 := by
    refine ⟨?_, UInt8.lt_iff_toNat_lt.mpr hlt⟩
    rintro rfl
    exact absurd hpos (Nat.lt_irrefl 0)
  have hcontinues {b : UInt8} (hb : Continues b) : b ≠ 0 ∧ b < 0xF0 := by
    obtain ⟨hle, hlt⟩ := hb
    exact hbounded (by omega) (by omega)
  cases h with
  | one ha => simpa using hbounded (by omega) (by omega)
  | two ha hb => simpa using ⟨hbounded (by omega) (by omega), hcontinues hb⟩
  | three ha hb hc =>
    simpa using ⟨hbounded (by omega) (by omega), hcontinues hb, hcontinues hc⟩

theorem bounded_of_decode (h : decode bytes = .ok text) : ∀ b ∈ bytes, b ≠ 0 ∧ b < 0xF0 := by
  obtain ⟨rows, hspelled, rfl⟩ := decode_eq_ok.mp h
  intro b hb
  obtain ⟨row, hrow, hb⟩ := List.mem_flatten.mp hb
  obtain ⟨unit, -, hspells⟩ := hspelled.exists_left hrow
  exact hspells.bounded b hb

/-- Text is read back from what is written for it, which holds no zero byte and no byte from `0xF0`
on. -/
theorem decode_encode_bounded (text : String) :
    decode (encode text) = .ok text ∧ ∀ b ∈ encode text, b ≠ 0 ∧ b < 0xF0 :=
  ⟨decode_encode text, bounded_of_decode (decode_encode text)⟩

/-! ### Spellings of one unit -/

/-- The length of a spelling leaves no choice. -/
theorem Spells.unique (h : Spells unit row) (h' : Spells unit row')
    (hlength : row.length = row'.length) : row = row' := by
  cases h with
  | @one a ha hunit =>
    cases h' with
    | @one a' ha' hunit' =>
      have hfirst : a = a' := UInt8.toNat_inj.mp (hunit.symm.trans hunit')
      rw [hfirst]
    | two | three => cases hlength
  | @two a b ha hb hunit =>
    obtain ⟨hle, hlt⟩ := hb
    cases h' with
    | @two a' b' ha' hb' hunit' =>
      obtain ⟨hle', hlt'⟩ := hb'
      have hfirst : a = a' := UInt8.toNat_inj.mp (by omega)
      have hsecond : b = b' := UInt8.toNat_inj.mp (by omega)
      rw [hfirst, hsecond]
    | one | three => cases hlength
  | @three a b c ha hb hc hunit =>
    obtain ⟨hle, hlt⟩ := hb
    obtain ⟨hle₁, hlt₁⟩ := hc
    cases h' with
    | @three a' b' c' ha' hb' hc' hunit' =>
      obtain ⟨hle', hlt'⟩ := hb'
      obtain ⟨hle₁', hlt₁'⟩ := hc'
      have hfirst : a = a' := UInt8.toNat_inj.mp (by omega)
      have hsecond : b = b' := UInt8.toNat_inj.mp (by omega)
      have hthird : c = c' := UInt8.toNat_inj.mp (by omega)
      rw [hfirst, hsecond, hthird]
    | one | two => cases hlength

theorem length_encodeUnit (unit : UInt16) : (encodeUnit unit).length =
    if 0x01 ≤ unit.toNat ∧ unit.toNat < 0x80 then 1 else if unit.toNat < 0x800 then 2 else 3 := by
  have hone : (0x0001 ≤ unit && unit ≤ 0x007F) = true ↔ 0x01 ≤ unit.toNat ∧ unit.toNat < 0x80 := by
    simp only [Bool.and_eq_true, decide_eq_true_eq, UInt16.le_iff_toNat_le, UInt16.reduceToNat]
    omega
  have htwo : unit ≤ 0x07FF ↔ unit.toNat < 0x800 := by
    simp only [UInt16.le_iff_toNat_le, UInt16.reduceToNat]
    omega
  simp only [encodeUnit, hone, htwo]
  split
  · rfl
  · split <;> rfl

/-- What is written for a unit is its shortest spelling. -/
theorem Spells.length_encodeUnit_le (h : Spells unit row) :
    (encodeUnit unit).length ≤ row.length := by
  rw [length_encodeUnit]
  cases h with
  | one ha hunit => rw [if_pos (by omega)]; rfl
  | two ha hb hunit =>
    obtain ⟨hle, hlt⟩ := hb
    rw [List.length_cons, List.length_singleton]
    split
    · omega
    · rw [if_pos (by omega)]
  | three ha hb hc hunit =>
    rw [List.length_cons, List.length_cons, List.length_singleton]
    split
    · omega
    · split <;> omega

/-- A byte and the one behind it do not begin a spelling that is longer than it has to be. -/
def Sparing (a b : UInt8) : Prop :=
  a.toNat ≠ 0xC1 ∧ (a.toNat = 0xC0 → b.toNat = 0x80) ∧ (a.toNat = 0xE0 → 0xA0 ≤ b.toNat)

instance (a b : UInt8) : Decidable (Sparing a b) := inferInstanceAs (Decidable (_ ∧ _ ∧ _))

/-- Only a first byte can begin a spelling. -/
theorem sparing_of_lt {a : UInt8} (h : a.toNat < 0xC0) (b : UInt8) : Sparing a b :=
  ⟨by omega, by omega, by omega⟩

/-- Two bytes are enough to see that a spelling is the shortest. -/
theorem Spells.eq_encodeUnit_iff (h : Spells unit row) :
    encodeUnit unit = row ↔ row.IsChain Sparing := by
  have hlength : encodeUnit unit = row ↔ (encodeUnit unit).length = row.length :=
    ⟨congrArg List.length, (spells_encodeUnit unit).unique h⟩
  rw [hlength, length_encodeUnit]
  cases h with
  | one ha hunit =>
    rw [if_pos (by omega)]
    exact iff_of_true rfl (.singleton _)
  | @two a b ha hb hunit =>
    obtain ⟨hle, hlt⟩ := hb
    rw [List.isChain_cons_cons, List.length_cons, List.length_singleton, Sparing]
    split
    · refine iff_of_false (by omega) ?_
      rintro ⟨⟨hne, hzero, -⟩, -⟩
      omega
    · rw [if_pos (by omega)]
      exact iff_of_true rfl ⟨⟨by omega, by omega, by omega⟩, .singleton _⟩
  | @three a b c ha hb hc hunit =>
    obtain ⟨hle, hlt⟩ := hb
    obtain ⟨hle', hlt'⟩ := hc
    have hfirst : Sparing a b ↔ 0x800 ≤ unit.toNat := by
      rw [Sparing]
      omega
    have hchain : [a, b, c].IsChain Sparing ↔ 0x800 ≤ unit.toNat := by
      rw [List.isChain_cons_cons, List.isChain_cons_cons, hfirst]
      exact and_iff_left ⟨sparing_of_lt hlt c, .singleton _⟩
    have hthree : [a, b, c].length = 3 := rfl
    rw [hchain, hthree]
    split
    · omega
    · split <;> omega

/-- Nothing begins where a spelling ends. -/
theorem Spells.sparing_of_getLast? (h : Spells unit row) {a : UInt8} (ha : a ∈ row.getLast?)
    (b : UInt8) : Sparing a b := by
  cases h with
  | @one a' h =>
    obtain rfl : a' = a := Option.some.inj ha
    exact sparing_of_lt (by omega) b
  | @two _ b' _ h =>
    obtain rfl : b' = a := Option.some.inj ha
    exact sparing_of_lt h.2 b
  | @three _ _ c' _ _ h =>
    obtain rfl : c' = a := Option.some.inj ha
    exact sparing_of_lt h.2 b

theorem Spells.ne_nil (h : Spells unit row) : row ≠ [] := by
  cases h <;> exact List.cons_ne_nil _ _

/-! ### Spellings of text -/

section Rows

variable {units : List UInt16} {rows : List Bytes}

/-- Where spellings meet there is nothing to be seen, so each of them can be looked at alone. -/
theorem isChain_flatten_iff (h : List.Forall₂ Spells units rows) :
    rows.flatten.IsChain Sparing ↔ ∀ row ∈ rows, row.IsChain Sparing := by
  have hspells {row : Bytes} (hrow : row ∈ rows) : ∃ unit, Spells unit row := by
    obtain ⟨unit, -, hspells⟩ := h.exists_left hrow
    exact ⟨unit, hspells⟩
  have hne : [] ∉ rows := by
    intro hnil
    obtain ⟨unit, hspells⟩ := hspells hnil
    exact hspells.ne_nil rfl
  rw [List.isChain_flatten hne]
  refine and_iff_left (List.Pairwise.isChain (List.pairwise_of_forall_mem_list ?_))
  intro row hrow row' _ a ha b _
  obtain ⟨unit, hspells⟩ := hspells hrow
  exact hspells.sparing_of_getLast? ha b

theorem map_encodeUnit_eq_iff (h : List.Forall₂ Spells units rows) :
    units.map encodeUnit = rows ↔ ∀ row ∈ rows, row.IsChain Sparing := by
  induction h with
  | nil => exact iff_of_true rfl (List.forall_mem_nil _)
  | cons hrow _ ih =>
    rw [List.map_cons, List.cons.injEq, List.forall_mem_cons, hrow.eq_encodeUnit_iff, ih]

theorem length_flatten_encodeUnit_le (h : List.Forall₂ Spells units rows) :
    (units.flatMap encodeUnit).length ≤ rows.flatten.length := by
  induction h with
  | nil => exact Nat.le_refl 0
  | cons hrow _ ih =>
    have hfirst := hrow.length_encodeUnit_le
    rw [List.flatMap_cons, List.flatten_cons, List.length_append, List.length_append]
    omega

/-- Bytes that are not longer than what is written are what is written. -/
theorem flatMap_encodeUnit_eq (h : List.Forall₂ Spells units rows)
    (hlength : rows.flatten.length ≤ (units.flatMap encodeUnit).length) :
    units.flatMap encodeUnit = rows.flatten := by
  induction h with
  | nil => rfl
  | @cons unit row units rows hrow hrows ih =>
    have hfirst := hrow.length_encodeUnit_le
    have hrest := length_flatten_encodeUnit_le hrows
    rw [List.flatMap_cons, List.flatten_cons, List.length_append, List.length_append] at hlength
    have hrow := (spells_encodeUnit unit).unique hrow (by omega)
    rw [List.flatMap_cons, List.flatten_cons, hrow, ih (by omega)]

end Rows

/-- A byte string is what is written for its text if two neighbours never begin a spelling that is
longer than it has to be, and only then. -/
theorem encode_eq_iff_isChain (h : decode bytes = .ok text) :
    encode text = bytes ↔ bytes.IsChain Sparing := by
  obtain ⟨rows, hspelled, rfl⟩ := decode_eq_ok.mp h
  constructor
  · intro heq
    have hwritten := spells_map_encodeUnit (Utf16.encode text)
    rw [← heq, encode, List.flatMap_def, isChain_flatten_iff hwritten]
    exact (map_encodeUnit_eq_iff hwritten).mp rfl
  · intro hchain
    have hrows := (map_encodeUnit_eq_iff hspelled).mpr ((isChain_flatten_iff hspelled).mp hchain)
    rw [encode, List.flatMap_def, hrows]

/-- What is written for text is the shortest byte string that is read as that text. -/
theorem encode_eq_iff_length_le (h : decode bytes = .ok text) :
    encode text = bytes ↔ ∀ other, decode other = .ok text → bytes.length ≤ other.length := by
  constructor
  · rintro rfl other hother
    obtain ⟨rows, hspelled, rfl⟩ := decode_eq_ok.mp hother
    exact length_flatten_encodeUnit_le hspelled
  · intro hshortest
    have hlength := hshortest _ (decode_encode text)
    obtain ⟨rows, hspelled, rfl⟩ := decode_eq_ok.mp h
    exact flatMap_encodeUnit_eq hspelled hlength

end ClassPatch.Text.ModifiedUtf8
