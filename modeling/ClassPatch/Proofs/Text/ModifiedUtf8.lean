import ClassPatch.Text.ModifiedUtf8
import Mathlib.Algebra.Ring.Nat
import Mathlib.Data.List.Forall2

/-!
# Text survives its stored form

A code unit is spelled in one, two or three bytes. `Spells` says which bytes these are, in terms of
the numbers that they hold. Reading takes exactly the byte strings that are put together from
spellings, and what is written for a unit is one of them. So a string that is written in modified
UTF-8 is read as the same string.
-/

namespace ClassPatch.Text

namespace ModifiedUtf8

/-! ### Bits and numbers -/

/-- Bits above a boundary and bits below it are added by `or`. -/
private theorem or_eq_add (high width low : Nat) (h : low < 2 ^ width) :
    2 ^ width * high ||| low = 2 ^ width * high + low :=
  (Nat.two_pow_add_eq_or_of_lt h high).symm

private theorem toNat_continuation (unit : UInt16) :
    (continuation unit).toNat = 128 + unit.toNat % 64 := by
  have hor := or_eq_add 2 6 (unit.toNat % 64) (by omega)
  have hand := Nat.and_two_pow_sub_one_eq_mod (unit.toNat % 256) 6
  have hmod : unit.toNat % 256 % 64 = unit.toNat % 64 := by omega
  simp only [continuation, UInt8.toNat_or, UInt8.toNat_and, UInt16.toNat_toUInt8,
    UInt8.reduceToNat, Nat.reducePow, Nat.reduceSub, Nat.reduceMul] at *
  rw [hand, hmod, hor]

/-- The lead byte of two keeps the five bits above the continuation. -/
private theorem toNat_lead_two (unit : UInt16) :
    ((0xC0 : UInt8) ||| ((unit >>> 6).toUInt8 &&& 0x1F)).toNat = 192 + unit.toNat / 64 % 32 := by
  have hor := or_eq_add 6 5 (unit.toNat / 64 % 32) (by omega)
  have hand := Nat.and_two_pow_sub_one_eq_mod (unit.toNat / 64 % 256) 5
  have hmod : unit.toNat / 64 % 256 % 32 = unit.toNat / 64 % 32 := by omega
  have hshift : (unit >>> 6).toNat = unit.toNat / 64 := by
    simp [Nat.shiftRight_eq_div_pow]
  simp only [UInt8.toNat_or, UInt8.toNat_and, UInt16.toNat_toUInt8, hshift, UInt8.reduceToNat,
    Nat.reducePow, Nat.reduceSub, Nat.reduceMul] at *
  rw [hand, hmod, hor]

/-- The lead byte of three keeps the four bits above the continuations. -/
private theorem toNat_lead_three (unit : UInt16) :
    ((0xE0 : UInt8) ||| ((unit >>> 12).toUInt8 &&& 0x0F)).toNat = 224 + unit.toNat / 4096 := by
  have hunit : unit.toNat < 65536 := unit.toNat_lt
  have hor := or_eq_add 14 4 (unit.toNat / 4096) (by omega)
  have hand := Nat.and_two_pow_sub_one_eq_mod (unit.toNat / 4096 % 256) 4
  have hmod : unit.toNat / 4096 % 256 % 16 = unit.toNat / 4096 := by omega
  have hshift : (unit >>> 12).toNat = unit.toNat / 4096 := by
    simp [Nat.shiftRight_eq_div_pow]
  simp only [UInt8.toNat_or, UInt8.toNat_and, UInt16.toNat_toUInt8, hshift, UInt8.reduceToNat,
    Nat.reducePow, Nat.reduceSub, Nat.reduceMul] at *
  rw [hand, hmod, hor]

private theorem low_bits (width : Nat) {byte mask : UInt8}
    (hmask : mask.toNat = 2 ^ width - 1) :
    (byte &&& mask).toUInt16.toNat = byte.toNat % 2 ^ width := by
  rw [UInt8.toNat_toUInt16, UInt8.toNat_and, hmask, Nat.and_two_pow_sub_one_eq_mod]

/-- Six more bits behind those of a number. -/
private theorem toNat_join {high low : UInt16} (hhigh : high.toNat < 1024) (hlow : low.toNat < 64) :
    ((high <<< 6) ||| low).toNat = high.toNat * 64 + low.toNat := by
  have hor := or_eq_add high.toNat 6 low.toNat (by omega)
  simp only [UInt16.toNat_or, UInt16.toNat_shiftLeft, UInt16.reduceToNat, Nat.shiftLeft_eq,
    Nat.reduceMod, Nat.reducePow] at *
  rw [Nat.mod_eq_of_lt (by omega : high.toNat * 64 < 65536), Nat.mul_comm, hor]

/-! ### Spellings -/

/-- The byte carries six bits of a unit, behind a first byte. -/
def Continues (b : UInt8) : Prop := 0x80 ≤ b.toNat ∧ b.toNat < 0xC0

/-- The bytes spell a code unit. The first of them says how many there are. -/
inductive Spells (unit : UInt16) : Bytes → Prop
  | one {a : UInt8} (ha : 0x01 ≤ a.toNat ∧ a.toNat < 0x80) (hunit : unit.toNat = a.toNat) :
      Spells unit [a]
  | two {a b : UInt8} (ha : 0xC0 ≤ a.toNat ∧ a.toNat < 0xE0) (hb : Continues b)
      (hunit : unit.toNat = (a.toNat - 0xC0) * 64 + (b.toNat - 0x80)) : Spells unit [a, b]
  | three {a b c : UInt8} (ha : 0xE0 ≤ a.toNat ∧ a.toNat < 0xF0) (hb : Continues b)
      (hc : Continues c)
      (hunit : unit.toNat = ((a.toNat - 0xE0) * 64 + (b.toNat - 0x80)) * 64 + (c.toNat - 0x80)) :
      Spells unit [a, b, c]

theorem isContinuation_iff {b : UInt8} : isContinuation b = true ↔ Continues b := by
  have hall : ∀ n < 256, n &&& 0xC0 = 0x80 ↔ 0x80 ≤ n ∧ n < 0xC0 := by decide +kernel
  rw [isContinuation, beq_iff_eq, ← UInt8.toNat_inj, UInt8.toNat_and]
  exact hall _ b.toNat_lt

theorem Continues.toNat_payload {b : UInt8} (h : Continues b) :
    (payload b).toNat = b.toNat - 0x80 := by
  obtain ⟨hle, hlt⟩ := h
  rw [payload, low_bits 6 rfl]
  omega

/-- The number that two bytes spell. -/
private theorem toNat_two {a b : UInt8} (ha : 0xC0 ≤ a.toNat ∧ a.toNat < 0xE0) (hb : Continues b) :
    (((a &&& 0x1F).toUInt16 <<< 6) ||| payload b).toNat =
      (a.toNat - 0xC0) * 64 + (b.toNat - 0x80) := by
  have hhigh : (a &&& 0x1F).toUInt16.toNat = a.toNat - 0xC0 := by
    rw [low_bits 5 rfl]
    omega
  have hlow := hb.toNat_payload
  have hlt := hb.2
  rw [toNat_join (by omega) (by omega), hhigh, hlow]

/-- The number that three bytes spell. -/
private theorem toNat_three {a b c : UInt8} (ha : 0xE0 ≤ a.toNat ∧ a.toNat < 0xF0)
    (hb : Continues b) (hc : Continues c) :
    (((a &&& 0x0F).toUInt16 <<< 12) ||| (payload b <<< 6) ||| payload c).toNat =
      ((a.toNat - 0xE0) * 64 + (b.toNat - 0x80)) * 64 + (c.toNat - 0x80) := by
  have htop : (a &&& 0x0F).toUInt16.toNat = a.toNat - 0xE0 := by
    rw [low_bits 4 rfl]
    omega
  have hmiddle := hb.toNat_payload
  have hlow := hc.toNat_payload
  have hlt := hb.2
  have hlt' := hc.2
  have hsplit : ((a &&& 0x0F).toUInt16 <<< 12) = ((a &&& 0x0F).toUInt16 <<< 6) <<< 6 := by
    rw [← UInt16.shiftLeft_add_of_toNat_lt] <;> simp
  have hhigh : (((a &&& 0x0F).toUInt16 <<< 6) ||| payload b).toNat =
      (a.toNat - 0xE0) * 64 + (b.toNat - 0x80) := by
    rw [toNat_join (by omega) (by omega), htop, hmiddle]
  rw [hsplit, ← UInt16.shiftLeft_or, toNat_join (by omega) (by omega), hhigh, hlow]

theorem unitsFrom_one {before : List UInt16} {a : UInt8} {rest : Bytes}
    (ha : 0x01 ≤ a.toNat ∧ a.toNat < 0x80) :
    unitsFrom before (a :: rest) = unitsFrom (a.toUInt16 :: before) rest := by
  have hle : a.toNat ≤ 127 := by omega
  rw [unitsFrom.eq_def]
  simp [UInt8.le_iff_toNat_le, ha, hle]

theorem unitsFrom_two {before : List UInt16} {a b : UInt8} {rest : Bytes}
    (ha : 0xC0 ≤ a.toNat ∧ a.toNat < 0xE0) (hb : Continues b) :
    unitsFrom before (a :: b :: rest) =
      unitsFrom ((((a &&& 0x1F).toUInt16 <<< 6) ||| payload b) :: before) rest := by
  have hone : ¬a.toNat ≤ 127 := by omega
  have hle : a.toNat ≤ 223 := by omega
  rw [unitsFrom.eq_def]
  simp [UInt8.le_iff_toNat_le, ha, hone, hle, isContinuation_iff.mpr hb]

theorem unitsFrom_three {before : List UInt16} {a b c : UInt8} {rest : Bytes}
    (ha : 0xE0 ≤ a.toNat ∧ a.toNat < 0xF0) (hb : Continues b) (hc : Continues c) :
    unitsFrom before (a :: b :: c :: rest) =
      unitsFrom ((((a &&& 0x0F).toUInt16 <<< 12) ||| (payload b <<< 6) ||| payload c) :: before)
        rest := by
  have hone : ¬a.toNat ≤ 127 := by omega
  have htwo : ¬a.toNat ≤ 223 := by omega
  have hle : a.toNat ≤ 239 := by omega
  rw [unitsFrom.eq_def]
  simp [UInt8.le_iff_toNat_le, ha, hone, htwo, hle, isContinuation_iff.mpr hb,
    isContinuation_iff.mpr hc]

/-- A unit is read from each of its spellings. -/
theorem Spells.unitsFrom {unit : UInt16} {row : Bytes} (h : Spells unit row)
    (before : List UInt16) (rest : Bytes) :
    unitsFrom before (row ++ rest) = unitsFrom (unit :: before) rest := by
  cases h with
  | one ha hunit =>
    rw [List.singleton_append, unitsFrom_one ha]
    congr 2
    exact UInt16.toNat_inj.mp (by simp [hunit])
  | two ha hb hunit =>
    rw [List.cons_append, List.singleton_append, unitsFrom_two ha hb]
    congr 2
    exact UInt16.toNat_inj.mp ((toNat_two ha hb).trans hunit.symm)
  | three ha hb hc hunit =>
    rw [List.cons_append, List.cons_append, List.singleton_append, unitsFrom_three ha hb hc]
    congr 2
    exact UInt16.toNat_inj.mp ((toNat_three ha hb hc).trans hunit.symm)

/-- What is written for a unit spells it. -/
theorem spells_encodeUnit (unit : UInt16) : Spells unit (encodeUnit unit) := by
  have hunit : unit.toNat < 65536 := unit.toNat_lt
  have hlast := toNat_continuation unit
  by_cases hone : (0x0001 ≤ unit && unit ≤ 0x007F) = true
  · rw [encodeUnit, if_pos hone]
    simp only [Bool.and_eq_true, decide_eq_true_eq, UInt16.le_iff_toNat_le,
      UInt16.reduceToNat] at hone
    have hbyte : unit.toUInt8.toNat = unit.toNat := by
      rw [UInt16.toNat_toUInt8]
      omega
    exact .one (by omega) hbyte.symm
  by_cases htwo : unit ≤ 0x07FF
  · rw [encodeUnit, if_neg hone, if_pos htwo]
    have hle : unit.toNat ≤ 2047 := UInt16.le_iff_toNat_le.mp htwo
    have hlead := toNat_lead_two unit
    exact .two (by omega) ⟨by omega, by omega⟩ (by omega)
  · rw [encodeUnit, if_neg hone, if_neg htwo]
    have hlead := toNat_lead_three unit
    have hsix : (unit >>> 6).toNat = unit.toNat / 64 := by simp [Nat.shiftRight_eq_div_pow]
    have hmiddle := toNat_continuation (unit >>> 6)
    exact .three (by omega) ⟨by omega, by omega⟩ ⟨by omega, by omega⟩ (by omega)

theorem spells_map_encodeUnit (units : List UInt16) :
    List.Forall₂ Spells units (units.map encodeUnit) := by
  rw [List.forall₂_map_right_iff, List.forall₂_same]
  exact fun unit _ => spells_encodeUnit unit

/-- Units are read from their spellings, one behind the other. -/
theorem unitsFrom_flatten {units : List UInt16} {rows : List Bytes}
    (h : List.Forall₂ Spells units rows) (before : List UInt16) :
    unitsFrom before rows.flatten = .ok (before.reverse ++ units) := by
  induction h generalizing before with
  | nil => simp [unitsFrom]
  | cons hrow _ ih => rw [List.flatten_cons, hrow.unitsFrom, ih]; simp

private theorem within_iff {a low high : UInt8} :
    (decide (low ≤ a) && decide (a ≤ high)) = true ↔
      low.toNat ≤ a.toNat ∧ a.toNat ≤ high.toNat := by
  rw [Bool.and_eq_true, decide_eq_true_eq, decide_eq_true_eq, UInt8.le_iff_toNat_le,
    UInt8.le_iff_toNat_le]

/-- Nothing but spellings is read. -/
theorem exists_of_unitsFrom {before units : List UInt16} {bytes : Bytes}
    (h : unitsFrom before bytes = .ok units) : ∃ spelled rows, units = before.reverse ++ spelled ∧
      List.Forall₂ Spells spelled rows ∧ bytes = rows.flatten := by
  have hcons {before : List UInt16} {unit : UInt16} {row rest : Bytes} (hrow : Spells unit row) :
      (∃ spelled rows, units = (unit :: before).reverse ++ spelled ∧
        List.Forall₂ Spells spelled rows ∧ rest = rows.flatten) →
      ∃ spelled rows, units = before.reverse ++ spelled ∧
        List.Forall₂ Spells spelled rows ∧ row ++ rest = rows.flatten := by
    rintro ⟨spelled, rows, hunits, hspelled, rfl⟩
    exact ⟨unit :: spelled, row :: rows, by simp [hunits], .cons hrow hspelled, rfl⟩
  fun_induction unitsFrom before bytes with
  | case1 before => exact ⟨[], [], by simpa using (Except.ok.inj h).symm, .nil, rfl⟩
  | case2 before a rest ha ih =>
    obtain ⟨hle, hlt⟩ := within_iff.mp ha
    exact hcons (.one ⟨hle, Nat.lt_succ_of_le hlt⟩ (by simp)) (ih h)
  | case3 before a _ ha b rest hb ih =>
    obtain ⟨hle, hlt⟩ := within_iff.mp ha
    replace ha : 0xC0 ≤ a.toNat ∧ a.toNat < 0xE0 := ⟨hle, Nat.lt_succ_of_le hlt⟩
    replace hb := isContinuation_iff.mp hb
    exact hcons (.two ha hb (toNat_two ha hb)) (ih h)
  | case6 before a _ _ ha b c rest hbc ih =>
    obtain ⟨hle, hlt⟩ := within_iff.mp ha
    replace ha : 0xE0 ≤ a.toNat ∧ a.toNat < 0xF0 := ⟨hle, Nat.lt_succ_of_le hlt⟩
    rw [Bool.and_eq_true, isContinuation_iff, isContinuation_iff] at hbc
    obtain ⟨hb, hc⟩ := hbc
    exact hcons (.three ha hb hc (toNat_three ha hb hc)) (ih h)
  | case4 | case5 | case7 | case8 | case9 => cases h

theorem isPlain_iff {b : UInt8} : isPlain b = true ↔ 0x01 ≤ b.toNat ∧ b.toNat < 0x80 := by
  rw [isPlain, Bool.and_eq_true, decide_eq_true_eq, decide_eq_true_eq, UInt8.le_iff_toNat_le,
    UInt8.lt_iff_toNat_lt]
  rfl

/-- Plain bytes are the units that they spell. -/
theorem unitsFrom_of_isPlain {bytes : Bytes} (h : ∀ b ∈ bytes, isPlain b = true)
    (before : List UInt16) :
    unitsFrom before bytes = .ok (before.reverse ++ bytes.map UInt8.toUInt16) := by
  induction bytes generalizing before with
  | nil => simp [unitsFrom]
  | cons b bytes ih =>
    obtain ⟨hb, hbytes⟩ := List.forall_mem_cons.mp h
    rw [unitsFrom_one (isPlain_iff.mp hb), ih hbytes, List.map_cons]
    simp

/-- Byte strings are read as the units that they spell. -/
theorem units_eq_ok {units : List UInt16} {bytes : Bytes} : ModifiedUtf8.units bytes = .ok units ↔
    ∃ rows, List.Forall₂ Spells units rows ∧ bytes = rows.flatten := by
  constructor
  · intro h
    obtain ⟨spelled, rows, rfl, hspelled, hbytes⟩ := exists_of_unitsFrom h
    exact ⟨rows, hspelled, hbytes⟩
  · rintro ⟨rows, hspelled, rfl⟩
    exact unitsFrom_flatten hspelled []

end ModifiedUtf8

namespace Utf16

theorem isHigh_iff {unit : UInt16} :
    isHigh unit = true ↔ 0xD800 ≤ unit.toNat ∧ unit.toNat < 0xDC00 := by
  rw [isHigh, Bool.and_eq_true, decide_eq_true_eq, decide_eq_true_eq, UInt16.le_iff_toNat_le,
    UInt16.lt_iff_toNat_lt]
  rfl

theorem isLow_iff {unit : UInt16} :
    isLow unit = true ↔ 0xDC00 ≤ unit.toNat ∧ unit.toNat < 0xE000 := by
  rw [isLow, Bool.and_eq_true, decide_eq_true_eq, decide_eq_true_eq, UInt16.le_iff_toNat_le,
    UInt16.lt_iff_toNat_lt]
  rfl

private theorem toNat_ofNat {n : Nat} (h : n.isValidChar) : (Char.ofNat n).toNat = n := by
  rw [Char.ofNat, dif_pos h]
  rfl

/-- A character is read back from its code units. -/
theorem decodeFrom_ofChar (before : List Char) (c : Char) (rest : List UInt16) :
    decodeFrom before (ofChar c ++ rest) = decodeFrom (c :: before) rest := by
  have hvalid : c.toNat < 0xD800 ∨ 0xDFFF < c.toNat ∧ c.toNat < 0x110000 := c.valid
  by_cases hbasic : c.toNat < 0x10000
  · have hunit : (UInt16.ofNat c.toNat).toNat = c.toNat := UInt16.toNat_ofNat_of_lt' hbasic
    have hhigh : ¬isHigh (UInt16.ofNat c.toNat) = true := by
      rw [isHigh_iff, hunit]
      omega
    have hlow : ¬isLow (UInt16.ofNat c.toNat) = true := by
      rw [isLow_iff, hunit]
      omega
    rw [ofChar, if_pos hbasic, List.singleton_append, decodeFrom.eq_def]
    simp [hhigh, hlow, hunit]
  · have hfirst : (UInt16.ofNat (0xD800 + (c.toNat - 0x10000) / 0x400)).toNat =
        0xD800 + (c.toNat - 0x10000) / 0x400 :=
      UInt16.toNat_ofNat_of_lt' (show _ < 65536 by omega)
    have hsecond : (UInt16.ofNat (0xDC00 + (c.toNat - 0x10000) % 0x400)).toNat =
        0xDC00 + (c.toNat - 0x10000) % 0x400 :=
      UInt16.toNat_ofNat_of_lt' (show _ < 65536 by omega)
    have hhigh : isHigh (UInt16.ofNat (0xD800 + (c.toNat - 0x10000) / 0x400)) = true := by
      rw [isHigh_iff, hfirst]
      omega
    have hlow : isLow (UInt16.ofNat (0xDC00 + (c.toNat - 0x10000) % 0x400)) = true := by
      rw [isLow_iff, hsecond]
      omega
    have hpair : pair (UInt16.ofNat (0xD800 + (c.toNat - 0x10000) / 0x400))
        (UInt16.ofNat (0xDC00 + (c.toNat - 0x10000) % 0x400)) = c := by
      have hsum : 0x10000 + (0xD800 + (c.toNat - 0x10000) / 0x400 - 0xD800) * 0x400 +
          (0xDC00 + (c.toNat - 0x10000) % 0x400 - 0xDC00) = c.toNat := by omega
      rw [pair, hfirst, hsecond, hsum, Char.ofNat_toNat]
    rw [ofChar, if_neg hbasic, List.cons_append, List.singleton_append, decodeFrom.eq_def]
    simp only [hhigh, hlow, hpair, if_true]

theorem decodeFrom_flatMap (before text : List Char) :
    decodeFrom before (text.flatMap ofChar) = some (before.reverse ++ text) := by
  induction text generalizing before with
  | nil => simp [decodeFrom]
  | cons c text ih => rw [List.flatMap_cons, decodeFrom_ofChar, ih]; simp

/-- A pair of surrogates holds the units of its character. -/
theorem ofChar_pair {high low : UInt16} (hhigh : isHigh high = true) (hlow : isLow low = true) :
    ofChar (pair high low) = [high, low] := by
  obtain ⟨hle, hlt⟩ := isHigh_iff.mp hhigh
  obtain ⟨hle', hlt'⟩ := isLow_iff.mp hlow
  have hpair : (pair high low).toNat =
      0x10000 + (high.toNat - 0xD800) * 0x400 + (low.toNat - 0xDC00) := by
    rw [pair, toNat_ofNat (.inr ⟨by omega, by omega⟩)]
  have hfirst : 0xD800 + ((pair high low).toNat - 0x10000) / 0x400 = high.toNat := by omega
  have hsecond : 0xDC00 + ((pair high low).toNat - 0x10000) % 0x400 = low.toNat := by omega
  rw [ofChar, if_neg (by omega)]
  dsimp only
  rw [hfirst, hsecond, UInt16.ofNat_toNat, UInt16.ofNat_toNat]

/-- A unit that is no surrogate is that of its character. -/
theorem ofChar_ofNat {unit : UInt16} (hhigh : ¬isHigh unit = true) (hlow : ¬isLow unit = true) :
    ofChar (Char.ofNat unit.toNat) = [unit] := by
  have hunit : unit.toNat < 65536 := unit.toNat_lt
  rw [isHigh_iff] at hhigh
  rw [isLow_iff] at hlow
  have hvalid : unit.toNat.isValidChar := by
    by_cases h : unit.toNat < 0xD800
    · exact .inl h
    · exact .inr ⟨by omega, by omega⟩
  rw [ofChar, toNat_ofNat hvalid, if_pos hunit, UInt16.ofNat_toNat]

/-- Text holds just the units that it has been read from. -/
theorem exists_of_decodeFrom {before chars : List Char} {units : List UInt16}
    (h : decodeFrom before units = some chars) :
    ∃ text, chars = before.reverse ++ text ∧ text.flatMap ofChar = units := by
  fun_induction decodeFrom before units with
  | case1 before => exact ⟨[], by simpa using (Option.some.inj h).symm, rfl⟩
  | case2 before high hhigh low rest hlow ih =>
    obtain ⟨text, rfl, rfl⟩ := ih h
    refine ⟨pair high low :: text, by simp, ?_⟩
    rw [List.flatMap_cons, ofChar_pair hhigh hlow, List.cons_append, List.singleton_append]
  | case3 | case4 | case5 => cases h
  | case6 before unit rest hhigh hlow ih =>
    obtain ⟨text, rfl, rfl⟩ := ih h
    refine ⟨Char.ofNat unit.toNat :: text, by simp, ?_⟩
    rw [List.flatMap_cons, ofChar_ofNat hhigh hlow, List.singleton_append]

/-- Units are read as the text that is encoded by them, and as no other. -/
theorem decode?_eq_some {units : List UInt16} {text : String} :
    decode? units = some text ↔ encode text = units := by
  constructor
  · intro h
    obtain ⟨chars, hchars, rfl⟩ := Option.map_eq_some_iff.mp h
    obtain ⟨text, rfl, hunits⟩ := exists_of_decodeFrom hchars
    simpa [encode] using hunits
  · rintro rfl
    simp [decode?, encode, decodeFrom_flatMap]

theorem encode_inj {text text' : String} (h : encode text = encode text') : text = text' := by
  have htext : decode? (encode text) = some text := decode?_eq_some.mpr rfl
  have htext' : decode? (encode text) = some text' := decode?_eq_some.mpr h.symm
  exact Option.some.inj (htext.symm.trans htext')

end Utf16

namespace ModifiedUtf8

/-- The characters that plain bytes are taken as have these bytes as units. -/
theorem utf16_of_isPlain {bytes : Bytes} (h : ∀ b ∈ bytes, isPlain b = true) :
    Utf16.encode (String.ofList (bytes.map fun b => Char.ofNat b.toNat)) =
      bytes.map UInt8.toUInt16 := by
  rw [Utf16.encode, String.toList_ofList]
  induction bytes with
  | nil => rfl
  | cons b bytes ih =>
    obtain ⟨hb, hbytes⟩ := List.forall_mem_cons.mp h
    have hunit := UInt8.toNat_toUInt16 b
    have hlt := (isPlain_iff.mp hb).2
    have hchar : Utf16.ofChar (Char.ofNat b.toNat) = [b.toUInt16] := by
      rw [← hunit]
      refine Utf16.ofChar_ofNat ?_ ?_
      · rw [Utf16.isHigh_iff]
        omega
      · rw [Utf16.isLow_iff]
        omega
    rw [List.map_cons, List.flatMap_cons, hchar, ih hbytes]
    rfl

/-- Text is what its units are read as, also where the bytes are plain. -/
theorem decode_eq_ok_iff_units {bytes : Bytes} {text : String} :
    decode bytes = .ok text ↔ ModifiedUtf8.units bytes = .ok (Utf16.encode text) := by
  rw [decode]
  split
  · rename_i hplain
    replace hplain := List.all_eq_true.mp hplain
    have hunits : ModifiedUtf8.units bytes = .ok (bytes.map UInt8.toUInt16) :=
      unitsFrom_of_isPlain hplain []
    rw [hunits, ← utf16_of_isPlain hplain, Except.ok.injEq, Except.ok.injEq]
    exact ⟨congrArg Utf16.encode, Utf16.encode_inj⟩
  · constructor
    · intro h
      split at h
      · cases h
      · rename_i units hunits
        split at h
        · rename_i text' htext
          obtain rfl := Except.ok.inj h
          rw [Utf16.decode?_eq_some.mp htext, hunits]
        · cases h
    · intro h
      rw [h]
      dsimp only
      rw [Utf16.decode?_eq_some.mpr rfl]

/-- Text is read from the byte strings that spell its code units. -/
theorem decode_eq_ok {bytes : Bytes} {text : String} : decode bytes = .ok text ↔
    ∃ rows, List.Forall₂ Spells (Utf16.encode text) rows ∧ bytes = rows.flatten := by
  rw [decode_eq_ok_iff_units, units_eq_ok]

/-- Text is read back from its stored form. -/
theorem decode_encode (text : String) : decode (encode text) = .ok text :=
  decode_eq_ok.mpr ⟨_, spells_map_encodeUnit (Utf16.encode text), List.flatMap_def⟩

end ModifiedUtf8
end ClassPatch.Text
