import ClassPatch.Text.Decimal
import Mathlib.Data.Nat.Digits.Defs

/-!
# Decimal notation

`Decimal.Writes text n` says that a text is a decimal notation of a 32-bit number: digits, perhaps
with a plus sign in front. Reading gives the number of just these texts.
-/

namespace ClassPatch.Text.Decimal

/-- The character is one of the digits 0 to 9. -/
def IsDigit (c : Char) : Prop := '0' ≤ c ∧ c ≤ '9'

instance (c : Char) : Decidable (IsDigit c) := inferInstanceAs (Decidable ('0' ≤ c ∧ c ≤ '9'))

/-- The number that digits write, the most significant one first. -/
def value (digits : List Char) : Nat :=
  Nat.ofDigits 10 (digits.reverse.map fun c => c.toNat - '0'.toNat)

/-- The text consists of digits that write the number, perhaps behind a plus sign. -/
def Writes (text : List Char) (n : UInt32) : Prop :=
  ∃ digits, digits ≠ [] ∧ (text = digits ∨ text = '+' :: digits) ∧ (∀ c ∈ digits, IsDigit c) ∧
    n.toNat = value digits

theorem value_cons (c : Char) (digits : List Char) :
    value (c :: digits) = value digits + 10 ^ digits.length * (c.toNat - '0'.toNat) := by
  rw [value, List.reverse_cons, List.map_append, Nat.ofDigits_append, List.length_map,
    List.length_reverse, List.map_singleton, Nat.ofDigits_singleton, value]

theorem digit?_of_isDigit {c : Char} (h : IsDigit c) : digit? c = some (c.toNat - '0'.toNat) :=
  if_pos h

theorem digit?_eq_none {c : Char} (h : ¬IsDigit c) : digit? c = none := if_neg h

/-- The digits read so far are worth what they are in front of the others. -/
theorem readDigits_eq {digits : List Char} (h : ∀ c ∈ digits, IsDigit c) (n : Nat) :
    readDigits n digits = some (n * 10 ^ digits.length + value digits) := by
  induction digits generalizing n with
  | nil => rw [readDigits, List.length_nil, Nat.pow_zero, Nat.mul_one]; rfl
  | cons c digits ih =>
    rw [List.forall_mem_cons] at h
    calc readDigits n (c :: digits)
      _ = readDigits (10 * n + (c.toNat - '0'.toNat)) digits := by
        rw [readDigits, digit?_of_isDigit h.1]
        rfl
      _ = some ((10 * n + (c.toNat - '0'.toNat)) * 10 ^ digits.length + value digits) :=
        ih h.2 _
      _ = some (n * 10 ^ (c :: digits).length + value (c :: digits)) := by
        rw [value_cons, List.length_cons, Nat.pow_succ]
        congr 1
        ring

theorem isDigit_of_readDigits {digits : List Char} {n m : Nat} (h : readDigits n digits = some m) :
    ∀ c ∈ digits, IsDigit c := by
  induction digits generalizing n with
  | nil => exact nofun
  | cons c digits ih =>
    by_cases hc : IsDigit c
    · rw [readDigits, digit?_of_isDigit hc] at h
      exact List.forall_mem_cons.mpr ⟨hc, ih h⟩
    · rw [readDigits, digit?_eq_none hc] at h
      cases h

theorem readNat_eq_some {text : List Char} {n : Nat} :
    readNat text = some n ↔ text ≠ [] ∧ (∀ c ∈ text, IsDigit c) ∧ n = value text := by
  cases text with
  | nil => exact iff_of_false nofun fun h => h.1 rfl
  | cons c digits =>
    have hread : readNat (c :: digits) = readDigits 0 (c :: digits) := rfl
    rw [hread]
    constructor
    · intro h
      have hdigits := isDigit_of_readDigits h
      rw [readDigits_eq hdigits, Nat.zero_mul, Nat.zero_add] at h
      exact ⟨nofun, hdigits, (Option.some.inj h).symm⟩
    · rintro ⟨-, hdigits, rfl⟩
      rw [readDigits_eq hdigits, Nat.zero_mul, Nat.zero_add]

/-- A plus sign is no digit. -/
theorem dropPlus_of_isDigit {digits : List Char} (h : ∀ c ∈ digits, IsDigit c) :
    dropPlus digits = digits := by
  rw [dropPlus.eq_def]
  split
  · exact absurd (h '+' (List.mem_cons_self ..)) (by decide)
  · rfl

theorem eq_dropPlus (text : List Char) : text = dropPlus text ∨ text = '+' :: dropPlus text := by
  rw [dropPlus.eq_def]
  split
  · exact .inr rfl
  · exact .inl rfl

theorem readUInt32_eq_some_iff {text : List Char} {n : UInt32} :
    readUInt32 text = some n ↔ Writes text n := by
  constructor
  · intro h
    obtain ⟨m, hm, h⟩ := Option.bind_eq_some_iff.mp h
    obtain ⟨hne, hdigits, rfl⟩ := readNat_eq_some.mp hm
    split at h
    · rename_i hfits
      obtain rfl := Option.some.inj h
      exact ⟨dropPlus text, hne, eq_dropPlus text, hdigits, UInt32.toNat_ofNat_of_lt' hfits⟩
    · cases h
  · rintro ⟨digits, hne, htext, hdigits, hn⟩
    have hdrop : dropPlus text = digits := by
      obtain rfl | rfl := htext
      · exact dropPlus_of_isDigit hdigits
      · rfl
    have hfits : value digits < UInt32.size := hn ▸ n.toNat_lt
    have hread : readNat digits = some (value digits) := readNat_eq_some.mpr ⟨hne, hdigits, rfl⟩
    refine Option.bind_eq_some_iff.mpr ⟨value digits, by rw [hdrop, hread], ?_⟩
    rw [if_pos hfits, ← hn, UInt32.ofNat_toNat]

end ClassPatch.Text.Decimal
