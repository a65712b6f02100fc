/-!
# Decimal numbers

A number is written with the digits 0 to 9, leading zeros allowed, and may have a plus sign in
front. A bound is part of reading: a number that exceeds it has no value.
-/

namespace ClassPatch.Text.Decimal

/-- The value of a decimal digit. -/
def digit? (c : Char) : Option Nat :=
  if '0' ≤ c ∧ c ≤ '9' then some (c.toNat - '0'.toNat) else none

/-- The value of digits behind the value `n`. -/
def readDigits (n : Nat) : List Char → Option Nat
  | [] => some n
  | c :: rest => do readDigits (10 * n + (← digit? c)) rest

/-- The value of one or more digits. -/
def readNat : List Char → Option Nat
  | [] => none
  | digits => readDigits 0 digits

/-- Drops a plus sign in front. -/
def dropPlus : List Char → List Char
  | '+' :: rest => rest
  | text => text

/-- The number that a text writes, if it fits in 32 bits. -/
def readUInt32 (text : List Char) : Option UInt32 := do
  let n ← readNat (dropPlus text)
  if n < UInt32.size then some (UInt32.ofNat n) else none

end ClassPatch.Text.Decimal
