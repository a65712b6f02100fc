/-!
# Big-endian words

Every number in a class file takes a fixed count of bytes, most significant first. `Word` says
for a machine type how many bytes those are and which natural number they spell; `encode` and
`decode` are then one codec for all of them. `decode_encode` and `encode_decode` make the two
directions inverse on byte strings of the right length.
-/

namespace ClassPatch

/-- A byte string. -/
abbrev Bytes := List UInt8

namespace Bytes

/-- The least number that `width` bytes cannot spell. -/
def bound : Nat → Nat
  | 0 => 1
  | width + 1 => bound width * 256

theorem bound_pos (width : Nat) : 0 < bound width := by
  induction width with
  | zero => exact Nat.one_pos
  | succ width ih => exact Nat.mul_pos ih (by decide)

/-- The `width` big-endian bytes of `n`; what lies above them is dropped. -/
def ofNat : Nat → Nat → Bytes
  | 0, _ => []
  | width + 1, n => UInt8.ofNat (n / bound width) :: ofNat width n

/-- The number that big-endian bytes spell. -/
def toNat (bytes : Bytes) : Nat :=
  bytes.foldl (fun n b => n * 256 + b.toNat) 0

@[simp] theorem length_ofNat (width n : Nat) : (ofNat width n).length = width := by
  induction width with
  | zero => rfl
  | succ width ih => simp [ofNat, ih]

private theorem foldl_toNat (bytes : Bytes) (n : Nat) :
    bytes.foldl (fun n b => n * 256 + b.toNat) n = n * bound bytes.length + toNat bytes := by
  induction bytes generalizing n with
  | nil => exact (Nat.mul_one n).symm
  | cons b bytes ih =>
    have h := ih (n * 256 + b.toNat)
    have h' := ih b.toNat
    simp only [toNat, List.foldl_cons, List.length_cons, Nat.zero_mul, Nat.zero_add] at h h' ⊢
    rw [h, h', Nat.add_mul, bound, Nat.mul_comm (bound bytes.length) 256,
      Nat.mul_assoc, Nat.add_assoc]

@[simp] theorem toNat_nil : toNat [] = 0 := rfl

theorem toNat_cons (b : UInt8) (bytes : Bytes) :
    toNat (b :: bytes) = b.toNat * bound bytes.length + toNat bytes := by
  simpa [toNat] using foldl_toNat bytes b.toNat

theorem toNat_lt (bytes : Bytes) : toNat bytes < bound bytes.length := by
  induction bytes with
  | nil => exact Nat.one_pos
  | cons b bytes ih =>
    have hb : b.toNat < 256 := b.toNat_lt
    rw [toNat_cons, List.length_cons, bound]
    have : b.toNat * bound bytes.length ≤ 255 * bound bytes.length :=
      Nat.mul_le_mul_right _ (by omega)
    omega

theorem toNat_ofNat (width n : Nat) : toNat (ofNat width n) = n % bound width := by
  induction width with
  | zero => exact (Nat.mod_one n).symm
  | succ width ih =>
    rw [ofNat, toNat_cons, ih, length_ofNat, UInt8.toNat_ofNat', bound,
      Nat.mod_mul, Nat.mul_comm, Nat.add_comm]

theorem ofNat_toNat (bytes : Bytes) : ofNat bytes.length (toNat bytes) = bytes := by
  suffices h : ∀ (bytes : Bytes) (k : Nat),
      ofNat bytes.length (k * bound bytes.length + toNat bytes) = bytes by
    simpa using h bytes 0
  intro bytes
  induction bytes with
  | nil => intro k; rfl
  | cons b bytes ih =>
    intro k
    have hlt := toNat_lt bytes
    have hpos := bound_pos bytes.length
    have hsum : k * bound (bytes.length + 1) + (b.toNat * bound bytes.length + toNat bytes)
        = (k * 256 + b.toNat) * bound bytes.length + toNat bytes := by
      rw [bound, Nat.add_mul, Nat.mul_comm (bound bytes.length) 256, ← Nat.mul_assoc,
        Nat.add_assoc]
    rw [List.length_cons, toNat_cons, hsum, ofNat, ih (k * 256 + b.toNat)]
    congr 1
    rw [Nat.mul_comm (k * 256 + b.toNat), Nat.mul_add_div hpos, Nat.div_eq_of_lt hlt, Nat.add_zero]
    apply UInt8.toNat_inj.mp
    have hb : b.toNat < 256 := b.toNat_lt
    simp only [UInt8.toNat_ofNat']
    omega

end Bytes

/-- A type whose values are exactly the words of `width` bytes. -/
class Word (α : Type) where
  width : Nat
  toNat : α → Nat
  ofNat : Nat → α
  toNat_lt : ∀ x, toNat x < Bytes.bound width
  ofNat_toNat : ∀ x, ofNat (toNat x) = x
  toNat_ofNat : ∀ n, n < Bytes.bound width → toNat (ofNat n) = n

namespace Word

instance : Word UInt8 where
  width := 1
  toNat := UInt8.toNat
  ofNat := UInt8.ofNat
  toNat_lt x := x.toNat_lt
  ofNat_toNat _ := UInt8.ofNat_toNat
  toNat_ofNat n h := by simpa [Bytes.bound] using h

instance : Word UInt16 where
  width := 2
  toNat := UInt16.toNat
  ofNat := UInt16.ofNat
  toNat_lt x := x.toNat_lt
  ofNat_toNat _ := UInt16.ofNat_toNat
  toNat_ofNat n h := by simpa [Bytes.bound] using h

instance : Word UInt32 where
  width := 4
  toNat := UInt32.toNat
  ofNat := UInt32.ofNat
  toNat_lt x := x.toNat_lt
  ofNat_toNat _ := UInt32.ofNat_toNat
  toNat_ofNat n h := by simpa [Bytes.bound] using h

instance : Word UInt64 where
  width := 8
  toNat := UInt64.toNat
  ofNat := UInt64.ofNat
  toNat_lt x := x.toNat_lt
  ofNat_toNat _ := UInt64.ofNat_toNat
  toNat_ofNat n h := by simpa [Bytes.bound] using h

instance : Word Int8 where
  width := 1
  toNat x := x.toUInt8.toNat
  ofNat n := (UInt8.ofNat n).toInt8
  toNat_lt x := x.toUInt8.toNat_lt
  ofNat_toNat x := by simp
  toNat_ofNat n h := by simpa [Bytes.bound] using h

instance : Word Int16 where
  width := 2
  toNat x := x.toUInt16.toNat
  ofNat n := (UInt16.ofNat n).toInt16
  toNat_lt x := x.toUInt16.toNat_lt
  ofNat_toNat x := by simp
  toNat_ofNat n h := by simpa [Bytes.bound] using h

instance : Word Int32 where
  width := 4
  toNat x := x.toUInt32.toNat
  ofNat n := (UInt32.ofNat n).toInt32
  toNat_lt x := x.toUInt32.toNat_lt
  ofNat_toNat x := by simp
  toNat_ofNat n h := by simpa [Bytes.bound] using h

instance : Word Int64 where
  width := 8
  toNat x := x.toUInt64.toNat
  ofNat n := (UInt64.ofNat n).toInt64
  toNat_lt x := x.toUInt64.toNat_lt
  ofNat_toNat x := by simp
  toNat_ofNat n h := by simpa [Bytes.bound] using h

variable {α : Type} [Word α]

/-- The bytes of a word. -/
def encode (x : α) : Bytes := Bytes.ofNat (width α) (toNat x)

/-- The word that `width α` bytes spell. -/
def decode (α : Type) [Word α] (bytes : Bytes) : α := ofNat bytes.toNat

@[simp] theorem length_encode (x : α) : (encode x).length = width α := by simp [encode]

@[simp] theorem decode_encode (x : α) : decode α (encode x) = x := by
  rw [decode, encode, Bytes.toNat_ofNat, Nat.mod_eq_of_lt (toNat_lt x), ofNat_toNat]

theorem encode_decode {bytes : Bytes} (h : bytes.length = width α) :
    encode (decode α bytes) = bytes := by
  have hlt : bytes.toNat < Bytes.bound (width α) := h ▸ Bytes.toNat_lt bytes
  rw [encode, decode, toNat_ofNat _ hlt, ← h, Bytes.ofNat_toNat]

end Word
end ClassPatch
