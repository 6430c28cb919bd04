/-!
# Byte strings and big-endian words

Everything the archive persists is a list of bytes, and every integer in it takes a fixed number of
bytes, the most significant one first. Main statements: writing a number and reading it back gives
the number modulo the capacity of its bytes, and reading bytes and writing them back gives the
bytes.
-/

namespace Chronicle

/-- A byte string. -/
abbrev Bytes := List UInt8

namespace BigEndian

/-- How many numbers can be told apart in `width` bytes. -/
def capacity : (width : Nat) → Nat
  | 0 => 1
  | width + 1 => 256 * capacity width

/-- The lowest `width` bytes of a number, most significant byte first. -/
def encode : (width n : Nat) → Bytes
  | 0, _ => []
  | width + 1, n => UInt8.ofNat (n / capacity width) :: encode width n

/-- The number whose digits in base 256 are the given bytes, most significant first. -/
def decode (bytes : Bytes) : Nat :=
  bytes.foldl (fun n byte => 256 * n + byte.toNat) 0

private theorem capacity_pos (width : Nat) : 0 < capacity width := by
  induction width with
  | zero => decide
  | succ width ih => exact Nat.mul_pos (by decide) ih

private theorem capacity_add (v w : Nat) : capacity (v + w) = capacity v * capacity w := by
  induction v with
  | zero => rw [Nat.zero_add, capacity, Nat.one_mul]
  | succ v ih => rw [Nat.succ_add, capacity, capacity, ih, Nat.mul_assoc]

/-- A word of a given width is written with that many bytes. -/
@[simp]
theorem length_encode (width n : Nat) : (encode width n).length = width := by
  induction width with
  | zero => rfl
  | succ width ih => simp [encode, ih]

/-- Reading on from a number already read shifts that number by the width of the rest. -/
theorem foldl_eq_add_decode (bytes : Bytes) (n : Nat) :
    bytes.foldl (fun n byte => 256 * n + byte.toNat) n =
      n * capacity bytes.length + decode bytes := by
  induction bytes generalizing n with
  | nil => simp [decode, capacity]
  | cons byte bytes ih =>
    simp only [decode, List.foldl_cons, List.length_cons, Nat.mul_zero, Nat.zero_add]
    rw [ih, ih byte.toNat, capacity, Nat.add_mul, Nat.mul_comm 256 n, Nat.mul_assoc, Nat.add_assoc]

private theorem decode_cons (byte : UInt8) (bytes : Bytes) :
    decode (byte :: bytes) = byte.toNat * capacity bytes.length + decode bytes := by
  simp only [decode, List.foldl_cons, Nat.mul_zero, Nat.zero_add]
  exact foldl_eq_add_decode bytes byte.toNat

/-- A number written in `width` bytes is read back modulo their capacity. -/
theorem decode_encode (width n : Nat) : decode (encode width n) = n % capacity width := by
  induction width with
  | zero => simp [encode, decode, capacity, Nat.mod_one]
  | succ width ih =>
    rw [encode, decode_cons, length_encode, ih, UInt8.toNat_ofNat', capacity, Nat.mul_comm 256,
      Nat.mod_mul, Nat.add_comm, Nat.mul_comm]

/-- The bytes read as a word stay below the capacity of their width. -/
theorem decode_lt (bytes : Bytes) : decode bytes < capacity bytes.length := by
  induction bytes with
  | nil => simp [decode, capacity]
  | cons byte bytes ih =>
    have hbyte : byte.toNat < 256 := byte.toNat_lt
    rw [decode_cons, List.length_cons, capacity]
    calc byte.toNat * capacity bytes.length + decode bytes
        < byte.toNat * capacity bytes.length + capacity bytes.length := by omega
      _ = (byte.toNat + 1) * capacity bytes.length := by rw [Nat.add_mul, Nat.one_mul]
      _ ≤ 256 * capacity bytes.length := Nat.mul_le_mul_right _ hbyte

/-- Only the lowest bytes of a number are written. -/
theorem encode_mod (width n : Nat) : encode width (n % capacity width) = encode width n := by
  suffices h : ∀ w ≤ width, encode w (n % capacity width) = encode w n from h width (Nat.le_refl _)
  intro w hw
  induction w with
  | zero => rfl
  | succ w ih =>
    obtain ⟨rest, rfl⟩ : ∃ rest, width = w + (rest + 1) := ⟨width - w - 1, by omega⟩
    have hsplit : capacity (w + (rest + 1)) = capacity w * (256 * capacity rest) := by
      rw [capacity_add, capacity]
    simp only [encode, ih (by omega), List.cons.injEq, and_true]
    apply UInt8.toNat_inj.mp
    rw [UInt8.toNat_ofNat', UInt8.toNat_ofNat', hsplit, Nat.mod_mul_right_div_self]
    exact Nat.mod_mul_right_mod ..

/-- Bytes that were read are written back unchanged. -/
theorem encode_decode (bytes : Bytes) : encode bytes.length (decode bytes) = bytes := by
  induction bytes with
  | nil => rfl
  | cons byte bytes ih =>
    have hlt := decode_lt bytes
    rw [List.length_cons, encode, decode_cons, Nat.mul_comm,
      Nat.mul_add_div (capacity_pos _), Nat.div_eq_of_lt hlt, Nat.add_zero, UInt8.ofNat_toNat]
    rw [← encode_mod, Nat.mul_add_mod, Nat.mod_eq_of_lt hlt, ih]

end BigEndian

end Chronicle
