import Mathlib.Tactic.Ring
import Stencil.Encoding.Sha256
import Stencil.Proofs.Sha256.Standard

/-!
# Messages of bytes

Bytes are strings of bits whose length is a multiple of eight. What is put behind a message of
bytes is what the standard puts behind its bits, and the words of bytes are those of the bits.
-/

namespace Stencil.Sha256
open Standard (binary bits number wordAt)
variable {bytes : List UInt8}

/-! ## Numbers in bits -/

theorem length_binary (width n : Nat) : (binary width n).length = width := by
  rw [binary, List.length_map, List.length_range]

theorem binary_add (high low n : Nat) :
    binary (high + low) n = binary high (n / 2 ^ low) ++ binary low n := by
  rw [binary, List.range_add, List.map_append, List.map_map]
  congr 1
  · apply List.map_congr_left
    intro i hi
    have hlt := List.mem_range.mp hi
    rw [Nat.testBit_div_two_pow]
    congr 1
    omega
  · apply List.map_congr_left
    intro i hi
    have hlt := List.mem_range.mp hi
    rw [Function.comp_apply]
    congr 1
    omega

theorem binary_mod (width n : Nat) : binary width (n % 2 ^ width) = binary width n := by
  apply List.map_congr_left
  intro i hi
  have hlt := List.mem_range.mp hi
  rw [Nat.testBit_mod_two_pow, decide_eq_true (by omega), Bool.true_and]

theorem foldl_number (s : List Bool) (n : Nat) :
    s.foldl (fun n b => 2 * n + b.toNat) n = n * 2 ^ s.length + number s := by
  induction s generalizing n with
  | nil => simp [number]
  | cons b s ih =>
    have hone : number (b :: s) = (2 * 0 + b.toNat) * 2 ^ s.length + number s := ih _
    rw [List.foldl_cons, ih, hone, List.length_cons, Nat.pow_succ]
    ring

theorem number_append (s t : List Bool) :
    number (s ++ t) = number s * 2 ^ t.length + number t := by
  rw [← foldl_number]
  exact List.foldl_append

/-- Bits are read as the number that they were written for, as far as they reach. -/
theorem number_binary (width n : Nat) : number (binary width n) = n % 2 ^ width := by
  induction width with
  | zero => rw [Nat.pow_zero, Nat.mod_one]; rfl
  | succ width ih =>
    have hbit (m : Nat) : number (binary 1 m) = m % 2 := by
      rcases Nat.mod_two_eq_zero_or_one m with h | h <;> simp [binary, number, h]
    rw [Nat.add_comm width 1, binary_add, number_append, ih, hbit, length_binary, Nat.add_comm 1,
      Nat.mod_pow_succ]
    ring

/-! ## Bits of bytes -/

@[simp] theorem bits_cons (b : UInt8) (bytes : List UInt8) :
    bits (b :: bytes) = binary 8 b.toNat ++ bits bytes := List.flatMap_cons

@[simp] theorem bits_append (s t : List UInt8) : bits (s ++ t) = bits s ++ bits t :=
  List.flatMap_append

theorem length_bits (bytes : List UInt8) : (bits bytes).length = 8 * bytes.length := by
  induction bytes with
  | nil => rfl
  | cons b bytes ih =>
    rw [bits_cons, List.length_append, length_binary, ih, List.length_cons]
    omega

theorem drop_bits (k : Nat) (bytes : List UInt8) :
    (bits bytes).drop (8 * k) = bits (bytes.drop k) := by
  induction k generalizing bytes with
  | zero => rfl
  | succ k ih =>
    cases bytes with
    | nil => simp [bits]
    | cons b bytes =>
      rw [bits_cons, Nat.mul_succ, Nat.add_comm, ← List.drop_drop,
        List.drop_left' (length_binary _ _), ih, List.drop_succ_cons]

theorem take_bits (k : Nat) (bytes : List UInt8) :
    (bits bytes).take (8 * k) = bits (bytes.take k) := by
  induction k generalizing bytes with
  | zero => rfl
  | succ k ih =>
    cases bytes with
    | nil => simp [bits]
    | cons b bytes =>
      rw [bits_cons, Nat.mul_succ, Nat.add_comm, List.take_add, List.take_left' (length_binary _ _),
        List.drop_left' (length_binary _ _), ih, List.take_succ_cons, bits_cons]

theorem bits_bigEndian (count n : Nat) : bits (bigEndian count n) = binary (8 * count) n := by
  induction count generalizing n with
  | zero => rfl
  | succ count ih =>
    have hlast : binary 8 (UInt8.ofNat n).toNat = binary 8 n := by
      rw [UInt8.toNat_ofNat', binary_mod]
    rw [bigEndian, bits_append, ih, bits_cons, hlast, Nat.mul_succ, binary_add]
    simp [bits]

theorem bits_replicate_zero (n : Nat) :
    bits (List.replicate n 0) = List.replicate (8 * n) false := by
  induction n with
  | zero => rfl
  | succ n ih =>
    have hbyte : binary 8 (0 : UInt8).toNat = List.replicate 8 false := by decide
    rw [List.replicate_succ, bits_cons, ih, hbyte, List.replicate_append_replicate, Nat.mul_succ,
      Nat.add_comm]

/-! ## Padding -/

theorem zeros_bytes (n : Nat) : Standard.zeros (8 * n) = 7 + 8 * ((119 - n % 64) % 64) := by
  rw [Standard.zeros, Nat.find_eq_iff]
  constructor
  · omega
  · intro fewer hfewer
    omega

/-- What is put behind bytes is what the standard puts behind their bits. -/
theorem bits_append_padding (bytes : List UInt8) :
    bits (bytes ++ padding bytes.length) = Standard.pad (bits bytes) := by
  have hone : binary 8 (0x80 : UInt8).toNat = true :: List.replicate 7 false := by decide
  rw [bits_append, Standard.pad, padding, bits_cons, hone, bits_append, bits_replicate_zero,
    bits_bigEndian, length_bits, zeros_bytes, ← List.replicate_append_replicate]
  simp

theorem length_append_padding (bytes : List UInt8) :
    ∃ blocks, (bytes ++ padding bytes.length).length = 64 * blocks := by
  have hlength (count n : Nat) : (bigEndian count n).length = count := by
    induction count generalizing n with
    | zero => rfl
    | succ count ih => rw [bigEndian, List.length_append, ih, List.length_singleton]
  refine ⟨(bytes.length + 9 + (119 - bytes.length % 64) % 64) / 64, ?_⟩
  rw [List.length_append, padding, List.length_cons, List.length_append, List.length_replicate,
    hlength]
  omega

/-! ## Words -/

theorem wordAt_bits (bytes : List UInt8) (i : Nat) :
    wordAt (bits bytes) i = BitVec.ofNat 32 (number (bits ((bytes.drop (4 * i)).take 4))) := by
  rw [wordAt, ← take_bits, ← drop_bits, ← Nat.mul_assoc]

theorem wordAt_drop (bytes : List UInt8) (k i : Nat) :
    wordAt (bits (bytes.drop (4 * k))) i = wordAt (bits bytes) (k + i) := by
  rw [wordAt_bits, wordAt_bits, List.drop_drop, ← Nat.mul_add]

theorem wordAt_take {k i : Nat} (h : i < k) (bytes : List UInt8) :
    wordAt (bits (bytes.take (4 * k))) i = wordAt (bits bytes) i := by
  rw [wordAt_bits, wordAt_bits, List.drop_take, List.take_take, Nat.min_eq_left (by omega)]

theorem toNat_shiftLeft_byte (b : UInt8) {shift : UInt32} (h : shift.toNat ≤ 24) :
    (b.toUInt32 <<< shift).toNat = 2 ^ shift.toNat * b.toNat := by
  have hb := b.toNat_lt
  have hbound : b.toNat * 2 ^ shift.toNat < 2 ^ 32 :=
    calc b.toNat * 2 ^ shift.toNat
        < 2 ^ 8 * 2 ^ shift.toNat := Nat.mul_lt_mul_of_pos_right hb (Nat.two_pow_pos _)
      _ ≤ 2 ^ 8 * 2 ^ 24 := Nat.mul_le_mul_left _ (Nat.pow_le_pow_right (by decide) h)
  rw [UInt32.toNat_shiftLeft, UInt8.toNat_toUInt32, Nat.mod_eq_of_lt (by omega : _ < 32),
    Nat.shiftLeft_eq, Nat.mod_eq_of_lt hbound, Nat.mul_comm]

/-- Four bytes make the word that their bits write. -/
theorem toBitVec_word (a b c d : UInt8) :
    ((a.toUInt32 <<< 24) ||| (b.toUInt32 <<< 16) ||| (c.toUInt32 <<< 8) ||| d.toUInt32).toBitVec =
      BitVec.ofNat 32 (number (bits [a, b, c, d])) := by
  have hbyte (x : UInt8) : x.toNat % 2 ^ 8 = x.toNat := Nat.mod_eq_of_lt x.toNat_lt
  have hnumber : number (bits [a, b, c, d]) =
      2 ^ 24 * a.toNat + (2 ^ 16 * b.toNat + (2 ^ 8 * c.toNat + d.toNat)) := by
    simp only [bits_cons, number_append, number_binary, hbyte, List.length_append, length_binary]
    simp [bits, number]
    ring
  have ha := a.toNat_lt
  have hb := b.toNat_lt
  have hc := c.toNat_lt
  have hd := d.toNat_lt
  apply BitVec.eq_of_toNat_eq
  rw [BitVec.toNat_ofNat, hnumber, Nat.mod_eq_of_lt (by omega),
    Nat.two_pow_add_eq_or_of_lt (by omega), Nat.two_pow_add_eq_or_of_lt (by omega),
    Nat.two_pow_add_eq_or_of_lt (by omega)]
  rw [UInt32.toNat_toBitVec, UInt32.toNat_or, UInt32.toNat_or, UInt32.toNat_or,
    toNat_shiftLeft_byte a (by decide), toNat_shiftLeft_byte b (by decide),
    toNat_shiftLeft_byte c (by decide), UInt8.toNat_toUInt32, Nat.or_assoc, Nat.or_assoc]
  rfl

/-- The words of bytes are those of their bits. -/
theorem toBitVec_wordsOf (bytes : List UInt8) :
    (wordsOf bytes).map UInt32.toBitVec =
      (List.range (bytes.length / 4)).map (wordAt (bits bytes)) := by
  fun_induction wordsOf bytes with
  | case1 a b c d rest ih =>
    have hlength : (a :: b :: c :: d :: rest).length / 4 = rest.length / 4 + 1 := by
      simp only [List.length_cons]
      omega
    have hfirst : wordAt (bits (a :: b :: c :: d :: rest)) 0 =
        BitVec.ofNat 32 (number (bits [a, b, c, d])) := wordAt_bits _ _
    have hrest : ∀ i, wordAt (bits (a :: b :: c :: d :: rest)) (i + 1) = wordAt (bits rest) i := by
      intro i
      rw [Nat.add_comm, ← wordAt_drop]
      rfl
    rw [hlength, List.range_succ_eq_map, List.map_cons, List.map_cons, List.map_map, ih,
      toBitVec_word, hfirst]
    exact congrArg _ (List.map_congr_left fun i _ => (hrest i).symm)
  | case2 bytes hshort =>
    have hlength : bytes.length / 4 = 0 := by
      match bytes with
      | [] | [_] | [_, _] | [_, _, _] => simp
      | a :: b :: c :: d :: rest => exact absurd rfl (hshort a b c d rest)
    rw [hlength]
    rfl

end Stencil.Sha256
