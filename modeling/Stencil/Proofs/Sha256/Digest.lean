import Stencil.Proofs.Sha256.Compression
import Stencil.Proofs.Sha256.Message
import Stencil.Proofs.Text.Hexadecimal

/-!
# The digest of bytes

The digest of bytes writes the hash value that the standard gives for their bits: block by block,
the state is the standard's hash value, and its words are written one after the other in lower-case
hexadecimal digits.
-/

namespace Stencil.Sha256
open Standard (Words bits wordAt)
variable {s : State} {bytes : List UInt8}

/-! ## Whole blocks -/

theorem absorb_of_le (h : 64 ≤ bytes.length) (s : State) :
    absorb s bytes = absorb (compress s (bytes.take 64)) (bytes.drop 64) := by
  rw [absorb, blockSize, if_pos h]

theorem absorb_of_lt (h : bytes.length < 64) (s : State) : absorb s bytes = (s, bytes) := by
  rw [absorb, blockSize, if_neg (Nat.not_le.mpr h)]

/-- The words of a block are compressed wherever the block stands among the bytes. -/
theorem words_compress_take (h : 64 ≤ bytes.length) (s : State) :
    (compress s (bytes.take 64)).words = Standard.compress s.words (wordAt (bits bytes)) := by
  apply words_compress
  rw [toBitVec_wordsOf, List.length_take, Nat.min_eq_left h]
  apply List.map_congr_left
  intro i hi
  exact wordAt_take (k := 16) (List.mem_range.mp hi) bytes

/-- After whole blocks the state is the hash value of the standard. -/
theorem words_absorb {blocks : Nat} (h : bytes.length = 64 * blocks) (s : State) :
    (absorb s bytes).1.words = (List.range blocks).foldl
      (fun v i => Standard.compress v fun j => wordAt (bits bytes) (16 * i + j)) s.words := by
  induction blocks generalizing s bytes with
  | zero =>
    rw [absorb_of_lt (by omega)]
    rfl
  | succ blocks ih =>
    have hrest : (bytes.drop 64).length = 64 * blocks := by
      rw [List.length_drop]
      omega
    have hword (i j : Nat) :
        wordAt (bits (bytes.drop 64)) (16 * i + j) = wordAt (bits bytes) (16 * (i + 1) + j) := by
      rw [wordAt_drop bytes 16]
      congr 1
      omega
    rw [absorb_of_le (by omega), ih hrest, words_compress_take (by omega), List.range_succ_eq_map,
      List.foldl_cons, List.foldl_map]
    simp only [hword, Nat.mul_zero, Nat.zero_add]

/-! ## Digits -/

/-- The text writes a number in lower-case hexadecimal digits, with zeros in front to fill it. -/
structure WritesHex (t : Text) (width n : Nat) : Prop where
  length_eq : t.length = width
  lower : ∀ c ∈ t, c ∈ "0123456789abcdef".toList
  value : Hexadecimal.take? width 0 t = some (n, [])

theorem mem_wordText {x : UInt32} {c : Char} (h : c ∈ wordText x) :
    c ∈ "0123456789abcdef".toList := by
  have hdigit : ∀ n < 16, Nat.digitChar n ∈ "0123456789abcdef".toList := by decide
  obtain ⟨shift, -, rfl⟩ := List.mem_map.mp h
  exact hdigit _ (Nat.mod_lt _ (by decide))

/-- The four lowest digits of a number. -/
def lastDigits (n : Nat) : Text := [12, 8, 4, 0].map fun shift => Nat.digitChar ((n >>> shift) % 16)

theorem wordText_eq (x : UInt32) :
    wordText x = lastDigits (x.toNat >>> 16) ++ lastDigits x.toNat := by
  simp [wordText, lastDigits, ← Nat.shiftRight_add]

theorem take?_lastDigits (v n : Nat) :
    Hexadecimal.take? 4 v (lastDigits n) = some (v * 2 ^ 16 + n % 2 ^ 16, []) := by
  have hdigit (n : Nat) : Hexadecimal.digitValue? (Nat.digitChar (n % 16)) = some (n % 16) :=
    Hexadecimal.digitValue?_digit _ (Nat.mod_lt _ (by decide))
  simp only [lastDigits, List.map_cons, List.map_nil, Hexadecimal.take?, hdigit,
    Option.bind_eq_bind, Option.bind_some, Nat.shiftRight_eq_div_pow, Option.some.injEq,
    Prod.mk.injEq, and_true]
  omega

theorem take?_wordText (v : Nat) (x : UInt32) :
    Hexadecimal.take? 8 v (wordText x) = some (v * 2 ^ 32 + x.toNat, []) := by
  have hx := x.toNat_lt
  have hvalue : (v * 2 ^ 16 + x.toNat / 2 ^ 16 % 2 ^ 16) * 2 ^ 16 + x.toNat % 2 ^ 16 =
      v * 2 ^ 32 + x.toNat := by omega
  rw [wordText_eq, Hexadecimal.take?_append (k := 4) (take?_lastDigits v _), take?_lastDigits,
    Nat.shiftRight_eq_div_pow, hvalue]

theorem take?_flatMap_wordText (v : Nat) (xs : List UInt32) :
    Hexadecimal.take? (8 * xs.length) v (xs.flatMap wordText) =
      some (xs.foldl (fun n x => n * 2 ^ 32 + x.toNat) v, []) := by
  induction xs generalizing v with
  | nil => rfl
  | cons x xs ih =>
    rw [List.length_cons, Nat.mul_succ, Nat.add_comm, List.flatMap_cons,
      Hexadecimal.take?_append (take?_wordText v x), ih, List.foldl_cons]

theorem writesHex_print (s : State) : WritesHex s.print 64 s.words.toNat where
  length_eq := rfl
  lower := by
    intro c hc
    obtain ⟨x, -, hc⟩ := List.mem_flatMap.mp hc
    exact mem_wordText hc
  value := take?_flatMap_wordText 0 [s.a, s.b, s.c, s.d, s.e, s.f, s.g, s.h]

/-- The digest of bytes writes the hash value of their bits. -/
theorem writesHex_digest (bytes : List UInt8) :
    WritesHex (digest bytes) 64 (Standard.hash (bits bytes)).toNat := by
  obtain ⟨blocks, hblocks⟩ := length_append_padding bytes
  have hcount : (Standard.pad (bits bytes)).length / 512 = blocks := by
    rw [← bits_append_padding, length_bits, hblocks]
    omega
  have hwords : (absorb .initial (bytes ++ padding bytes.length)).1.words =
      Standard.hash (bits bytes) := by
    rw [words_absorb hblocks, words_initial, bits_append_padding, Standard.hash, hcount]
  rw [digest, ← hwords]
  exact writesHex_print _

example : digest [0x61, 0x62, 0x63] =
    "ba7816bf8f01cfea414140de5dae2223b00361a396177a9cb410ff61f20015ad".toList := by decide +kernel

end Stencil.Sha256
