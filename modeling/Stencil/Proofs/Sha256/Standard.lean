import Mathlib.Algebra.Ring.Nat
import Mathlib.Data.Nat.Find
import Mathlib.Data.Nat.Prime.Defs

/-!
# The standard digest

SHA-256 as FIPS 180-4 describes it: a message is a string of bits, a word is a vector of 32 bits,
the constants are parts of roots of prime numbers, and every loop counts its steps. The digest that
is computed from bytes shares none of these definitions.
-/

namespace Stencil.Sha256.Standard

abbrev Word := BitVec 32

/-! ## Functions and constants -/

def choice (x y z : Word) : Word := (x &&& y) ^^^ (~~~x &&& z)

def majority (x y z : Word) : Word := (x &&& y) ^^^ (x &&& z) ^^^ (y &&& z)

def upperSigma0 (x : Word) : Word := x.rotateRight 2 ^^^ x.rotateRight 13 ^^^ x.rotateRight 22

def upperSigma1 (x : Word) : Word := x.rotateRight 6 ^^^ x.rotateRight 11 ^^^ x.rotateRight 25

def lowerSigma0 (x : Word) : Word := x.rotateRight 7 ^^^ x.rotateRight 18 ^^^ (x >>> 3)

def lowerSigma1 (x : Word) : Word := x.rotateRight 17 ^^^ x.rotateRight 19 ^^^ (x >>> 10)

/-- The whole part of the root of a number. -/
def root (degree n : Nat) : Nat := Nat.findGreatest (fun r => r ^ degree ≤ n) n

/-- The first 32 bits behind the point of the root of a number. -/
def rootFraction (degree n : Nat) : Word := BitVec.ofNat 32 (root degree (n * 2 ^ (32 * degree)))

/-- The first 64 prime numbers. -/
def primes : List Nat := (List.range 312).filter fun n => n.Prime

def roundConstants : List Word := primes.map (rootFraction 3)

/-! ## Compression -/

/-- The eight working words, which are the eight words of a hash value between blocks. -/
structure Words where
  a : Word
  b : Word
  c : Word
  d : Word
  e : Word
  f : Word
  g : Word
  h : Word

namespace Words

def initial : Words :=
  ⟨rootFraction 2 2, rootFraction 2 3, rootFraction 2 5, rootFraction 2 7, rootFraction 2 11,
    rootFraction 2 13, rootFraction 2 17, rootFraction 2 19⟩

def add (v w : Words) : Words :=
  ⟨v.a + w.a, v.b + w.b, v.c + w.c, v.d + w.d, v.e + w.e, v.f + w.f, v.g + w.g, v.h + w.h⟩

/-- The words one after the other as a single number. -/
def toNat (v : Words) : Nat :=
  [v.a, v.b, v.c, v.d, v.e, v.f, v.g, v.h].foldl (fun n w => n * 2 ^ 32 + w.toNat) 0

end Words

/-- The words of the schedule of a block of sixteen words. -/
def schedule (block : Nat → Word) (t : Nat) : Word :=
  if t < 16 then block t
  else
    lowerSigma1 (schedule block (t - 2)) + schedule block (t - 7) +
      lowerSigma0 (schedule block (t - 15)) + schedule block (t - 16)
termination_by t

def round (v : Words) (k w : Word) : Words :=
  let t1 := v.h + upperSigma1 v.e + choice v.e v.f v.g + k + w
  let t2 := upperSigma0 v.a + majority v.a v.b v.c
  ⟨t1 + t2, v.a, v.b, v.c, v.d + t1, v.e, v.f, v.g⟩

def compress (v : Words) (block : Nat → Word) : Words :=
  v.add ((List.range 64).foldl
    (fun u t => round u (roundConstants.getD t 0) (schedule block t)) v)

/-! ## Messages -/

/-- The last bits of a number, the highest first. -/
def binary (width n : Nat) : List Bool :=
  (List.range width).map fun i => n.testBit (width - 1 - i)

/-- The bits of bytes, those of a byte the highest first. -/
def bits (bytes : List UInt8) : List Bool := bytes.flatMap fun b => binary 8 b.toNat

/-- The number that bits write, the highest first. -/
def number (bits : List Bool) : Nat := bits.foldl (fun n b => 2 * n + b.toNat) 0

theorem exists_zeros (length : Nat) : ∃ count, (length + 1 + count) % 512 = 448 :=
  ⟨(959 - length % 512) % 512, by omega⟩

/-- The least number of zeros behind the one that ends a message so that 64 bits are left to the
end of a block of 512. -/
def zeros (length : Nat) : Nat := Nat.find (exists_zeros length)

/-- A message with a one behind it, zeros, and its length in 64 bits. Messages are shorter than
`2 ^ 64` bits; of the length of a longer one the last 64 bits are taken. -/
def pad (message : List Bool) : List Bool :=
  message ++ true :: (List.replicate (zeros message.length) false ++ binary 64 message.length)

/-- The words of a string of bits, counted from the first. -/
def wordAt (bits : List Bool) (i : Nat) : Word :=
  BitVec.ofNat 32 (number ((bits.drop (32 * i)).take 32))

/-- The hash value of a message. -/
def hash (message : List Bool) : Words :=
  (List.range ((pad message).length / 512)).foldl
    (fun v i => compress v fun j => wordAt (pad message) (16 * i + j)) .initial

end Stencil.Sha256.Standard
