import Stencil.Text.Utf8

/-!
# SHA-256

The digest of FIPS 180-4: a message is padded to whole blocks of 64 bytes, and each block is
compressed into a state of eight words. The digest of a whole message is one definition; `Stream`
takes the message in pieces of any size and keeps what does not yet fill a block.
-/

namespace Stencil.Sha256

structure State where
  a : UInt32
  b : UInt32
  c : UInt32
  d : UInt32
  e : UInt32
  f : UInt32
  g : UInt32
  h : UInt32
deriving DecidableEq, Repr

/-- The state before the first block: the fractional parts of the square roots of the first eight
primes. -/
def State.initial : State :=
  ⟨0x6a09e667, 0xbb67ae85, 0x3c6ef372, 0xa54ff53a, 0x510e527f, 0x9b05688c, 0x1f83d9ab, 0x5be0cd19⟩

/-- The round constants: the fractional parts of the cube roots of the first 64 primes. -/
def roundConstants : List UInt32 :=
  [0x428a2f98, 0x71374491, 0xb5c0fbcf, 0xe9b5dba5, 0x3956c25b, 0x59f111f1, 0x923f82a4, 0xab1c5ed5,
    0xd807aa98, 0x12835b01, 0x243185be, 0x550c7dc3, 0x72be5d74, 0x80deb1fe, 0x9bdc06a7, 0xc19bf174,
    0xe49b69c1, 0xefbe4786, 0x0fc19dc6, 0x240ca1cc, 0x2de92c6f, 0x4a7484aa, 0x5cb0a9dc, 0x76f988da,
    0x983e5152, 0xa831c66d, 0xb00327c8, 0xbf597fc7, 0xc6e00bf3, 0xd5a79147, 0x06ca6351, 0x14292967,
    0x27b70a85, 0x2e1b2138, 0x4d2c6dfc, 0x53380d13, 0x650a7354, 0x766a0abb, 0x81c2c92e, 0x92722c85,
    0xa2bfe8a1, 0xa81a664b, 0xc24b8b70, 0xc76c51a3, 0xd192e819, 0xd6990624, 0xf40e3585, 0x106aa070,
    0x19a4c116, 0x1e376c08, 0x2748774c, 0x34b0bcb5, 0x391c0cb3, 0x4ed8aa4a, 0x5b9cca4f, 0x682e6ff3,
    0x748f82ee, 0x78a5636f, 0x84c87814, 0x8cc70208, 0x90befffa, 0xa4506ceb, 0xbef9a3f7, 0xc67178f2]

def rotateRight (x : UInt32) (n : UInt32) : UInt32 := (x >>> n) ||| (x <<< (32 - n))

/-- The words of a block, four bytes each, the highest first. -/
def wordsOf : List UInt8 → List UInt32
  | a :: b :: c :: d :: rest =>
    ((a.toUInt32 <<< 24) ||| (b.toUInt32 <<< 16) ||| (c.toUInt32 <<< 8) ||| d.toUInt32) ::
      wordsOf rest
  | _ => []

/-- The next word of the schedule, from the earlier ones with the latest first. -/
def nextWord (earlier : List UInt32) : UInt32 :=
  let word := fun i => (earlier[i]?).getD 0
  let x := word 1
  let y := word 14
  let sx := rotateRight x 17 ^^^ rotateRight x 19 ^^^ (x >>> 10)
  let sy := rotateRight y 7 ^^^ rotateRight y 18 ^^^ (y >>> 3)
  sx + word 6 + sy + word 15

/-- The words with `count` more of the schedule in front of them. -/
def extendSchedule : (count : Nat) → List UInt32 → List UInt32
  | 0, words => words
  | count + 1, words => extendSchedule count (nextWord words :: words)

/-- The 64 words of the schedule of a block. -/
def schedule (block : List UInt8) : List UInt32 :=
  (extendSchedule 48 (wordsOf block).reverse).reverse

/-- One round, with its constant and its word of the schedule. -/
def round (s : State) (input : UInt32 × UInt32) : State :=
  let (k, w) := input
  let s1 := rotateRight s.e 6 ^^^ rotateRight s.e 11 ^^^ rotateRight s.e 25
  let choice := (s.e &&& s.f) ^^^ ((~~~s.e) &&& s.g)
  let t1 := s.h + s1 + choice + k + w
  let s0 := rotateRight s.a 2 ^^^ rotateRight s.a 13 ^^^ rotateRight s.a 22
  let majority := (s.a &&& s.b) ^^^ (s.a &&& s.c) ^^^ (s.b &&& s.c)
  let t2 := s0 + majority
  ⟨t1 + t2, s.a, s.b, s.c, s.d + t1, s.e, s.f, s.g⟩

def State.add (s t : State) : State :=
  ⟨s.a + t.a, s.b + t.b, s.c + t.c, s.d + t.d, s.e + t.e, s.f + t.f, s.g + t.g, s.h + t.h⟩

def compress (s : State) (block : List UInt8) : State :=
  s.add ((roundConstants.zip (schedule block)).foldl round s)

def blockSize : Nat := 64

/-- The state after the whole blocks at the start of the bytes, and the bytes that are left. -/
def absorb (s : State) (bytes : List UInt8) : State × List UInt8 :=
  if blockSize ≤ bytes.length then
    absorb (compress s (bytes.take blockSize)) (bytes.drop blockSize)
  else (s, bytes)
termination_by bytes.length
decreasing_by
  simp only [blockSize, List.length_drop] at *
  omega

/-- The last `count` bytes of a number, the highest first. -/
def bigEndian : (count n : Nat) → List UInt8
  | 0, _ => []
  | count + 1, n => bigEndian count (n / 256) ++ [UInt8.ofNat n]

/-- What is appended to a message of `length` bytes: a one bit, zeros up to eight bytes before the
end of a block, and the length in bits. -/
def padding (length : Nat) : List UInt8 :=
  0x80 :: (List.replicate ((119 - length % 64) % 64) 0 ++ bigEndian 8 (8 * length))

/-- A word as eight hexadecimal digits, in lower case. -/
def wordText (x : UInt32) : Text :=
  [28, 24, 20, 16, 12, 8, 4, 0].map fun shift => Nat.digitChar ((x.toNat >>> shift) % 16)

def State.print (s : State) : Text :=
  [s.a, s.b, s.c, s.d, s.e, s.f, s.g, s.h].flatMap wordText

/-- The digest of bytes, as 64 hexadecimal digits. -/
def digest (bytes : List UInt8) : Text :=
  (absorb .initial (bytes ++ padding bytes.length)).1.print

/-- The digest of the UTF-8 form of a text. -/
def digestText (t : Text) : Text := digest (Utf8.encode t)

/-- A digest under way: the state after the whole blocks, the bytes after them, and the number of
all bytes so far. -/
structure Stream where
  state : State
  pending : List UInt8
  length : Nat
deriving DecidableEq, Repr

namespace Stream

def empty : Stream := ⟨.initial, [], 0⟩

def update (stream : Stream) (piece : List UInt8) : Stream :=
  let (state, pending) := absorb stream.state (stream.pending ++ piece)
  ⟨state, pending, stream.length + piece.length⟩

/-- The digest of all that was taken in. -/
def finish (stream : Stream) : Text :=
  (absorb stream.state (stream.pending ++ padding stream.length)).1.print

end Stream

/-- What a reader gives at each read. -/
inductive Read (ε : Type)
  | piece (bytes : List UInt8)
  | failure (error : ε)
deriving DecidableEq, Repr

/-- The digest of what a reader gives up to its first empty piece or its end. A read that fails
ends it with that error. -/
def digestReads {ε : Type} : Stream → List (Read ε) → Except ε Text
  | stream, [] => .ok stream.finish
  | _, .failure error :: _ => .error error
  | stream, .piece [] :: _ => .ok stream.finish
  | stream, .piece (b :: bytes) :: reads => digestReads (stream.update (b :: bytes)) reads

/-- The most bytes that one read gives. -/
def readSize : Nat := 4096

/-- The pieces that a file is read in. -/
def pieces : List UInt8 → List (List UInt8)
  | [] => []
  | b :: bytes => (b :: bytes).take readSize :: pieces ((b :: bytes).drop readSize)
termination_by bytes => bytes.length
decreasing_by
  simp only [readSize, List.length_drop, List.length_cons]
  omega

end Stencil.Sha256
