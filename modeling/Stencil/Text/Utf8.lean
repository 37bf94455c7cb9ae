import Stencil.Text.Basic

/-!
# UTF-8

Text is stored in files and hashed as bytes. Encoding writes each character in its shortest form;
decoding accepts exactly such bytes and refuses overlong forms, surrogates and anything above the
last character.
-/

namespace Stencil.Utf8

/-- The bytes of a text, each character in its shortest form. -/
def encode (t : Text) : List UInt8 := t.flatMap String.utf8EncodeChar

@[simp] theorem encode_append (s t : Text) : encode (s ++ t) = encode s ++ encode t := by
  simp [encode]

/-- Different texts have different bytes. -/
theorem encode_inj {s t : Text} : encode s = encode t ↔ s = t := by
  constructor
  · intro h
    have hbytes : s.utf8Encode = t.utf8Encode := congrArg List.toByteArray h
    have hread := List.utf8Decode?_utf8Encode (l := s)
    rw [hbytes, List.utf8Decode?_utf8Encode] at hread
    exact List.toArray_inj (Option.some.inj hread).symm
  · rintro rfl
    rfl

/-- The characters of a text, each with the number of bytes before it; `bytes` of them stand before
the text. -/
def offsets : (bytes : Nat) → Text → List (Nat × Char)
  | _, [] => []
  | bytes, c :: t => (bytes, c) :: offsets (bytes + c.utf8Size) t

/-- The characters that begin within the first bytes of a text. -/
def within : (bytes : Nat) → Text → Text
  | 0, _ => []
  | _ + 1, [] => []
  | bytes + 1, c :: t => c :: within (bytes + 1 - c.utf8Size) t

/-- The six payload bits of a continuation byte. -/
def payload? (b : UInt8) : Option Nat :=
  if 0x80 ≤ b.toNat ∧ b.toNat < 0xC0 then some (b.toNat - 0x80) else none

/-- The character with the given code point, when it is one and needs at least `least`. -/
def scalar? (least n : Nat) : Option Char :=
  if least ≤ n ∧ n.isValidChar then some (Char.ofNat n) else none

/-- The text that the bytes encode, or nothing when they are not well formed. -/
def decode? : List UInt8 → Option Text
  | [] => some []
  | a :: rest =>
    if a.toNat < 0x80 then (decode? rest).map (Char.ofNat a.toNat :: ·)
    else if 0xC0 ≤ a.toNat ∧ a.toNat < 0xE0 then
      match rest with
      | b :: rest => do
        let b ← payload? b
        let c ← scalar? 0x80 ((a.toNat - 0xC0) * 64 + b)
        (decode? rest).map (c :: ·)
      | _ => none
    else if 0xE0 ≤ a.toNat ∧ a.toNat < 0xF0 then
      match rest with
      | b :: c :: rest => do
        let b ← payload? b
        let c ← payload? c
        let d ← scalar? 0x800 (((a.toNat - 0xE0) * 64 + b) * 64 + c)
        (decode? rest).map (d :: ·)
      | _ => none
    else if 0xF0 ≤ a.toNat ∧ a.toNat < 0xF8 then
      match rest with
      | b :: c :: d :: rest => do
        let b ← payload? b
        let c ← payload? c
        let d ← payload? d
        let e ← scalar? 0x10000 ((((a.toNat - 0xF0) * 64 + b) * 64 + c) * 64 + d)
        (decode? rest).map (e :: ·)
      | _ => none
    else none

end Stencil.Utf8
