import Stencil.Text.Hexadecimal
import Stencil.Text.Utf8

/-!
# Form encoding

Text as a component of a form or a query string. Letters, digits and four marks stand for
themselves, a space is written as a plus sign, and any other byte of the UTF-8 form as a percent
sign and two hexadecimal digits.
-/

namespace Stencil.Encoding

/-- Whether a byte stands for itself. -/
def isPlainByte (b : UInt8) : Bool :=
  let n := b.toNat
  (48 ≤ n && n ≤ 57) || (65 ≤ n && n ≤ 90) || (97 ≤ n && n ≤ 122) ||
    n == 42 || n == 45 || n == 46 || n == 95

def formByte (b : UInt8) : Text :=
  if isPlainByte b then [Char.ofNat b.toNat]
  else if b.toNat = 32 then ['+']
  else '%' :: Hexadecimal.upperDigits 2 b.toNat

def formBytes (bytes : List UInt8) : Text := bytes.flatMap formByte

def form (t : Text) : Text := formBytes (Utf8.encode t)

theorem form_append (s t : Text) : form (s ++ t) = form s ++ form t := by
  simp [form, formBytes]

end Stencil.Encoding
