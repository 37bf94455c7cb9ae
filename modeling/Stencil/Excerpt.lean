import Stencil.HelperError
import Stencil.Text.Utf8

/-!
# Excerpts

The start of a text, cut after a number of characters, and the body of a document without its XML
declaration.
-/

namespace Stencil.Excerpt

/-- The first `count` characters, or the whole text when it is not longer. The cut is made at the
byte where the next character begins. -/
def start (count : Nat) (t : Text) : Text :=
  match (Utf8.offsets 0 t)[count]? with
  | some (bytes, _) => Utf8.within bytes t
  | none => t

/-- The text cut to at most `limit` characters; the limit -1 stands for none. -/
def truncate (limit : Int) (t : Text) : Except HelperError Text :=
  if t = [] ∨ limit = -1 then .ok t
  else if limit < 0 then .error (.invalidArgument (.invalidLength limit))
  else .ok (start limit.toNat t)

def declarationOpen : Text := "<?xml".toList

def declarationClose : Text := "?>".toList

/-- The text without blanks around it and without an XML declaration at its start. A declaration
that does not close is kept. -/
def stripDeclaration (t : Text) : Text :=
  let xml := Text.trim t
  if Text.startsWith declarationOpen xml then
    match Text.splitFirst? declarationClose xml with
    | some (_, rest) => Text.trim rest
    | none => xml
  else xml

end Stencil.Excerpt
