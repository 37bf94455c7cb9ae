import Stencil.Arithmetic
import Stencil.Calendar.Timestamp
import Stencil.Encoding.Form
import Stencil.Encoding.Sha256
import Stencil.Excerpt
import Stencil.Money
import Stencil.Search
import Stencil.Template.Helper

/-!
# The helpers of the toolkit

Arithmetic, search, text, money and dates as helpers that templates can call. Operands may be
given as numbers or as text; a helper says which of its operands may be missing.
-/

namespace Stencil.Toolkit
open Template

/-- The operand at a position, which must be there. -/
def required (helper : Text) (operands : List Json) (index : Nat) : Except HelperError Json :=
  match operands[index]? with
  | some value => .ok value
  | none => .error (.missingParameter helper index)

def isEmpty : Option Json → Bool
  | none | some .null | some (.string []) => true
  | some _ => false

/-- The integer that an operand denotes: a number without its fraction, or a numeral. -/
def integerArgument (helper : Text) (value : Json) : Except HelperError Int :=
  let found? :=
    match value with
    | .number n => some n.toSigned
    | .string s => Numeral.toSigned? (Text.trim s)
    | _ => none
  match found? with
  | some n => .ok n
  | none => .error (.illegalArgumentType helper value.text)

def calculate (operands : List Json) : Except HelperError Text := do
  let name := "expr".toList
  let left ← required name operands 0
  let operator ← required name operands 1
  let right ← required name operands 2
  Arithmetic.evaluate left.text operator.text right.text

def find (operands : List Json) : Except HelperError Text := do
  let name := "find".toList
  let source ← required name operands 0
  let path ← required name operands 1
  let wanted ← required name operands 2
  let output ← required name operands 3
  (⟨path.text, wanted.text, output.text⟩ : Search).run source

/-- The start of a text; an absent text is empty. -/
def truncate (operands : List Json) : Except HelperError Text := do
  let name := "truncate".toList
  let limit ← integerArgument name (← required name operands 0)
  Excerpt.truncate limit ((operands[1]?.map Json.text).getD [])

/-- A document without its declaration. -/
def stripDeclaration (operands : List Json) : Except HelperError Text :=
  match operands with
  | [] => .ok []
  | value :: _ => .ok (if isEmpty (some value) then [] else Excerpt.stripDeclaration value.text)

/-- An amount of money; an empty operand gives the empty text. -/
def amount (name : Text) (style : Money.Style) (operands : List Json) :
    Except HelperError Text :=
  match operands with
  | [] => .ok []
  | value :: _ =>
    if isEmpty (some value) then .ok []
    else (integerArgument name value).map (Money.print style)

/-- A date; an empty operand stands for the present. -/
def date (pattern : Calendar.DatePattern) (now : Int) (operands : List Json) :
    Except HelperError Text := do
  let source := operands[0]?
  let millis ← Calendar.resolve (if isEmpty source then none else source) now
  Calendar.formatMillis millis pattern

/-- The helpers of the toolkit, at a moment in milliseconds. -/
def helpers (now : Int) : HelperTable :=
  [("sha256".toList, .transform Sha256.digestText),
    ("urlEncode".toList, .transform Encoding.form),
    ("find".toList, .writer find),
    ("expr".toList, .writer calculate),
    ("truncate".toList, .writer truncate),
    ("dollarsNoSign".toList, .writer (amount "dollarsNoSign".toList Money.dollars)),
    ("dollarsWithSign".toList, .writer (amount "dollarsWithSign".toList Money.dollarsWithSign)),
    ("dollarsAndCentsNoSign".toList,
      .writer (amount "dollarsAndCentsNoSign".toList Money.dollarsAndCents)),
    ("dollarsAndCentsWithSign".toList,
      .writer (amount "dollarsAndCentsWithSign".toList Money.dollarsAndCentsWithSign)),
    ("dollarsAndCentsPlain".toList, .writer (amount "dollarsAndCentsPlain".toList Money.plain)),
    ("date_short".toList, .writer (date .slashes now)),
    ("date_yyyy_mm_dd".toList, .writer (date .hyphens now)),
    ("date_mmm_dd_yyyy".toList, .writer (date .abbreviated now)),
    ("date_long".toList, .writer (date .words now)),
    ("strip_xml_declaration".toList, .writer stripDeclaration)]

end Stencil.Toolkit
