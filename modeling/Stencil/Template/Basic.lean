import Stencil.Json.Basic
import Stencil.Text.Quoted

/-!
# Templates

A template is a list of elements: plain text, values to be written, calls of helpers, which as
blocks hold further templates, and inclusions of other templates, which directives may have declared
before. An operand of a call is a path into the data, a literal, or another call.
-/

namespace Stencil.Template

/-- A place in the source of a template. Line and column are counted from 1. -/
structure Position where
  line : Nat
  column : Nat
deriving DecidableEq, Repr

/-- A step of a path. -/
inductive Segment
  /-- The data that the whole template is rendered with. -/
  | root
  /-- The mark of a variable that a block sets. -/
  | variableMark
  /-- The scope around the present one. -/
  | up
  | named (name : Text)
deriving DecidableEq, Repr

/-- A path into the data, as it was written and as its steps. -/
structure Path where
  source : Text
  segments : List Segment
deriving DecidableEq, Repr

/-- What stands first in a nested call: a plain word before operands, or a path alone. -/
inductive Callee
  | word (name : Text)
  | path (path : Path)
deriving DecidableEq, Repr

/-- An operand. Options are operands with a name. -/
inductive Operand
  | path (path : Path)
  | literal (value : Json)
  | call (callee : Callee) (operands : List Operand) (options : List (Text × Operand))

/-- The name of a helper, its operands and its options. -/
structure Invocation where
  name : Text
  operands : List Operand
  options : List (Text × Operand)

/-- The template that an inclusion asks for: by its name, or by a call that computes the name. -/
inductive Target
  | named (name : Text)
  | computed (call : Operand)

/-- The target of an inclusion, its operands and its options. -/
structure Inclusion where
  target : Target
  operands : List Operand
  options : List (Text × Operand)

inductive Element
  | text (content : Text)
  /-- A value to be written, or a helper called without operands. -/
  | value (position : Position) (operand : Operand)
  /-- A call of a helper. A block holds a body and an inverse, and may name what it sets. -/
  | invoke (position : Position) (isBlock : Bool) (invocation : Invocation)
      (names : List Text) (body inverse : List Element)
  | comment
  /-- The inclusion of another template, whose lines after the first get an indent. The body of a
  block stands in when there is no such template. -/
  | inclusion (position : Position) (isBlock : Bool) (inclusion : Inclusion) (indent : Text)
      (body : List Element)
  /-- A directive to the renderer. A block holds the template that it is about. -/
  | directive (position : Position) (isBlock : Bool) (invocation : Invocation)
      (body : List Element)

/-- The characters of names. -/
def isSymbol (c : Char) : Bool :=
  c.isAlphanum || c == '_' || c == '-' || c == '$' || decide (0x80 ≤ c.toNat)

/-- The blanks that may stand between the tokens of a tag. -/
def isSpace (c : Char) : Bool := c = ' ' || c = '\t' || c = '\n' || c = '\r'

/-- The blanks within a line. -/
def isLineSpace (c : Char) : Bool := c = ' ' || c = '\t'

/-- The ends of lines. -/
def isLineEnd (c : Char) : Bool := c = '\n' || c = '\r'

inductive SyntaxError
  | malformed
  | mismatchedClose (kind opened closed : Text)
  | invalidParameter (source : Text)
deriving DecidableEq, Repr

def SyntaxError.message : SyntaxError → Text
  | .malformed => "invalid handlebars syntax.".toList
  | .mismatchedClose kind opened closed =>
    kind ++ ' ' :: (Text.quoted opened ++ " was opened, but ".toList ++ Text.quoted closed ++
      " is closing".toList)
  | .invalidParameter source => "invalid parameter ".toList ++ Text.quoted source

end Stencil.Template

/-- A template: the elements that it writes in turn. -/
abbrev Stencil.Template := List Stencil.Template.Element
