import Stencil.Binary64.Shortest
import Stencil.Json.Basic
import Stencil.Yaml.Scalar

/-!
# Block form of a value

Every member and item of a collection starts a line; what a member holds stands two columns
deeper, except that the dashes of a sequence stand right below its name. A name that is long or
goes over several lines is announced by a question mark.
-/

namespace Stencil.Yaml

/-- Floats are positional from five decimal places up to sixteen digits before the point, and only
a negative exponent has a sign. -/
def floatLayout : Binary64.Layout := ⟨-4, 16, []⟩

/-- A text in its style; lines after the first start at a column. -/
def printText (column : Nat) (t : Text) : Text := Scalar.print column t (Scalar.style t)

/-- A value that is not spread over lines by its parts: no collection, or an empty one. -/
def printLeaf (column : Nat) : Json → Text
  | .null => "null".toList
  | .bool true => "true".toList
  | .bool false => "false".toList
  | .number (.integer n _) => Numeral.ofInt n
  | .number (.float x) => x.print floatLayout
  | .string t => printText column t
  | .array _ => ['[', ']']
  | .object _ => ['\x7b', '\x7d']

/-- The text with its last line ended. -/
def endLine (t : Text) : Text := if t.getLast?.any isBreak then t else t ++ ['\n']

/-- Whether a name can stand before its colon without being announced. -/
def isSimpleName (name : Text) : Bool :=
  !name.any isBreak && (Utf8.encode name).length ≤ 128

/-- The start of a line at a column, after the end of another. -/
def newline (column : Nat) : Text := '\n' :: Scalar.indent column

/-- A name after a question mark, and the colon on a line of its own. -/
def announce (column : Nat) (name : Text) : Text :=
  '?' :: ' ' :: (endLine (printText (column + 2) name) ++ Scalar.indent column ++ [':', ' '])

mutual
/-- A value whose parts start at a column, where its first line is already indented. -/
def printBlock (column : Nat) : Json → Text
  | .object (m :: members) => printMembers column (m :: members)
  | .array (item :: items) => printItems column (item :: items)
  | value => endLine (printLeaf column value)

def printMembers (column : Nat) : List (Text × Json) → Text
  | [] => []
  | [(name, value)] => printMember column name value
  | (name, value) :: rest =>
    printMember column name value ++ Scalar.indent column ++ printMembers column rest

def printMember (column : Nat) (name : Text) : Json → Text
  | .object (m :: members) =>
    if isSimpleName name then
      printText (column + 2) name ++ ':' :: (newline (column + 2) ++
        printMembers (column + 2) (m :: members))
    else announce column name ++ printMembers (column + 2) (m :: members)
  | .array (item :: items) =>
    if isSimpleName name then
      printText (column + 2) name ++ ':' :: (newline column ++ printItems column (item :: items))
    else announce column name ++ printItems (column + 2) (item :: items)
  | value =>
    (if isSimpleName name then printText (column + 2) name ++ [':', ' '] else announce column name)
      ++ endLine (printLeaf (column + 2) value)

def printItems (column : Nat) : List Json → Text
  | [] => []
  | [item] => '-' :: ' ' :: printBlock (column + 2) item
  | item :: items =>
    '-' :: ' ' :: (printBlock (column + 2) item ++ Scalar.indent column ++
      printItems column items)
end

def print : Json → Text
  | .object (m :: members) => printBlock 0 (.object (m :: members))
  | .array (item :: items) => printBlock 0 (.array (item :: items))
  | value => printBlock 2 value

end Stencil.Yaml
