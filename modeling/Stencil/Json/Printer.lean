import Stencil.Json.Basic
import Stencil.Text.Hexadecimal
import Stencil.Binary64.Shortest

/-!
# JSON text of a value

The compact form has no blanks. The indented form puts each item and member on its own line, two
spaces deeper than what holds it. Characters outside ASCII stand for themselves; quotes,
backslashes and the controls below space are escaped.
-/

namespace Stencil.Json

/-- Floats are positional from five decimal places up to sixteen digits before the point, and an
exponent carries its sign. -/
def floatLayout : Binary64.Layout := ⟨-4, 16, ['+']⟩

def printNumber : Number → Text
  | .integer n _ => Numeral.ofInt n
  | .float x => x.print floatLayout

def escapeChar (c : Char) : Text :=
  if c = '"' then ['\\', '"']
  else if c = '\\' then ['\\', '\\']
  else if c = '\n' then ['\\', 'n']
  else if c = '\r' then ['\\', 'r']
  else if c = '\t' then ['\\', 't']
  else if c.toNat = 8 then ['\\', 'b']
  else if c.toNat = 12 then ['\\', 'f']
  else if c.toNat < 32 then
    ['\\', 'u', '0', '0', Hexadecimal.digit (c.toNat / 16), Hexadecimal.digit (c.toNat % 16)]
  else [c]

def printString (s : Text) : Text := '"' :: (s.flatMap escapeChar ++ ['"'])

mutual
def print : Json → Text
  | .null => ['n', 'u', 'l', 'l']
  | .bool true => ['t', 'r', 'u', 'e']
  | .bool false => ['f', 'a', 'l', 's', 'e']
  | .number n => printNumber n
  | .string s => printString s
  | .array items => '[' :: (printItems items ++ [']'])
  | .object members => '\x7b' :: (printMembers members ++ ['\x7d'])

/-- Items with commas between them. -/
def printItems : List Json → Text
  | [] => []
  | [item] => print item
  | item :: items => print item ++ ',' :: printItems items

/-- Members with commas between them. -/
def printMembers : List (Text × Json) → Text
  | [] => []
  | [(name, value)] => printString name ++ ':' :: print value
  | (name, value) :: rest => printString name ++ ':' :: (print value ++ ',' :: printMembers rest)
end

/-- The start of a line at the given depth. -/
def newline (depth : Nat) : Text := '\n' :: Text.fill (2 * depth) ' '

mutual
/-- The indented text of a value whose first line is at the given depth. -/
def printIndented (depth : Nat) : Json → Text
  | .array (item :: items) =>
    '[' :: (printIndentedItems (depth + 1) (item :: items) ++ newline depth ++ [']'])
  | .object (m :: members) =>
    '\x7b' :: (printIndentedMembers (depth + 1) (m :: members) ++ newline depth ++ ['\x7d'])
  | .null => print .null
  | .bool b => print (.bool b)
  | .number n => print (.number n)
  | .string s => print (.string s)
  | .array [] => ['[', ']']
  | .object [] => ['\x7b', '\x7d']

/-- Items on lines of their own. -/
def printIndentedItems (depth : Nat) : List Json → Text
  | [] => []
  | [item] => newline depth ++ printIndented depth item
  | item :: items =>
    newline depth ++ printIndented depth item ++ ',' :: printIndentedItems depth items

/-- Members on lines of their own. -/
def printIndentedMembers (depth : Nat) : List (Text × Json) → Text
  | [] => []
  | [(name, value)] =>
    newline depth ++ printString name ++ ':' :: ' ' :: printIndented depth value
  | (name, value) :: rest =>
    newline depth ++ printString name ++ ':' :: ' ' ::
      (printIndented depth value ++ ',' :: printIndentedMembers depth rest)
end

/-- The value as a text argument: a string is its own text, null is empty, and anything else is
its compact JSON. -/
def text : Json → Text
  | .string s => s
  | .null => []
  | value => print value

end Stencil.Json
