import Stencil.Text.Utf8
import Stencil.Yaml.Cursor
import Stencil.Yaml.Meaning

/-!
# Written forms of a text

A text is written plainly where it reads back as itself, between single quotes where it would
denote something else, as lines of its own where it has any, and between double quotes, with
escapes, where all else fails.
-/

namespace Stencil.Yaml

inductive ScalarStyle
  | plain
  | singleQuoted
  | doubleQuoted
  | literal
deriving DecidableEq, Repr

namespace Scalar

/-- The characters that are written without an escape. -/
def isPrintable (c : Char) : Bool :=
  let n := c.toNat
  n = 0xA || (0x20 ≤ n && n ≤ 0x7E) || (0xA0 ≤ n && n ≤ 0xFFFD && n != 0xFEFF) || 0x10000 ≤ n

/-- Whether two neighbours in a text satisfy `p` and `q`. -/
def hasPair (p q : Char → Bool) : Text → Bool
  | c :: d :: rest => (p c && q d) || hasPair p q (d :: rest)
  | _ => false

/-- Whether a colon ends a word or a number sign starts one. -/
def hasWordMark (t : Text) : Bool :=
  hasPair (fun c => isSpace c || isBreak c) (· = '#') t ||
    hasPair (· = ':') (fun c => isSpace c || isBreak c) t || t.getLast? = some ':'

/-- Whether a text starts like something other than a plain text. -/
def startsWithMark (t : Text) : Bool :=
  Text.startsWith "---".toList t || Text.startsWith "...".toList t ||
    startsWithWord '-' t || startsWithWord '?' t ||
    t.head?.any fun c => "#,[]\x7b\x7d&*!|>'\"%@`".toList.contains c

/-- Whether a blank stands at either end. -/
def hasOuterSpace (t : Text) : Bool := t.head? = some ' ' || t.getLast? = some ' '

/-- Whether a text can be written without quotes. -/
def canBePlain (t : Text) : Bool :=
  !t.isEmpty && t.all (fun c => isPrintable c && !isBreak c) && !hasOuterSpace t && !startsWithMark t &&
    !hasWordMark t

/-- Whether a text can be written between single quotes. -/
def canBeSingleQuoted (t : Text) : Bool :=
  t.all isPrintable && !hasPair (· = ' ') isBreak t && !hasPair isBreak (· = ' ') t

/-- Whether a text can be written on lines of its own. -/
def canBeLiteral (t : Text) : Bool :=
  t.all isPrintable && !hasPair (· = ' ') isBreak t && t.getLast? != some ' '

/-- Whether a plain text would read back as this text. -/
def denotesItself (t : Text) : Bool := Meaning.ofText t = .text && !Meaning.isZeroPadded t

def style (t : Text) : ScalarStyle :=
  if t.contains '\n' then if canBeLiteral t then .literal else .doubleQuoted
  else if denotesItself t && canBePlain t then .plain
  else if canBeSingleQuoted t then .singleQuoted
  else .doubleQuoted

/-- The letter that stands for a character after a backslash. -/
def escapeLetter? (c : Char) : Option Char :=
  match c.toNat with
  | 0x00 => some '0'
  | 0x07 => some 'a'
  | 0x08 => some 'b'
  | 0x09 => some 't'
  | 0x0A => some 'n'
  | 0x0B => some 'v'
  | 0x0C => some 'f'
  | 0x0D => some 'r'
  | 0x1B => some 'e'
  | 0x22 => some '"'
  | 0x5C => some '\\'
  | 0x85 => some 'N'
  | 0x2028 => some 'L'
  | 0x2029 => some 'P'
  | _ => none

def doubleQuotedChar (c : Char) : Text :=
  if isPrintable c && !isBreak c && c != '"' && c != '\\' then [c]
  else
    match escapeLetter? c with
    | some d => ['\\', d]
    | none =>
      if c.toNat ≤ 0xFF then '\\' :: 'x' :: Hexadecimal.upperDigits 2 c.toNat
      else if c.toNat ≤ 0xFFFF then '\\' :: 'u' :: Hexadecimal.upperDigits 4 c.toNat
      else '\\' :: 'U' :: Hexadecimal.upperDigits 8 c.toNat

/-- The blanks in front of a line that starts at a column. -/
def indent (column : Nat) : Text := Text.fill column ' '

/-- The lines of a text, each but the blank ones at a column. At first, and after a break, a line
is still to be indented; at the end it is only when `closed` says so. -/
def lines (column : Nat) (closed : Bool) (write : Char → Text) : (fresh : Bool) → Text → Text
  | fresh, [] => if fresh && closed then indent column else []
  | fresh, c :: rest =>
    if isBreak c then c :: lines column closed write true rest
    else (if fresh then indent column else []) ++ write c ++ lines column closed write false rest

/-- What is written after the bar of a literal text: the indentation, where the text does not show
it, and what becomes of the breaks at the end. -/
def literalHeader (t : Text) : Text :=
  (if t.head?.any fun c => c = ' ' || isBreak c then ['2'] else []) ++
    match t.reverse with
    | c :: rest =>
      if !isBreak c then ['-'] else if rest.head?.all isBreak then ['+'] else []
    | [] => ['-']

/-- A text in a style; lines after the first start at a column. -/
def print (column : Nat) (t : Text) : ScalarStyle → Text
  | .plain => t
  | .singleQuoted =>
    '\'' :: (lines column true (fun c => if c = '\'' then [c, c] else [c]) false t ++ ['\''])
  | .doubleQuoted => '"' :: (t.flatMap doubleQuotedChar ++ ['"'])
  | .literal => '|' :: (literalHeader t ++ '\n' :: lines column false (fun c => [c]) true t)

end Scalar
end Stencil.Yaml
