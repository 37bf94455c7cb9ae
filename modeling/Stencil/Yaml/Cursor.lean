import Stencil.Text.Basic

/-!
# Positions in a document

Indentation decides the structure of a document, so a reader carries its line and column along
with the text that is left. A line ends at a line feed, a carriage return, or one of three marks of
Unicode; the first four endings mean a line feed, the other two themselves.
-/

namespace Stencil.Yaml

/-- The characters that end a line. -/
def isBreak (c : Char) : Bool :=
  c = '\n' || c = '\r' || c.toNat = 0x85 || c.toNat = 0x2028 || c.toNat = 0x2029

/-- The blanks within a line. -/
def isSpace (c : Char) : Bool := c = ' ' || c = '\t'

/-- The characters of names. -/
def isNameChar (c : Char) : Bool := c.isAlphanum || c = '_' || c = '-'

/-- Whether a word ends before the text: at its end, at a blank or at a line break. -/
def endsWord : Text → Bool
  | [] => true
  | c :: _ => isSpace c || isBreak c

/-- Whether the text starts with the given character and a word ends after it. -/
def startsWithWord (c : Char) : Text → Bool
  | d :: rest => c = d && endsWord rest
  | [] => false

/-- What is left of a text, and how far it is from the start. -/
structure Cursor where
  rest : Text
  index : Nat
  line : Nat
  column : Nat
deriving DecidableEq, Repr

namespace Cursor

def start (t : Text) : Cursor := ⟨t, 0, 0, 0⟩

def next (c : Cursor) : Cursor := ⟨c.rest.tail, c.index + 1, c.line, c.column + 1⟩

def skip (n : Nat) (c : Cursor) : Cursor := ⟨c.rest.drop n, c.index + n, c.line, c.column + n⟩

/-- The longest run of characters of the line that satisfy `p`. -/
def run (p : Char → Bool) (c : Cursor) : Text := c.rest.takeWhile fun d => p d && !isBreak d

/-- The position after the longest run of characters of the line that satisfy `p`. -/
def skipRun (p : Char → Bool) (c : Cursor) : Cursor := c.skip (c.run p).length

/-- The character that a line break here means, and the position after it. -/
def lineBreak? (c : Cursor) : Option (Char × Cursor) :=
  match c.rest with
  | '\r' :: '\n' :: rest => some ('\n', ⟨rest, c.index + 2, c.line + 1, 0⟩)
  | d :: rest =>
    if isBreak d then
      some (if d.toNat < 0x2028 then '\n' else d, ⟨rest, c.index + 1, c.line + 1, 0⟩)
    else none
  | [] => none

/-- The position after the rest of a line that holds only blanks and a comment. -/
def endLine? (c : Cursor) : Option Cursor :=
  let c := c.skipRun isSpace
  let c := if c.rest.head? = some '#' then c.skipRun fun _ => true else c
  if c.rest.isEmpty then some c
  else
    match c.lineBreak? with
    | some (_, c) => some c
    | none => none

/-- The mark between documents: three times `d` at the start of a line, as a word of its own. -/
def atMark (d : Char) (c : Cursor) : Bool :=
  c.column = 0 &&
    match c.rest with
    | x :: y :: z :: rest => x = d && y = d && z = d && endsWord rest
    | _ => false

/-- Whether a document starts or ends here. -/
def atDocumentMark (c : Cursor) : Bool := c.atMark '-' || c.atMark '.'

end Cursor
end Stencil.Yaml
