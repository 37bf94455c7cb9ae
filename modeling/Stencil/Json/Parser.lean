import Stencil.Json.Basic
import Stencil.Text.Hexadecimal
import Stencil.Binary64.Scientific

/-!
# Reading JSON

A reader for RFC 8259. A member that is set twice keeps its first place and its last value. An
integer outside the exact range, and the integer `-0`, become floats; a number above the largest
float is refused, as are lone surrogates, raw controls in strings, and values nested deeper than a
given limit.
-/

namespace Stencil.Json

/-- The blanks that may stand around the tokens of JSON. -/
def isSpace (c : Char) : Bool := c = ' ' || c = '\n' || c = '\t' || c = '\r'

def skipSpace (t : Text) : Text := t.dropWhile isSpace

/-- The character that a letter after a backslash stands for. -/
def shortEscape? (c : Char) : Option Char :=
  match c with
  | '"' => some '"'
  | '\\' => some '\\'
  | '/' => some '/'
  | 'b' => some (Char.ofNat 8)
  | 'f' => some (Char.ofNat 12)
  | 'n' => some '\n'
  | 'r' => some '\r'
  | 't' => some '\t'
  | _ => none

/-- The character written as `\u` and four digits, or as two of these for a surrogate pair, and
what follows it. The text starts after the first `\u`. -/
def unicodeEscape? (t : Text) : Option (Char × Text) := do
  let (n, rest) ← Hexadecimal.take? 4 0 t
  if 0xDC00 ≤ n ∧ n ≤ 0xDFFF then none
  else if 0xD800 ≤ n ∧ n ≤ 0xDBFF then
    match rest with
    | '\\' :: 'u' :: rest => do
      let (low, rest) ← Hexadecimal.take? 4 0 rest
      if 0xDC00 ≤ low ∧ low ≤ 0xDFFF then
        some (Char.ofNat ((n - 0xD800) * 1024 + (low - 0xDC00) + 0x10000), rest)
      else none
    | _ => none
  else some (Char.ofNat n, rest)

/-- The rest of a string after its opening quote, and what follows the closing one. The first
argument bounds the number of characters read. -/
def stringTail? : Nat → Text → Option (Text × Text)
  | 0, _ => none
  | _ + 1, [] => none
  | _ + 1, '"' :: rest => some ([], rest)
  | fuel + 1, '\\' :: 'u' :: rest => do
    let (c, rest) ← unicodeEscape? rest
    let (s, rest) ← stringTail? fuel rest
    some (c :: s, rest)
  | _ + 1, ['\\'] => none
  | fuel + 1, '\\' :: c :: rest => do
    let c ← shortEscape? c
    let (s, rest) ← stringTail? fuel rest
    some (c :: s, rest)
  | fuel + 1, c :: rest =>
    if c.toNat < 32 then none
    else (stringTail? fuel rest).map fun (s, rest) => (c :: s, rest)

def string? : Text → Option (Text × Text)
  | '"' :: rest => stringTail? (rest.length + 1) rest
  | _ => none

/-- The number that a sign, the digits before the point, those after it and a power of ten
denote. Without point and power it is an integer if one holds it. -/
def numberOf? (negative : Bool) (whole : Text) (fraction power : Option Text) : Option Number :=
  let digits := Numeral.value (whole ++ fraction.getD [])
  let float := fun (power : Int) =>
    (Binary64.ofDecimal? negative digits (power - (fraction.getD []).length)).map Number.float
  match fraction, power with
  | none, none =>
    let n : Int := if negative then -(digits : Int) else digits
    if negative ∧ digits = 0 then float 0
    else
      match Number.ofInt? n with
      | some n => some n
      | none => float 0
  | _, none => float 0
  | _, some power => do float (← Numeral.toInt? power)

/-- The digits after a point, when there is one, and what follows them. -/
def fraction? : Text → Option (Option Text × Text)
  | '.' :: rest =>
    let digits := rest.takeWhile Char.isDigit
    if digits.isEmpty then none else some (some digits, rest.dropWhile Char.isDigit)
  | rest => some (none, rest)

/-- The signed digits after the mark of a power of ten, when there is one, and what follows. -/
def power? : Text → Option (Option Text × Text)
  | c :: rest =>
    if c = 'e' ∨ c = 'E' then
      let (sign, rest) :=
        match rest with
        | '-' :: rest => (['-'], rest)
        | '+' :: rest => ([], rest)
        | rest => ([], rest)
      let digits := rest.takeWhile Char.isDigit
      if digits.isEmpty then none else some (some (sign ++ digits), rest.dropWhile Char.isDigit)
    else some (none, c :: rest)
  | [] => some (none, [])

/-- A number and what follows it. A leading zero stands alone before the point. -/
def number? (t : Text) : Option (Number × Text) := do
  let (negative, t) :=
    match t with
    | '-' :: rest => (true, rest)
    | rest => (false, rest)
  let whole := t.takeWhile Char.isDigit
  let rest := t.dropWhile Char.isDigit
  if whole.isEmpty ∨ (whole.head? = some '0' ∧ whole.length ≠ 1) then none
  else
    let (fraction, rest) ← fraction? rest
    let (power, rest) ← power? rest
    let n ← numberOf? negative whole fraction power
    some (n, rest)

mutual
/-- A value at the start of the text and what follows it. `fuel` bounds the steps and `depth` the
nesting that is still allowed. -/
def value? : (fuel depth : Nat) → Text → Option (Json × Text)
  | 0, _, _ => none
  | fuel + 1, depth, t =>
    match t with
    | 'n' :: 'u' :: 'l' :: 'l' :: rest => some (.null, rest)
    | 't' :: 'r' :: 'u' :: 'e' :: rest => some (.bool true, rest)
    | 'f' :: 'a' :: 'l' :: 's' :: 'e' :: rest => some (.bool false, rest)
    | '"' :: rest => (string? ('"' :: rest)).map fun (s, rest) => (.string s, rest)
    | '[' :: rest =>
      if depth = 0 then none
      else
        match skipSpace rest with
        | ']' :: rest => some (.array [], rest)
        | rest => (items? fuel (depth - 1) rest).map fun (items, rest) => (.array items, rest)
    | '\x7b' :: rest =>
      if depth = 0 then none
      else
        match skipSpace rest with
        | '\x7d' :: rest => some (.object [], rest)
        | rest =>
          (members? fuel (depth - 1) [] rest).map fun (members, rest) => (.object members, rest)
    | t => (number? t).map fun (n, rest) => (.number n, rest)

/-- One or more items up to the closing bracket, and what follows it. -/
def items? : (fuel depth : Nat) → Text → Option (List Json × Text)
  | 0, _, _ => none
  | fuel + 1, depth, t => do
    let (item, rest) ← value? fuel depth t
    match skipSpace rest with
    | ']' :: rest => some ([item], rest)
    | ',' :: rest => do
      let (items, rest) ← items? fuel depth (skipSpace rest)
      some (item :: items, rest)
    | _ => none

/-- One or more members up to the closing brace, added to those already read, and what follows. -/
def members? : (fuel depth : Nat) → Members → Text → Option (Members × Text)
  | 0, _, _, _ => none
  | fuel + 1, depth, read, t => do
    let (name, rest) ← string? t
    match skipSpace rest with
    | ':' :: rest => do
      let (value, rest) ← value? fuel depth (skipSpace rest)
      let read := read.set name value
      match skipSpace rest with
      | '\x7d' :: rest => some (read, rest)
      | ',' :: rest => members? fuel depth read (skipSpace rest)
      | _ => none
    | _ => none
end

def nestingLimit : Nat := 127

/-- The value that the whole text denotes, blanks around it aside. -/
def parseWithin? (depth : Nat) (t : Text) : Option Json := do
  let (value, rest) ← value? (2 * t.length + 1) depth (skipSpace t)
  if (skipSpace rest).isEmpty then some value else none

/-- The value that the whole text denotes, nested no deeper than `nestingLimit`. -/
def parse? (t : Text) : Option Json := parseWithin? nestingLimit t

end Stencil.Json
