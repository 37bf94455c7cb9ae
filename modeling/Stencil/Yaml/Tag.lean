import Stencil.Text.Hexadecimal
import Stencil.Text.Numeral
import Stencil.Text.Utf8
import Stencil.Yaml.Cursor

/-!
# Tags and directives

A tag names the kind of a value. It is written as a handle and a suffix, or in full between angles;
what a handle stands for is fixed, or said by a directive at the start of the document. A tag is
kept as octets, since escapes can write any.
-/

namespace Stencil.Yaml

/-- The octets of a tag. -/
abbrev Tag := List UInt8

/-- A tag as it is written. -/
structure TagName where
  /-- The handle, with its exclamation marks; empty for a tag that is written in full. -/
  handle : Text
  suffix : Tag
deriving DecidableEq, Repr

/-- What stands before a document. -/
inductive Directive
  | version (major minor : Nat)
  | tagHandle (handle : Text) (expansion : Tag)
deriving DecidableEq, Repr

namespace Tag

/-- The tag that is a lone exclamation mark. -/
def nonSpecific : Tag := Utf8.encode ['!']

/-- Whether the tag starts with an exclamation mark. -/
def isMarked (tag : Tag) : Bool := tag.head? = some 33

/-- Whether the tag is one that only the application of a document knows. -/
def isLocal (tag : Tag) : Bool := tag.isMarked && (Utf8.decode? tag).isSome

/-- The tags that every document knows. -/
def core (name : String) : Tag := Utf8.encode ("tag:yaml.org,2002:".toList ++ name.toList)

/-- The characters of a tag that is written with a handle. -/
def isChar (c : Char) : Bool := isNameChar c || ";/?:@&=+$.%!~*'()".toList.contains c

/-- The characters of a tag that is written in full. -/
def isFullChar (c : Char) : Bool := isChar c || c = ',' || c = '[' || c = ']'

/-- The number of octets of a character that starts with a given one. -/
def octetCount? (b : UInt8) : Option Nat :=
  if b < 0x80 then some 1
  else if 0xC0 ≤ b ∧ b < 0xE0 then some 2
  else if 0xE0 ≤ b ∧ b < 0xF0 then some 3
  else if 0xF0 ≤ b ∧ b < 0xF8 then some 4
  else none

/-- An octet written as a percent sign and two digits, and what follows it. -/
def octet? : Text → Option (UInt8 × Text)
  | '%' :: rest => (Hexadecimal.take? 2 0 rest).map fun (n, rest) => (UInt8.ofNat n, rest)
  | _ => none

/-- The given number of further octets of a character, and what follows them. -/
def moreOctets? : Nat → Text → Option (Tag × Text)
  | 0, t => some ([], t)
  | n + 1, t => do
    let (b, rest) ← octet? t
    if 0x80 ≤ b ∧ b < 0xC0 then (moreOctets? n rest).map fun (bs, rest) => (b :: bs, rest)
    else none

/-- The octets that a run of tag characters writes. -/
def ofChars? : (fuel : Nat) → Text → Option Tag
  | 0, _ => none
  | _ + 1, [] => some []
  | fuel + 1, c :: rest =>
    if c = '%' then do
      let (b, rest) ← octet? (c :: rest)
      let (bs, rest) ← moreOctets? ((← octetCount? b) - 1) rest
      return b :: bs ++ (← ofChars? fuel rest)
    else (ofChars? fuel rest).map (UInt8.ofNat c.toNat :: ·)

/-- The octets of the longest run of characters that satisfy `p`, and the position after it. -/
def run? (p : Char → Bool) (c : Cursor) : Option (Tag × Cursor) :=
  let chars := c.run p
  (ofChars? (chars.length + 1) chars).map fun tag => (tag, c.skip chars.length)

def someRun? (p : Char → Bool) (c : Cursor) : Option (Tag × Cursor) := do
  let (tag, c) ← run? p c
  if tag.isEmpty then none else some (tag, c)

/-- The exclamation mark and the name at a position, with the mark after the name when there is
one. -/
def readHandle (c : Cursor) : Text × Cursor :=
  let name := c.next.run isNameChar
  let after := c.next.skip name.length
  if after.rest.head? = some '!' then ('!' :: name ++ ['!'], after.next) else ('!' :: name, after)

/-- Whether a handle has a mark on both sides. -/
def isHandle (handle : Text) : Bool := handle.length > 1 && handle.getLast? = some '!'

/-- The tag at a position, which starts with an exclamation mark, and the position after it. -/
def read? (inFlow : Bool) (c : Cursor) : Option (TagName × Cursor) := do
  let (name, c) ←
    if c.next.rest.head? = some '<' then do
      let (tag, c) ← someRun? isFullChar (c.skip 2)
      if c.rest.head? = some '>' then some ((⟨[], tag⟩ : TagName), c.next) else none
    else
      let (handle, after) := readHandle c
      if isHandle handle then
        (someRun? isChar after).map fun (tag, c) => ((⟨handle, tag⟩ : TagName), c)
      else do
        let (tag, c) ← run? isChar after
        let suffix := Utf8.encode (handle.drop 1) ++ tag
        some (if suffix.isEmpty then ⟨[], nonSpecific⟩ else ⟨['!'], suffix⟩, c)
  if endsWord c.rest || (inFlow && c.rest.head? = some ',') then some (name, c) else none

end Tag

namespace Directive

/-- A number of at most nine digits, and the position after it. -/
def number? (c : Cursor) : Option (Nat × Cursor) :=
  let digits := c.run Char.isDigit
  if digits.isEmpty || 9 < digits.length then none
  else some (Numeral.value digits, c.skip digits.length)

/-- The version of the language, and the position after it. -/
def version? (c : Cursor) : Option (Directive × Cursor) := do
  let (major, c) ← number? (c.skipRun isSpace)
  if c.rest.head? = some '.' then
    (number? c.next).map fun (minor, c) => (.version major minor, c)
  else none

/-- A handle and what it stands for, and the position after it. -/
def handle? (c : Cursor) : Option (Directive × Cursor) := do
  let c := c.skipRun isSpace
  if c.rest.head? ≠ some '!' then none
  else
    let (handle, c) := Tag.readHandle c
    if !(handle = ['!'] || Tag.isHandle handle) || !c.rest.head?.any isSpace then none
    else do
      let (expansion, c) ← Tag.someRun? Tag.isFullChar (c.skipRun isSpace)
      if endsWord c.rest then some (.tagHandle handle expansion, c) else none

/-- The directive at a position, which starts with a percent sign, and the start of the next
line. -/
def read? (c : Cursor) : Option (Directive × Cursor) := do
  let name := c.next.run isNameChar
  let c := c.next.skip name.length
  if !endsWord c.rest then none
  else do
    let (directive, c) ←
      if name = "YAML".toList then version? c
      else if name = "TAG".toList then handle? c
      else none
    (c.endLine?).map fun c => (directive, c)

end Directive
end Stencil.Yaml
