import Stencil.Yaml.Block
import Stencil.Yaml.Plain
import Stencil.Yaml.Quoted
import Stencil.Yaml.Token

/-!
# Tokens of a text

The state of a reader of tokens, and what it does at each kind of token. A key shows itself only at
the colon after it; so the place of each text that can turn out to be a key is remembered, and the
tokens that announce the key are put there afterwards. A key without a question mark stands on one
line and has at most 1024 characters.
-/

namespace Stencil.Yaml

/-- A place where a key may have started. -/
structure Candidate where
  /-- The number of tokens before it. -/
  position : Nat
  /-- Whether anything but a key is wrong there, as it stands at the column of a mapping. -/
  required : Bool
  index : Nat
  line : Nat
  column : Nat
deriving DecidableEq, Repr

/-- Whether the colon can no longer come. -/
def Candidate.isStale (k : Candidate) (c : Cursor) : Bool :=
  k.line < c.line || k.index + 1024 < c.index

/-- A reader of tokens between two of them. -/
structure Lexer where
  cursor : Cursor
  tokens : Array Token
  /-- The columns of the open block collections, the innermost first. -/
  columns : List Nat
  /-- The candidate between the innermost open brackets, or outside all. -/
  candidate : Option Candidate
  /-- The candidates outside the innermost brackets, one for each open bracket. -/
  outer : List (Option Candidate)
  /-- Whether a key may start here. -/
  keyAllowed : Bool

namespace Lexer

def start (t : Text) : Lexer := ⟨.start t, #[], [], none, [], true⟩

def inFlow (l : Lexer) : Bool := !l.outer.isEmpty

def push (t : Token) (l : Lexer) : Lexer := { l with tokens := l.tokens.push t }

/-- The reader after a token of `n` characters. -/
def take (n : Nat) (t : Token) (l : Lexer) : Lexer := { l.push t with cursor := l.cursor.skip n }

/-- The reader with a token put at an earlier place. -/
def insert (position : Nat) (t : Token) (l : Lexer) : Lexer :=
  { l with tokens := l.tokens.insertIdxIfInBounds position t }

/-- The reader with the innermost `n` block collections closed. -/
def closeBlocks (n : Nat) (l : Lexer) : Lexer :=
  { l with columns := l.columns.drop n, tokens := l.tokens ++ Array.replicate n .blockEnd }

/-- The reader with all block collections closed that stand deeper than its position. -/
def closeDeeper (l : Lexer) : Lexer :=
  if l.inFlow then l else l.closeBlocks (l.columns.takeWhile (l.cursor.column < ·)).length

def closeAll (l : Lexer) : Lexer := if l.inFlow then l else l.closeBlocks l.columns.length

/-- The reader with a block collection opened at a column, unless one is open there. -/
def openBlock (column position : Nat) (t : Token) (l : Lexer) : Lexer :=
  if l.inFlow || l.columns.head?.any (column ≤ ·) then l
  else { l.insert position t with columns := column :: l.columns }

/-- The reader without its candidate, which must not be required. -/
def dropCandidate? (l : Lexer) : Option Lexer :=
  if l.candidate.any (·.required) then none else some { l with candidate := none }

/-- The reader with its position as a candidate, if a key may start there. -/
def saveCandidate? (l : Lexer) : Option Lexer :=
  if !l.keyAllowed then some l
  else do
    let l ← l.dropCandidate?
    let c := l.cursor
    let required := !l.inFlow && l.columns.head? = some c.column
    some { l with candidate := some ⟨l.tokens.size, required, c.index, c.line, c.column⟩ }

/-- The reader without stale candidates, none of which may be required. -/
def dropStale? (l : Lexer) : Option Lexer :=
  let isStale := fun k : Option Candidate => k.any (·.isStale l.cursor)
  if (l.candidate :: l.outer).any fun k => isStale k && k.any (·.required) then none
  else
    some { l with
      candidate := if isStale l.candidate then none else l.candidate
      outer := l.outer.map fun k => if isStale k then none else k }

/-- The reader at the next token. A tab does not count as blank where a key may start. -/
def skipBlanks : (fuel : Nat) → Lexer → Lexer
  | 0, l => l
  | fuel + 1, l =>
    let c := l.cursor.skipRun fun d => d = ' ' || (d = '\t' && (l.inFlow || !l.keyAllowed))
    let c := if c.rest.head? = some '#' then c.skipRun fun _ => true else c
    match c.lineBreak? with
    | some (_, c) => skipBlanks fuel { l with cursor := c, keyAllowed := l.keyAllowed || !l.inFlow }
    | none => { l with cursor := c }

/-- A directive or a mark between documents, which closes everything. -/
def boundary? (l : Lexer) : Option Lexer :=
  l.closeAll.dropCandidate?.map fun l => { l with keyAllowed := false }

def openFlow? (t : Token) (l : Lexer) : Option Lexer :=
  l.saveCandidate?.map fun l =>
    { l.take 1 t with candidate := none, outer := l.candidate :: l.outer, keyAllowed := true }

def closeFlow? (t : Token) (l : Lexer) : Option Lexer :=
  l.dropCandidate?.map fun l =>
    let l := { l.take 1 t with keyAllowed := false }
    match l.outer with
    | [] => l
    | k :: outer => { l with candidate := k, outer }

def comma? (l : Lexer) : Option Lexer :=
  l.dropCandidate?.map fun l => { l.take 1 .flowEntry with keyAllowed := true }

/-- The start of a collection at the position of its first sign, where brackets are not open. -/
def startBlock? (t : Token) (l : Lexer) : Option Lexer :=
  if l.inFlow then some l
  else if l.keyAllowed then some (l.openBlock l.cursor.column l.tokens.size t)
  else none

def dash? (l : Lexer) : Option Lexer := do
  let l ← l.startBlock? .blockSequenceStart
  let l ← l.dropCandidate?
  some { l.take 1 .blockEntry with keyAllowed := true }

def key? (l : Lexer) : Option Lexer := do
  let l ← l.startBlock? .blockMappingStart
  let l ← l.dropCandidate?
  some { l.take 1 .key with keyAllowed := !l.inFlow }

/-- A colon. It makes the candidate a key, or follows a key with a question mark. -/
def value? (l : Lexer) : Option Lexer :=
  match l.candidate with
  | some k =>
    let l := (l.insert k.position .key).openBlock k.column k.position .blockMappingStart
    some { l.take 1 .value with candidate := none, keyAllowed := false }
  | none => do
    let l ← l.startBlock? .blockMappingStart
    some { l.take 1 .value with keyAllowed := !l.inFlow }

/-- Whether a character may stand right after the name of an anchor. -/
def endsName (t : Text) : Bool :=
  endsWord t || t.head?.any fun c => "?:,]\x7d%@`".toList.contains c

/-- A name after the sign of an anchor or an alias. -/
def name? (make : Text → Token) (l : Lexer) : Option Lexer := do
  let l ← l.saveCandidate?
  let name := l.cursor.next.run isNameChar
  let c := l.cursor.next.skip name.length
  if name.isEmpty || !endsName c.rest then none
  else some { l.push (make name) with cursor := c, keyAllowed := false }

def tag? (l : Lexer) : Option Lexer := do
  let l ← l.saveCandidate?
  let (name, c) ← Tag.read? l.inFlow l.cursor
  some { l.push (.tag name) with cursor := c, keyAllowed := false }

def block? (literal : Bool) (l : Lexer) : Option Lexer := do
  let l ← l.dropCandidate?
  let (t, c) ← Block.read? literal l.columns.head? l.cursor
  some { l.push (.scalar false t) with cursor := c, keyAllowed := true }

def quoted? (quote : Quote) (l : Lexer) : Option Lexer := do
  let l ← l.saveCandidate?
  let (t, c) ← Quoted.read? quote l.cursor
  some { l.push (.scalar false t) with cursor := c, keyAllowed := false }

/-- The first column in which a plain text goes on outside brackets. -/
def least (l : Lexer) : Nat :=
  match l.columns with
  | [] => 0
  | column :: _ => column + 1

def plain? (l : Lexer) : Option Lexer := do
  let l ← l.saveCandidate?
  let r ← Plain.read? l.inFlow l.least l.cursor
  some { l.push (.scalar true r.text) with cursor := r.cursor, keyAllowed := r.broken }

/-- The characters that cannot start a plain text, unless some of them start a word. -/
def isIndicator (c : Char) : Bool := "-?:,[]\x7b\x7d#&*!|>'\"%@`".toList.contains c

def startsPlain (l : Lexer) : Bool :=
  match l.cursor.rest with
  | [] => false
  | c :: rest =>
    !(isSpace c || isBreak c || isIndicator c) ||
      (c = '-' && !rest.head?.any isSpace) ||
      (!l.inFlow && (c = '?' || c = ':') && !endsWord rest)

/-- The reader after the directive here. -/
def directive? (l : Lexer) : Option Lexer := do
  let l ← l.boundary?
  let (directive, c) ← Directive.read? l.cursor
  some { l.push (.directive directive) with cursor := c }

/-- The reader after the token that starts with the character `c` here. -/
def token? (c : Char) (l : Lexer) : Option Lexer :=
  let ends := endsWord l.cursor.rest.tail
  if l.cursor.column = 0 ∧ c = '%' then l.directive?
  else if l.cursor.atMark '-' then l.boundary?.map (·.take 3 .documentStart)
  else if l.cursor.atMark '.' then l.boundary?.map (·.take 3 .documentEnd)
  else if c = '[' then l.openFlow? .flowSequenceStart
  else if c = '\x7b' then l.openFlow? .flowMappingStart
  else if c = ']' then l.closeFlow? .flowSequenceEnd
  else if c = '\x7d' then l.closeFlow? .flowMappingEnd
  else if c = ',' then l.comma?
  else if c = '-' ∧ ends then l.dash?
  else if c = '?' ∧ (l.inFlow ∨ ends) then l.key?
  else if c = ':' ∧ (l.inFlow ∨ ends) then l.value?
  else if c = '*' then l.name? .alias
  else if c = '&' then l.name? .anchor
  else if c = '!' then l.tag?
  else if c = '|' ∧ !l.inFlow then l.block? true
  else if c = '>' ∧ !l.inFlow then l.block? false
  else if c = '\'' then l.quoted? .single
  else if c = '"' then l.quoted? .double
  else if l.startsPlain then l.plain?
  else none

/-- All tokens from here to the end of the text. -/
def tokens? : (fuel : Nat) → Lexer → Option (List Token)
  | 0, _ => none
  | fuel + 1, l => do
    let l ← (l.skipBlanks (l.cursor.rest.length + 1)).dropStale?
    let l := l.closeDeeper
    match l.cursor.rest with
    | [] => (l.closeAll.dropCandidate?).map fun l => l.tokens.toList
    | c :: _ => tokens? fuel (← l.token? c)

end Lexer

/-- The characters that a document may hold. -/
def isAllowed (c : Char) : Bool :=
  let n := c.toNat
  n = 9 || n = 0xA || n = 0xD || (0x20 ≤ n && n ≤ 0x7E) || n = 0x85 || (0xA0 ≤ n && n ≤ 0xFFFD) ||
    0x10000 ≤ n

/-- The mark that can stand before a text to show the order of its bytes. -/
def byteOrderMark : Char := Char.ofNat 0xFEFF

/-- The tokens of a text. A byte order mark in front of it does not count. -/
def Token.ofText? (t : Text) : Option (List Token) :=
  if !t.all isAllowed then none
  else
    let l := Lexer.start (if t.head? = some byteOrderMark then t.drop 1 else t)
    let c := if l.cursor.rest.head? = some byteOrderMark then l.cursor.next else l.cursor
    Lexer.tokens? (t.length + 1) { l with cursor := c }

end Stencil.Yaml
