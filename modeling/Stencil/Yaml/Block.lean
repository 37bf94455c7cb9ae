import Stencil.Yaml.Cursor

/-!
# Block text

Text on lines of its own, marked by a bar when its lines stay as they are and by an angle when they
are folded. It goes on as long as the lines are indented; the breaks after its last line are kept,
dropped, or reduced to one.
-/

namespace Stencil.Yaml.Block

/-- What becomes of the breaks after the last line. -/
inductive Chomping
  | clip
  | strip
  | keep
deriving DecidableEq, Repr

/-- What is written after the mark of a block text. -/
structure Header where
  chomping : Chomping
  /-- How many columns deeper than its parent the text stands, when that is written. -/
  indent : Option Nat
deriving DecidableEq, Repr

/-- A sign for the breaks after the last line. -/
def chomping? : Char → Option Chomping
  | '-' => some .strip
  | '+' => some .keep
  | _ => none

/-- The sign for the breaks after the last line, when it stands here, and the position after it. -/
def readChomping (c : Cursor) : Option Chomping × Cursor :=
  match c.rest.head?.bind chomping? with
  | some chomping => (some chomping, c.next)
  | none => (none, c)

/-- The digit for the indentation, when it stands here, and the position after it. Zero is
refused. -/
def readIndent? (c : Cursor) : Option (Option Nat × Cursor) :=
  match c.rest.head? with
  | some d =>
    if d = '0' then none
    else if d.isDigit then some (some (d.toNat - 48), c.next)
    else some (none, c)
  | none => some (none, c)

/-- The signs after the mark, in either order, and the start of the next line. -/
def header? (c : Cursor) : Option (Header × Cursor) := do
  let (first, c) := readChomping c
  let (indent, c) ← readIndent? c
  let (second, c) := if first.isSome then (none, c) else readChomping c
  let c ← c.endLine?
  some (⟨(first.or second).getD .clip, indent⟩, c)

/-- The breaks of the blank lines at a position, the deepest column reached, and the position of
the line after them. In the columns up to `indent`, or as long as it is open in all columns, spaces
are passed over and a tab is refused. -/
def breaks? (indent : Option Nat) :
    (fuel : Nat) → (deepest : Nat) → Cursor → Option (Text × Nat × Cursor)
  | 0, _, _ => none
  | fuel + 1, deepest, c =>
    let spaces := (c.run (· = ' ')).length
    let c := c.skip (match indent with | some n => min spaces (n - c.column) | none => spaces)
    let deepest := max deepest c.column
    if c.rest.head? = some '\t' && indent.all (c.column < ·) then none
    else
      match c.lineBreak? with
      | some (d, c) => (breaks? indent fuel deepest c).map fun (t, found) => (d :: t, found)
      | none => some ([], deepest, c)

/-- What stands between two lines: nothing when the break is folded away, a space when a single
one is folded, and else the breaks themselves. -/
def joint (folded : Bool) (last breaks : Text) : Text :=
  if folded && last = ['\n'] then if breaks.isEmpty then [' '] else breaks else last ++ breaks

/-- Whether a line is indented deeper than the text, so that the breaks around it stay. -/
def isDeeper (line : Text) : Bool := line.head?.any isSpace

/-- The lines at column `indent`. Before them stand the break after the line before, with the fact
whether that line was deeper, and the breaks of blank lines. The result is the text, the break
after its last line, those of the blank lines after it, and the position after all. -/
def lines? (literal : Bool) (indent : Nat) :
    (fuel : Nat) → (last : Text) → (deeper : Bool) → (breaks : Text) → Cursor →
      Option (Text × Text × Text × Cursor)
  | 0, _, _, _, _ => none
  | fuel + 1, last, deeper, breaks, c =>
    if c.column = indent ∧ !c.rest.isEmpty then do
      let line := c.run fun _ => true
      let between := joint (!literal && !deeper && !isDeeper line) last breaks
      let c := c.skip line.length
      let (next, c) :=
        match c.lineBreak? with
        | some (d, c) => ([d], c)
        | none => ([], c)
      let (blank, _, c) ← breaks? (some indent) (c.rest.length + 1) 0 c
      let (t, rest) ← lines? literal indent fuel next (isDeeper line) blank c
      some (between ++ line ++ t, rest)
    else some ([], last, breaks, c)

/-- The block text whose mark stands at a position, and the position after it. Its parent stands
at column `parent`, when it has one. -/
def read? (literal : Bool) (parent : Option Nat) (c : Cursor) : Option (Text × Cursor) := do
  let (header, c) ← header? c.next
  let given := header.indent.map (· + parent.getD 0)
  let (breaks, deepest, c) ← breaks? given (c.rest.length + 1) 0 c
  let least :=
    match parent with
    | some n => n + 1
    | none => 0
  let indent := given.getD (max deepest (max least 1))
  let (t, last, breaks, c) ← lines? literal indent (c.rest.length + 1) [] false breaks c
  let tail :=
    match header.chomping with
    | .strip => []
    | .clip => last
    | .keep => last ++ breaks
  some (t ++ tail, c)

end Stencil.Yaml.Block
