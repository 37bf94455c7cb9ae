import Stencil.Template.OperandReader

/-!
# The pieces of a source

The source of a template falls into pieces: plain text and tags. Tags that open and close blocks
are checked to be nested, but not yet to have the same names. A source that does not fall into
pieces has no reading as a template.
-/

namespace Stencil.Template

inductive BlockKind
  | helper
  | directive
  | inclusion
deriving DecidableEq, Repr

/-- What a tag opens: a block for a helper, which may name what it sets, or one of the others. The
name is the one that closes the block. -/
inductive Head
  | helper (invocation : Invocation) (names : List Text)
  | directive (invocation : Invocation)
  | inclusion (name : Text) (inclusion : Inclusion)

def Head.kind : Head → BlockKind
  | .helper .. => .helper
  | .directive _ => .directive
  | .inclusion .. => .inclusion

def Head.name : Head → Text
  | .helper invocation _ | .directive invocation => invocation.name
  | .inclusion name _ => name

inductive Tag
  | value (operand : Operand)
  | invoke (invocation : Invocation)
  | opening (head : Head)
  | otherwise
  | closing (kind : BlockKind) (name : Text)
  | comment
  | inclusion (inclusion : Inclusion)
  | directive (invocation : Invocation)

/-- A tag as it was read: what it says, whether it removes the blanks before and after it, and the
literals in it that are no values. -/
structure TagReading where
  tag : Tag
  trimBefore : Bool
  trimAfter : Bool
  faults : List Text

/-- A tag in its place. It is standalone when nothing but blanks shares its line. The blanks right
before it are its indent, unless it removes them. -/
structure PlacedTag extends TagReading where
  position : Position
  standalone : Bool
  indent : Text

inductive Piece
  | text (content : Text)
  | tag (placed : PlacedTag)

/-! ## Reading a tag -/

def openMark : Text := ['\x7b', '\x7b']

def closeMark : Text := ['\x7d', '\x7d']

/-- Whether a tilde comes next, and what follows it. -/
def tilde (t : Text) : Bool × Text :=
  match token? ['~'] t with
  | some rest => (true, rest)
  | none => (false, t)

/-- What follows the opening braces, and whether a tilde stands there. -/
def opened? (mark t : Text) : Option (Bool × Text) := (Text.afterPrefix? mark t).map tilde

/-- What follows the closing braces, and whether a tilde stands there. -/
def closed? (mark t : Text) : Option (Bool × Text) :=
  let (trim, rest) := tilde t
  (token? mark rest).map fun rest => (trim, rest)

/-- A value to be written: a nested call or a path. -/
def valueContent? (t : Text) : Option (WithFaults Tag × Text) :=
  match nestedCall? (operandFuel t) t with
  | some (⟨operand, faults⟩, rest) => some (⟨.value operand, faults⟩, rest)
  | none => (path? (skip t)).map fun (path, rest) => (⟨.value (.path path), []⟩, rest)

/-- A call of a helper with operands, or a value to be written. -/
def content? (t : Text) : Option (WithFaults Tag × Text) :=
  match namedCall? (operandFuel t) t with
  | some (⟨(name, operands), faults⟩, rest) =>
    some (⟨.invoke ⟨name, operands.positional, operands.options⟩, faults⟩, rest)
  | none => valueContent? t

/-- The names that a block gives to what it sets. -/
def blockNames? (t : Text) : Option (List Text × Text) := do
  let rest ← token? ['a', 's'] t
  let rest ← token? ['|'] rest
  let (first, rest) ← identifier? rest
  let (names, rest) :=
    match identifier? rest with
    | some (second, rest) => ([first, second], rest)
    | none => ([first], rest)
  let rest ← token? ['|'] rest
  some (names, rest)

/-- What stands at the start of a block: a name, operands and the names of what it sets. -/
structure BlockStart where
  invocation : Invocation
  names : List Text
  faults : List Text

/-- A name with any number of operands, and what follows. -/
def withOperands (name : Text) (t : Text) : BlockStart × Text :=
  let (⟨operands, faults⟩, rest) := operands (operandFuel t) ⟨[], []⟩ t
  (⟨⟨name, operands.positional, operands.options⟩, [], faults⟩, rest)

/-- The start of a block after its mark. -/
def blockStart? (t : Text) : Option (BlockStart × Text) := do
  let (name, rest) ← identifier? t
  let (start, rest) := withOperands name rest
  match blockNames? rest with
  | some (names, rest) => some ({ start with names }, rest)
  | none => some (start, rest)

/-- The characters in the name of another template. -/
def isTemplateNameChar (c : Char) : Bool := isSymbol c || c == '/' || c == '.'

/-- The name of another template, plain or in single quotes. -/
def templateName? (t : Text) : Option (Text × Text) :=
  let name := (skip t).takeWhile isTemplateNameChar
  if !name.isEmpty then some (name, (skip t).dropWhile isTemplateNameChar)
  else
    match skip t with
    | '\'' :: inner =>
      let quoted := inner.takeWhile (· != '\'')
      match inner.dropWhile (· != '\'') with
      | _ :: rest => if quoted.isEmpty then none else some (('\'' :: quoted) ++ ['\''], rest)
      | [] => none
    | _ => none

/-- The target of an inclusion, with its wording. A path counts as a name, as it is written. -/
def target? (t : Text) : Option (WithFaults (Text × Target) × Text) :=
  match templateName? t with
  | some (name, rest) => some (⟨(name, .named name), []⟩, rest)
  | none =>
    match nestedCall? (operandFuel t) t with
    | some (⟨call, faults⟩, rest) => some (⟨(consumed t rest, .computed call), faults⟩, rest)
    | none => (path? (skip t)).map fun (path, rest) => (⟨(path.source, .named path.source), []⟩, rest)

/-- What stands at the start of an inclusion: its target and its operands. -/
structure InclusionStart where
  name : Text
  inclusion : Inclusion
  faults : List Text

def inclusionStart? (t : Text) : Option (InclusionStart × Text) := do
  let (⟨(name, target), faults⟩, rest) ← target? t
  let (start, rest) := withOperands name rest
  some (⟨name, ⟨target, start.invocation.operands, start.invocation.options⟩,
    faults ++ start.faults⟩, rest)

/-- A tag with the given inside between its braces. -/
def between? (t : Text) (inside : Text → Option (WithFaults Tag × Text)) :
    Option (TagReading × Text) := do
  let (trimBefore, rest) ← opened? openMark t
  let (⟨tag, faults⟩, rest) ← inside rest
  let (trimAfter, rest) ← closed? closeMark rest
  some (⟨tag, trimBefore, trimAfter, faults⟩, rest)

/-- The tag between the two parts of a block. -/
def otherwise? (t : Text) : Option (TagReading × Text) :=
  between? t fun t =>
    ((token? "else".toList t).or (token? ['^'] t)).map fun rest => (⟨.otherwise, []⟩, rest)

/-- A value or a call in double braces. -/
def expression? (t : Text) : Option (TagReading × Text) :=
  if (otherwise? t).isSome then none else between? t content?

/-- A value or a call in triple braces. -/
def tripleBraces? (t : Text) : Option (TagReading × Text) := do
  let rest ← Text.afterPrefix? ('\x7b' :: openMark) t
  let (⟨tag, faults⟩, rest) ← content? rest
  let rest ← token? ('\x7d' :: closeMark) rest
  some (⟨tag, false, false, faults⟩, rest)

/-- A value or a call in braces within double braces. -/
def innerBraces? (t : Text) : Option (TagReading × Text) :=
  between? t fun t => do
    let rest ← token? ['\x7b'] t
    let (inside, rest) ← content? rest
    let rest ← token? ['\x7d'] rest
    some (inside, rest)

/-- A value after an ampersand. -/
def ampersand? (t : Text) : Option (TagReading × Text) :=
  between? t fun t => (token? ['&'] t).bind valueContent?

def BlockStart.helper (start : BlockStart) : Head := .helper start.invocation start.names

def BlockStart.directive (start : BlockStart) : Head := .directive start.invocation

/-- The head of a block that is no inclusion. -/
def blockHead? (head : BlockStart → Head) (t : Text) : Option (WithFaults Head × Text) :=
  (blockStart? t).map fun (start, rest) => (⟨head start, start.faults⟩, rest)

def inclusionHead? (t : Text) : Option (WithFaults Head × Text) :=
  (inclusionStart? t).map fun (start, rest) =>
    (⟨.inclusion start.name start.inclusion, start.faults⟩, rest)

/-- A tag that opens a block. -/
def blockOpening? (marks : List Text) (head? : Text → Option (WithFaults Head × Text)) (t : Text) :
    Option (TagReading × Text) :=
  between? t fun t => do
    let rest ← marks.foldlM (fun t mark => token? mark t) t
    let (⟨head, faults⟩, rest) ← head? rest
    some (⟨.opening head, faults⟩, rest)

/-- A comment, which ends at two hyphens before its braces when it starts with two. -/
def comment? (t : Text) : Option (TagReading × Text) := do
  let inner ← Text.afterPrefix? (openMark ++ ['!']) t
  let rest ←
    match (token? ['-', '-'] inner).bind fun t =>
        Text.splitFirst? (['-', '-'] ++ closeMark) (skip t) with
    | some (_, rest) => some rest
    | none => (Text.splitFirst? closeMark inner).map Prod.snd
  some (⟨.comment, false, false, []⟩, rest)

/-- A directive outside a block. -/
def directive? (t : Text) : Option (TagReading × Text) :=
  between? t fun t => do
    let rest ← token? ['*'] t
    let (start, rest) ← blockStart? rest
    some (⟨.directive start.invocation, start.faults⟩, rest)

def inclusion? (t : Text) : Option (TagReading × Text) :=
  between? t fun t => do
    let rest ← token? ['>'] t
    let (start, rest) ← inclusionStart? rest
    some (⟨.inclusion start.inclusion, start.faults⟩, rest)

def freeTag? (t : Text) : Option (TagReading × Text) :=
  [expression?, tripleBraces?, innerBraces?, ampersand?,
    blockOpening? [['#']] (blockHead? BlockStart.helper), comment?, directive?,
    blockOpening? [['#'], ['*']] (blockHead? BlockStart.directive), inclusion?,
    blockOpening? [['#'], ['>']] inclusionHead?].findSome? fun read => read t

def closing? (kind : BlockKind) (t : Text) : Option (TagReading × Text) :=
  between? t fun t => do
    let rest ← token? ['/'] t
    let (name, rest) ← if kind = .inclusion then templateName? rest else identifier? rest
    some (⟨.closing kind name, []⟩, rest)

/-! ## Plain text -/

/-- The plain text up to `stop`, and the rest. A backslash before double braces makes them plain
and is dropped; of several backslashes before double braces the last is dropped and the braces
keep their meaning. -/
def splitText (stop : Text) : (afterBackslash : Bool) → Text → Text × Text
  | _, [] => ([], [])
  | false, '\\' :: '\x7b' :: '\x7b' :: '\x7b' :: '\x7b' :: t =>
    let (text, rest) := splitText stop false t
    ('\x7b' :: '\x7b' :: '\x7b' :: '\x7b' :: text, rest)
  | false, '\\' :: '\x7b' :: '\x7b' :: t =>
    let (text, rest) := splitText stop false t
    ('\x7b' :: '\x7b' :: text, rest)
  | true, '\\' :: t =>
    if Text.startsWith openMark t then splitText stop false t
    else
      let (text, rest) := splitText stop true t
      ('\\' :: text, rest)
  | _, c :: t =>
    if Text.startsWith stop (c :: t) then ([], c :: t)
    else
      let (text, rest) := splitText stop (c == '\\') t
      (c :: text, rest)

/-! ## Raw blocks -/

def rawOpenMark : Text := openMark ++ openMark

def rawCloseMark : Text := closeMark ++ closeMark

def rawOpening? (t : Text) : Option (TagReading × Text) := do
  let (trimBefore, rest) ← opened? rawOpenMark t
  let (⟨head, faults⟩, rest) ← blockHead? BlockStart.helper rest
  let (trimAfter, rest) ← closed? rawCloseMark rest
  some (⟨.opening head, trimBefore, trimAfter, faults⟩, rest)

def rawClosing? (t : Text) : Option (TagReading × Text) := do
  let (trimBefore, rest) ← opened? rawOpenMark t
  let rest ← token? ['/'] rest
  let (name, rest) ← identifier? rest
  let (trimAfter, rest) ← closed? rawCloseMark rest
  some (⟨.closing .helper name, trimBefore, trimAfter, []⟩, rest)

/-! ## The whole source -/

/-- The place after the characters `before`, which are in reverse order. -/
def positionAfter (before : Text) : Position :=
  ⟨before.count '\n' + 1, (before.takeWhile (· != '\n')).length + 1⟩

/-- Whether there are only blanks between the start of the line and the place after `before`. -/
def lineStartsBlank (before : Text) : Bool :=
  match before.dropWhile isLineSpace with
  | [] => true
  | c :: _ => isLineEnd c

/-- Whether there are only blanks up to the end of the line, and the line ends. -/
def lineEndsBlank (after : Text) : Bool :=
  match after.dropWhile isLineSpace with
  | [] => false
  | c :: _ => isLineEnd c

/-- A tag put in its place between the characters before it, in reverse order, and the rest. -/
def place (reading : TagReading) (before after : Text) : PlacedTag :=
  { reading with
    position := positionAfter before
    standalone := lineStartsBlank before && lineEndsBlank after
    indent := if reading.trimBefore then [] else (before.takeWhile isLineSpace).reverse }

/-- A text as a piece, unless it is empty. -/
def textPieces (t : Text) : List Piece := if t.isEmpty then [] else [.text t]

/-- The characters before `rest`, in reverse order, given those before `t`. -/
def advance (before t rest : Text) : Text := (consumed t rest).reverse ++ before

/-- A block that is open while pieces are read. A block for a helper may have a second part. -/
structure OpenBlock where
  kind : BlockKind
  inverseAllowed : Bool
deriving DecidableEq, Repr

/-- The open blocks after a tag. -/
def OpenBlock.after (blocks : List OpenBlock) (tag : Tag) : List OpenBlock :=
  match tag, blocks with
  | .opening head, blocks => ⟨head.kind, head.kind = .helper⟩ :: blocks
  | .otherwise, block :: blocks => { block with inverseAllowed := false } :: blocks
  | .closing _ _, _ :: blocks => blocks
  | _, blocks => blocks

/-- A tag that belongs to the innermost open block: one that closes it, or the one between its
two parts. -/
def boundTag? (blocks : List OpenBlock) (t : Text) : Option (TagReading × Text) :=
  match blocks with
  | [] => none
  | block :: _ =>
    ((if block.inverseAllowed then otherwise? t else none)).or (closing? block.kind t)

/-- The pieces of a raw block, the characters before what follows it, and what follows it. The
blanks at its start are dropped. -/
def rawBlock? (before t : Text) : Option (List Piece × Text × Text) := do
  let (opening, rest) ← rawOpening? t
  let inner := skip rest
  let (text, closingStart) := splitText rawOpenMark false inner
  let (closing, after) ← rawClosing? closingStart
  some
    (.tag (place opening before rest) :: (textPieces text ++
      [.tag (place closing (advance before t closingStart) after)]),
      advance before t after, after)

/-- The pieces of the source `t`, inside the given open blocks and after the characters `before`,
which are in reverse order. -/
def piecesFrom? : (fuel : Nat) → (blocks : List OpenBlock) → (before t : Text) →
    Option (List Piece)
  | 0, _, _, _ => none
  | fuel + 1, blocks, before, t =>
    let (text, start) := splitText openMark false t
    if start.isEmpty then
      if blocks.isEmpty then some (textPieces text) else none
    else
      let before := advance before t start
      match (freeTag? start).or (boundTag? blocks start) with
      | some (reading, rest) =>
        (piecesFrom? fuel (OpenBlock.after blocks reading.tag) (advance before start rest)
          rest).map fun pieces => textPieces text ++ .tag (place reading before rest) :: pieces
      | none =>
        match rawBlock? before start with
        | some (raw, before, rest) =>
          (piecesFrom? fuel blocks before rest).map fun pieces => textPieces text ++ raw ++ pieces
        | none => none

/-- The pieces of a source, when it has a reading. -/
def pieces? (source : Text) : Option (List Piece) :=
  piecesFrom? (source.length + 1) [] [] source

end Stencil.Template
