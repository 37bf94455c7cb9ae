import Stencil.Template.Basic
import Stencil.Json.Parser

/-!
# Reading operands

The grammar of what stands inside a tag: names, paths, literals and nested calls. A reader gives
what it read and the text after it. Blanks may stand between tokens but not inside names and
paths. A literal is first recognised by its shape; one that has the shape but is no JSON value is
reported as a fault and read as null, so that reading can go on.
-/

namespace Stencil.Template

def skip (t : Text) : Text := t.dropWhile isSpace

/-- What follows a token, blanks before it aside. -/
def token? (word t : Text) : Option Text := Text.afterPrefix? word (skip t)

/-- What was consumed of `t` when `rest` is left. -/
def consumed (t rest : Text) : Text := t.take (t.length - rest.length)

/-- Whether a name goes on at the start of the text. -/
def startsSymbol (t : Text) : Bool := (t.head?.map isSymbol).getD false

/-- A name at the start of the text. -/
def word? (t : Text) : Option (Text × Text) :=
  let name := t.takeWhile isSymbol
  if name.isEmpty then none else some (name, t.dropWhile isSymbol)

def identifier? (t : Text) : Option (Text × Text) := word? (skip t)

/-! ## Paths -/

/-- What follows a mark between two steps of a path. -/
def separator? : Text → Option Text
  | '.' :: t => some t
  | '/' :: t => some t
  | _ => none

/-- A named step: a name, or any text in brackets. -/
def item? : Text → Option (Text × Text)
  | '[' :: t =>
    match t.dropWhile (· != ']') with
    | _ :: rest => some (t.takeWhile (· != ']'), rest)
    | [] => none
  | t => word? t

/-- The segments for a named step; `this` adds none. -/
def namedSegments (name : Text) : List Segment :=
  if name = "this".toList then [] else [.named name]

/-- What follows the words for the present scope at the start of a path. -/
def afterCurrent (t : Text) : Text :=
  match (Text.afterPrefix? "this".toList t).bind separator? with
  | some rest => rest
  | none => (Text.afterPrefix? ['.', '/'] t).getD t

/-- The steps up at the start of a path, and what follows. -/
def ups : (fuel : Nat) → Text → List Segment × Text
  | 0, t => ([], t)
  | fuel + 1, t =>
    match (Text.afterPrefix? ['.', '.'] t).bind separator? with
    | some rest =>
      let (segments, rest) := ups fuel rest
      (.up :: segments, rest)
    | none => ([], t)

/-- Further named steps, each after a separator, and what follows. -/
def moreItems : (fuel : Nat) → Text → List Segment × Text
  | 0, t => ([], t)
  | fuel + 1, t =>
    match (separator? t).bind item? with
    | some (name, rest) =>
      let (segments, rest) := moreItems fuel rest
      (namedSegments name ++ segments, rest)
    | none => ([], t)

/-- The mark of the whole data at the start of a path, and what follows. -/
def rootMark (t : Text) : List Segment × Text :=
  match (Text.afterPrefix? "@root".toList t).bind separator? with
  | some rest => ([.root], rest)
  | none => ([], t)

/-- The mark of a variable at the start of a path, and what follows. -/
def variableStart : Text → List Segment × Text
  | '@' :: rest => ([.variableMark], rest)
  | t => ([], t)

/-- A path at the start of the text. -/
def path? (t : Text) : Option (Path × Text) := do
  let (rootSegments, start) := rootMark (afterCurrent t)
  let (variableSegments, start) := variableStart start
  let (upSegments, start) := ups start.length start
  let (name, start) ← item? start
  let (further, rest) := moreItems start.length start
  some (⟨consumed t rest,
    rootSegments ++ variableSegments ++ upSegments ++ namedSegments name ++ further⟩, rest)

/-! ## Literals -/

/-- What follows the inside of a string up to its quote. Escapes have the shapes of JSON, where
the quote in use can be escaped. -/
def stringEnd? (quote : Char) : (fuel : Nat) → Text → Option Text
  | 0, _ => none
  | _ + 1, [] => none
  | fuel + 1, '\\' :: 'u' :: t => do
    let (_, rest) ← Hexadecimal.take? 4 0 t
    stringEnd? quote fuel rest
  | fuel + 1, '\\' :: c :: t =>
    if c = quote ∨ c ∈ ['\\', '/', 'b', 'f', 'n', 'r', 't'] then stringEnd? quote fuel t else none
  | fuel + 1, c :: t =>
    if c = quote then some t
    else if c = '\\' then none
    else stringEnd? quote fuel t

/-- What follows a string in either kind of quotes. -/
def stringLiteral? : Text → Option Text
  | '"' :: t => stringEnd? '"' (t.length + 1) t
  | '\'' :: t => stringEnd? '\'' (t.length + 1) t
  | _ => none

/-- What follows a power of ten, when there is one. -/
def afterPower (t : Text) : Text :=
  match t with
  | 'E' :: rest =>
    let digits := (Text.afterPrefix? ['-'] rest).getD rest
    if (digits.takeWhile Char.isDigit).isEmpty then t else digits.dropWhile Char.isDigit
  | _ => t

/-- What follows a number, which must not run into a name. -/
def numberLiteral? (t : Text) : Option Text :=
  let digits := (Text.afterPrefix? ['-'] t).getD t
  if (digits.takeWhile Char.isDigit).isEmpty then none
  else
    let rest := digits.dropWhile Char.isDigit
    let rest := ((Text.afterPrefix? ['.'] rest).getD rest).dropWhile Char.isDigit
    let rest := afterPower rest
    if startsSymbol rest then none else some rest

/-- What follows a word that stands for a value, which must not run into a name. -/
def wordLiteral? (t : Text) : Option Text :=
  let find := fun word => (Text.afterPrefix? word t).filter fun rest => !startsSymbol rest
  (find "null".toList).or ((find "true".toList).or (find "false".toList))

mutual
def literal? : (fuel : Nat) → Text → Option Text
  | 0, _ => none
  | fuel + 1, t =>
    match t with
    | '[' :: rest => arrayEnd? fuel rest
    | '\x7b' :: rest => objectEnd? fuel rest
    | t => (stringLiteral? t).or ((numberLiteral? t).or (wordLiteral? t))

/-- What follows the inside of an array and its bracket. The first item may be missing. -/
def arrayEnd? : (fuel : Nat) → Text → Option Text
  | 0, _ => none
  | fuel + 1, t =>
    itemsEnd? fuel ((literal? fuel (skip t)).getD t)

/-- What follows further items, each after a comma, and the bracket. -/
def itemsEnd? : (fuel : Nat) → Text → Option Text
  | 0, _ => none
  | fuel + 1, t =>
    match (token? [','] t).bind fun rest => literal? fuel (skip rest) with
    | some rest => itemsEnd? fuel rest
    | none => token? [']'] t

/-- What follows the inside of an object and its brace. The first member may be missing. -/
def objectEnd? : (fuel : Nat) → Text → Option Text
  | 0, _ => none
  | fuel + 1, t => membersEnd? fuel ((member? fuel t).getD t)

/-- What follows a member. -/
def member? : (fuel : Nat) → Text → Option Text
  | 0, _ => none
  | fuel + 1, t => do
    let rest ← stringLiteral? (skip t)
    let rest ← token? [':'] rest
    literal? fuel (skip rest)

/-- What follows further members, each after a comma, and the brace. -/
def membersEnd? : (fuel : Nat) → Text → Option Text
  | 0, _ => none
  | fuel + 1, t =>
    match (token? [','] t).bind fun rest => member? fuel rest with
    | some rest => membersEnd? fuel rest
    | none => token? ['\x7d'] t
end

/-- The inside of a text in single quotes as it would stand in double quotes. -/
def toDoubleQuotes : Text → Text
  | '\\' :: '\'' :: t => '\'' :: toDoubleQuotes t
  | '"' :: t => '\\' :: '"' :: toDoubleQuotes t
  | c :: t => c :: toDoubleQuotes t
  | [] => []

/-- The value of a literal. -/
def literalValue? (source : Text) : Option Json :=
  match source with
  | '\'' :: inner => Json.parse? ('"' :: (toDoubleQuotes inner.dropLast ++ ['"']))
  | source => Json.parse? source

/-! ## Operands -/

/-- Something read, with the literals in it that are no values. -/
structure WithFaults (α : Type) where
  value : α
  faults : List Text

/-- Whether the text starts with a word that may not stand as an operand: `as` or `else` that no
name follows. -/
def startsKeyword (t : Text) : Bool :=
  let check := fun word =>
    match Text.afterPrefix? word t with
    | some rest => some (!startsSymbol (skip rest))
    | none => none
  (check "as".toList).getD ((check "else".toList).getD false)

structure Operands where
  positional : List Operand
  options : List (Text × Operand)

/-- The options with one set; of two with a name the later counts. -/
def setOption (options : List (Text × Operand)) (name : Text) (operand : Operand) :
    List (Text × Operand) :=
  options.filter (·.1 != name) ++ [(name, operand)]

mutual
/-- An operand: a literal, a path or a nested call. -/
def operand? : (fuel : Nat) → Text → Option (WithFaults Operand × Text)
  | 0, _ => none
  | fuel + 1, t =>
    let t := skip t
    if startsKeyword t then none
    else
      match literal? (2 * t.length + 1) t with
      | some rest =>
        let source := consumed t rest
        match literalValue? source with
        | some value => some (⟨.literal value, []⟩, rest)
        | none => some (⟨.literal .null, [source]⟩, rest)
      | none =>
        match path? t with
        | some (path, rest) => some (⟨.path path, []⟩, rest)
        | none => nestedCall? fuel t

/-- A call in parentheses: a name with operands, or a path alone. -/
def nestedCall? : (fuel : Nat) → Text → Option (WithFaults Operand × Text)
  | 0, _ => none
  | fuel + 1, t => do
    let inner ← token? ['('] t
    let (operand, rest) ←
      match namedCall? fuel inner with
      | some (⟨(name, operands), faults⟩, rest) =>
        some (⟨.call (.word name) operands.positional operands.options, faults⟩, rest)
      | none =>
        (path? (skip inner)).map fun (path, rest) =>
          ((⟨.call (.path path) [] [], []⟩ : WithFaults Operand), rest)
    let rest ← token? [')'] rest
    some (operand, rest)

/-- A name and at least one operand. -/
def namedCall? : (fuel : Nat) → Text → Option (WithFaults (Text × Operands) × Text)
  | 0, _ => none
  | fuel + 1, t => do
    let (name, rest) ← identifier? t
    let (⟨operands, faults⟩, rest) := operands fuel ⟨[], []⟩ rest
    if operands.positional.isEmpty && operands.options.isEmpty then none
    else some (⟨(name, operands), faults⟩, rest)

/-- As many operands and options as there are, added to those already read. -/
def operands : (fuel : Nat) → Operands → Text → WithFaults Operands × Text
  | 0, read, t => (⟨read, []⟩, t)
  | fuel + 1, read, t =>
    match option? fuel t with
    | some (⟨(name, operand), faults⟩, rest) =>
      let (⟨all, further⟩, rest) :=
        operands fuel ⟨read.positional, setOption read.options name operand⟩ rest
      (⟨all, faults ++ further⟩, rest)
    | none =>
      match operand? fuel t with
      | some (⟨operand, faults⟩, rest) =>
        let (⟨all, further⟩, rest) :=
          operands fuel ⟨read.positional ++ [operand], read.options⟩ rest
        (⟨all, faults ++ further⟩, rest)
      | none => (⟨read, []⟩, t)

/-- A name, an equals sign and an operand. -/
def option? : (fuel : Nat) → Text → Option (WithFaults (Text × Operand) × Text)
  | 0, _ => none
  | fuel + 1, t => do
    let (name, rest) ← identifier? t
    let rest ← token? ['='] rest
    let (⟨operand, faults⟩, rest) ← operand? fuel rest
    some (⟨(name, operand), faults⟩, rest)
end

/-- Enough fuel to read the operands in a text. -/
def operandFuel (t : Text) : Nat := 4 * t.length + 4

end Stencil.Template
