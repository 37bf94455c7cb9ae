import Stencil.Template.Rendering

/-!
# Helpers

A helper is what a tag can call by name. Some render the parts of their block, others compute a
value from their operands. This module says what each kind does with a call; a table then names
the helpers of an engine.
-/

namespace Stencil.Template

inductive Helper
  /-- Renders one part of its block or the other, as its operand is true or not. -/
  | conditional (name : Text) (expected : Bool)
  /-- Renders its block once for each item of an array or member of an object. -/
  | each
  /-- Renders its block with another value as the data. -/
  | within
  /-- Renders its block. -/
  | pass
  /-- Writes nothing. -/
  | silent
  /-- Gives a value computed from its operands. -/
  | function (compute : List Json → Except CallError Json)
  /-- Writes a text computed from its operands. -/
  | writer (compute : List Json → Except HelperError Text)
  /-- Renders its operand as a template and writes a transform of the result. -/
  | transform (f : Text → Text)

/-- The helpers of an engine by name; the first of a name counts. -/
abbrev HelperTable := List (Text × Helper)

/-- The evaluated operands and options of a call, and the names that its block gives. Its first
operand may be computed and no part of the data. -/
structure Arguments where
  operands : List Json
  options : List (Text × Json)
  names : List Text
  computed : Bool

/-- A result, and the templates that are declared from then on. -/
structure After (α : Type) where
  result : α
  inlines : Inlines

/-- A part of a block, ready to be rendered in an environment. -/
abbrev Part := Environment → Rendering (After Text)

namespace After
variable {α β : Type}

def map (f : α → β) (a : After α) : After β := ⟨f a.result, a.inlines⟩

end After

/-- A result that leaves the declared templates as they are. -/
def Environment.give {α : Type} (env : Environment) (result : α) : After α := ⟨result, env.inlines⟩

/-- Two texts written one after the other. What the first declares is known to the second. -/
def andThen (env : Environment) (first second : Part) : Rendering (After Text) := do
  let head ← first env
  let tail ← second { env with inlines := head.inlines }
  return ⟨head.result ++ tail.result, tail.inlines⟩

theorem run_andThen {answers : Answers} {env : Environment} {first second : Part}
    {head tail : Except RenderError Text} (hfirst : (first env).run answers = head.map env.give)
    (hsecond : (second env).run answers = tail.map env.give) :
    (andThen env first second).run answers = (do return (← head) ++ (← tail)).map env.give := by
  rw [andThen, Rendering.run_bind, hfirst]
  cases head with
  | error e => rfl
  | ok text =>
    change ((second env >>= _).run answers) = _
    rw [Rendering.run_bind, hsecond]
    cases tail <;> rfl

/-- The names that a loop sets to a value and its key. With one name twice the key counts. -/
def loopNames (names : List Text) (value : Datum) (key : Json) : List (Text × Datum) :=
  match names with
  | [first] => [(first, value)]
  | [first, second] => [(second, ⟨key, true⟩), (first, value)]
  | _ => []

/-- The names that a change of data sets; it takes one name only. -/
def scopeNames (names : List Text) (value : Datum) : List (Text × Datum) :=
  match names with
  | [name] => [(name, value)]
  | _ => []

/-- The texts of the body for items that follow each other. -/
def renderItems (arguments : Arguments) (body : Part) :
    (items : List (Text × Json × Json)) → (first : Bool) → Part
  | [], _ => fun env => return env.give []
  | (label, key, value) :: rest, first => fun env =>
    let datum : Datum := ⟨value, arguments.computed⟩
    let scope : Scope :=
      ⟨datum, [("first".toList, .bool first), ("last".toList, .bool rest.isEmpty), (label, key)],
        loopNames arguments.names datum key⟩
    andThen env (fun env => body (env.inside scope)) (renderItems arguments body rest false)

/-- The items of an array with their positions from `index` on. -/
def indexed (index : Nat) : List Json → List (Text × Json × Json)
  | [] => []
  | item :: items =>
    ("index".toList, .number (Number.ofInt index), item) :: indexed (index + 1) items

/-- The values of an object with their names. -/
def keyed (members : List (Text × Json)) : List (Text × Json × Json) :=
  members.map fun (name, value) => ("key".toList, .string name, value)

/-- The failure of a call without its operand. -/
def missingOperand {α : Type} (name : Text) : Rendering α := .fail (.call (.missingOperand name))

/-- The body for each item of a collection; the inverse when there are none. -/
def renderEach (env : Environment) (arguments : Arguments) (body inverse : Part) :
    Rendering (After Text) :=
  match arguments.operands with
  | [] => missingOperand "each".toList
  | .array (item :: items) :: _ => renderItems arguments body (indexed 0 (item :: items)) true env
  | .object (m :: members) :: _ => renderItems arguments body (keyed (m :: members)) true env
  | _ => inverse env

/-- The body with the operand as its data when that is true; else the inverse. -/
def renderWithin (env : Environment) (arguments : Arguments) (body inverse : Part) :
    Rendering (After Text) :=
  match arguments.operands with
  | [] => missingOperand "with".toList
  | value :: _ =>
    if isTruthy false value then
      let datum : Datum := ⟨value, arguments.computed⟩
      body (env.inside ⟨datum, [], scopeNames arguments.names datum⟩)
    else inverse env

/-- Whether the options ask zero to count as true. -/
def includesZero (options : List (Text × Json)) : Bool :=
  match options.lookup "includeZero".toList with
  | some (.bool b) => b
  | _ => false

/-- One part of a block or the other. -/
def renderConditional (name : Text) (expected : Bool) (env : Environment)
    (arguments : Arguments) (body inverse : Part) : Rendering (After Text) :=
  match arguments.operands with
  | [] => missingOperand name
  | value :: _ =>
    if isTruthy (includesZero arguments.options) value = expected then body env else inverse env

/-- A transform of the operand, rendered as a template with the data of the present scope. An
absent or empty operand gives the empty text. -/
def renderTransform (f : Text → Text) (env : Environment) (arguments : Arguments) :
    Rendering Text :=
  match arguments.operands with
  | [] | .null :: _ | .string [] :: _ => return []
  | value :: _ => .ask (.source value.text env.base) none fun text => return f text

/-- The value that a call of a helper gives. -/
def Helper.run (helper : Helper) (env : Environment) (arguments : Arguments)
    (body inverse : Part) : Rendering (After Json) :=
  match helper with
  | .conditional name expected =>
    (renderConditional name expected env arguments body inverse).map (.map .string)
  | .each => (renderEach env arguments body inverse).map (.map .string)
  | .within => (renderWithin env arguments body inverse).map (.map .string)
  | .pass => (body env).map (.map .string)
  | .silent => return env.give (.string [])
  | .function compute =>
    match compute arguments.operands with
    | .ok value => return env.give value
    | .error e => .fail (.call e)
  | .writer compute =>
    match compute arguments.operands with
    | .ok t => return env.give (.string t)
    | .error e => .fail (.call (.helper e))
  | .transform f => (renderTransform f env arguments).map fun t => env.give (.string t)

/-- The text with an indent after each end of line, except one at the end. -/
def indented (indent : Text) : Text → Text
  | [] => []
  | ['\n'] => ['\n']
  | '\n' :: t => '\n' :: (indent ++ indented indent t)
  | c :: t => c :: indented indent t

@[simp] theorem indented_empty (t : Text) : indented [] t = t := by
  fun_induction indented [] t <;> simp_all

/-- What a helper writes of the value that it gives. The lines of a computed value are indented; a
block has been, and what else is written by a helper is not. -/
def Helper.write (helper : Helper) (env : Environment) (value : Json) : Text :=
  match helper with
  | .function _ => indented env.indent (display value)
  | _ => display value

/-! ## The helpers that every engine has -/

/-- A helper on two values. -/
def binary (name : Text) (f : Json → Json → Except CallError Json) : Helper :=
  .function fun values =>
    match values with
    | [] => .error (.missingValue name ['x'])
    | [_] => .error (.missingValue name ['y'])
    | x :: y :: _ => f x y

/-- A helper that tests two values. -/
def test (name : Text) (holds : Json → Json → Bool) : Helper :=
  binary name fun x y => .ok (.bool (holds x y))

def integerOf? : Json → Option Int
  | .number (.integer n _) => if Numeral.FitsSigned n then some n else none
  | _ => none

/-- A helper that compares two integers. -/
def comparison (name : Text) (holds : Int → Int → Bool) : Helper :=
  .function fun values =>
    match values with
    | [] => .error (.missingValue name ['x'])
    | x :: rest =>
      match integerOf? x, rest with
      | none, _ => .error (.notAnInteger name ['x'])
      | some _, [] => .error (.missingValue name ['y'])
      | some m, y :: _ =>
        match integerOf? y with
        | none => .error (.notAnInteger name ['y'])
        | some n => .ok (.bool (holds m n))

def unary (name : Text) (f : Json → Json) : Helper :=
  .function fun values =>
    match values with
    | [] => .error (.missingValue name ['x'])
    | x :: _ => .ok (f x)

/-- How many bytes a character takes in UTF-8. -/
def byteCount (t : Text) : Nat := (t.map Char.utf8Size).foldr (· + ·) 0

/-- The size of a value: of an array or an object the number of entries, of a string the number of
bytes. -/
def sizeOf : Json → Nat
  | .array items => items.length
  | .object members => members.length
  | .string s => byteCount s
  | _ => 0

/-- An item of an array by its position, or a member of an object by its name; null when there is
none. -/
def lookupValue (collection key : Json) : Json :=
  match collection, key with
  | .array items, .number (.integer n _) =>
    if 0 ≤ n then (items[n.toNat]?).getD .null else .null
  | .object members, .string name => (Members.get? members name).getD .null
  | _, _ => .null

def lookupHelper : Helper :=
  .function fun values =>
    match values with
    | [] => .error (.missingOperand "lookup".toList)
    | [_] => .error .missingKey
    | collection :: key :: _ => .ok (lookupValue collection key)

/-- The helpers that every engine has. -/
def basicHelpers : HelperTable :=
  [("if".toList, .conditional "if".toList true),
    ("unless".toList, .conditional "unless".toList false),
    ("each".toList, .each),
    ("with".toList, .within),
    ("raw".toList, .pass),
    ("log".toList, .silent),
    ("lookup".toList, lookupHelper),
    ("eq".toList, test "eq".toList Json.agrees),
    ("ne".toList, test "ne".toList fun x y => !Json.agrees x y),
    ("gt".toList, comparison "gt".toList fun m n => decide (n < m)),
    ("gte".toList, comparison "gte".toList fun m n => decide (n ≤ m)),
    ("lt".toList, comparison "lt".toList fun m n => decide (m < n)),
    ("lte".toList, comparison "lte".toList fun m n => decide (m ≤ n)),
    ("and".toList, test "and".toList fun x y => isTruthy false x && isTruthy false y),
    ("or".toList, test "or".toList fun x y => isTruthy false x || isTruthy false y),
    ("not".toList, unary "not".toList fun x => .bool (!isTruthy false x)),
    ("len".toList, unary "len".toList fun x => .number (Number.ofInt (sizeOf x)))]

end Stencil.Template
