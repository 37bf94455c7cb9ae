import Stencil.Template.Basic
import Stencil.Json.Printer

/-!
# Scopes

While a template is rendered, paths are looked up in the data of the innermost scope. A block may
open a scope of its own, with its own data, with variables such as `@index`, and with names of its
choice that hide the members of the data. Beside the scopes, a template sees the templates that it
can include.
-/

namespace Stencil.Template

/-- A value, and whether it was computed and is not just a part of the data. -/
structure Datum where
  value : Json
  computed : Bool

/-- What a block lets its body see. -/
structure Scope where
  base : Datum
  locals : List (Text × Json)
  names : List (Text × Datum)

/-- The templates that directives have declared, by name; the first of a name counts. -/
abbrev Inlines := List (Text × Template)

/-- What a template can see while it is rendered: the data of the whole template and the open scopes,
the templates that it may include, and the indent of what it writes. -/
structure Environment where
  root : Json
  /-- The open scopes, the innermost first. -/
  scopes : List Scope
  inlines : Inlines
  /-- The bodies of the inclusions that are under way, the innermost first. -/
  blocks : List Template
  /-- How many of these bodies are themselves being rendered. -/
  entered : Nat
  indent : Text

namespace Environment

/-- The environment of a template that is rendered with the given data. -/
def ofData (data : Json) : Environment := ⟨data, [⟨⟨data, false⟩, [], []⟩], [], [], 0, []⟩

/-- The environment inside one more scope. -/
def inside (env : Environment) (scope : Scope) : Environment :=
  { env with scopes := scope :: env.scopes }

/-- The data of the innermost scope. -/
def datum (env : Environment) : Datum :=
  match env.scopes with
  | scope :: _ => scope.base
  | [] => ⟨env.root, false⟩

def base (env : Environment) : Json := env.datum.value

/-- The data of the scope `depth` levels out; beyond the outermost, those of the innermost. -/
def datumAt (env : Environment) (depth : Nat) : Datum :=
  match env.scopes[depth]? with
  | some scope => scope.base
  | none => env.datum

/-- The variable of the scope `depth` levels out. -/
def variableAt? (env : Environment) (depth : Nat) (name : Text) : Option Json :=
  (env.scopes[depth]?).bind fun scope => scope.locals.lookup name

/-- What the innermost scope that sets the name has set it to. -/
def named? (env : Environment) (name : Text) : Option Datum :=
  env.scopes.findSome? fun scope => scope.names.lookup name

end Environment

def namesOf (segments : List Segment) : List Text :=
  segments.filterMap fun segment =>
    match segment with
    | .named name => some name
    | _ => none

/-- What is wrong with a path: an array was asked for a member. -/
inductive PathError
  | memberOfArray
deriving DecidableEq, Repr

/-- The value some steps down; nothing when it is missing. -/
def walk : Option Json → List Text → Except PathError (Option Json)
  | value, [] => .ok value
  | some (.array items), name :: names =>
    match Numeral.toIndex? name with
    | some i => walk items[i]? names
    | none => .error .memberOfArray
  | some (.object members), name :: names => walk (Members.get? members name) names
  | _, _ :: names => walk none names

/-- The number of steps up at the start, and the steps after them. -/
def splitUps : List Segment → Nat × List Segment
  | .up :: rest => ((splitUps rest).1 + 1, (splitUps rest).2)
  | rest => (0, rest)

/-- The scope and the name of the variable that a path names; what follows the name does not
count. -/
def Path.asVariable? (path : Path) : Option (Nat × Text) :=
  match path.segments with
  | .variableMark :: rest =>
    match splitUps rest with
    | (depth, .named name :: _) => some (depth, name)
    | _ => none
  | _ => none

/-- Where a path that is not a variable starts, and the names that lead on from there. The first name
may be one that a block has set, whatever steps up precede it. -/
def origin (env : Environment) (segments : List Segment) : Datum × List Text :=
  match splitUps segments with
  | (depth, rest) =>
    match rest with
    | .named name :: further =>
      match env.named? name with
      | some datum => (datum, namesOf further)
      | none => (env.datumAt depth, namesOf rest)
    | .root :: further => (⟨env.root, false⟩, namesOf further)
    | rest => (env.datumAt depth, namesOf rest)

/-- The value that a path that is not a variable leads to. -/
def resolve (env : Environment) (segments : List Segment) : Except PathError (Option Json) :=
  walk (some (origin env segments).1.value) (origin env segments).2

/-- The value that a path leads to; nothing when it is missing. -/
def Path.evaluate (path : Path) (env : Environment) : Except PathError (Option Json) :=
  match path.asVariable? with
  | some (depth, name) => .ok (env.variableAt? depth name)
  | none => resolve env path.segments

/-- The part of the data that a path leads to; nothing when the value there was computed. -/
def Path.locate? (path : Path) (env : Environment) : Option Json :=
  match path.asVariable?, (origin env path.segments).1.computed, resolve env path.segments with
  | none, false, .ok value => value
  | _, _, _ => none

/-! ## Values as text and as conditions -/

mutual
/-- The text that a template writes for a value. The members of an object do not show. -/
def display : Json → Text
  | .null => []
  | .string s => s
  | .array items => '[' :: (displayItems items ++ [']'])
  | .object _ => "[object]".toList
  | .bool b => Json.print (.bool b)
  | .number n => Json.print (.number n)

def displayItems : List Json → Text
  | [] => []
  | item :: items => display item ++ ',' :: ' ' :: displayItems items
end

/-- Whether a value counts as true. Empty values and zero do not, nor do floats too small to be
normal; zero may be asked to count. -/
def isTruthy (includeZero : Bool) : Json → Bool
  | .null => false
  | .bool b => b
  | .number (.integer n _) => includeZero || n != 0
  | .number (.float x) => includeZero || x.isNormal
  | .string s => !s.isEmpty
  | .array items => !items.isEmpty
  | .object members => !members.isEmpty

end Stencil.Template
