import Stencil.Json.Basic
import Stencil.Yaml.Document
import Stencil.Yaml.Meaning

/-!
# Values of a document

What a document means as a JSON value. References are replaced by what they refer to, the names of
members are texts as they are written, and a name that is set twice keeps its first place and its
last value. Tags that only an application knows, collections as names, integers beyond 64 bits and
values that are nested too deeply have no meaning; floats that are not finite mean null.
-/

namespace Stencil.Yaml

/-- A computation that follows references, with the number of them that it may still follow. -/
abbrev Following := StateT Nat Option

namespace Meaning

/-- The value of a meaning, given the text that has it. -/
def toJson? (t : Text) : Meaning → Option Json
  | .null => some .null
  | .bool b => some (.bool b)
  | .integer n => (Number.ofInt? n).map .number
  | .float (.finite x) => some (.number (.float x))
  | .float _ => some .null
  | .text => some (.string t)

end Meaning

/-- The value of a text with its tag. -/
def scalar? (tag : Option Tag) (plain : Bool) (t : Text) : Option Json :=
  let untagged := if plain then (Meaning.ofText t).toJson? t else some (.string t)
  match tag with
  | none => untagged
  | some tag =>
    if tag.isLocal then none
    else if tag = Tag.core "bool" then (Meaning.bool? t).map .bool
    else if tag = Tag.core "int" then
      (Meaning.integer? t).bind fun n => (Meaning.integer n).toJson? t
    else if tag = Tag.core "float" then
      (Meaning.float? t).bind fun x => (Meaning.float x).toJson? t
    else if tag = Tag.core "null" then if Meaning.isNull t then some .null else none
    else if tag.isMarked then untagged
    else some (.string t)

namespace Document

/-- How deep collections may be nested. -/
def nestingLimit : Nat := 128

/-- The node that a reference stands for, and any other node itself. -/
def follow (d : Document) : Node → Following Node
  | .reference number => do
    match ← get with
    | 0 => failure
    | left + 1 =>
      set left
      match d.anchors.node? number with
      | some node => return node
      | none => failure
  | node => return node

/-- The text of a node that is one, whatever it denotes. -/
def text? (d : Document) (node : Node) : Following Text := do
  match ← d.follow node with
  | .scalar _ _ t => return t
  | _ => failure

/-- The members that entries set, given what their values mean. -/
def members? (d : Document) (value? : Node → Following Json) (entries : List (Node × Node)) :
    Following Members :=
  entries.foldlM (fun read (name, value) => do
    let name ← d.text? name
    return Members.set read name (← value? value)) []

/-- The value of a node with at most `depth` collections in one another. -/
def value? (d : Document) : (depth : Nat) → Node → Following Json
  | 0, node => do
    match ← d.follow node with
    | .scalar tag plain t => liftM (scalar? tag plain t)
    | _ => failure
  | depth + 1, node => do
    match ← d.follow node with
    | .scalar tag plain t => liftM (scalar? tag plain t)
    | .sequence tag items =>
      if tag.any Tag.isLocal then failure
      else return .array (← items.mapM fun item => value? d depth item)
    | .mapping tag entries =>
      if tag.any Tag.isLocal then failure
      else return .object (← d.members? (fun v => value? d depth v) entries)
    | .reference _ => failure

/-- The entries of a node as a mapping, whatever its tag; a text that is not there has none. -/
def entries? (d : Document) (node : Node) : Following (List (Node × Node)) := do
  match ← d.follow node with
  | .mapping _ entries => return entries
  | .scalar _ plain t => if plain && t.isEmpty then return [] else failure
  | _ => failure

/-- The result of a computation that may follow a hundred references for each part of the
document. -/
def run? {α : Type} (d : Document) (f : Following α) : Option α :=
  (f.run (100 * d.size)).map (·.1)

/-- The value of the whole document; one without a node is null. -/
def toJson? (d : Document) : Option Json :=
  match d.root with
  | none => some .null
  | some node => d.run? (d.value? nestingLimit node)

end Document

def parse? (t : Text) : Option Json := do (← Document.ofText? t).toJson?

end Stencil.Yaml
