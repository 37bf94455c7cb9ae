import Stencil.Yaml.Token

/-!
# Nodes

The values of a document as they are written: texts that are not yet interpreted, sequences and
mappings with their tags, and references to anchors. The nodes are read off the tokens by a grammar
that needs one token of lookahead.
-/

namespace Stencil.Yaml

/-- A value as it is written. -/
inductive Node
  /-- A text; a plain one can denote another value than itself. -/
  | scalar (tag : Option Tag) (plain : Bool) (text : Text)
  | sequence (tag : Option Tag) (items : List Node)
  | mapping (tag : Option Tag) (entries : List (Node × Node))
  /-- The node with the given anchor number. -/
  | reference (anchor : Nat)
deriving Repr

namespace Node

/-- The value where none is written. -/
def blank : Node := .scalar none true []

mutual
/-- The number of tags, texts, references and ends of collections that write the node. -/
def size : Node → Nat
  | .scalar .. => 1
  | .reference _ => 1
  | .sequence _ items => 2 + itemsSize items
  | .mapping _ entries => 2 + entriesSize entries

def itemsSize : List Node → Nat
  | [] => 0
  | node :: items => size node + itemsSize items

def entriesSize : List (Node × Node) → Nat
  | [] => 0
  | (key, value) :: entries => size key + size value + entriesSize entries
end

end Node

/-- The anchors of a document. An anchor has a number: that of the different names before it. -/
structure Anchors where
  /-- The names, each with the number of its last anchor. -/
  numbers : List (Text × Nat)
  /-- The nodes with anchors, in the order in which they start. -/
  nodes : Array (Nat × Node)

namespace Anchors

def empty : Anchors := ⟨[], #[]⟩

/-- The anchors with one more, whose node is still to be read, and the place for the node. -/
def declare (name : Text) (a : Anchors) : Nat × Anchors :=
  let number := a.numbers.length
  (a.nodes.size,
    ⟨(name, number) :: a.numbers.filter (·.1 != name), a.nodes.push (number, .blank)⟩)

/-- The anchors with the node at a place. -/
def settle (place : Nat) (node : Node) (a : Anchors) : Anchors :=
  { a with nodes := a.nodes.modify place fun (number, _) => (number, node) }

/-- The last node with an anchor of the given number. -/
def node? (number : Nat) (a : Anchors) : Option Node :=
  (a.nodes.toList.reverse.find? (·.1 == number)).map (·.2)

end Anchors

/-- What is left to read of a document, and the anchors so far. -/
structure Source where
  tokens : List Token
  anchors : Anchors

namespace Source

def next (s : Source) : Source := { s with tokens := s.tokens.tail }

/-- What the handle of a tag stands for. -/
abbrev Handles := List (Text × Tag)

/-- The tag that a name stands for. -/
def expand? (handles : Handles) (name : TagName) : Option Tag :=
  if name.handle.isEmpty then some name.suffix
  else (handles.lookup name.handle).map (· ++ name.suffix)

/-- The anchor and the tag in front of a node, in either order, and what follows them. -/
def properties : List Token → Option Text × Option TagName × List Token
  | .anchor a :: .tag t :: rest => (some a, some t, rest)
  | .tag t :: .anchor a :: rest => (some a, some t, rest)
  | .anchor a :: rest => (some a, none, rest)
  | .tag t :: rest => (none, some t, rest)
  | rest => (none, none, rest)

/-- A node that is blank when one of the given tokens, or none, is next. -/
def orBlank (stops : List Token) (read : Source → Option (Node × Source)) (s : Source) :
    Option (Node × Source) :=
  if s.tokens.head?.any stops.contains then some (.blank, s) else read s

section
variable (handles : Handles)

mutual
/-- The node at the start of the source. Block collections, and sequences without indentation, are
read only where they are allowed. -/
def node? : (fuel : Nat) → (inBlock unindented : Bool) → Source → Option (Node × Source)
  | 0, _, _, _ => none
  | fuel + 1, inBlock, unindented, s =>
    match s.tokens with
    | .alias name :: rest =>
      (s.anchors.numbers.lookup name).map fun n => (.reference n, { s with tokens := rest })
    | _ => do
      let (anchor, name, rest) := properties s.tokens
      let tag ←
        match name with
        | none => some none
        | some name => (expand? handles name).map some
      match anchor with
      | none => content? fuel inBlock unindented tag.isSome tag { s with tokens := rest }
      | some anchor => do
        let (place, anchors) := s.anchors.declare anchor
        let (node, s) ← content? fuel inBlock unindented true tag ⟨rest, anchors⟩
        some (node, { s with anchors := s.anchors.settle place node })

/-- The node after its anchor and tag; it can be blank when there is one of them. -/
def content? : (fuel : Nat) → (inBlock unindented announced : Bool) → Option Tag → Source →
    Option (Node × Source)
  | 0, _, _, _, _, _ => none
  | fuel + 1, inBlock, unindented, announced, tag, s =>
    match s.tokens with
    | .scalar plain t :: _ =>
      some (.scalar (if tag = some Tag.nonSpecific then none else tag) plain t, s.next)
    | .flowSequenceStart :: _ =>
      (flowItems? fuel true s.next).map fun (items, s) => (.sequence tag items, s)
    | .flowMappingStart :: _ =>
      (flowEntries? fuel true s.next).map fun (entries, s) => (.mapping tag entries, s)
    | first :: _ =>
      if unindented ∧ first = .blockEntry then
        (items? fuel s).map fun (items, s) => (.sequence tag items, s)
      else if inBlock ∧ first = .blockSequenceStart then do
        let (items, s) ← items? fuel s.next
        if s.tokens.head? = some .blockEnd then some (.sequence tag items, s.next) else none
      else if inBlock ∧ first = .blockMappingStart then
        (entries? fuel s.next).map fun (entries, s) => (.mapping tag entries, s)
      else if announced then some (.scalar tag true [], s)
      else none
    | [] => if announced then some (.scalar tag true [], s) else none

/-- Items, each after a dash. -/
def items? : (fuel : Nat) → Source → Option (List Node × Source)
  | 0, _ => none
  | fuel + 1, s =>
    match s.tokens with
    | .blockEntry :: _ => do
      let (item, s) ←
        orBlank [.blockEntry, .key, .value, .blockEnd] (node? fuel true false) s.next
      let (items, s) ← items? fuel s
      some (item :: items, s)
    | _ => some ([], s)

/-- The entries of a block mapping, with its end. -/
def entries? : (fuel : Nat) → Source → Option (List (Node × Node) × Source)
  | 0, _ => none
  | fuel + 1, s =>
    match s.tokens with
    | .key :: _ => do
      let stops := [.key, .value, .blockEnd]
      let (key, s) ← orBlank stops (node? fuel true true) s.next
      let (value, s) ←
        if s.tokens.head? = some .value then orBlank stops (node? fuel true true) s.next
        else some (.blank, s)
      let (entries, s) ← entries? fuel s
      some ((key, value) :: entries, s)
    | .blockEnd :: _ => some ([], s.next)
    | _ => none

/-- The items of a flow sequence, with its closing bracket. All but the first follow a comma. -/
def flowItems? : (fuel : Nat) → (first : Bool) → Source → Option (List Node × Source)
  | 0, _, _ => none
  | fuel + 1, first, s =>
    if s.tokens.head? = some .flowSequenceEnd then some ([], s.next)
    else if !first ∧ s.tokens.head? ≠ some .flowEntry then none
    else
      let s := if first then s else s.next
      match s.tokens with
      | .flowSequenceEnd :: _ => some ([], s.next)
      | .key :: _ => do
        let (entry, s) ← pair? fuel s.next
        let (items, s) ← flowItems? fuel false s
        some (.mapping none [entry] :: items, s)
      | _ => do
        let (item, s) ← node? fuel false false s
        let (items, s) ← flowItems? fuel false s
        some (item :: items, s)

/-- The one entry of a mapping that is written without braces between square brackets. Where its
key is missing, the next token is passed over. -/
def pair? : (fuel : Nat) → Source → Option ((Node × Node) × Source)
  | 0, _ => none
  | fuel + 1, s => do
    let (key, s) ←
      if s.tokens.head?.any [.value, .flowEntry, .flowSequenceEnd].contains then
        some (.blank, s.next)
      else node? fuel false false s
    let (value, s) ←
      if s.tokens.head? = some .value then
        orBlank [.flowEntry, .flowSequenceEnd] (node? fuel false false) s.next
      else some (.blank, s)
    some ((key, value), s)

/-- The entries of a flow mapping, with its closing brace. All but the first follow a comma. -/
def flowEntries? : (fuel : Nat) → (first : Bool) → Source → Option (List (Node × Node) × Source)
  | 0, _, _ => none
  | fuel + 1, first, s =>
    if s.tokens.head? = some .flowMappingEnd then some ([], s.next)
    else if !first ∧ s.tokens.head? ≠ some .flowEntry then none
    else
      let s := if first then s else s.next
      let stops := [.flowEntry, .flowMappingEnd]
      match s.tokens with
      | .flowMappingEnd :: _ => some ([], s.next)
      | .key :: _ => do
        let (key, s) ← orBlank (.value :: stops) (node? fuel false false) s.next
        let (value, s) ←
          if s.tokens.head? = some .value then orBlank stops (node? fuel false false) s.next
          else some (.blank, s)
        let (entries, s) ← flowEntries? fuel false s
        some ((key, value) :: entries, s)
      | _ => do
        let (key, s) ← node? fuel false false s
        let (entries, s) ← flowEntries? fuel false s
        some ((key, .blank) :: entries, s)
end

end

end Source
end Stencil.Yaml
