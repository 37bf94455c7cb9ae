import Stencil.Template.Layout

/-!
# Reading templates

A source is read in three steps: it is cut into pieces, the blanks around tags are settled, and
the pieces are put together into a tree of blocks. Of two errors the one that the first step finds
counts before all others, and then the one that comes first in the source.
-/

namespace Stencil.Template

/-- A block whose end is still to come: its opening tag, the elements before it in reverse order,
and its first part once the second has begun. -/
structure PendingBlock where
  position : Position
  head : Head
  before : List Element
  body : Option (List Element)

/-- The word for a kind of block in errors. -/
def BlockKind.word : BlockKind → Text
  | .helper => "helper".toList
  | .directive | .inclusion => "decorator".toList

/-- The element for a block whose last part is `last`. -/
def PendingBlock.element (block : PendingBlock) (last : List Element) : Element :=
  match block.head with
  | .helper invocation names =>
    match block.body with
    | some body => .invoke block.position true invocation names body last
    | none => .invoke block.position true invocation names last []
  | .directive invocation => .directive block.position true invocation last
  | .inclusion _ inclusion => .inclusion block.position true inclusion [] last

/-- The elements of the pieces, given the pending blocks and the elements read so far in reverse
order. -/
def build : List PendingBlock → (read : List Element) → List Piece → Except SyntaxError Template
  | [], read, [] => .ok read.reverse
  | _ :: _, _, [] => .error .malformed
  | blocks, read, .text t :: rest => build blocks (.text t :: read) rest
  | blocks, read, .tag placed :: rest =>
    match placed.faults, placed.tag, blocks with
    | source :: _, _, _ => .error (.invalidParameter source)
    | [], .value operand, blocks => build blocks (.value placed.position operand :: read) rest
    | [], .invoke invocation, blocks =>
      build blocks (.invoke placed.position false invocation [] [] [] :: read) rest
    | [], .comment, blocks => build blocks (.comment :: read) rest
    | [], .inclusion inclusion, blocks =>
      build blocks (.inclusion placed.position false inclusion placed.indent [] :: read) rest
    | [], .directive invocation, blocks =>
      build blocks (.directive placed.position false invocation [] :: read) rest
    | [], .opening head, blocks => build (⟨placed.position, head, read, none⟩ :: blocks) [] rest
    | [], .otherwise, block :: blocks =>
      build ({ block with body := some read.reverse } :: blocks) [] rest
    | [], .closing _ name, block :: blocks =>
      if block.head.name = name then
        build blocks (block.element read.reverse :: block.before) rest
      else .error (.mismatchedClose block.head.kind.word block.head.name name)
    | [], .otherwise, [] => .error .malformed
    | [], .closing _ _, [] => .error .malformed

def parse (source : Text) : Except SyntaxError Template :=
  match pieces? source with
  | some pieces => build [] [] (layout .start pieces)
  | none => .error .malformed

end Stencil.Template
