import Stencil.Yaml.Lexer
import Stencil.Yaml.Node

/-!
# Documents

A text holds at most one document. Directives may stand before it, and then a mark has to show its
start.
-/

namespace Stencil.Yaml

/-- A document: its node, when it has any, and the nodes with anchors. -/
structure Document where
  root : Option Node
  anchors : Anchors

namespace Document

/-- What handles stand for unless a directive says otherwise. -/
def standardHandles : Source.Handles :=
  [(['!'], Utf8.encode ['!']), (['!', '!'], Tag.core "")]

/-- The handles that directives declare, each only once, when their version is known and given at
most once. -/
def handles? (directives : List Directive) : Option Source.Handles :=
  let versions := directives.filterMap fun
    | .version major minor => some (major, minor)
    | .tagHandle .. => none
  let handles := directives.filterMap fun
    | .version .. => none
    | .tagHandle handle expansion => some (handle, expansion)
  if 1 < versions.length || versions.any (fun v => v != (1, 1) && v != (1, 2)) then none
  else if (handles.map (·.1)).eraseDups.length != handles.length then none
  else some handles

/-- The directives at the start of a list of tokens, and what follows them. -/
def splitDirectives : List Token → List Directive × List Token
  | .directive d :: rest => let (ds, rest) := splitDirectives rest; (d :: ds, rest)
  | rest => ([], rest)

/-- Whether a token stands outside of all nodes. -/
def isBoundary : Token → Bool
  | .directive _ | .documentStart | .documentEnd => true
  | _ => false

/-- The document whose root starts the tokens, and the tokens after it. -/
def root? (handles : Source.Handles) (tokens : List Token) : Option (Document × List Token) :=
  (Source.node? (handles ++ standardHandles) (4 * tokens.length + 4) true false
    ⟨tokens, .empty⟩).map fun (node, s) => (⟨some node, s.anchors⟩, s.tokens)

/-- The document at the start of the tokens, and the tokens after it. After a mark it can be
blank. -/
def first? (tokens : List Token) : Option (Document × List Token) :=
  match splitDirectives tokens with
  | (directives, .documentStart :: rest) => do
    let handles ← handles? directives
    match rest with
    | [] => some (⟨some .blank, .empty⟩, [])
    | t :: _ => if isBoundary t then some (⟨some .blank, .empty⟩, rest) else root? handles rest
  | ([], rest) => root? [] rest
  | (_ :: _, _) => none

def ofTokens? (tokens : List Token) : Option Document :=
  if tokens.isEmpty then some ⟨none, .empty⟩
  else do
    let (document, rest) ← first? tokens
    if rest.all (· = .documentEnd) then some document else none

def ofText? (t : Text) : Option Document := do ofTokens? (← Token.ofText? t)

/-- The size of a document; one without a node is as large as a text. -/
def size (d : Document) : Nat :=
  match d.root with
  | none => 1
  | some node => node.size

end Document
end Stencil.Yaml
