import Stencil.Yaml.Tag

/-!
# Tokens

The words of a document, with the structure that its indentation shows made explicit: a block
collection has a token at its start and one at its end, and every key is announced.
-/

namespace Stencil.Yaml

inductive Token
  | directive (directive : Directive)
  | documentStart
  | documentEnd
  | blockSequenceStart
  | blockMappingStart
  | blockEnd
  | flowSequenceStart
  | flowSequenceEnd
  | flowMappingStart
  | flowMappingEnd
  | blockEntry
  | flowEntry
  | key
  | value
  | alias (name : Text)
  | anchor (name : Text)
  | tag (name : TagName)
  /-- A text; a plain one can denote another value than itself. -/
  | scalar (plain : Bool) (text : Text)
deriving DecidableEq, Repr

end Stencil.Yaml
