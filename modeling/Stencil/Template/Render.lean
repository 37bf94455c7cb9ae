import Stencil.Template.Helper
import Stencil.Template.Reader

/-!
# Rendering

A template is rendered by writing its elements in turn. A helper may render a text from the data as a
template of its own, and an inclusion writes another template: one that a directive has declared
before, or the body of an inclusion around it. Either may come back to itself without end, so the
room for templates within templates is a parameter. A rendering that meets its bound has no outcome.
-/

namespace Stencil.Template

/-- The helper that is called for a block whose name is unknown. -/
def missingBlockName : Text := "blockHelperMissing".toList

/-- The helper that is called for a value or a call whose name is unknown. -/
def missingName : Text := "helperMissing".toList

/-- The directive that declares a template. -/
def inlineName : Text := "inline".toList

/-- The name for the body of the inclusion around an included template. -/
def enclosingName : Text := "@partial-block".toList

/-- The helper for a call by name, or the one that stands in for unknown names. -/
def findHelper (helpers : HelperTable) (isBlock : Bool) (name : Text) : Option Helper :=
  (helpers.lookup name).or (helpers.lookup (if isBlock then missingBlockName else missingName))

def Callee.name : Callee → Text
  | .word name => name
  | .path p => p.source

/-- The value at a path; null when it is missing. -/
def pathValue (env : Environment) (path : Path) : Rendering Json :=
  match path.evaluate env with
  | .ok value => return value.getD .null
  | .error e => .fail (.path e)

def noPart : Part := fun env => return env.give []

/-- The part of the data that the first operand of a call names. -/
def locatedOperand? (env : Environment) (operands : List Operand) : Option Json :=
  match operands with
  | .path path :: _ => path.locate? env
  | _ => none

/-! ## The environment of an inclusion -/

namespace Environment

/-- The template of a name. The body of an inclusion that is being rendered sees the one around it. -/
def template? (env : Environment) (name : Text) : Option Template :=
  if name = enclosingName then env.blocks[env.entered]? else env.inlines.lookup name

/-- The scopes of an included template. With data of its own it sees these alone. Options are added
to the data as members. -/
def scopesFor (env : Environment) (located : Option Json) (options : List (Text × Json)) :
    List Scope :=
  let scopes :=
    match located with
    | some value => [⟨⟨value, false⟩, [], []⟩]
    | none => env.scopes
  if options.isEmpty then scopes
  else
    let inner := scopes.headD ⟨⟨env.root, false⟩, [], []⟩
    let members :=
      match inner.base.value with
      | .object members => members
      | _ => []
    [{ inner with base := ⟨.object (Members.setAll members options), true⟩ }]

/-- The environment of an included template. A block is the body around what it includes. -/
def including (env : Environment) (name : Text) (located : Option Json)
    (options : List (Text × Json)) (indent : Text) (body : Option Template) : Environment where
  root := env.root
  scopes := env.scopesFor located options
  inlines := env.inlines
  blocks := body.toList ++ env.blocks
  entered := if name = enclosingName then env.entered + 1 else env.entered - 1
  indent := env.indent ++ indent

end Environment

section
variable (helpers : HelperTable)

/-! ## Operands and values -/

mutual
def operandValue (env : Environment) : Operand → Rendering Json
  | .literal value => return value
  | .path path => pathValue env path
  | .call callee operands options => do
    let values ← operandValues env operands
    let named ← optionValues env options
    match findHelper helpers false callee.name with
    | some helper => (helper.run env ⟨values, named, [], true⟩ noPart noPart).map (·.result)
    | none => .fail (.undefinedCallee callee)

def operandValues (env : Environment) : List Operand → Rendering (List Json)
  | [] => return []
  | operand :: operands => do
    let value ← operandValue env operand
    return value :: (← operandValues env operands)

def optionValues (env : Environment) : List (Text × Operand) → Rendering (List (Text × Json))
  | [] => return []
  | (name, operand) :: options => do
    let value ← operandValue env operand
    return (name, value) :: (← optionValues env options)
end

def renderCall (env : Environment) (isBlock : Bool) (invocation : Invocation) (names : List Text)
    (body inverse : Part) : Rendering (After Text) := do
  let values ← operandValues helpers env invocation.operands
  let named ← optionValues helpers env invocation.options
  let computed := (locatedOperand? env invocation.operands).isNone
  match findHelper helpers isBlock invocation.name with
  | some helper =>
    (helper.run env ⟨values, named, names, computed⟩ body inverse).map (.map (helper.write env))
  | none => .fail (.undefinedHelper invocation.name)

/-- What a helper writes that is called by its name alone. -/
def renderBare (env : Environment) (helper : Helper) : Rendering Text :=
  (helper.run env ⟨[], [], [], true⟩ noPart noPart).map fun a => helper.write env a.result

/-- The text of a path: that of a helper with this name, else of the value, else of the helper
that stands in for unknown names, else nothing. -/
def renderPath (env : Environment) (path : Path) : Rendering Text :=
  match helpers.lookup path.source with
  | some helper => renderBare env helper
  | none =>
    match path.evaluate env with
    | .error e => .fail (.path e)
    | .ok (some value) => return indented env.indent (display value)
    | .ok none =>
      match helpers.lookup missingName with
      | some helper => renderBare env helper
      | none => return []

/-- The text of a value. The text of a nested call may again be the name of a helper. -/
def renderValue (env : Environment) : Operand → Rendering Text
  | .path path => renderPath helpers env path
  | operand => do
    let text := display (← operandValue helpers env operand)
    match helpers.lookup text with
    | some helper => renderBare env helper
    | none => return indented env.indent text

/-! ## Directives and inclusions -/

/-- The declared templates after a directive. -/
def declare (env : Environment) (isBlock : Bool) (invocation : Invocation) (body : Template) :
    Rendering Inlines := do
  let values ← operandValues helpers env invocation.operands
  let _ ← optionValues helpers env invocation.options
  if invocation.name = inlineName then
    match values with
    | [] => .fail (.inline .missingName)
    | .string name :: _ =>
      if isBlock then return (name, body) :: env.inlines else .fail (.inline .missingBlock)
    | _ => .fail (.inline .nameNotText)
  else .fail (.undefinedDirective invocation.name)

/-- The declared templates after the directives among some elements, which are not written. -/
def declareAll : List Element → Environment → Rendering Inlines
  | [], env => return env.inlines
  | .directive position isBlock invocation body :: elements, env => do
    let inlines ← (declare helpers env isBlock invocation body).placedAt position
    declareAll elements { env with inlines }
  | _ :: elements, env => declareAll elements env

def targetName (env : Environment) : Target → Rendering Text
  | .named name => return name
  | .computed call => (operandValue helpers env call).map display

/-- The text of an inclusion. The directives of its body count first; the body is written when there
is no template of the name. -/
def renderInclusion (env : Environment) (inclusion : Inclusion) (indent : Text)
    (body : Option Template) : Rendering (After Text) := do
  let name ← targetName helpers env inclusion.target
  let _ ← operandValues helpers env inclusion.operands
  let options ← optionValues helpers env inclusion.options
  let located := locatedOperand? env inclusion.operands
  let inlines ← declareAll helpers (body.getD []) env
  let env := { env with inlines }
  match (env.template? name).or body with
  | none => .fail (.undefinedTemplate name)
  | some template =>
    .ask (.template template (env.including name located options indent body)) none fun text =>
      return env.give text

/-! ## Elements -/

mutual
/-- The text of an element. An error gets the place of the element, unless it already has one. -/
def renderElement (element : Element) (env : Environment) : Rendering (After Text) :=
  match element with
  | .text content => return env.give (indented env.indent content)
  | .comment => return env.give []
  | .value position operand => ((renderValue helpers env operand).map env.give).placedAt position
  | .invoke position isBlock invocation names body inverse =>
    (renderCall helpers env isBlock invocation names
      (fun env => renderElements body env)
      (fun env => renderElements inverse env)).placedAt position
  | .inclusion position isBlock inclusion indent body =>
    (renderInclusion helpers env inclusion indent
      (if isBlock then some body else none)).placedAt position
  | .directive position isBlock invocation body =>
    ((declare helpers env isBlock invocation body).map fun inlines =>
      ⟨[], inlines⟩).placedAt position

def renderElements (elements : List Element) (env : Environment) : Rendering (After Text) :=
  match elements with
  | [] => return env.give []
  | element :: elements =>
    andThen env (fun env => renderElement element env) (fun env => renderElements elements env)
end

/-- The text of a template in an environment. -/
def renderTemplate (template : Template) (env : Environment) : Rendering Text :=
  (renderElements helpers template env).map (·.result)

/-! ## Templates within each other -/

section
variable (nested : Text → Json → Except RenderError Text)
  (included : Template → Environment → Except RenderError Text)

/-- Answers to requests for sources and to requests for templates. -/
def answering : Answers
  | .source text data => nested text data
  | .template template env => included template env

/-- The text of a template, with room for the given number of templates within each other. -/
def templateText : (room : Nat) → Template → Environment → Except RenderError Text
  | 0, _, _ => .error (.ofCause .exhausted)
  | room + 1, template, env =>
    (renderTemplate helpers template env).run (answering nested (templateText room))

end
end

section
variable (helpers : HelperTable) (room : Nat)

/-- The text of a source with the given data. Texts from the data are rendered as sources in turn,
down to the given depth. -/
def renderSource : (depth : Nat) → Text → Json → Except RenderError Text
  | 0, _, _ => .error (.ofCause .exhausted)
  | depth + 1, source, data =>
    match parse source with
    | .ok template => templateText helpers (renderSource depth) (room + 1) template (.ofData data)
    | .error _ => .error (.ofCause .malformedTemplate)

/-- The text of a source with the given data. There is room for the source, for a text from the data
within it, and for as many more as given. -/
def render (source : Text) (data : Json) : Except RenderError Text :=
  renderSource helpers room (room + 2) source data

end

end Stencil.Template
