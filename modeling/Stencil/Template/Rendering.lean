import Stencil.Template.RenderError

/-!
# Renderings

While a template is rendered, texts from the data are rendered as sources of their own and other
templates are included. A rendering asks for these texts one after the other and goes on with them;
what it asks for next may depend on them, and nothing else of these other renderings counts. How they
are done is not its business: it has an outcome for every way to answer.
-/

namespace Stencil.Template

/-- A rendering within a rendering. -/
inductive Request
  /-- Of a source, with some data. -/
  | source (text : Text) (data : Json)
  /-- Of a template that is included. -/
  | template (template : Template) (env : Environment)

/-- A way to answer requests. -/
abbrev Answers := Request → Except RenderError Text

/-- A rendering that gives a value, or fails. -/
inductive Rendering (α : Type)
  | done (outcome : Except RenderError α)
  /-- Asks for a text. When there is none, the failure is that of the rendering, with the given place
  unless its place is known. -/
  | ask (request : Request) (position : Option Position) (next : Text → Rendering α)

namespace Rendering
variable {α β : Type}

def bind : Rendering α → (α → Rendering β) → Rendering β
  | done (.ok a), f => f a
  | done (.error e), _ => done (.error e)
  | ask request position next, f => ask request position fun text => bind (next text) f

instance : Monad Rendering where
  pure a := done (.ok a)
  bind := bind

def map (f : α → β) (r : Rendering α) : Rendering β := r.bind fun a => done (.ok (f a))

def fail (cause : RenderCause) : Rendering α := done (.error (.ofCause cause))

/-- The rendering with a place for the failures that have none. -/
def placedAt (r : Rendering α) (place : Position) : Rendering α :=
  match r with
  | done outcome => done (outcome.mapError (·.placedAt place))
  | ask request position next =>
    ask request (position.or (some place)) fun text => placedAt (next text) place

/-- The outcome with the given answers. -/
def run (answers : Answers) : Rendering α → Except RenderError α
  | done outcome => outcome
  | ask request position next =>
    match answers request with
    | .ok text => run answers (next text)
    | .error e => .error { e with position := e.position.or position }

theorem run_ask {answers : Answers} {request : Request} {position : Option Position}
    {next : Text → Rendering α} {text : Text} (h : answers request = .ok text) :
    (ask request position next).run answers = (next text).run answers := by
  rw [run, h]

theorem map_map {γ : Type} (r : Rendering α) (f : α → β) (g : β → γ) :
    (r.map f).map g = r.map (g ∘ f) := by
  induction r with
  | done outcome => cases outcome <;> rfl
  | ask request position next ih => exact congrArg (ask request position) (funext ih)

section
variable (answers : Answers)

@[simp] theorem run_pure (a : α) : (pure a : Rendering α).run answers = .ok a := rfl

theorem run_bind (r : Rendering α) (f : α → Rendering β) :
    (r >>= f).run answers = (do (f (← r.run answers)).run answers) := by
  induction r with
  | done outcome => cases outcome <;> rfl
  | ask request position next ih =>
    change (ask request position fun text => next text >>= f).run answers = _
    rw [run, run]
    cases answers request with
    | error e => rfl
    | ok text => exact ih text

theorem run_map (f : α → β) (r : Rendering α) : (r.map f).run answers = (r.run answers).map f := by
  refine (run_bind answers r _).trans ?_
  cases r.run answers <;> rfl

theorem run_placedAt (r : Rendering α) (place : Position) :
    (r.placedAt place).run answers = (r.run answers).mapError (·.placedAt place) := by
  induction r with
  | done outcome => rfl
  | ask request position next ih =>
    rw [placedAt, run, run]
    cases answers request with
    | error e =>
      exact congrArg (fun place => Except.error (RenderError.mk e.cause place))
        Option.or_assoc.symm
    | ok text => exact ih text

end

end Rendering
end Stencil.Template
