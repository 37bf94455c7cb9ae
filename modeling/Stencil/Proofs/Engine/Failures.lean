import Mathlib.Control.Monad.Basic
import Stencil.Engine
import Stencil.Proofs.Fallible
import Stencil.Proofs.Template.Ending
import Stencil.Proofs.Template.SelfInclusion
import Stencil.Proofs.Template.VariableCall

/-!
# Failures of an engine

An engine learns what kind of failure it met only afterwards, when it reads the source once more;
and the failure itself may come from a text of the data that is no template either. Main statement:
the kinds are told apart exactly. A source is refused for its syntax when it is no template,
whatever the helpers and the variables are; a template is never refused for its syntax, not even
when a text that it renders from the data is no template. A rendering comes to its end unless it
enters others without end, as a template does that includes itself.
-/

namespace Stencil
namespace Engine

theorem validate_eq_error_iff {source : Text} {failure : TemplateError} :
    validate source = .error failure ↔
      ∃ e, Template.parse source = .error e ∧ failure = .syntaxError e := by
  rw [validate]
  cases Template.parse source <;> simp [eq_comm]

theorem validate_eq_ok_iff {source : Text} :
    validate source = .ok () ↔ ∃ template, Template.parse source = .ok template := by
  rw [validate]
  cases Template.parse source <;> simp

section
variable (engine : Engine) (source : Text) (context : Context)

/-- The answers to what a template asks for while it is rendered. -/
def answers : Template.Answers := Template.answersWithin engine.helpers engine.room

theorem render_of_parse_error {e : Template.SyntaxError} (h : Template.parse source = .error e) :
    engine.render source context = .error (.syntaxError e) := by
  have hvalidate : validate source = .error (.syntaxError e) :=
    validate_eq_error_iff.mpr ⟨e, h, rfl⟩
  rw [render, Template.render_eq_outcome, Template.outcome_of_parse_error h, hvalidate]

theorem render_of_parse_ok {template : Template} (h : Template.parse source = .ok template) :
    engine.render source context =
      ((Template.renderTemplate engine.helpers template (.ofData context.toJson)).run
        engine.answers).mapError .renderError := by
  have hvalidate : validate source = .ok () := validate_eq_ok_iff.mpr ⟨template, h⟩
  rw [render, Template.render_eq_outcome, Template.outcome_of_parse_ok h, hvalidate, answers]
  cases Template.Rendering.run _ _ <;> rfl

end

/-! ## Renderings that come to their end -/

/-- No outcome of a template: the rendering met the bound of its room. -/
def Exhausted (outcome : Except TemplateError Text) : Prop :=
  ∃ position, outcome = .error (.renderError ⟨.exhausted, position⟩)

/-- In some room the rendering comes to its end, with the given outcome. -/
def Returns (engine : Engine) (source : Text) (context : Context)
    (outcome : Except TemplateError Text) : Prop :=
  ∃ room, (engine.withRoom room).render source context = outcome ∧ ¬ Exhausted outcome

variable {engine : Engine} {source : Text} {context : Context}

theorem exhausted_iff {room : Nat} : Exhausted ((engine.withRoom room).render source context) ↔
    Template.IsExhausted
      (Template.outcome engine.helpers room (.source source context.toJson)) := by
  cases hparse : Template.parse source with
  | error e =>
    rw [render_of_parse_error _ _ _ hparse, Template.outcome_of_parse_error hparse]
    simp [Exhausted, Template.isExhausted_error_iff, Template.RenderError.ofCause]
  | ok template =>
    rw [render_of_parse_ok _ _ _ hparse, Template.outcome_of_parse_ok hparse, answers, withRoom]
    cases Template.Rendering.run _ _ <;>
      simp [Exhausted, Template.IsExhausted, Except.mapError]

/-- More room changes nothing for a rendering that comes to its end. -/
theorem render_withRoom {room : Nat}
    (h : ¬ Exhausted ((engine.withRoom room).render source context)) (further : Nat) :
    (engine.withRoom (room + further)).render source context =
      (engine.withRoom room).render source context := by
  have hsame : Template.outcome engine.helpers (room + further) (.source source context.toJson) =
      Template.outcome engine.helpers room (.source source context.toJson) :=
    Template.outcome_persists (Nat.le_add_right room further) _ (mt exhausted_iff.mpr h)
  rw [render, render, withRoom, withRoom, Template.render_eq_outcome, Template.render_eq_outcome,
    hsame]

/-- A rendering has one outcome, in whatever room it comes to its end. -/
theorem Returns.unique {outcome : Except TemplateError Text}
    (h : engine.Returns source context outcome) {room : Nat}
    (hends : ¬ Exhausted ((engine.withRoom room).render source context)) :
    (engine.withRoom room).render source context = outcome := by
  obtain ⟨other, rfl, hother⟩ := h
  rw [← render_withRoom hends other, Nat.add_comm, render_withRoom hother]

end Engine
end Stencil
