import Mathlib.Data.Nat.Notation
import Stencil.Proofs.Template.NestedSources

/-!
# Room for templates within each other

Sources and templates are rendered within each other as deep as there is room. Main statements: more
room changes no outcome but that of a rendering which used up what there was; a rendering uses it up
only by asking for another one that does; and how texts from the data are rendered does not matter to
a template that asks for none.
-/

namespace Stencil.Template
open Rendering

theorem isExhausted_exhausted {α : Type} :
    IsExhausted (.error (.ofCause .exhausted) : Except RenderError α) := ⟨none, rfl⟩

/-! ## More room -/

section
variable {helpers : HelperTable} {nested nested' : Text → Json → Except RenderError Text}
  {included included' : Template → Environment → Except RenderError Text}

theorem answering_persists (hnested : ∀ text data, Persists (nested text data) (nested' text data))
    (hincluded : ∀ template env, Persists (included template env) (included' template env))
    (request : Request) :
    Persists (answering nested included request) (answering nested' included' request) := by
  cases request with
  | source text data => exact hnested text data
  | template template env => exact hincluded template env

theorem templateText_persists
    (hnested : ∀ text data, Persists (nested text data) (nested' text data)) (room further : ℕ)
    (template : Template) (env : Environment) :
    Persists (templateText helpers nested room template env)
      (templateText helpers nested' (room + further) template env) := by
  induction room generalizing template env with
  | zero => exact fun hends => absurd isExhausted_exhausted hends
  | succ room ih =>
    rw [Nat.add_right_comm, templateText, templateText]
    exact run_persists (answering_persists hnested ih) _

theorem renderSource_persists (helpers : HelperTable) (room depth : ℕ) (further deeper : ℕ)
    (text : Text) (data : Json) :
    Persists (renderSource helpers room depth text data)
      (renderSource helpers (room + further) (depth + deeper) text data) := by
  induction depth generalizing text data with
  | zero => exact fun hends => absurd isExhausted_exhausted hends
  | succ depth ih =>
    rw [Nat.add_right_comm depth 1 deeper, renderSource, renderSource]
    cases parse text with
    | error e => exact .refl _
    | ok template =>
      dsimp only
      rw [Nat.add_right_comm room further 1]
      exact templateText_persists ih (room + 1) further template _

end

/-! ## Templates that do not ask -/

/-- A template that calls no helper which renders its operand. -/
def CallsNoTransform (helpers : HelperTable) (template : Template) : Prop :=
  ∀ name ∈ calls template, ∀ isBlock f, findHelper helpers isBlock name ≠ some (.transform f)

section
variable {helpers : HelperTable}

theorem CallsNoTransform.covers {template : Template} (h : CallsNoTransform helpers template)
    (sources inclusions : Prop) :
    Allowance.Covers ⟨helpers, sources, inclusions⟩ (calls template) :=
  fun name hname isBlock f hf => absurd hf (h name hname isBlock f)

/-- Where no texts of sources are allowed it does not matter how they are rendered. -/
theorem templateText_eq_of_covers {C : Allowance} (hsources : ¬C.sources)
    (hinclusions : C.inclusions) (nested nested' : Text → Json → Except RenderError Text)
    (room : ℕ) {template : Template} {env : Environment} (hcalls : C.Covers (calls template))
    (henv : C.CoversEnv env) :
    templateText C.helpers nested room template env =
      templateText C.helpers nested' room template env := by
  induction room generalizing template env with
  | zero => rfl
  | succ room ih =>
    rw [templateText, templateText]
    refine run_congr fun request hasks => ?_
    have hallows := (Allowance.renderTemplate_keeps hcalls (fun _ => hinclusions) henv).allows hasks
    cases request with
    | source text data => exact absurd hallows hsources
    | template template env => exact ih hallows.2.1 hallows.2.2

/-- A source whose template calls no helper which renders its operand is rendered in the same way at
every depth. -/
theorem renderSource_eq_of_calls {source : Text}
    (hcalls : ∀ template, parse source = .ok template → CallsNoTransform helpers template)
    (room depth other : ℕ) (data : Json) :
    renderSource helpers room (depth + 1) source data =
      renderSource helpers room (other + 1) source data := by
  rw [renderSource, renderSource]
  cases hparse : parse source with
  | error e => rfl
  | ok template =>
    exact templateText_eq_of_covers (C := ⟨helpers, False, True⟩) id trivial _ _ (room + 1)
      ((hcalls template hparse).covers _ _) (.ofData data)

end

end Stencil.Template
