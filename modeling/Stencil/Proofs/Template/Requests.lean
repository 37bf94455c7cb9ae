import Stencil.Template.Rendering

/-!
# Requests of a rendering

What a rendering asks for depends on the answers so far, and its outcome on nothing but the answers to
what it asks for. Main statements: two ways to answer that lead to different outcomes differ on a
request that is made; a request that fails makes the rendering fail for the same cause; and a
rendering that comes to its end does the same when requests that were left without an answer, for want
of room, get one.
-/

namespace Stencil.Template

/-- The rendering did not come to its end: the room for renderings within each other was used up. -/
def IsExhausted {α : Type} (outcome : Except RenderError α) : Prop :=
  ∃ position, outcome = .error ⟨.exhausted, position⟩

theorem not_isExhausted_ok {α : Type} (a : α) : ¬ IsExhausted (.ok a) := by simp [IsExhausted]

theorem isExhausted_error_iff {α : Type} {e : RenderError} :
    IsExhausted (.error e : Except RenderError α) ↔ e.cause = .exhausted := by
  obtain ⟨cause, position⟩ := e
  simp [IsExhausted]

/-- The second outcome is the first one, if that came to its end. -/
def Persists {α : Type} (outcome other : Except RenderError α) : Prop :=
  ¬ IsExhausted outcome → other = outcome

theorem Persists.refl {α : Type} (outcome : Except RenderError α) : Persists outcome outcome :=
  fun _ => rfl

theorem Persists.trans {α : Type} {r r' r'' : Except RenderError α} (h : Persists r r')
    (h' : Persists r' r'') : Persists r r'' := by
  intro hends
  have heq := h hends
  rw [← heq]
  exact h' (heq ▸ hends)

namespace Rendering
variable {α β : Type} {answers answers' : Answers} {request : Request} {r : Rendering α}

/-- The rendering asks for something, when it gets the given answers. -/
def Asks (answers : Answers) : Rendering α → Request → Prop
  | done _, _ => False
  | ask request _ next, other =>
    other = request ∨ ∃ text, answers request = .ok text ∧ Asks answers (next text) other

theorem asks_first (position : Option Position) (next : Text → Rendering α) :
    (ask request position next).Asks answers request := .inl rfl

theorem asks_next {position : Option Position} {next : Text → Rendering α} {text : Text}
    (htext : answers request = .ok text) {other : Request} (h : (next text).Asks answers other) :
    (ask request position next).Asks answers other := .inr ⟨text, htext, h⟩

/-- Answers that lead to different outcomes differ on something that is asked for. -/
theorem exists_asks_of_ne (h : r.run answers ≠ r.run answers') :
    ∃ request, r.Asks answers request ∧ answers request ≠ answers' request := by
  induction r with
  | done outcome => exact absurd rfl h
  | ask request position next ih =>
    by_cases hsame : answers request = answers' request
    · rw [run, run, ← hsame] at h
      cases hanswer : answers request with
      | error e => simp [hanswer] at h
      | ok text =>
        simp only [hanswer] at h
        obtain ⟨other, hasks, hother⟩ := ih text h
        exact ⟨other, asks_next hanswer hasks, hother⟩
    · exact ⟨request, asks_first position next, hsame⟩

theorem run_congr (h : ∀ request, r.Asks answers request → answers request = answers' request) :
    r.run answers = r.run answers' := by
  refine Classical.byContradiction fun hne => ?_
  obtain ⟨request, hasks, hdiffer⟩ := exists_asks_of_ne hne
  exact hdiffer (h request hasks)

/-- A failure of what is asked for is a failure of the rendering, at some place. -/
theorem Asks.run_eq_error (h : r.Asks answers request) {e : RenderError}
    (he : answers request = .error e) : ∃ position, r.run answers = .error ⟨e.cause, position⟩ := by
  induction r with
  | done outcome => exact h.elim
  | ask first position next ih =>
    rcases h with rfl | ⟨text, htext, hnext⟩
    · exact ⟨e.position.or position, by rw [run, he]⟩
    · obtain ⟨place, hplace⟩ := ih text hnext
      exact ⟨place, (run_ask htext).trans hplace⟩

/-- What a rendering asks for that comes to its end has come to its end. -/
theorem Asks.ends (h : r.Asks answers request) (hends : ¬ IsExhausted (r.run answers)) :
    ¬ IsExhausted (answers request) := by
  rintro ⟨position, hexhausted⟩
  obtain ⟨place, hfails⟩ := h.run_eq_error hexhausted
  exact hends ⟨place, hfails⟩

/-! ## More answers -/

section
variable (hpersist : ∀ request, Persists (answers request) (answers' request))
include hpersist

theorem Asks.persists (h : r.Asks answers request) : r.Asks answers' request := by
  induction r with
  | done outcome => exact h.elim
  | ask first position next ih =>
    rcases h with rfl | ⟨text, htext, hnext⟩
    · exact asks_first position next
    · have htext' : answers' first = .ok text := by
        rw [hpersist first (htext ▸ not_isExhausted_ok text), htext]
      exact asks_next htext' (ih text hnext)

theorem run_persists (r : Rendering α) : Persists (r.run answers) (r.run answers') := by
  intro hends
  refine (run_congr fun request hasks => ?_).symm
  exact (hpersist request (hasks.ends hends)).symm

end

/-! ## What a rendering keeps to -/

/-- The rendering asks for nothing but what is allowed, a value of it has a property, and of itself
it always comes to its end. -/
inductive Keeps (allowed : Request → Prop) (P : α → Prop) : Rendering α → Prop
  | value {a : α} (h : P a) : Keeps allowed P (done (.ok a))
  | failure {e : RenderError} (h : e.cause ≠ .exhausted) : Keeps allowed P (done (.error e))
  | ask {request : Request} {position : Option Position} {next : Text → Rendering α}
      (h : allowed request) (hnext : ∀ text, Keeps allowed P (next text)) :
      Keeps allowed P (ask request position next)

namespace Keeps
variable {allowed : Request → Prop} {P : α → Prop} {Q : β → Prop}

theorem fail {cause : RenderCause} (h : cause ≠ .exhausted) :
    Keeps allowed P (Rendering.fail cause) := .failure h

theorem bind (h : Keeps allowed P r) {f : α → Rendering β} (hf : ∀ a, P a → Keeps allowed Q (f a)) :
    Keeps allowed Q (r >>= f) := by
  induction h with
  | value h => exact hf _ h
  | failure h => exact .failure h
  | ask h _ ih => exact .ask h ih

theorem map (h : Keeps allowed P r) {f : α → β} (hf : ∀ a, P a → Q (f a)) :
    Keeps allowed Q (r.map f) := h.bind fun a ha => .value (hf a ha)

theorem placedAt (h : Keeps allowed P r) (place : Position) : Keeps allowed P (r.placedAt place) := by
  induction h with
  | value h => exact .value h
  | failure h => exact .failure h
  | ask h _ ih => exact .ask h ih

theorem allows (h : Keeps allowed P r) (hasks : r.Asks answers request) : allowed request := by
  induction h with
  | value | failure => exact hasks.elim
  | ask h _ ih =>
    rcases hasks with rfl | ⟨text, -, hnext⟩
    · exact h
    · exact ih text hnext

end Keeps
end Rendering
end Stencil.Template
