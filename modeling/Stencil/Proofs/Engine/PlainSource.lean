import Mathlib.Control.Monad.Basic
import Stencil.Proofs.Engine.Failures
import Stencil.Proofs.Template.ClosingMark
import Stencil.Proofs.Template.PlainText
import Stencil.Resolution

/-!
# Sources without both marks

A resolver that looks for the two marks of an expression leaves a text alone when one is missing.
Main statement: rendering such a text would refuse it for its syntax or give it back, except that a
backslash before an opening mark would be dropped; so leaving it alone changes the result only for
texts with an escaped mark.
-/

namespace Stencil

namespace Template
variable {source : Text}

/-- The element that a text becomes, unless it is empty. -/
def textElements (t : Text) : Template := if t.isEmpty then [] else [.text t]

theorem layout_textPieces (t : Text) : layout .start (textPieces t) = textPieces t := by
  cases t <;> rfl

theorem build_text (t : Text) (read : List Element) (pieces : List Piece) :
    build [] read (textPieces t ++ pieces) =
      build [] ((textElements t).reverse ++ read) pieces := by
  cases t <;> rfl

theorem build_textPieces (t : Text) (read : List Element) :
    build [] read (textPieces t) = .ok (read.reverse ++ textElements t) := by
  have hbuild := build_text t read []
  rw [List.append_nil] at hbuild
  rw [hbuild, build, List.reverse_append, List.reverse_reverse]

section
variable {helpers : HelperTable} {answers : Answers} {env : Environment} (henv : env.indent = [])
include henv

theorem renderElements_text {elements : Template} {text : Text} (t : Text)
    (h : (renderElements helpers elements env).run answers = .ok (env.give text)) :
    (renderElements helpers (textElements t ++ elements) env).run answers =
      .ok (env.give (t ++ text)) := by
  cases t with
  | nil => exact h
  | cons c t =>
    have hfirst : (renderElement helpers (.text (c :: t)) env).run answers =
        .ok (env.give (c :: t)) := by
      rw [renderElement, henv, indented_empty]
      rfl
    calc (renderElements helpers (.text (c :: t) :: elements) env).run answers
      _ = Except.map env.give (do return (← Except.ok (c :: t)) ++ (← Except.ok text)) :=
        run_andThen hfirst h
      _ = .ok (env.give (c :: t ++ text)) := rfl

theorem renderElements_textElements (t : Text) :
    (renderElements helpers (textElements t) env).run answers = .ok (env.give t) := by
  have hnone : (renderElements helpers [] env).run answers = .ok (env.give []) := rfl
  simpa using renderElements_text henv t hnone

end

theorem renderTemplate_textElements (helpers : HelperTable) (answers : Answers) (t : Text)
    (data : Json) :
    (renderTemplate helpers (textElements t) (.ofData data)).run answers = .ok t := by
  rw [renderTemplate, Rendering.run_map, renderElements_textElements rfl]
  rfl

theorem parse_plain (h : (splitText openMark false source).2 = []) :
    parse source = .ok (textElements (splitText openMark false source).1) := by
  have hpieces : pieces? source = some (textPieces (splitText openMark false source).1) := by
    rw [pieces?, piecesFrom?]
    simp [h]
  rw [parse, hpieces]
  change build [] [] (layout .start _) = _
  rw [layout_textPieces, build_textPieces]
  rfl

/-- A source without an opening mark is written as it is, however deep it is rendered. -/
theorem renderSource_of_no_opening {helpers : HelperTable} {data : Json} (room depth : Nat)
    (h : ¬openMark <:+: source) :
    renderSource helpers room (depth + 1) source data = .ok source := by
  have hplain := splitText_of_not_occurs h false
  have hrest : (splitText openMark false source).2 = [] := by rw [hplain]
  rw [renderSource_template room depth (parse_plain hrest), templateText,
    renderTemplate_textElements, hplain]

/-- A tag that is never closed leaves a source without a reading. -/
theorem parse_unclosed (h : (splitText openMark false source).2 ≠ [])
    (hclose : ¬closeMark <:+: source) : parse source = .error .malformed := by
  have hstart : ¬closeMark <:+: (splitText openMark false source).2 := fun hmark =>
    hclose (hmark.trans (splitText_suffix _ _ _).isInfix)
  have htag : (freeTag? (splitText openMark false source).2).or
      (boundTag? [] (splitText openMark false source).2) = none := by
    rw [Option.or_eq_none_iff, Option.eq_none_iff_forall_not_mem, Option.eq_none_iff_forall_not_mem]
    exact ⟨fun _ htag => hstart (freeTag?_closes htag), fun _ htag => hstart (boundTag?_closes htag)⟩
  have hraw : ∀ before, rawBlock? before (splitText openMark false source).2 = none := by
    intro before
    rw [Option.eq_none_iff_forall_not_mem]
    exact fun _ hraw => hstart (rawBlock?_closes hraw)
  have hpieces : pieces? source = none := by
    rw [pieces?, piecesFrom?]
    simp [h, htag, hraw]
  rw [parse, hpieces]

end Template

namespace Engine
variable (engine : Engine) {source : Text} (context : Context)

theorem render_plain (h : (Template.splitText openMarker false source).2 = []) :
    engine.render source context = .ok (Template.splitText openMarker false source).1 := by
  rw [render_of_parse_ok _ _ _ (Template.parse_plain h), Template.renderTemplate_textElements]
  rfl

theorem render_unclosed (h : (Template.splitText openMarker false source).2 ≠ [])
    (hclose : ¬closeMarker <:+: source) :
    engine.render source context = .error (.syntaxError .malformed) :=
  render_of_parse_error _ _ _ (Template.parse_unclosed h hclose)

theorem render_of_no_opening (h : ¬openMarker <:+: source) :
    engine.render source context = .ok source := by
  have hplain := Template.splitText_of_not_occurs h false
  rw [render_plain engine context (by rw [openMarker, hplain]), openMarker, hplain]

/-- A text in which one mark is missing is refused for its syntax or given back without some of the
backslashes that stand directly before an opening mark; unless there is such a backslash it is given
back as it is. A resolver, which leaves the text alone, then gives the same. -/
theorem render_without_both_marks {source : Text} (h : hasMarkers source = false)
    (engine : Engine) (context : Context) :
    Resolution.resolve engine context (.string source) = .ok (.string source) ∧
    ((∃ e, engine.render source context = .error (.syntaxError e)) ∨
      ∃ text, engine.render source context = .ok text ∧ Template.Unescapes source text) ∧
    (¬ '\\' :: openMarker <:+: source →
      (∃ e, engine.render source context = .error (.syntaxError e)) ∨
        engine.render source context = .ok source) := by
  have hleft : Resolution.resolve engine context (.string source) = .ok (.string source) := by
    simp [Resolution.resolve, h]
  have hrender : (∃ e, engine.render source context = .error (.syntaxError e)) ∨
      ∃ text, engine.render source context = .ok text ∧ Template.Unescapes source text := by
    by_cases hplain : (Template.splitText openMarker false source).2 = []
    · exact .inr ⟨_, render_plain engine context hplain, Template.unescapes_splitText false hplain⟩
    · have hopen : openMarker <:+: source := by
        by_contra hopen
        exact hplain (by rw [openMarker, Template.splitText_of_not_occurs hopen])
      have hclose : ¬closeMarker <:+: source := by
        intro hclose
        rw [(hasMarkers_iff source).mpr ⟨hopen, hclose⟩] at h
        exact absurd h (by simp)
      exact .inl ⟨_, render_unclosed engine context hplain hclose⟩
  refine ⟨hleft, hrender, fun hescape => ?_⟩
  rcases hrender with hrefused | ⟨text, htext, hunescapes⟩
  · exact .inl hrefused
  · exact .inr (by rw [htext, hunescapes.eq_of_not_occurs hescape])

/-- A price with an opening mark alone is refused. -/
theorem render_without_both_marks_open :
    hasMarkers "price \x7b\x7b pending".toList = false ∧
      ((∃ e, Engine.basic.render "price \x7b\x7b pending".toList .empty =
          .error (.syntaxError e)) ∨
        Engine.basic.render "price \x7b\x7b pending".toList .empty =
          .ok "price \x7b\x7b pending".toList) := by
  have hmarks : hasMarkers "price \x7b\x7b pending".toList = false := by decide
  have hescape : ¬ '\\' :: openMarker <:+: "price \x7b\x7b pending".toList := by
    rw [← Text.occurs_iff]
    decide
  exact ⟨hmarks, (render_without_both_marks hmarks .basic .empty).2.2 hescape⟩

/-- An escaped opening mark without a closing one loses its backslash when it is rendered, and keeps
it when it is resolved. -/
theorem render_escaped_mark_differs :
    let source : Text := ['\\', '\x7b', '\x7b']
    hasMarkers source = false ∧
      Resolution.resolve .basic .empty (.string source) = .ok (.string source) ∧
      Engine.basic.render source .empty = .ok openMarker ∧
      ¬((∃ e, Engine.basic.render source .empty = .error (.syntaxError e)) ∨
        Engine.basic.render source .empty = .ok source) := by
  intro source
  have hmarks : hasMarkers source = false := by decide
  have hleft : Resolution.resolve .basic .empty (.string source) = .ok (.string source) := by
    simp [Resolution.resolve, hmarks]
  have hrender : Engine.basic.render source .empty = .ok openMarker := by decide +kernel
  refine ⟨hmarks, hleft, hrender, ?_⟩
  rw [hrender]
  rintro (⟨e, he⟩ | hsame)
  · exact absurd he (by simp)
  · exact absurd (Except.ok.inj hsame) (by decide)

end Engine
end Stencil
