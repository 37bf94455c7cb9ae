import Stencil.Proofs.Engine.ItemLinks
import Stencil.Proofs.Engine.PlainSource
import Stencil.Proofs.Json.UnmarkedText

/-!
# Operands without opening marks

The helpers that digest and encode render their operand first, and an operand that is no text is
rendered as its JSON text. Main statement: data without opening marks passes through this second
rendering unchanged, so that the helpers work on the text of the value itself.
-/

namespace Stencil.Engine
open Template
variable {engine : Engine} {helper : Text} {f : Text → Text}

/-- The source that writes what a helper makes of a variable. -/
def callSource (helper : Text) : Text :=
  "\x7b\x7b".toList ++ helper ++ " x\x7d\x7d".toList

theorem parse_callSource (hhelper : (helper, f) ∈ transforms) :
    ∃ position, parse (callSource helper) = .ok (variableCall position helper "x".toList) := by
  have hsource : (parse (callSource helper)).toOption.any (isVariableCall helper "x".toList) =
      true := by
    rcases name_of_mem_transforms hhelper with rfl | rfl
    · decide +kernel
    · decide +kernel
  obtain ⟨template, hparse, htest⟩ := Fallible.exists_of_any hsource
  obtain ⟨position, rfl⟩ := eq_of_isVariableCall htest
  exact ⟨position, hparse⟩

/-- A helper that renders its operand gets the text of a value without marks as it is. -/
theorem render_callSource (hhelper : (helper, f) ∈ transforms)
    (hlookup : engine.helpers.lookup helper = some (.transform f)) {context : Context} {v : Json}
    (hv : context.get? "x".toList = some v) (hnull : v ≠ .null) (hempty : v ≠ .string [])
    (h : v.Unmarked) : engine.render (callSource helper) context = .ok (f v.text) := by
  obtain ⟨position, hparse⟩ := parse_callSource hhelper
  have hnested : engine.answers (.source v.text (.object context.bindings)) = .ok v.text :=
    renderSource_of_no_opening _ _ h.not_openMark_infix_text
  rw [render_of_parse_ok _ _ _ hparse, Context.toJson, renderTemplate, Rendering.run_map,
    variableCall_of_member hlookup position hv hnull hempty, hnested]
  rfl

/-- Operands without marks. When no string and no name in a value has an opening mark, the helpers
write the digest and the encoding of its text, whatever braces, quotes, backslashes and line ends
this holds: rendered as a template it gives itself back, with any helpers and any data. Null and the
empty text are no operands to render. -/
theorem render_unmarked_operand {engine : Engine}
    (hdigest : engine.helpers.lookup "sha256".toList = some (.transform Sha256.digestText))
    (hform : engine.helpers.lookup "urlEncode".toList = some (.transform Encoding.form))
    {context : Context} {v : Json} (hv : context.get? "x".toList = some v) (hnull : v ≠ .null)
    (hempty : v ≠ .string []) (h : v.Unmarked) :
    engine.render "\x7b\x7bsha256 x\x7d\x7d".toList context = .ok (Sha256.digestText v.text) ∧
    engine.render "\x7b\x7burlEncode x\x7d\x7d".toList context = .ok (Encoding.form v.text) ∧
    ∀ (other : Engine) (data : Context), other.render v.text data = .ok v.text := by
  have hfirst : ("sha256".toList, Sha256.digestText) ∈ transforms := List.mem_cons_self
  have hsecond : ("urlEncode".toList, Encoding.form) ∈ transforms :=
    List.mem_cons_of_mem _ List.mem_cons_self
  exact ⟨render_callSource hfirst hdigest hv hnull hempty h,
    render_callSource hsecond hform hv hnull hempty h,
    fun other data => render_of_no_opening other data h.not_openMark_infix_text⟩

/-- Objects in one another, a brace for a name, and a string of closing marks and a line end. -/
theorem render_unmarked_operand_nested :
    let v : Json := .object [("\x7b".toList, .array [.object [], .string "\x7d\x7d\n".toList])]
    v.Unmarked ∧
      (standard 0).render "\x7b\x7burlEncode x\x7d\x7d".toList ⟨[("x".toList, v)]⟩ =
        .ok "%7B%22%7B%22%3A%5B%7B%7D%2C%22%7D%7D%5Cn%22%5D%7D".toList := by
  intro v
  have hname : ¬openMark <:+: "\x7b".toList := by
    rw [← Text.occurs_iff]
    decide
  have hstring : ¬openMark <:+: "\x7d\x7d\n".toList := not_openMark_infix_of_not_mem (by decide)
  have hitems : (Json.array [.object [], .string "\x7d\x7d\n".toList]).Unmarked := by
    refine .array (List.forall_mem_cons.mpr ⟨.object ?_ ?_, List.forall_mem_singleton.mpr ?_⟩)
    · exact List.forall_mem_nil _
    · exact List.forall_mem_nil _
    · exact .string hstring
  have hv : v.Unmarked :=
    .object (List.forall_mem_singleton.mpr hname) (List.forall_mem_singleton.mpr hitems)
  have hdigest : (standard 0).helpers.lookup "sha256".toList =
      some (.transform Sha256.digestText) := rfl
  have hform : (standard 0).helpers.lookup "urlEncode".toList = some (.transform Encoding.form) :=
    rfl
  have hx : (⟨[("x".toList, v)]⟩ : Context).get? "x".toList = some v := rfl
  have hrender := (render_unmarked_operand hdigest hform hx (by simp [v]) (by simp [v]) hv).2.1
  exact ⟨hv, hrender.trans (by decide +kernel)⟩

end Stencil.Engine
