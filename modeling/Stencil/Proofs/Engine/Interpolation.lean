import Stencil.Proofs.Engine.PlainSource
import Stencil.Proofs.Template.Variable

/-!
# Interpolation

The sources that most templates are: plain texts with variables in double braces between them. Main
statement: rendering such a source puts the text of each variable in its place, as it is. Nothing in
it is escaped, trimmed or rendered again, and no other variable counts. A variable that is not set
leaves its place empty, unless the engine has a helper that stands in for unknown names.
-/

namespace Stencil

namespace Template

/-- A variable, by its name, and the plain text after it. -/
structure Slot where
  name : Text
  next : Text

/-- The source with the plain text `first` and then each variable in double braces and the text
after it. -/
def interpolation : (first : Text) → List Slot → Text
  | first, [] => first
  | first, slot :: slots =>
    first ++ (openMark ++ (slot.name ++ (closeMark ++ interpolation slot.next slots)))

/-- The plain texts hold no opening mark, those before a variable do not run into its tag, and the
names are those of variables. -/
def Interpolable : (first : Text) → List Slot → Prop
  | first, [] => ¬openMark <:+: first
  | first, slot :: slots =>
    ¬openMark <:+: first ∧ MayPrecedeTag first ∧ IsVariable slot.name ∧
      Interpolable slot.next slots

instance decidableInterpolable :
    (first : Text) → (slots : List Slot) → Decidable (Interpolable first slots)
  | first, [] => decidable_of_iff (¬Text.occurs openMark first = true) (by
      rw [Text.occurs_iff, Interpolable])
  | first, slot :: slots =>
    have := decidableInterpolable slot.next slots
    decidable_of_iff
      (¬Text.occurs openMark first = true ∧ MayPrecedeTag first ∧ IsVariable slot.name ∧
        Interpolable slot.next slots) (by rw [Text.occurs_iff, Interpolable])

/-- The text that an interpolation becomes when its variables have the given texts. -/
def filled (textOf : Text → Text) (first : Text) (slots : List Slot) : Text :=
  first ++ slots.flatMap fun slot => textOf slot.name ++ slot.next

theorem filled_cons (textOf : Text → Text) (first : Text) (slot : Slot) (slots : List Slot) :
    filled textOf first (slot :: slots) =
      first ++ (textOf slot.name ++ filled textOf slot.next slots) := by
  simp [filled]

theorem filled_congr {textOf textOf' : Text → Text} {slots : List Slot}
    (h : ∀ slot ∈ slots, textOf slot.name = textOf' slot.name) (first : Text) :
    filled textOf first slots = filled textOf' first slots := by
  induction slots generalizing first with
  | nil => rfl
  | cons slot slots ih =>
    have hrest := ih fun slot' hslot => h slot' (List.mem_cons_of_mem _ hslot)
    rw [filled_cons, filled_cons, h slot List.mem_cons_self, hrest]

/-! ## Reading

The places of the tags do not count for what is written, so the relation between an interpolation,
its pieces and its elements leaves them open. -/

/-- The pieces and the elements of an interpolation. -/
inductive Interpolates : (first : Text) → List Slot → List Piece → Template → Prop
  | last (first : Text) : Interpolates first [] (textPieces first) (textElements first)
  | slot (first : Text) (slot : Slot) (before after : Text) {slots : List Slot}
      {pieces : List Piece} {elements : Template} :
      Interpolates slot.next slots pieces elements →
      Interpolates first (slot :: slots)
        (textPieces first ++ .tag (place (variableReading slot.name) before after) :: pieces)
        (textElements first ++
          .value (positionAfter before) (.path (.ofName slot.name)) :: elements)

/-- The plain text at the start of a source and a tag after it are cut off. -/
theorem piecesFrom?_tag {source first start rest : Text} {reading : TagReading}
    (hsplit : splitText openMark false source = (first, start)) (hstart : start ≠ [])
    (htag : freeTag? start = some (reading, rest)) (fuel : Nat) (blocks : List OpenBlock)
    (before : Text) :
    piecesFrom? (fuel + 1) blocks before source =
      (piecesFrom? fuel (OpenBlock.after blocks reading.tag)
        (advance (advance before source start) start rest) rest).map fun pieces =>
          textPieces first ++ .tag (place reading (advance before source start) rest) :: pieces := by
  have hne : start.isEmpty = false := by simpa using hstart
  simp [piecesFrom?, hsplit, hne, htag]

theorem piecesFrom?_interpolation {first : Text} {slots : List Slot}
    (h : Interpolable first slots) {fuel : Nat} (hfuel : slots.length < fuel) (before : Text) :
    ∃ pieces elements, piecesFrom? fuel [] before (interpolation first slots) = some pieces ∧
      Interpolates first slots pieces elements := by
  -- Each variable takes one unit of fuel, and the text after it is the first text of what is left.
  induction slots generalizing first fuel before with
  | nil =>
    obtain ⟨fuel, rfl⟩ : ∃ n, fuel = n + 1 := ⟨fuel - 1, by omega⟩
    refine ⟨textPieces first, _, ?_, .last first⟩
    have hsplit := splitText_of_not_occurs h false
    simp [interpolation, piecesFrom?, hsplit]
  | cons slot slots ih =>
    obtain ⟨htext, hplace, hname, hnext⟩ := h
    obtain ⟨fuel, rfl⟩ : ∃ n, fuel = n + 1 := ⟨fuel - 1, by omega⟩
    have hrest : slots.length < fuel := by simpa using hfuel
    let rest := interpolation slot.next slots
    have hsplit := splitText_before_tag htext hplace false (slot.name ++ (closeMark ++ rest))
    have hcut := piecesFrom?_tag hsplit (List.cons_ne_nil _ _) (hname.freeTag?_append rest) fuel []
      before
    obtain ⟨pieces, elements, hpieces, hreads⟩ := ih hnext hrest _
    exact ⟨_, _, hcut.trans (congrArg _ hpieces), .slot first slot _ rest hreads⟩

theorem length_le_interpolation (first : Text) (slots : List Slot) :
    slots.length ≤ (interpolation first slots).length := by
  induction slots generalizing first with
  | nil => simp
  | cons slot slots ih =>
    have hnext := ih slot.next
    simp only [interpolation, List.length_append, List.length_cons, openMark, List.length_nil]
    omega

namespace Interpolates
variable {first : Text} {slots : List Slot} {pieces : List Piece} {elements : Template}

/-- A variable takes no blanks away on either side. -/
theorem layout_slot (first name before after : Text) (pieces : List Piece) :
    layout .start
        (textPieces first ++ .tag (place (variableReading name) before after) :: pieces) =
      textPieces first ++
        .tag (place (variableReading name) before after) :: layout .start pieces := by
  cases first <;> rfl

theorem layout_eq (h : Interpolates first slots pieces elements) :
    layout .start pieces = pieces := by
  induction h with
  | last first => exact layout_textPieces first
  | slot first slot before after _ ih => rw [layout_slot, ih]

theorem build_variable (name before after : Text) (read : List Element) (pieces : List Piece) :
    build [] read (.tag (place (variableReading name) before after) :: pieces) =
      build [] (.value (positionAfter before) (.path (.ofName name)) :: read) pieces := rfl

theorem build_eq (h : Interpolates first slots pieces elements) (read : List Element) :
    build [] read pieces = .ok (read.reverse ++ elements) := by
  induction h generalizing read with
  | last first => exact build_textPieces first read
  | slot first slot before after _ ih =>
    rw [build_text, build_variable, ih]
    simp

end Interpolates

theorem parse_interpolation {first : Text} {slots : List Slot} (h : Interpolable first slots) :
    ∃ pieces elements, parse (interpolation first slots) = .ok elements ∧
      Interpolates first slots pieces elements := by
  have hfuel : slots.length < (interpolation first slots).length + 1 :=
    Nat.lt_succ_of_le (length_le_interpolation first slots)
  obtain ⟨pieces, elements, hpieces, hreads⟩ := piecesFrom?_interpolation h hfuel []
  refine ⟨pieces, elements, ?_, hreads⟩
  have hsource : pieces? (interpolation first slots) = some pieces := hpieces
  rw [parse, hsource]
  change build [] [] (layout .start pieces) = _
  rw [hreads.layout_eq, hreads.build_eq]
  rfl

/-! ## Writing -/

section
variable {helpers : HelperTable} {answers : Answers} {env : Environment}

theorem renderElements_variable {elements : Template} {name value text : Text}
    (position : Position) (hvalue : (renderPath helpers env (.ofName name)).run answers = .ok value)
    (h : (renderElements helpers elements env).run answers = .ok (env.give text)) :
    (renderElements helpers (.value position (.path (.ofName name)) :: elements) env).run answers =
      .ok (env.give (value ++ text)) := by
  have hfirst : (renderElement helpers (.value position (.path (.ofName name))) env).run answers =
      .ok (env.give value) := by
    rw [renderElement, Rendering.run_placedAt, Rendering.run_map, renderValue, hvalue]
    rfl
  calc (renderElements helpers (.value position (.path (.ofName name)) :: elements) env).run answers
    _ = Except.map env.give (do return (← Except.ok value) ++ (← Except.ok text)) :=
      run_andThen hfirst h
    _ = .ok (env.give (value ++ text)) := rfl

theorem Interpolates.render_eq {first : Text} {slots : List Slot} {pieces : List Piece}
    {elements : Template} {textOf : Text → Text} (h : Interpolates first slots pieces elements)
    (henv : env.indent = [])
    (hvalues : ∀ slot ∈ slots,
      (renderPath helpers env (.ofName slot.name)).run answers = .ok (textOf slot.name)) :
    (renderElements helpers elements env).run answers =
      .ok (env.give (filled textOf first slots)) := by
  induction h with
  | last first =>
    rw [renderElements_textElements henv]
    simp [filled]
  | slot first slot before after _ ih =>
    have hrest := ih fun slot' hslot => hvalues slot' (List.mem_cons_of_mem _ hslot)
    have hvalue := hvalues slot List.mem_cons_self
    rw [renderElements_text henv first (renderElements_variable _ hvalue hrest), filled_cons]

end

end Template

namespace Context

/-- The text that a variable stands for: its string, or nothing when it is not set. -/
def textOf (context : Context) (name : Text) : Text :=
  match context.get? name with
  | some (.string s) => s
  | _ => []

theorem textOf_congr {context other : Context} {name : Text}
    (h : other.get? name = context.get? name) : other.textOf name = context.textOf name := by
  rw [textOf, textOf, h]

end Context

namespace Engine
open Template

/-- The variable is a string, or it is not set and no helper stands in for it. -/
def HasText (engine : Engine) (context : Context) (name : Text) : Prop :=
  (∃ s, context.get? name = some (.string s)) ∨
    (context.get? name = none ∧ engine.helpers.lookup missingName = none)

theorem HasText.renderPath_eq {engine : Engine} {context : Context} {name : Text}
    (h : engine.HasText context name) (hhelper : engine.helpers.lookup name = none) :
    renderPath engine.helpers (.ofData context.toJson) (.ofName name) =
      pure (context.textOf name) := by
  have hlookup : engine.helpers.lookup (Path.ofName name).source = none := hhelper
  have hevaluate : (Path.ofName name).evaluate (.ofData context.toJson) =
      .ok (context.get? name) := evaluate_ofName context.bindings name
  rcases h with ⟨s, hs⟩ | ⟨hnone, hmissing⟩
  · rw [renderPath, hlookup, Context.textOf, hs]
    simp only [hevaluate, hs]
    exact congrArg pure (indented_empty s)
  · rw [renderPath, hlookup, Context.textOf, hnone]
    simp only [hevaluate, hnone, hmissing]

/-- Plain texts with variables between them are rendered to the texts with those of the variables in
their places, and no variable but these counts. -/
theorem render_interpolation {engine : Engine} {context : Context} {first : Text}
    {slots : List Slot} (hplaced : Interpolable first slots)
    (hhelpers : ∀ slot ∈ slots, engine.helpers.lookup slot.name = none)
    (hvalues : ∀ slot ∈ slots, engine.HasText context slot.name) :
    engine.render (interpolation first slots) context =
        .ok (filled context.textOf first slots) ∧
      ∀ other : Context, (∀ slot ∈ slots, other.get? slot.name = context.get? slot.name) →
        engine.render (interpolation first slots) other =
          engine.render (interpolation first slots) context := by
  obtain ⟨pieces, elements, hparse, hreads⟩ := parse_interpolation hplaced
  have hrender : ∀ context : Context, (∀ slot ∈ slots, engine.HasText context slot.name) →
      engine.render (interpolation first slots) context =
        .ok (filled context.textOf first slots) := by
    intro context hvalues
    have hslots : ∀ slot ∈ slots, (renderPath engine.helpers (.ofData context.toJson)
        (.ofName slot.name)).run engine.answers = .ok (context.textOf slot.name) := by
      intro slot hslot
      rw [(hvalues slot hslot).renderPath_eq (hhelpers slot hslot), Rendering.run_pure]
    rw [render_of_parse_ok engine _ context hparse, renderTemplate, Rendering.run_map,
      hreads.render_eq rfl hslots]
    rfl
  refine ⟨hrender context hvalues, fun other hsame => ?_⟩
  have hother : ∀ slot ∈ slots, engine.HasText other slot.name := by
    intro slot hslot
    rw [HasText, hsame slot hslot]
    exact hvalues slot hslot
  rw [hrender other hother, hrender context hvalues,
    filled_congr (fun slot hslot => Context.textOf_congr (hsame slot hslot))]

/-- A name that looks like a template is written as it is, and a title that is not set leaves its
place empty. -/
theorem render_interpolation_greeting :
    let slots : List Slot := [⟨"name".toList, ", ".toList⟩, ⟨"title".toList, "!\n".toList⟩]
    let context : Context := ⟨[("name".toList, .string "<b>\x7b\x7bx\x7d\x7d</b>".toList)]⟩
    Interpolable "Hello \x7d ".toList slots ∧
      (∀ slot ∈ slots, basic.helpers.lookup slot.name = none) ∧
      (∀ slot ∈ slots, basic.HasText context slot.name) ∧
      basic.render (interpolation "Hello \x7d ".toList slots) context =
        .ok "Hello \x7d <b>\x7b\x7bx\x7d\x7d</b>, !\n".toList := by
  intro slots context
  have hplaced : Interpolable "Hello \x7d ".toList slots := by decide
  have hhelpers : ∀ slot ∈ slots, basic.helpers.lookup slot.name = none := by decide
  have hvalues : ∀ slot ∈ slots, basic.HasText context slot.name := by
    intro slot hslot
    simp only [slots, List.mem_cons, List.not_mem_nil, or_false] at hslot
    rcases hslot with rfl | rfl
    · exact .inl ⟨_, rfl⟩
    · exact .inr ⟨rfl, rfl⟩
  exact ⟨hplaced, hhelpers, hvalues, (render_interpolation hplaced hhelpers hvalues).1⟩

/-- A helper that stands in for unknown names fills the place of a variable that is not set. -/
theorem render_interpolation_stand_in :
    let engine := basic.register missingName (.function fun _ => .ok (.string "X".toList))
    let slots : List Slot := [⟨"a".toList, []⟩]
    Interpolable [] slots ∧
      (∀ slot ∈ slots, engine.helpers.lookup slot.name = none ∧
        Context.empty.get? slot.name = none) ∧
      engine.render (interpolation [] slots) .empty = .ok "X".toList ∧
      engine.render (interpolation [] slots) .empty ≠ .ok (filled Context.empty.textOf [] slots) := by
  intro engine slots
  have hrender : engine.render (interpolation [] slots) .empty = .ok "X".toList := by
    decide +kernel
  refine ⟨by decide, by decide, hrender, ?_⟩
  rw [hrender]
  exact fun h => absurd (Except.ok.inj h) (by decide)

end Engine
end Stencil
