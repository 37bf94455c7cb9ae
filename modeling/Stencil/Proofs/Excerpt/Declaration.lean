import Mathlib.Data.List.Infix
import Stencil.Excerpt
import Stencil.Proofs.Text.Fields
import Stencil.Proofs.Text.Occurrence

/-!
# Documents without their declaration

What is taken off the front of a document is told by its opening mark alone, so that it may be any
instruction whose name begins like that of a declaration. Main statement: a pass takes off what
stands in front up to the first closing mark; a second pass changes nothing exactly when no other
such instruction comes to stand in front.
-/

namespace Stencil.Excerpt
variable {t inside rest : Text}

/-- A text with an instruction in front that begins like a declaration, and what follows the first
mark that closes it. -/
inductive Declares : (t rest : Text) → Prop
  | mk {inside rest : Text} (h : ¬declarationClose <:+: inside) :
    Declares (declarationOpen ++ (inside ++ (declarationClose ++ rest))) rest

/-! ## What stands in front -/

theorem declarationOpen_eq : declarationOpen = ['<', '?', 'x', 'm', 'l'] := rfl

theorem declarationClose_eq : declarationClose = ['?', '>'] := rfl

/-- The closing mark neither stands in the opening mark nor begins there. -/
theorem not_close_infix_open (h : ¬declarationClose <:+: inside) :
    ¬declarationClose <:+: declarationOpen ++ inside := by
  simpa [declarationOpen_eq, declarationClose_eq, List.infix_cons_iff] using h

theorem open_prefix_of_append {before : Text}
    (h : declarationOpen <+: before ++ (declarationClose ++ rest)) :
    declarationOpen <+: before := by
  rcases List.prefix_or_prefix_of_prefix h (List.prefix_append _ _) with hopen | hbefore
  · exact hopen
  · -- In front of a shorter text than the opening mark, the closing mark would begin inside it.
    have hinits := (List.mem_inits _ _).mpr hbefore
    rw [declarationOpen_eq] at hinits
    simp only [List.inits, List.map_cons, List.map_nil, List.mem_cons, List.not_mem_nil,
      or_false] at hinits
    rcases hinits with rfl | rfl | rfl | rfl | rfl | rfl
    all_goals simp [declarationOpen_eq, declarationClose_eq] at h ⊢

theorem declares_iff :
    Declares t rest ↔ declarationOpen <+: t ∧
      ∃ before, Text.splitFirst? declarationClose t = some (before, rest) := by
  have hsplit {before : Text} : Text.splitFirst? declarationClose t = some (before, rest) ↔
      t = before ++ (declarationClose ++ rest) ∧ ¬declarationClose <:+: before :=
    Text.splitFirst?_pair_eq_some_iff (by decide)
  constructor
  · rintro ⟨hinside⟩
    refine ⟨List.prefix_append _ _, _, hsplit.mpr ⟨(List.append_assoc _ _ _).symm, ?_⟩⟩
    exact not_close_infix_open hinside
  · rintro ⟨hopen, before, h⟩
    obtain ⟨rfl, hbefore⟩ := hsplit.mp h
    obtain ⟨inside, rfl⟩ := open_prefix_of_append hopen
    rw [List.append_assoc]
    exact .mk fun hinside => hbefore (hinside.trans (List.suffix_append _ _).isInfix)

theorem Declares.length_lt (h : Declares t rest) : rest.length < t.length := by
  cases h with
  | mk h =>
    simp only [List.length_append, declarationOpen_eq, List.length_cons]
    omega

/-! ## One pass -/

theorem stripDeclaration_of_declares (h : Declares (Text.trim t) rest) :
    stripDeclaration t = Text.trim rest := by
  obtain ⟨hopen, before, hsplit⟩ := declares_iff.mp h
  unfold stripDeclaration
  dsimp only
  rw [if_pos ((Text.startsWith_iff _ _).mpr hopen), hsplit]

theorem stripDeclaration_of_not_declares (h : ∀ rest, ¬Declares (Text.trim t) rest) :
    stripDeclaration t = Text.trim t := by
  unfold stripDeclaration
  dsimp only
  split
  · next hopen =>
    cases hsplit : Text.splitFirst? declarationClose (Text.trim t) with
    | none => rfl
    | some parts =>
      have hdeclares := declares_iff.mpr ⟨(Text.startsWith_iff _ _).mp hopen, parts.1, hsplit⟩
      exact absurd hdeclares (h parts.2)
  · rfl

theorem trim_stripDeclaration (t : Text) :
    Text.trim (stripDeclaration t) = stripDeclaration t := by
  by_cases h : ∃ rest, Declares (Text.trim t) rest
  · obtain ⟨rest, h⟩ := h
    rw [stripDeclaration_of_declares h, Text.trim_trim]
  · rw [stripDeclaration_of_not_declares (not_exists.mp h), Text.trim_trim]

/-! ## Two passes -/

/-- A pass that takes something off leaves a shorter text. -/
theorem stripDeclaration_eq_self_iff (h : Text.trim t = t) :
    stripDeclaration t = t ↔ ∀ rest, ¬Declares t rest := by
  constructor
  · intro hsame rest hdeclares
    have hrest : Text.trim rest = t := by
      rw [← stripDeclaration_of_declares (h.symm ▸ hdeclares), hsame]
    have hle := Text.length_trim_le rest
    have hlt := hdeclares.length_lt
    rw [hrest] at hle
    omega
  · intro hnone
    rw [stripDeclaration_of_not_declares (by rwa [h]), h]

/-- A pass takes off the instruction in front that begins like a declaration, up to the first mark
that closes it, and the blanks around what follows; without one it takes off the blanks alone. A
second pass changes nothing exactly when no such instruction stands in front then, and so when what
follows the declaration begins otherwise. -/
theorem stripDeclaration_again (t : Text) :
    (∀ rest, Declares (Text.trim t) rest → stripDeclaration t = Text.trim rest) ∧
    ((∀ rest, ¬Declares (Text.trim t) rest) → stripDeclaration t = Text.trim t) ∧
    (stripDeclaration (stripDeclaration t) = stripDeclaration t ↔
      ∀ rest, ¬Declares (stripDeclaration t) rest) ∧
    ∀ rest, Declares (Text.trim t) rest → ¬declarationOpen <+: Text.trim rest →
      stripDeclaration (stripDeclaration t) = Text.trim rest := by
  have hagain := stripDeclaration_eq_self_iff (trim_stripDeclaration t)
  refine ⟨fun rest => stripDeclaration_of_declares, stripDeclaration_of_not_declares, hagain, ?_⟩
  intro rest hdeclares hopen
  have honce := stripDeclaration_of_declares hdeclares
  rw [hagain.mpr, honce]
  intro further hfurther
  rw [honce] at hfurther
  exact hopen (declares_iff.mp hfurther).1

/-- An instruction of another name after the declaration is kept. -/
theorem stripDeclaration_again_instruction :
    let t : Text := " <?xml version=\"1.0\"?>\n<?sort up?><a/>\n".toList
    let rest : Text := "\n<?sort up?><a/>".toList
    Declares (Text.trim t) rest ∧ ¬declarationOpen <+: Text.trim rest ∧
      stripDeclaration (stripDeclaration t) = "<?sort up?><a/>".toList := by
  intro t rest
  have hdeclares : Declares (Text.trim t) rest :=
    declares_iff.mpr ⟨⟨" version=\"1.0\"?>\n<?sort up?><a/>".toList, rfl⟩,
      "<?xml version=\"1.0\"".toList, rfl⟩
  have hopen : ¬declarationOpen <+: Text.trim rest := by
    rw [← Text.startsWith_iff]
    decide
  exact ⟨hdeclares, hopen, (stripDeclaration_again t).2.2.2 rest hdeclares hopen⟩

/-- An instruction whose name begins like that of a declaration is kept by the first pass and taken
off by the second. -/
theorem stripDeclaration_again_stylesheet :
    let t : Text := "<?xml version=\"1.0\"?><?xml-stylesheet href=\"a.css\"?><a/>".toList
    stripDeclaration t = "<?xml-stylesheet href=\"a.css\"?><a/>".toList ∧
      stripDeclaration (stripDeclaration t) = "<a/>".toList ∧
      ¬∀ x, stripDeclaration (stripDeclaration x) = stripDeclaration x := by
  intro t
  have honce : stripDeclaration t = "<?xml-stylesheet href=\"a.css\"?><a/>".toList := by decide
  have htwice : stripDeclaration (stripDeclaration t) = "<a/>".toList := by decide
  refine ⟨honce, htwice, fun h => ?_⟩
  rw [h t, honce] at htwice
  exact absurd htwice (by decide)

end Stencil.Excerpt
