import Stencil.Program
import Stencil.Proofs.CommandLine.OutputOption
import Stencil.Proofs.FileTree.Writing

/-!
# Runs that do all or nothing

Main statement: a run that fails prints nothing and leaves the files as they are, and a run that
writes to a path leaves there what the same command prints without the option, and changes nothing
else. All reading comes before the one step that writes, so that the path may be one that was read.
-/

namespace Stencil.Program
open CommandLine Fallible

/-- The run has written the text to the path, printed nothing and changed nothing else. -/
structure Saves (tree : FileTree) (path text : Text) (outcome : Outcome) : Prop where
  succeeds : outcome.exitCode = 0
  silent : outcome.output = []
  holds : outcome.files.read path = .ok (Utf8.encode text)
  others : ∃ place, tree.target path = .ok place ∧
    ∀ other, other ≠ place → outcome.files.find? other = tree.find? other

theorem act_save {tree : FileTree} {path text : Text}
    (h : (act tree (.save path text)).exitCode = 0) :
    Saves tree path text (act tree (.save path text)) := by
  cases hwrite : tree.write path text with
  | error e => simp [act, hwrite, Outcome.failed] at h
  | ok tree' =>
    have hact : act tree (.save path text) = ⟨0, [], none, tree'⟩ := by rw [act, hwrite]
    rw [hact]
    exact ⟨rfl, rfl, FileTree.read_of_write hwrite, FileTree.find?_of_write hwrite⟩

/-- The action fails as a whole. -/
theorem act_fails {tree : FileTree} {action : Action} (h : (act tree action).exitCode ≠ 0) :
    (act tree action).output = [] ∧ (act tree action).files = tree := by
  cases action with
  | print text => exact absurd rfl h
  | save path text =>
    cases hwrite : tree.write path text with
    | error e => simp [act, hwrite, Outcome.failed]
    | ok tree' => exact absurd (by simp [act, hwrite]) h

section
variable {page : UsageError → Text} {now : Int} {tree : FileTree} {env : Environment}
  {words : List Text} {i : Invocation}

/-- The text that an invocation asks for, to be printed or written. -/
def textOf (now : Int) (files : Files) (env : Environment) (i : Invocation) :
    Except CommandError Text :=
  (Configuration.load files env i.config).bind fun config =>
    i.command.text (.standard now) files config.bindings

theorem execute_eq (files : Files) :
    execute now files env i = (textOf now files env i).map (action i.command) := by
  rw [execute, textOf]
  cases Configuration.load files env i.config with
  | error e => rfl
  | ok config =>
    cases htext : i.command.text (.standard now) files config.bindings <;>
      simp [htext, bind, pure, Except.bind, Except.pure, Except.map]

/-- Where a document is written to does not count for its text. -/
theorem textOf_resolve {i' : Invocation} {document : Text} {source : ContextSource}
    {output output' : Option Text} {format : DocumentFormat} (hconfig : i'.config = i.config)
    (hcommand : i.command = .resolve document source output format)
    (hcommand' : i'.command = .resolve document source output' format) (files : Files) :
    textOf now files env i' = textOf now files env i := by
  rw [textOf, textOf, hconfig, hcommand, hcommand']
  rfl

theorem run_of_parse (h : parse words = .ok i) :
    run page now tree env words =
      match textOf now tree.files env i with
      | .ok text => act tree (action i.command text)
      | .error e => .failed tree e := by
  have hplan : plan now tree.files env words =
      ((textOf now tree.files env i).map (action i.command)).mapError .command := by
    rw [plan, h, ← execute_eq]
    rfl
  rw [run, hplan]
  cases textOf now tree.files env i <;> rfl

theorem run_of_refused {e : UsageError} (h : parse words = .error e) :
    run page now tree env words =
      ⟨e.exitCode, if e.exitCode = 0 then page e else [], none, tree⟩ := by
  rw [run, plan, h]
  rfl

theorem run_fails (h : (run page now tree env words).exitCode ≠ 0) :
    (run page now tree env words).output = [] ∧ (run page now tree env words).files = tree := by
  cases hparse : parse words with
  | error e =>
    rw [run_of_refused hparse] at h ⊢
    exact ⟨if_neg h, rfl⟩
  | ok i =>
    rw [run_of_parse hparse] at h ⊢
    cases htext : textOf now tree.files env i with
    | error e => exact ⟨rfl, rfl⟩
    | ok text =>
      rw [htext] at h
      exact act_fails h

theorem run_files (h : ∀ i, parse words = .ok i → i.command.output? = none) :
    (run page now tree env words).files = tree := by
  cases hparse : parse words with
  | error e => rw [run_of_refused hparse]
  | ok i =>
    rw [run_of_parse hparse]
    cases htext : textOf now tree.files env i with
    | error e => rfl
    | ok text =>
      simp only [action, h i hparse]
      rfl

theorem run_saves {document path : Text} {source : ContextSource} {format : DocumentFormat}
    (hparse : parse words = .ok i)
    (hcommand : i.command = .resolve document source (some path) format)
    (hsucceeds : (run page now tree env words).exitCode = 0) :
    ∃ text, textOf now tree.files env i = .ok text ∧
      Saves tree path text (run page now tree env words) := by
  rw [run_of_parse hparse] at hsucceeds ⊢
  cases htext : textOf now tree.files env i with
  | error e => simp [htext, Outcome.failed] at hsucceeds
  | ok text =>
    have haction : action i.command text = .save path text := by rw [hcommand]; rfl
    simp only [htext, haction] at hsucceeds ⊢
    exact ⟨text, rfl, act_save hsucceeds⟩

theorem run_prints {text : Text} (hparse : parse words = .ok i) (hprints : i.command.output? = none)
    (htext : textOf now tree.files env i = .ok text) :
    run page now tree env words = ⟨0, text, none, tree⟩ := by
  rw [run_of_parse hparse, htext]
  simp only [action, hprints, act]

end

/-- All or nothing. The last part takes the option for an output out of the command line, the part
before it compares any two command lines that ask for the same. -/
theorem run_all_or_nothing (page : UsageError → Text) (now : Int) (tree : FileTree)
    (env : Environment) (words : List Text) :
    ((run page now tree env words).exitCode ≠ 0 →
      (run page now tree env words).output = [] ∧ (run page now tree env words).files = tree) ∧
    ((∀ i, parse words = .ok i → i.command.output? = none) →
      (run page now tree env words).files = tree) ∧
    (∀ i document source path format, parse words = .ok i →
      i.command = .resolve document source (some path) format →
      (run page now tree env words).exitCode = 0 →
      ∃ text, Saves tree path text (run page now tree env words) ∧
        ∀ words' i', parse words' = .ok i' → i'.config = i.config →
          i'.command = .resolve document source none format →
          run page now tree env words' = ⟨0, text, none, tree⟩) ∧
    ∀ before option path after i, option ∈ outputOptions → words = before ++ option :: path :: after →
      parse words = .ok i → (run page now tree env words).exitCode = 0 →
      ∃ text, Saves tree path text (run page now tree env words) ∧
        run page now tree env (before ++ after) = ⟨0, text, none, tree⟩ := by
  have hsaves : ∀ i document source path format, parse words = .ok i →
      i.command = .resolve document source (some path) format →
      (run page now tree env words).exitCode = 0 →
      ∃ text, Saves tree path text (run page now tree env words) ∧
        ∀ words' i', parse words' = .ok i' → i'.config = i.config →
          i'.command = .resolve document source none format →
          run page now tree env words' = ⟨0, text, none, tree⟩ := by
    intro i document source path format hparse hcommand hsucceeds
    obtain ⟨text, htext, hsaved⟩ := run_saves hparse hcommand hsucceeds
    refine ⟨text, hsaved, fun words' i' hparse' hconfig hcommand' => ?_⟩
    have hsame : textOf now tree.files env i' = textOf now tree.files env i :=
      textOf_resolve hconfig hcommand hcommand' tree.files
    exact run_prints hparse' (by rw [hcommand']; rfl) (hsame.trans htext)
  refine ⟨run_fails, run_files, hsaves, ?_⟩
  rintro before option path after i hoption rfl hparse hsucceeds
  obtain ⟨document, source, format, hcommand, hparse'⟩ := parse_dropOutput hoption hparse
  obtain ⟨text, hsaved, hprinted⟩ := hsaves i document source path format hparse hcommand hsucceeds
  exact ⟨text, hsaved, hprinted _ _ hparse' rfl rfl⟩

/-- The document itself is written, by another path. -/
theorem run_all_or_nothing_in_place :
    let tree := FileTree.ofList
      [("d".toList, .file (Utf8.encode "k: '\x7b\x7bv\x7d\x7d'\n".toList))]
    let before : List Text := ["resolve".toList, "-V".toList, "v=1".toList]
    let words : List Text := before ++ "-o".toList :: "./d".toList :: ["d".toList]
    let outcome := run (fun _ => []) 0 tree ⟨none, none, none⟩
    (∃ i, parse words = .ok i) ∧ (outcome words).exitCode = 0 ∧
      Saves tree "./d".toList "k: '1'\n".toList (outcome words) := by
  intro tree before words outcome
  have hparse : (parse words).toOption.isSome = true := by decide +kernel
  obtain ⟨i, hi⟩ : ∃ i, parse words = .ok i := by
    cases h : parse words with
    | error e => simp [h, Except.toOption] at hparse
    | ok i => exact ⟨i, rfl⟩
  have hsucceeds : (outcome words).exitCode = 0 := by decide +kernel
  obtain ⟨-, -, -, hdropped⟩ := run_all_or_nothing (fun _ => []) 0 tree ⟨none, none, none⟩ words
  obtain ⟨text, hsaves, hprinted⟩ :=
    hdropped before "-o".toList "./d".toList ["d".toList] i (by decide +kernel) rfl hi hsucceeds
  have houtput : (outcome (before ++ ["d".toList])).output = "k: '1'\n".toList := by
    decide +kernel
  have htext : text = "k: '1'\n".toList := (congrArg Outcome.output hprinted).symm.trans houtput
  exact ⟨⟨i, hi⟩, hsucceeds, htext ▸ hsaves⟩

end Stencil.Program
