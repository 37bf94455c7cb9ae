import Stencil.Proofs.Command.ResolvedMapping
import Stencil.Proofs.Json.IndentedText

/-!
# JSON output read back

Main statement: where a document is resolved to JSON, the text that is printed ends in one line
break, and as JSON it is the resolved mapping again.
-/

namespace Stencil.Command

theorem getLast?_printIndented_object (members : Members) :
    (Json.printIndented 0 (.object members)).getLast? = some '\x7d' := by
  cases members with
  | nil => rfl
  | cons m members => simp [Json.printIndented, List.getLast?_cons]

/-- Resolved to JSON, a document is printed with one line break at the end. The text is the mapping
again, with its names in order and its numbers unchanged, to every reader of JSON that allows the
nesting of the mapping, and so to each one that allows as much as documents may have. -/
theorem resolveFile_json_read_back {engine : Engine} {files : Files} {bindings : Members}
    {document : Text} {source : ContextSource} {t : Text}
    (h : resolveFile engine files bindings document source .json = .ok t) :
    ∃ members, resolveMapping engine files bindings document source = .ok members ∧
      (∃ body, t = body ++ ['\n'] ∧ body.getLast? = some '\x7d') ∧
      ((Json.object members).Integral →
        Json.parseWithin? Yaml.Document.nestingLimit t = some (.object members) ∧
        ∀ depth, Json.parseWithin? depth t = some (.object members) ↔
          (Json.object members).NestedWithin depth) := by
  obtain ⟨members, hmembers, rfl⟩ := Fallible.map_eq_ok_iff.mp h
  refine ⟨members, hmembers, ⟨_, rfl, getLast?_printIndented_object members⟩, fun hintegral => ?_⟩
  obtain ⟨hnamed, hnested⟩ := shaped_of_resolveMapping hmembers
  have hread := Json.parseWithin?_printIndented_iff hintegral hnamed
  exact ⟨(hread _).mpr hnested, hread⟩

/-- The largest integer, an empty object and an escaped text are read back in their places. -/
theorem resolveFile_json_read_back_nested :
    let files : Files := (FileTree.ofList [("f".toList, .file (Utf8.encode
      "a: [18446744073709551615, \x7b\x7d]\nz: '\x7b\x7bn\x7d\x7d'\n".toList))]).files
    let source : ContextSource := ⟨none, ["n=\"".toList]⟩
    let t := ("\x7b\n  \"a\": [\n    18446744073709551615,\n    \x7b\x7d\n  ],\n" ++
      "  \"z\": \"\\\"\"\n\x7d\n").toList
    let out : Members := [("a".toList,
      .array [.number (.integer 18446744073709551615 (by decide)), .object []]),
      ("z".toList, .string ['"'])]
    resolveFile .basic files [] "f".toList source .json = .ok t ∧
      (Json.object out).Integral ∧
      Json.parseWithin? Yaml.Document.nestingLimit t = some (.object out) := by
  intro files source t out
  have h : resolveFile .basic files [] "f".toList source .json = .ok t := by decide +kernel
  have hintegral : (Json.object out).Integral := by
    have hitems : ∀ v ∈ [Json.number (.integer 18446744073709551615 (by decide)), .object []],
        v.Integral := by
      simp [Json.Integral.integer, Json.Integral.object]
    simp [out, Json.Integral.object, Json.Integral.array hitems, Json.Integral.string]
  obtain ⟨members, hmembers, -, hread⟩ := resolveFile_json_read_back h
  have hout : resolveMapping .basic files [] "f".toList source = .ok out := by decide +kernel
  obtain rfl : members = out := Except.ok.inj (hmembers.symm.trans hout)
  exact ⟨h, hintegral, (hread hintegral).1⟩

end Stencil.Command
