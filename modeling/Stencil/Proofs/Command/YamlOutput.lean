import Stencil.Proofs.Command.ResolvedMapping
import Stencil.Proofs.Context.Layers
import Stencil.Proofs.Yaml.BlockValues

/-!
# YAML output read back

Main statement: where a document is resolved to YAML, the text that is printed is the resolved
mapping again, whether a file with that text is read as a document or as a context.
-/

namespace Stencil.Command
open Fallible

theorem readMapping_of_parse? {files : Files} {path t : Text} {members : Members}
    (hread : files.readText path = .ok t) (hparse : Yaml.parse? t = some (.object members)) :
    readMapping files path = .ok members := by
  refine bind_eq_ok_iff.mpr ⟨t, mapError_eq_ok_iff.mpr hread, ?_⟩
  rw [hparse]
  rfl

/-- Resolved to YAML, a document is printed as a text that is the resolved mapping again, with its
names in order, its values of the same kinds and its strings unchanged. A file with that text is
that document and that context. -/
theorem resolveFile_yaml_read_back {engine : Engine} {files : Files} {bindings : Members}
    {document : Text} {source : ContextSource} {t : Text}
    (h : resolveFile engine files bindings document source .yaml = .ok t) :
    ∃ members, resolveMapping engine files bindings document source = .ok members ∧
      ((Json.object members).Integral →
        Yaml.parse? t = some (.object members) ∧
        ∀ (files' : Files) (path : Text), files'.readText path = .ok t →
          Context.load files' path = .ok ⟨members⟩ ∧
          readMapping files' path = .ok members) := by
  obtain ⟨members, hmembers, rfl⟩ := map_eq_ok_iff.mp h
  refine ⟨members, hmembers, fun hintegral => ?_⟩
  obtain ⟨hnamed, hnested⟩ := shaped_of_resolveMapping hmembers
  have hparse := Yaml.parse?_print hintegral hnamed hnested
  exact ⟨hparse, fun files' path hread =>
    ⟨Context.load_of_parse? hread hparse, readMapping_of_parse? hread hparse⟩⟩

/-- A text that looks like a number, a name over two lines, and a text of several lines with a
blank at its start are read back in their places. -/
theorem resolveFile_yaml_read_back_styles :
    let files : Files := (FileTree.ofList [("f".toList, .file (Utf8.encode
      ("a: '\x7b\x7bn\x7d\x7d'\n" ++ "b: [-7, '~', \x7b\x7d]\n" ++
        "? \"k\\rl\"\n: \" x\\n\\ny\\n\"\n").toList))]).files
    let source : ContextSource := ⟨none, ["n=12".toList]⟩
    let t := ("a: '12'\n" ++ "b:\n- -7\n- '~'\n- \x7b\x7d\n" ++
      "? \"k\\rl\"\n: |2\n   x\n\n  y\n").toList
    let written : Files := (FileTree.ofList [("g".toList, .file (Utf8.encode t))]).files
    let out : Members := [("a".toList, .string "12".toList),
      ("b".toList, .array [.number (.integer (-7) (by decide)), .string ['~'], .object []]),
      ("k\rl".toList, .string " x\n\ny\n".toList)]
    resolveFile .basic files [] "f".toList source .yaml = .ok t ∧
      (Json.object out).Integral ∧
      Context.load written "g".toList = .ok ⟨out⟩ := by
  intro files source t written out
  have h : resolveFile .basic files [] "f".toList source .yaml = .ok t := by decide +kernel
  have hintegral : (Json.object out).Integral := by
    have hitems : ∀ v ∈ [Json.number (.integer (-7) (by decide)), .string ['~'], .object []],
        v.Integral := by
      simp [Json.Integral.integer, Json.Integral.string, Json.Integral.object]
    simp [out, Json.Integral.object, Json.Integral.array hitems, Json.Integral.string]
  obtain ⟨members, hmembers, hread⟩ := resolveFile_yaml_read_back h
  have hout : resolveMapping .basic files [] "f".toList source = .ok out := by decide +kernel
  obtain rfl : members = out := Except.ok.inj (hmembers.symm.trans hout)
  have hwritten : written.readText "g".toList = .ok t := by decide +kernel
  exact ⟨h, hintegral, ((hread hintegral).2 written "g".toList hwritten).1⟩

end Stencil.Command
