import Stencil.Proofs.Context.Layers
import Stencil.Proofs.Yaml.FlowValues

/-!
# JSON files as contexts

A file of variables is read as YAML, also when it is JSON. Main statement: a JSON object is read as
a reader of JSON would read it, when it is written in a way that the two formats share. Legal JSON
that is written otherwise can be refused.
-/

namespace Stencil

theorem Json.NestedWithin.mono {depth depth' : Nat} {v : Json} (h : v.NestedWithin depth)
    (hle : depth ≤ depth') : v.NestedWithin depth' := by
  induction h generalizing depth' with
  | null depth => exact .null depth'
  | bool depth b => exact .bool depth' b
  | number depth n => exact .number depth' n
  | string depth s => exact .string depth' s
  | array _ ih =>
    obtain ⟨depth', rfl⟩ := Nat.exists_eq_succ_of_ne_zero (n := depth') (by omega)
    exact .array fun v hv => ih v hv (Nat.le_of_succ_le_succ hle)
  | object _ ih =>
    obtain ⟨depth', rfl⟩ := Nat.exists_eq_succ_of_ne_zero (n := depth') (by omega)
    exact .object fun m hm => ih m hm (Nat.le_of_succ_le_succ hle)

namespace Context

/-- A JSON object of integers, in a text that JSON and YAML share and nested as deep as JSON may be,
loads as the object that a reader of JSON makes of the text. -/
theorem load_of_shared_json {files : Files} {path t : Text} {members : Members}
    (hread : files.readText path = .ok t) (h : Yaml.SharedText members t)
    (hdepth : (Json.object members).NestedWithin Json.nestingLimit) :
    ∃ out, Json.parse? t = some (.object out) ∧ load files path = .ok ⟨out⟩ ∧
      (Json.object members).settled = .object out := by
  have hparse := Yaml.parse?_shared h (hdepth.mono (by decide))
  exact ⟨_, h.writes.parseWithin? hdepth, load_of_parse? hread hparse, rfl⟩

/-- A line that starts with a tab, a blank before a colon and one after a number, two escapes, and a
name that is written twice. -/
theorem load_of_shared_json_escapes :
    let t := ("\n\x7b\"\\u0061\":\"x\",\"b\"\t:\n\t" ++
      "[-7 ,\x7b\x7d],\"a\":\"\\/\"\x7d\t").toList
    let files : Files := (FileTree.ofList [("c.json".toList, .file (Utf8.encode t))]).files
    let list : Json := .array [.number (.integer (-7) (by decide)), .object []]
    let written : Members :=
      [("a".toList, .string ['x']), ("b".toList, list), ("a".toList, .string ['/'])]
    let out : Members := [("a".toList, .string ['/']), ("b".toList, list)]
    files.readText "c.json".toList = .ok t ∧ Yaml.SharedText written t ∧
      (Json.object written).NestedWithin Json.nestingLimit ∧
      Json.parse? t = some (.object out) ∧ load files "c.json".toList = .ok ⟨out⟩ := by
  intro t files list written out
  have hread : files.readText "c.json".toList = .ok t := by decide +kernel
  have htab : Json.IsBlank ['\t'] := List.forall_mem_singleton.mpr rfl
  have hbreak : Json.IsBlank ['\n'] := List.forall_mem_singleton.mpr rfl
  have hspace : Json.IsBlank [' '] := List.forall_mem_singleton.mpr rfl
  have hraw (c : Char) (hcode : 32 ≤ c.toNat ∧ c ≠ '"' ∧ c ≠ '\\')
      (h : Yaml.isAllowed c = true ∧ Yaml.isBreak c = false) :
      Spelled Yaml.sharedSpelling.code [c] ([c] ++ []) :=
    .cons ⟨.raw hcode.1 hcode.2.1 hcode.2.2, by rwa [if_pos rfl]⟩ .nil
  have hdigits : Yaml.sharedSpelling.code 'a' ('\\' :: 'u' :: "0061".toList) :=
    ⟨.digits rfl, by decide⟩
  have hletter : Yaml.sharedSpelling.code '/' ['\\', '/'] := ⟨.letter rfl, by decide⟩
  have hgap : Yaml.sharedSpelling.gap ['b'] ['\t'] := ⟨htab, rfl, by decide⟩
  have hnone (code : Text) (h : code.length + 2 ≤ 1024) : Yaml.sharedSpelling.gap code [] :=
    ⟨Json.isBlank_nil, rfl, h⟩
  have hstring {s code : Text} (h : Spelled Yaml.sharedSpelling.code s code) (r : Text) :
      Json.Starts Yaml.sharedSpelling (.element (.string s)) ('"' :: (code ++ '"' :: r)) r :=
    .element Json.isBlank_nil (.string h ([] ++ r)) Json.isBlank_nil
  have hlist (r : Text) : Json.Starts Yaml.sharedSpelling (.element list) _ r :=
    .element (hbreak.append htab)
      (.array (.elements (.element Json.isBlank_nil (.integer (-7) _ _) hspace)
        (.lastElement (.element Json.isBlank_nil
          (.emptyObject Json.isBlank_nil ([] ++ ']' :: ([] ++ r))) Json.isBlank_nil))))
      Json.isBlank_nil
  have hmembers : Json.Starts Yaml.sharedSpelling (.members written) _ ('\x7d' :: ['\t']) :=
    .members
      (.member Json.isBlank_nil (.cons hdigits .nil) (hnone _ (by decide))
        (hstring (hraw 'x' (by decide) ⟨rfl, rfl⟩) _))
      (.members (.member Json.isBlank_nil (hraw 'b' (by decide) ⟨rfl, rfl⟩) hgap (hlist _))
        (.lastMember (.member Json.isBlank_nil (hraw 'a' (by decide) ⟨rfl, rfl⟩)
          (hnone _ (by decide)) (hstring (.cons hletter .nil) _))))
  have hwritten : ∃ u, u = t ∧ Yaml.SharedText written u := by
    refine ⟨_, ?_, .intro hbreak (by decide) (.object hmembers) htab rfl Json.isBlank_nil ?_⟩
    · rfl
    · decide
  obtain ⟨_, rfl, hshared⟩ := hwritten
  have hdepth : (Json.object written).NestedWithin Json.nestingLimit := by
    have hlist : list.NestedWithin 2 :=
      .array (by simp [Json.NestedWithin.number, Json.NestedWithin.object])
    have hobject : (Json.object written).NestedWithin 3 :=
      .object (by simp [written, hlist, Json.NestedWithin.string])
    exact hobject.mono (by decide)
  obtain ⟨members, hparse, hload, hsettled⟩ := load_of_shared_json hread hshared hdepth
  have hout : (Json.object written).settled = .object out := by decide +kernel
  obtain rfl : members = out := Json.object.inj (hsettled.symm.trans hout)
  exact ⟨hread, hshared, hdepth, hparse, hload⟩

/-- A string with a character that JSON writes as two escapes. -/
theorem load_surrogate_pair :
    let t := "\x7b\"a\":\"\\ud83d\\ude00\"\x7d".toList
    let files : Files := (FileTree.ofList [("c.json".toList, .file (Utf8.encode t))]).files
    let v : Json := .object [("a".toList, .string [Char.ofNat 0x1F600])]
    Json.Writes .standard v t ∧ Json.parse? t = some v ∧
      load files "c.json".toList = .error .invalidYaml := by
  intro t files v
  have hpair : Json.CharCode (Char.ofNat 0x1F600)
      ('\\' :: 'u' :: ("d83d".toList ++ '\\' :: 'u' :: "de00".toList)) :=
    .pair (m := 0xD83D) (n := 0xDE00) rfl rfl (by decide) (by decide) (by decide)
  have hname : Json.CharCode 'a' ['a'] := .raw (by decide) (by decide) (by decide)
  have hobject : Json.Starts .standard (.value v) _ ([] ++ []) :=
    .object (.lastMember (.member Json.isBlank_nil (.cons hname .nil) Json.isBlank_nil
      (.element Json.isBlank_nil (.string (.cons hpair .nil) ([] ++ _)) Json.isBlank_nil)))
  have hwritten : ∃ u, u = t ∧ Json.Writes .standard v u := by
    refine ⟨_, ?_, .element Json.isBlank_nil hobject Json.isBlank_nil⟩
    rfl
  obtain ⟨_, rfl, hwrites⟩ := hwritten
  exact ⟨hwrites, by decide +kernel, by decide +kernel⟩

end Context
end Stencil
