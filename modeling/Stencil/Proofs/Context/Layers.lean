import Stencil.Proofs.Traversal
import Stencil.Proofs.Yaml.DistinctNames

/-!
# Layers of a context

The context of a command has three layers: given variables, a file, and assignments. Main
statement: it is there exactly when the file can be loaded and every assignment has an equals sign,
the last layer that has a name gives its value, and each layer adds its new names at the end.
-/

namespace Stencil

theorem Text.splitOnce?_eq (separator : Char) (t : Text) :
    splitOnce? separator t =
      if separator ∈ t then
        some (t.takeWhile (· ≠ separator), (t.dropWhile (· ≠ separator)).tail)
      else none := by
  induction t with
  | nil => rfl
  | cons c t ih =>
    by_cases hc : c = separator
    · simp [splitOnce?, hc]
    · have hne : ¬separator = c := fun h => hc h.symm
      by_cases hmem : separator ∈ t <;> simp [splitOnce?, hc, hne, ih, hmem]

/-- What stands before the first equals sign. -/
def assignedName (t : Text) : Text := t.takeWhile (· ≠ '=')

/-- What stands after the first equals sign. -/
def assignedValue (t : Text) : Text := (t.dropWhile (· ≠ '=')).tail

theorem parseAssignment_eq (t : Text) :
    parseAssignment t =
      if '=' ∈ t then .ok (assignedName t, assignedValue t) else .error (.invalidVariable t) := by
  rw [parseAssignment, Text.splitOnce?_eq]
  by_cases h : '=' ∈ t
  · simp only [if_pos h, assignedName, assignedValue]
  · simp only [if_neg h]

theorem parseAssignments_eq_ok {texts : List Text} (h : ∀ t ∈ texts, '=' ∈ t) :
    parseAssignments texts = .ok (texts.map fun t => (assignedName t, assignedValue t)) :=
  Traversal.mapM_eq_ok fun t ht => by rw [parseAssignment_eq, if_pos (h t ht)]

theorem parseAssignments_eq_error {before after : List Text} {t : Text}
    (hbefore : ∀ u ∈ before, '=' ∈ u) (ht : '=' ∉ t) :
    parseAssignments (before ++ t :: after) = .error (.invalidVariable t) :=
  Traversal.mapM_eq_error
    (fun u hu => ⟨(assignedName u, assignedValue u), by rw [parseAssignment_eq, if_pos (hbefore u hu)]⟩)
    (by rw [parseAssignment_eq, if_neg ht])

theorem parseAssignments_ok_iff {texts : List Text} :
    (∃ assigned, parseAssignments texts = .ok assigned) ↔ ∀ t ∈ texts, '=' ∈ t := by
  rw [parseAssignments, Traversal.mapM_ok_iff]
  refine forall₂_congr fun t _ => ?_
  rw [parseAssignment_eq]
  split <;> simp [*]

namespace Context

theorem load_of_parse? {files : Files} {path t : Text} {members : Members}
    (hread : files.readText path = .ok t) (hparse : Yaml.parse? t = some (.object members)) :
    load files path = .ok ⟨members⟩ := by
  refine Fallible.bind_eq_ok_iff.mpr ⟨t, Fallible.mapError_eq_ok_iff.mpr hread, ?_⟩
  rw [hparse]
  rfl

/-- What the file adds: its variables, or none without a file. -/
def loadLayer (files : Files) : Option Text → Except CommandError Context
  | some path => (load files path).mapError (.contextFailed path)
  | none => .ok empty

theorem layered_eq (files : Files) (bindings : Members) (path : Option Text)
    (assignments : List Text) :
    layered files bindings path assignments =
      (loadLayer files path).bind fun loaded =>
        (parseAssignments assignments).map fun assigned =>
          ((⟨bindings⟩ : Context).extend loaded.bindings).extend
            (assigned.map fun (name, value) => (name, .string value)) := by
  cases path with
  | none =>
    cases hassigned : parseAssignments assignments <;>
      simp [layered, loadLayer, hassigned, bind, pure, Except.bind, Except.pure, Except.map]
  | some path =>
    cases hload : load files path <;> cases hassigned : parseAssignments assignments <;>
      simp [layered, loadLayer, hload, hassigned, bind, pure, Except.bind, Except.pure, Except.map,
        Except.mapError]

theorem loadLayer_nodup {files : Files} {path : Option Text} {c : Context}
    (h : loadLayer files path = .ok c) : (Members.names c.bindings).Nodup := by
  cases path with
  | none =>
    cases h
    exact List.nodup_nil
  | some path => exact nodup_of_load (Fallible.mapError_eq_ok_iff.mp h)

/-- The value of the last assignment to the name, as a text. -/
def assigned? (assignments : List Text) (name : Text) : Option Json :=
  (assignments.reverse.find? (assignedName · = name)).map fun t => .string (assignedValue t)

/-- The members that assignments set, in their order. -/
def assignedMembers (assignments : List Text) : Members :=
  assignments.map fun t => (assignedName t, .string (assignedValue t))

theorem lookup_assignedMembers (assignments : List Text) (name : Text) :
    (assignedMembers assignments).lookup name =
      (assignments.find? (assignedName · = name)).map fun t => .string (assignedValue t) := by
  induction assignments with
  | nil => rfl
  | cons t assignments ih =>
    rw [assignedMembers, List.map_cons, List.lookup_cons, List.find?_cons]
    by_cases hname : assignedName t = name
    · simp [hname]
    · have hne : (name == assignedName t) = false := by simpa using fun h => hname h.symm
      simp only [hname, hne, decide_false]
      exact ih

theorem names_assignedMembers (assignments : List Text) :
    Members.names (assignedMembers assignments) = assignments.map assignedName := by
  simp [Members.names, assignedMembers]

/-- The three layers of variables, one set over the other. -/
def ofLayers (bindings : Members) (loaded : Context) (assignments : List Text) : Context :=
  ((⟨bindings⟩ : Context).extend loaded.bindings).extend (assignedMembers assignments)

theorem layered_eq_ok {files : Files} {path : Option Text} {loaded : Context}
    {assignments : List Text} (hloaded : loadLayer files path = .ok loaded)
    (hassignments : ∀ t ∈ assignments, '=' ∈ t) (bindings : Members) :
    layered files bindings path assignments = .ok (ofLayers bindings loaded assignments) := by
  rw [layered_eq, hloaded, parseAssignments_eq_ok hassignments]
  simp only [Except.bind, Except.map, List.map_map, ofLayers, assignedMembers]
  rfl

theorem get?_ofLayers {loaded : Context} (hloaded : (Members.names loaded.bindings).Nodup)
    (bindings : Members) (assignments : List Text) (name : Text) :
    (ofLayers bindings loaded assignments).get? name =
      ((assigned? assignments name).or (loaded.get? name)).or (Members.get? bindings name) := by
  have hassigned : (assignedMembers assignments).reverse.lookup name =
      assigned? assignments name := by
    rw [assignedMembers, ← List.map_reverse]
    exact lookup_assignedMembers assignments.reverse name
  have hfile : Members.get? (Members.setAll bindings loaded.bindings) name =
      (loaded.get? name).or (Members.get? bindings name) :=
    Members.get?_setAll_of_nodup hloaded bindings name
  rw [ofLayers, extend, extend, get?, Members.get?_setAll, hassigned, hfile, Option.or_assoc]

theorem names_ofLayers {loaded : Context} (hloaded : (Members.names loaded.bindings).Nodup)
    (bindings : Members) (assignments : List Text) :
    Members.names (ofLayers bindings loaded assignments).bindings =
      Members.names bindings ++
        (Members.names loaded.bindings).filter (· ∉ Members.names bindings) ++
        ((assignments.map assignedName).filter fun name =>
          name ∉ Members.names bindings ∧ name ∉ Members.names loaded.bindings).eraseDups := by
  have hfile : Members.names (Members.setAll bindings loaded.bindings) =
      Members.names bindings ++
        (Members.names loaded.bindings).filter (· ∉ Members.names bindings) :=
    Members.names_setAll_of_nodup hloaded bindings
  have hfresh (name : Text) : name ∉ Members.names (Members.setAll bindings loaded.bindings) ↔
      (name ∉ Members.names bindings ∧ name ∉ Members.names loaded.bindings) := by
    rw [hfile, List.mem_append, List.mem_filter, decide_eq_true_iff]
    by_cases hname : name ∈ Members.names bindings <;> simp [hname]
  simp only [ofLayers, extend, Members.names_setAll _ (assignedMembers assignments),
    names_assignedMembers, hfresh]
  rw [hfile]

/-- Layers of variables. The context is there exactly when the file can be loaded and every
assignment has an equals sign, and a file that cannot be loaded counts first. The variables of a
configuration have distinct names by `Configuration.nodup_of_load`. -/
theorem layered_by_name {bindings : Members} (hbindings : (Members.names bindings).Nodup)
    (files : Files) (path : Option Text) (assignments : List Text) :
    ((∃ c, layered files bindings path assignments = .ok c) ↔
      (∃ loaded, loadLayer files path = .ok loaded) ∧ ∀ t ∈ assignments, '=' ∈ t) ∧
    (∀ p e, path = some p → load files p = .error e →
      layered files bindings path assignments = .error (.contextFailed p e)) ∧
    (∀ loaded before t after, loadLayer files path = .ok loaded →
      assignments = before ++ t :: after → (∀ u ∈ before, '=' ∈ u) → '=' ∉ t →
        layered files bindings path assignments = .error (.invalidVariable t)) ∧
    ∀ c, layered files bindings path assignments = .ok c →
      ∃ loaded, loadLayer files path = .ok loaded ∧
        (∀ name, c.get? name =
          ((assigned? assignments name).or (loaded.get? name)).or (Members.get? bindings name)) ∧
        Members.names c.bindings =
          Members.names bindings ++
            (Members.names loaded.bindings).filter (· ∉ Members.names bindings) ++
            ((assignments.map assignedName).filter fun name =>
              name ∉ Members.names bindings ∧ name ∉ Members.names loaded.bindings).eraseDups ∧
        (Members.names c.bindings).Nodup := by
  have hsucceeds : (∃ c, layered files bindings path assignments = .ok c) ↔
      (∃ loaded, loadLayer files path = .ok loaded) ∧ ∀ t ∈ assignments, '=' ∈ t := by
    rw [layered_eq, ← parseAssignments_ok_iff]
    cases loadLayer files path <;> cases parseAssignments assignments <;>
      simp [Except.bind, Except.map]
  refine ⟨hsucceeds, ?_, ?_, ?_⟩
  · rintro p e rfl hload
    rw [layered_eq, loadLayer, hload]
    rfl
  · rintro loaded before t after hloaded rfl hbefore ht
    rw [layered_eq, hloaded, parseAssignments_eq_error hbefore ht]
    rfl
  · intro c hc
    obtain ⟨⟨loaded, hloaded⟩, hassignments⟩ := hsucceeds.mp ⟨c, hc⟩
    have hlayers := layered_eq_ok hloaded hassignments bindings
    have hsame : c = ofLayers bindings loaded assignments :=
      Except.ok.inj (hc.symm.trans hlayers)
    have hdistinct := loadLayer_nodup hloaded
    rw [hsame]
    exact ⟨loaded, hloaded, get?_ofLayers hdistinct bindings assignments,
      names_ofLayers hdistinct bindings assignments,
      Members.nodup_names_setAll (Members.nodup_names_setAll hbindings _) _⟩

/-- A name of two layers, a name of the file alone, and one that is assigned twice. -/
theorem layered_by_name_overlap :
    let bindings : Members := [("a".toList, .null), ("b".toList, .null)]
    let files : Files :=
      (FileTree.ofList [("f".toList, .file (Utf8.encode "c: x\nb: y\n".toList))]).files
    let assignments : List Text := ["d=1".toList, "a=2=3".toList, "d=".toList]
    (Members.names bindings).Nodup ∧
      ∃ c, layered files bindings (some "f".toList) assignments = .ok c ∧
        Members.names c.bindings = ["a".toList, "b".toList, "c".toList, "d".toList] ∧
        c.get? "a".toList = some (.string "2=3".toList) ∧
        c.get? "b".toList = some (.string "y".toList) ∧
        c.get? "d".toList = some (.string []) := by
  intro bindings files assignments
  have hbindings : (Members.names bindings).Nodup := by decide +kernel
  have hloaded : loadLayer files (some "f".toList) =
      .ok ⟨[("c".toList, .string ['x']), ("b".toList, .string ['y'])]⟩ := by decide +kernel
  obtain ⟨hsucceeds, -, -, hlayers⟩ :=
    layered_by_name hbindings files (some "f".toList) assignments
  obtain ⟨c, hc⟩ := hsucceeds.mpr ⟨⟨_, hloaded⟩, by decide +kernel⟩
  obtain ⟨loaded, hloaded', hvalues, hnames, -⟩ := hlayers c hc
  have hsame := Except.ok.inj (hloaded'.symm.trans hloaded)
  rw [hsame] at hnames hvalues
  refine ⟨hbindings, c, hc, hnames.trans (by decide +kernel), ?_, ?_, ?_⟩
  · exact (hvalues _).trans (by decide +kernel)
  · exact (hvalues _).trans (by decide +kernel)
  · exact (hvalues _).trans (by decide +kernel)

end Context
end Stencil
