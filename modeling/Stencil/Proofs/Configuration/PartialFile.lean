import Stencil.Proofs.Yaml.BlockValues
import Stencil.Proofs.Yaml.References

/-!
# Settings that a file leaves out

Main statement: a configuration file may set the variables or leave them out, and it may leave out
all of the logging. But where it has a mapping for logging, both settings of that have to be there.
What the file does not set is as in the standard configuration, and the environment goes before
both.
-/

namespace Stencil.Configuration
open Yaml
variable {d : Document}

section
variable {value? : Node → Following Json} {entries : List (Node × Node)} {es : List ReadEntry}

theorem steady_field? (names : List String) (found : List (Text × Node)) (entry : Node × Node) :
    Steady (field? d names found entry) := by
  refine (d.steady_text? entry.1).bind fun name => ?_
  split
  · exact .pure found
  · split
    · exact .failure
    · exact .pure _

theorem steady_fields? (names : List String) (node : Node) : Steady (fields? d names node) :=
  (d.steady_entries? node).bind fun entries => .foldlM (steady_field? names) [] entries

/-- The values of the fixed names are found among entries with distinct names. -/
theorem gives_foldlM_field? (h : List.Forall₂ (d.Reads value?) entries es)
    (hnodup : (es.map (·.name)).Nodup) (names : List String) (found : List (Text × Node))
    (hfound : ∀ e ∈ es, found.lookup e.name = none) :
    ∃ found', Gives (entries.foldlM (field? d names) found) found' (ReadEntry.nameCosts es) ∧
      ∀ name ∈ names, found'.lookup name.toList =
        ((ReadEntry.find? es name.toList).map (·.node)).or (found.lookup name.toList) := by
  induction h generalizing found with
  | nil => exact ⟨found, Gives.pure found, fun name _ => rfl⟩
  | @cons entry e entries es hentry _ ih =>
    obtain ⟨hfresh, hfurther⟩ := List.nodup_cons.mp hnodup
    obtain ⟨hhere, hthere⟩ := List.forall_mem_cons.mp hfound
    rw [List.foldlM_cons]
    by_cases hname : names.any (·.toList = e.name) = true
    · have hstep : Gives (field? d names found entry) ((e.name, e.node) :: found)
        (e.nameCost + 0) := by
        refine hentry.name.bind ?_
        simp only [hname, hhere, hentry.node]
        exact Gives.pure _
      have hfound' : ∀ e' ∈ es, List.lookup e'.name ((e.name, e.node) :: found) = none := by
        intro e' he'
        have hne : e'.name ≠ e.name := fun heq =>
          hfresh (List.mem_map.mpr ⟨e', he', heq⟩)
        rw [List.lookup_cons, beq_eq_false_iff_ne.mpr hne]
        exact hthere e' he'
      obtain ⟨found', hgives, hlookup⟩ := ih hfurther _ hfound'
      refine ⟨found', hstep.bind hgives, fun name hmem => ?_⟩
      rw [hlookup name hmem]
      by_cases heq : e.name = name.toList
      · rw [← heq, ReadEntry.find?_eq_none hfresh, ReadEntry.find?_cons_self, List.lookup_cons_self]
        rfl
      · rw [ReadEntry.find?_cons_of_ne heq, List.lookup_cons, beq_eq_false_iff_ne.mpr (Ne.symm heq)]
    · have hstep : Gives (field? d names found entry) found (e.nameCost + 0) := by
        refine hentry.name.bind ?_
        simp only [hname]
        exact Gives.pure _
      obtain ⟨found', hgives, hlookup⟩ := ih hfurther found hthere
      refine ⟨found', hstep.bind hgives, fun name hmem => ?_⟩
      have hne : e.name ≠ name.toList := fun heq => hname (List.any_eq_true.mpr
        ⟨name, hmem, by simpa using heq.symm⟩)
      rw [hlookup name hmem, ReadEntry.find?_cons_of_ne hne]
end

section
variable {depth n : Nat} {node : Node} {members : Members}

/-- The values of the fixed names are found in a node that means an object. -/
theorem gives_fields? (r : d.ObjectReading depth node members n) (names : List String) :
    ∃ fields, Gives (fields? d names node) fields (r.cost + ReadEntry.nameCosts r.es) ∧
      ∀ name ∈ names, fields.lookup name.toList =
        (ReadEntry.find? r.es name.toList).map (·.node) := by
  obtain ⟨fields, hgives, hlookup⟩ :=
    gives_foldlM_field? r.reads r.nodup names [] fun _ _ => rfl
  refine ⟨fields, r.entries_eq.bind hgives, fun name hname => ?_⟩
  rw [hlookup name hname, List.lookup_nil, Option.or_none]

/-- Logging settings that are both given are read, and no more references are followed than for
the whole node. -/
theorem gives_logging? (r : d.ObjectReading depth node members n) {level format : Text}
    (hlevel : Members.get? members "level".toList = some (.string level))
    (hformat : Members.get? members "format".toList = some (.string format)) :
    ∃ m ≤ n, Gives (logging? d node) ⟨level, format⟩ m := by
  obtain ⟨fields, hfields, hlookup⟩ := gives_fields? r ["level", "format"]
  obtain ⟨e, -, hfind, hgives⟩ := r.exists_entry hlevel
  obtain ⟨e', -, hfind', hgives'⟩ := r.exists_entry hformat
  have htexts : Gives (logging? d node) ⟨level, format⟩ (r.cost + ReadEntry.nameCosts r.es +
      (ReadEntry.costAt r.es "level".toList + (ReadEntry.costAt r.es "format".toList + 0))) := by
    refine hfields.bind ?_
    rw [hlookup "level" (by simp), hlookup "format" (by simp), hfind, hfind']
    exact (d.gives_text? hgives).bind
      ((d.gives_text? hgives').bind (n := 0) (Gives.pure (Logging.mk level format)))
  refine ⟨_, ?_, htexts⟩
  have hcost := ReadEntry.costAt_add_le r.es (show "level".toList ≠ "format".toList by decide)
  have hall := r.cost_eq
  omega

/-- Logging settings of which one is missing are refused. -/
theorem logging?_fails (r : d.ObjectReading depth node members n)
    (hmissing : Members.get? members "level".toList = none ∨
      Members.get? members "format".toList = none) :
    Yields (logging? d node) fun _ => False := by
  obtain ⟨fields, hfields, hlookup⟩ := gives_fields? r ["level", "format"]
  refine (hfields.yields (steady_fields? _ node)).bind fun fields heq => ?_
  rw [heq, hlookup "level" (by simp), hlookup "format" (by simp)]
  rw [r.get?_eq, r.get?_eq, Option.map_eq_none_iff, Option.map_eq_none_iff] at hmissing
  rcases hmissing with h | h
  · rw [h]
    exact .failure
  · rw [h]
    cases ReadEntry.find? r.es "level".toList <;> exact .failure

theorem gives_bindings?
    (h : Gives (d.value? (Document.nestingLimit - 1) node) (.object members) n) :
    Gives (bindings? d node) members n := by
  obtain ⟨entries, m, k, hentries, hmembers, rfl⟩ := d.gives_entries? h
  exact hentries.bind hmembers

/-- A setting of its own in a file: what a node gives, and what holds where there is none. -/
def setting {α : Type} (read : Node → Following α) (standard : α) : Option Node → Following α
  | some node => read node
  | none => pure standard

theorem ofNode?_eq (d : Document) (node : Node) :
    ofNode? d node = (do
      let found ← fields? d ["template_vars", "logging"] node
      let bindings ← setting (bindings? d) standard.bindings (found.lookup "template_vars".toList)
      let logging ← setting (logging? d) standard.logging (found.lookup "logging".toList)
      return ⟨bindings, logging⟩) := by
  rw [ofNode?]
  congr 1
  funext found
  cases found.lookup "template_vars".toList <;> cases found.lookup "logging".toList <;> rfl
end

/-! ## Files -/

/-- No name is written twice in the mapping of a document, nor in a mapping directly in it. -/
def NamedOnce (d : Document) (root : Node) : Prop :=
  Yields (d.names? root) List.Nodup ∧
    Yields (d.entries? root) fun entries => ∀ entry ∈ entries, Yields (d.names? entry.2) List.Nodup

theorem mapM_text?_memberNodes (d : Document) (members : Members) :
    (memberNodes members).mapM (fun entry => d.text? entry.1) = pure (Members.names members) := by
  induction members with
  | nil => rfl
  | cons m members ih =>
    rw [memberNodes, List.mapM_cons, d.text?_textNode, pure_bind, ih, pure_bind]
    rfl

theorem yields_names?_blockNode (d : Document) {v : Json} (h : v.WellNamed) :
    Yields (d.names? (blockNode v)) List.Nodup := by
  have hscalar (plain : Bool) (t : Text) : Yields (d.names? (.scalar none plain t)) List.Nodup := by
    have hnone : Yields (d.entries? (.scalar none plain t)) (· = []) := by
      show Yields (if plain && t.isEmpty then pure [] else failure) _
      split
      · exact .pure rfl
      · exact .failure
    refine hnone.bind fun entries hentries => ?_
    rw [hentries]
    exact .pure List.nodup_nil
  cases v with
  | object members =>
    cases h with | object hdistinct _ =>
    have hnames : d.names? (blockNode (.object members)) = pure (Members.names members) :=
      mapM_text?_memberNodes d members
    rw [hnames]
    exact .pure hdistinct
  | array items => exact Yields.failure
  | string t => exact hscalar _ t
  | null | bool b | number x => exact hscalar true _

/-- A printed mapping names nothing twice. -/
theorem namedOnce_blockNode (d : Document) {members : Members}
    (h : (Json.object members).WellNamed) : NamedOnce d (blockNode (.object members)) := by
  refine ⟨yields_names?_blockNode d h, ?_⟩
  have hentries : d.entries? (blockNode (.object members)) = pure (memberNodes members) := rfl
  rw [hentries]
  refine .pure fun entry hentry => ?_
  cases h with | object hdistinct hnamed =>
  clear hentries hdistinct
  induction members with
  | nil => exact absurd hentry List.not_mem_nil
  | cons m members ih =>
    obtain ⟨hm, hfurther⟩ := List.forall_mem_cons.mp hnamed
    rcases List.mem_cons.mp hentry with rfl | hentry
    · exact yields_names?_blockNode d hm
    · exact ih hentry hfurther

/-- An object sets these of the variables, the logging, and the two settings of that. -/
structure Sets (members : Members) (bindings logging : Option Members)
    (level format : Option Text) :
    Prop where
  sets_bindings : Members.get? members "template_vars".toList = bindings.map .object
  sets_logging : Members.get? members "logging".toList = logging.map .object
  sets_level : logging.bind (Members.get? · "level".toList) = level.map .string
  sets_format : logging.bind (Members.get? · "format".toList) = format.map .string

/-- Logging is left out, or both of its settings are given. -/
def Complete (logging : Option Members) (level format : Option Text) : Prop :=
  logging.isSome → level.isSome ∧ format.isSome

instance (logging : Option Members) (level format : Option Text) :
    Decidable (Complete logging level format) :=
  inferInstanceAs (Decidable (_ → _))

/-- The settings of a file, in place of the standard ones. -/
def ofSettings (bindings : Option Members) (level format : Option Text) : Configuration :=
  ⟨bindings.getD standard.bindings,
    ⟨level.getD standard.logging.level, format.getD standard.logging.format⟩⟩

section
variable {n : Nat} {root : Node} {members : Members} {bindings logging : Option Members}
  {level format : Option Text}

theorem exists_logging_reading {depth : Nat} (r : d.ObjectReading (depth + 1) root members n)
    (honce : NamedOnce d root) {logging : Members}
    (h : Members.get? members "logging".toList = some (.object logging)) :
    ∃ e, ReadEntry.find? r.es "logging".toList = some e ∧
      Nonempty (d.ObjectReading depth e.node logging (ReadEntry.costAt r.es "logging".toList)) := by
  obtain ⟨e, hmem, hfind, hgives⟩ := r.exists_entry h
  obtain ⟨entry, hentry, hreads⟩ := d.exists_entry_of_mem r.reads hmem
  have honce' := r.entries_eq.of_yields honce.2 entry hentry
  rw [hreads.node] at honce'
  exact ⟨e, hfind, d.exists_reading hgives honce'⟩

theorem gives_ofNode? (h : Gives (d.value? Document.nestingLimit root) (.object members) n)
    (honce : NamedOnce d root) (hsets : Sets members bindings logging level format)
    (hcomplete : Complete logging level format) :
    ∃ m ≤ n, Gives (ofNode? d root) (ofSettings bindings level format) m := by
  obtain ⟨r⟩ := d.exists_reading h honce.1
  obtain ⟨fields, hfields, hlookup⟩ := gives_fields? r ["template_vars", "logging"]
  have hbindings : ∃ m ≤ ReadEntry.costAt r.es "template_vars".toList,
      Gives (setting (bindings? d) standard.bindings
        ((ReadEntry.find? r.es "template_vars".toList).map (·.node)))
        (bindings.getD standard.bindings) m := by
    cases bindings with
    | none =>
      rw [r.find?_eq_none hsets.sets_bindings]
      exact ⟨0, Nat.zero_le _, Gives.pure standard.bindings⟩
    | some bindings =>
      obtain ⟨e, -, hfind, hgives⟩ := r.exists_entry hsets.sets_bindings
      rw [hfind]
      exact ⟨_, Nat.le_refl _, gives_bindings? hgives⟩
  have hlogging : ∃ m ≤ ReadEntry.costAt r.es "logging".toList,
      Gives (setting (logging? d) standard.logging
        ((ReadEntry.find? r.es "logging".toList).map (·.node)))
        (ofSettings bindings level format).logging m := by
    cases logging with
    | none =>
      obtain rfl : level = none := Option.map_eq_none_iff.mp hsets.sets_level.symm
      obtain rfl : format = none := Option.map_eq_none_iff.mp hsets.sets_format.symm
      rw [r.find?_eq_none hsets.sets_logging]
      exact ⟨0, Nat.zero_le _, Gives.pure standard.logging⟩
    | some logging =>
      obtain ⟨e, hfind, ⟨r'⟩⟩ := exists_logging_reading r honce hsets.sets_logging
      obtain ⟨hlevel, hformat⟩ := hcomplete rfl
      obtain ⟨level, rfl⟩ := Option.isSome_iff_exists.mp hlevel
      obtain ⟨format, rfl⟩ := Option.isSome_iff_exists.mp hformat
      rw [hfind]
      exact gives_logging? r' hsets.sets_level hsets.sets_format
  obtain ⟨m, hm, hbindings⟩ := hbindings
  obtain ⟨m', hm', hlogging⟩ := hlogging
  have hparts : Gives (ofNode? d root) (ofSettings bindings level format)
      (r.cost + ReadEntry.nameCosts r.es + (m + (m' + 0))) := by
    rw [ofNode?_eq]
    refine hfields.bind ?_
    rw [hlookup "template_vars" (by simp), hlookup "logging" (by simp)]
    exact hbindings.bind (hlogging.bind (n := 0) (Gives.pure (ofSettings bindings level format)))
  refine ⟨_, ?_, hparts⟩
  have hcost := ReadEntry.costAt_add_le r.es
    (show "template_vars".toList ≠ "logging".toList by decide)
  have hall := r.cost_eq
  omega

theorem ofNode?_fails (h : Gives (d.value? Document.nestingLimit root) (.object members) n)
    (honce : NamedOnce d root) (hsets : Sets members bindings logging level format)
    (hcomplete : ¬Complete logging level format) :
    Yields (ofNode? d root) fun _ => False := by
  obtain ⟨r⟩ := d.exists_reading h honce.1
  obtain ⟨fields, hfields, hlookup⟩ := gives_fields? r ["template_vars", "logging"]
  cases logging with
  | none => exact absurd (fun h => absurd h (by simp)) hcomplete
  | some logging =>
    obtain ⟨e, hfind, ⟨r'⟩⟩ := exists_logging_reading r honce hsets.sets_logging
    have hmissing : Members.get? logging "level".toList = none ∨
        Members.get? logging "format".toList = none := by
      rw [show Members.get? logging "level".toList = _ from hsets.sets_level,
        show Members.get? logging "format".toList = _ from hsets.sets_format,
        Option.map_eq_none_iff, Option.map_eq_none_iff]
      cases level with
      | none => exact .inl rfl
      | some level =>
        cases format with
        | none => exact .inr rfl
        | some format => exact absurd (fun _ => ⟨rfl, rfl⟩) hcomplete
    rw [ofNode?_eq]
    refine (hfields.yields (steady_fields? _ root)).bind fun fields' heq => ?_
    rw [heq, hlookup "logging" (by simp), hfind]
    refine (Yields.trivial _).bind fun bindings' _ => ?_
    exact (logging?_fails r' hmissing).bind fun _ h => h.elim

/-- What a file is read as, when it is the text of a mapping that names nothing twice. -/
theorem parse?_eq {t : Text} (hparse : Yaml.parse? t = some (.object members))
    (honce : ∀ d root, Document.ofText? t = some d → d.root = some root → NamedOnce d root)
    (hsets : Sets members bindings logging level format) :
    parse? t =
      if Complete logging level format then some (ofSettings bindings level format) else none := by
  obtain ⟨d, hd, hvalue⟩ := Option.bind_eq_some_iff.mp hparse
  cases hroot : d.root with
  | none => simp [Document.toJson?, hroot] at hvalue
  | some root =>
    have honce := honce d root hd hroot
    rw [Document.toJson?, hroot] at hvalue
    obtain ⟨n, hn, hgives⟩ := (d.steady_value? _ root).gives_of_run? hvalue
    have hparse : parse? t = d.run? (ofNode? d root) := by
      rw [parse?, hd]
      simp [hroot]
    rw [hparse]
    split
    · next hcomplete =>
      obtain ⟨m, hm, hgives⟩ := gives_ofNode? hgives honce hsets hcomplete
      exact hgives.run? (Nat.le_trans hm hn)
    · next hcomplete =>
      exact (ofNode?_fails hgives honce hsets hcomplete).run?_eq_none d

/-- A configuration that is a mapping with distinct names is loaded just when its logging is
complete. Each setting is then that of the environment, else that of the file, else the standard
one. With a logging that lacks a setting, the file is refused, whatever the environment sets. -/
theorem load_of_mapping {files : Files} {env : Environment} {given : Option Text} {path t : Text}
    (hpath : locate files env given = some path) (hread : files.readText path = .ok t)
    (hparse : Yaml.parse? t = some (.object members))
    (honce : ∀ d root, Document.ofText? t = some d → d.root = some root → NamedOnce d root)
    (hsets : Sets members bindings logging level format) :
    load files env given =
      if Complete logging level format then
        .ok ⟨bindings.getD [],
          ⟨env.logLevel.getD (level.getD "info".toList),
            env.logFormat.getD (format.getD "pretty".toList)⟩⟩
      else .error (.invalidConfiguration path) := by
  have hload : load files env given = (parse? t).elim (.error (.invalidConfiguration path))
      fun config => .ok (config.override env) := by
    rw [load, hpath]
    dsimp only
    have hread' : read files path =
        (parse? t).elim (.error (.invalidConfiguration path)) .ok := by
      have hgiven (f : Text → Except CommandError Configuration) :
          ((Except.ok t).mapError (.unreadable .configuration path) >>= f) = f t := rfl
      rw [read, hread, hgiven]
      cases parse? t <;> rfl
    rw [hread']
    cases parse? t <;> rfl
  rw [hload, parse?_eq hparse honce hsets]
  by_cases hcomplete : Complete logging level format
  · rw [if_pos hcomplete, if_pos hcomplete]
    rfl
  · rw [if_neg hcomplete, if_neg hcomplete]
    rfl

/-- A file sets the variables and the logging, and the environment the form of the logging. -/
theorem load_of_mapping_overridden :
    let t := "template_vars:\n  a: b\nlogging:\n  level: debug\n  format: compact\n".toList
    let files : Files := (FileTree.ofList [("c".toList, .file (Utf8.encode t))]).files
    let env : Environment := ⟨none, none, some "json".toList⟩
    let bindings : Members := [("a".toList, .string ['b'])]
    let logging : Members := [("level".toList, .string "debug".toList),
      ("format".toList, .string "compact".toList)]
    let members : Members :=
      [("template_vars".toList, .object bindings), ("logging".toList, .object logging)]
    locate files env (some "c".toList) = some "c".toList ∧
      files.readText "c".toList = .ok t ∧
      Yaml.parse? t = some (.object members) ∧
      Sets members (some bindings) (some logging) (some "debug".toList) (some "compact".toList) ∧
      load files env (some "c".toList) = .ok ⟨bindings, "debug".toList, "json".toList⟩ := by
  intro t files env bindings logging members
  have hintegral : (Json.object members).Integral := by
    have hbindings : (Json.object bindings).Integral := by
      simp [bindings, Json.Integral.object, Json.Integral.string]
    have hlogging : (Json.object logging).Integral := by
      simp [logging, Json.Integral.object, Json.Integral.string]
    simp [members, Json.Integral.object, hbindings, hlogging]
  have hnamed : (Json.object members).WellNamed := by
    have hbindings : (Json.object bindings).WellNamed :=
      .object (by decide) (by simp [bindings, Json.WellNamed.string])
    have hlogging : (Json.object logging).WellNamed :=
      .object (by decide) (by simp [logging, Json.WellNamed.string])
    exact .object (by decide) (by simp [members, hbindings, hlogging])
  have htext : t = Yaml.print (.object members) := by decide +kernel
  have hpath : locate files env (some "c".toList) = some "c".toList := by decide +kernel
  have hread : files.readText "c".toList = .ok t := by decide +kernel
  have hparse : Yaml.parse? t = some (.object members) := by decide +kernel
  have hsets : Sets members (some bindings) (some logging) (some "debug".toList)
      (some "compact".toList) := ⟨rfl, rfl, rfl, rfl⟩
  have hload := load_of_mapping hpath hread hparse (fun d root hd hroot => by
    rw [htext, Document.ofText?_print hintegral] at hd
    cases hd
    cases hroot
    exact namedOnce_blockNode _ hnamed) hsets
  exact ⟨hpath, hread, hparse, hsets, hload⟩

/-- A file that sets only one of the two logging settings is refused, though the environment sets
both. -/
theorem load_incomplete_logging :
    let t := "logging:\n  level: debug\n".toList
    let files : Files := (FileTree.ofList [("c".toList, .file (Utf8.encode t))]).files
    let env : Environment := ⟨none, some "warn".toList, some "json".toList⟩
    Yaml.parse? t = some (.object
        [("logging".toList, .object [("level".toList, .string "debug".toList)])]) ∧
      load files env (some "c".toList) = .error (.invalidConfiguration "c".toList) := by
  decide +kernel

end
end Stencil.Configuration
