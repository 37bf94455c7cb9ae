import Stencil.Configuration
import Stencil.Proofs.Fallible

/-!
# One file for the configuration

Main statement: loading a configuration reads at most one file, the first of its places at which
something is. Where a path is given it is the only place, and otherwise the candidates are. Files
that are there at the same places, and agree on what that one file holds, lead to the same result.
Loading fails just when that file cannot be read or is no configuration, and whenever it succeeds
the environment has the last word on logging.
-/

namespace Stencil.Configuration
open Fallible

/-! ## Places -/

/-- Where the configuration may be: at the given path only, or else at one of the candidates. -/
def places (env : Environment) : Option Text → List Text
  | some path => [path]
  | none => candidates env

/-- The first of some paths at which something is, if there is one. -/
inductive FirstOf (files : Files) : List Text → Option Text → Prop
  | none : FirstOf files [] none
  | here {path : Text} {paths : List Text} (h : files.exists? path = true) :
      FirstOf files (path :: paths) (some path)
  | later {path : Text} {paths : List Text} {place : Option Text}
      (h : files.exists? path = false) (hlater : FirstOf files paths place) :
      FirstOf files (path :: paths) place

section
variable (files : Files) (env : Environment) (given : Option Text) (paths : List Text)

theorem firstOf_find? : FirstOf files paths (paths.find? files.exists?) := by
  induction paths with
  | nil => exact .none
  | cons path paths ih =>
    cases h : files.exists? path with
    | true =>
      rw [List.find?_cons_of_pos h]
      exact .here h
    | false =>
      rw [List.find?_cons_of_neg (by simp [h])]
      exact .later h ih

theorem locate_eq_find? : locate files env given = (places env given).find? files.exists? := by
  cases given with
  | none => rfl
  | some path => rw [locate, places, List.find?_singleton]

theorem firstOf_locate : FirstOf files (places env given) (locate files env given) := by
  rw [locate_eq_find?]
  exact firstOf_find? files _

/-! ## Questions -/

@[simp] theorem answer_firstFound :
    (firstFound paths).answer files = paths.find? files.exists? := by
  induction paths with
  | nil => rfl
  | cons path paths ih => cases h : files.exists? path <;> simp [firstFound, h, ih]

@[simp] theorem reads_firstFound : (firstFound paths).reads files = [] := by
  induction paths with
  | nil => rfl
  | cons path paths ih => cases h : files.exists? path <;> simp [firstFound, h, ih]

theorem looks_firstFound : (firstFound paths).looks files ⊆ paths := by
  induction paths with
  | nil => exact List.nil_subset _
  | cons path paths ih =>
    cases h : files.exists? path with
    | true => simp [firstFound, h]
    | false => simpa [firstFound, h] using List.subset_cons_of_subset path ih

/-- Nothing is read to choose a path. -/
theorem reads_choosing : (choosing env given).reads files = [] := by
  cases given with
  | none => exact reads_firstFound files _
  | some path => rfl

theorem looks_choosing : (choosing env given).looks files ⊆ places env given := by
  cases given with
  | none => exact looks_firstFound files _
  | some path => exact List.nil_subset _

theorem answer_choosing_mem :
    ∀ path ∈ (choosing env given).answer files, path ∈ places env given := by
  intro path hpath
  cases given with
  | none =>
    rw [choosing, answer_firstFound] at hpath
    exact List.mem_of_find?_eq_some hpath
  | some other =>
    obtain rfl := Option.some.inj hpath
    exact List.mem_singleton_self _

/-- The chosen path is where the configuration is, if something is there. -/
theorem filter_answer_choosing :
    ((choosing env given).answer files).filter files.exists? = locate files env given := by
  cases given with
  | none =>
    rw [choosing, answer_firstFound, locate]
    cases h : (candidates env).find? files.exists? with
    | none => rfl
    | some path => exact Option.filter_some_pos (List.find?_some h)
  | some path =>
    rw [choosing, locate, Inquiry.answer_pure, Option.filter_some]

end

/-! ## Settings before the environment -/

/-- The settings of the file at a place; without a place, the standard ones. -/
def settingsAt (files : Files) : Option Text → Except CommandError Configuration
  | some path => read files path
  | none => .ok standard

section
variable (files : Files) (env : Environment) (given place : Option Text)

theorem load_eq :
    load files env given = (settingsAt files (locate files env given)).map (·.override env) := by
  rw [load]
  cases locate files env given <;> rfl

theorem read_snapshot_eq (path : Text) :
    read ((Inquiry.snapshot [path]).answer files) path = read files path := by
  have hread := Inquiry.read_snapshot files [path] (List.mem_singleton_self path)
  simp only [read, Files.readText, hread]

theorem answer_loadingFrom :
    (loadingFrom env place).answer files =
      (settingsAt files (place.filter files.exists?)).map (·.override env) := by
  cases place with
  | none => rfl
  | some path =>
    rw [Option.filter_some]
    cases h : files.exists? path with
    | true => simp [loadingFrom, h, settingsAt, read_snapshot_eq]
    | false => simp [loadingFrom, h, settingsAt, Except.map]

theorem reads_loadingFrom :
    (loadingFrom env place).reads files = (place.filter files.exists?).toList := by
  cases place with
  | none => rfl
  | some path =>
    rw [Option.filter_some]
    cases h : files.exists? path <;> simp [loadingFrom, h]

theorem looks_loadingFrom : (loadingFrom env place).looks files = place.toList := by
  cases place with
  | none => rfl
  | some path => cases h : files.exists? path <;> simp [loadingFrom, h]

/-- Step by step, the same configuration is loaded. -/
theorem answer_loading : (loading env given).answer files = load files env given := by
  rw [loading, Inquiry.answer_bind, answer_loadingFrom, filter_answer_choosing, load_eq]

/-- The file at the place of the configuration is read, and no other. -/
theorem reads_loading :
    (loading env given).reads files = (locate files env given).toList := by
  rw [loading, Inquiry.reads_bind, reads_choosing, reads_loadingFrom, filter_answer_choosing,
    List.nil_append]

theorem looks_loading : (loading env given).looks files ⊆ places env given := by
  rw [loading, Inquiry.looks_bind, looks_loadingFrom]
  refine List.append_subset.mpr ⟨looks_choosing files env given, fun path hpath => ?_⟩
  exact answer_choosing_mem files env given path (Option.mem_toList.mp hpath)

/-- Other files lead to the same configuration if they are there at the same places and the one that
is read holds the same. -/
theorem load_congr {files' : Files}
    (hthere : ∀ path ∈ places env given, files'.exists? path = files.exists? path)
    (hsame : ∀ path ∈ locate files env given, files'.read path = files.read path) :
    load files' env given = load files env given := by
  rw [← answer_loading, ← answer_loading]
  refine Inquiry.answer_congr (fun path hpath => ?_) fun path hpath => ?_
  · exact hthere path (looks_loading files env given hpath)
  · rw [reads_loading] at hpath
    exact hsame path (Option.mem_toList.mp hpath)

end

/-! ## Outcomes -/

/-- Why the file at a path gives no configuration. -/
inductive Refused (files : Files) (path : Text) : CommandError → Prop
  | unreadable {cause : SystemError} (h : files.readText path = .error cause) :
      Refused files path (.unreadable .configuration path cause)
  | invalid {t : Text} (hread : files.readText path = .ok t) (hparse : parse? t = none) :
      Refused files path (.invalidConfiguration path)

/-- The settings that a place provides: those of the file there, or the standard ones. -/
inductive Provides (files : Files) : Option Text → Configuration → Prop
  | standard : Provides files none standard
  | file {path t : Text} {settings : Configuration} (hread : files.readText path = .ok t)
      (hparse : parse? t = some settings) : Provides files (some path) settings

section
variable {files : Files} {env : Environment} {given place : Option Text} {path : Text}
  {e : CommandError} {config settings : Configuration}

theorem read_of_unreadable {cause : SystemError} (h : files.readText path = .error cause) :
    read files path = .error (.unreadable .configuration path cause) := by
  rw [read, h]
  rfl

theorem read_of_text {t : Text} (h : files.readText path = .ok t) :
    read files path = (parse? t).elim (.error (.invalidConfiguration path)) .ok := by
  have hgiven (f : Text → Except CommandError Configuration) :
      ((Except.ok t).mapError (.unreadable .configuration path) >>= f) = f t := rfl
  rw [read, h, hgiven]
  cases parse? t <;> rfl

theorem settingsAt_of_refused (h : Refused files path e) :
    settingsAt files (some path) = .error e := by
  rcases h with hread | ⟨hread, hparse⟩
  · exact read_of_unreadable hread
  · rw [settingsAt, read_of_text hread, hparse]
    rfl

theorem settingsAt_of_provides (h : Provides files place settings) :
    settingsAt files place = .ok settings := by
  rcases h with _ | ⟨hread, hparse⟩
  · rfl
  · rw [settingsAt, read_of_text hread, hparse]
    rfl

/-- Every place provides settings, unless the file there is refused. -/
theorem provides_or_refused (files : Files) (place : Option Text) :
    (∃ settings, Provides files place settings) ∨ ∃ path ∈ place, ∃ e, Refused files path e := by
  cases place with
  | none => exact .inl ⟨_, .standard⟩
  | some path =>
    cases hread : files.readText path with
    | error cause => exact .inr ⟨path, rfl, _, .unreadable hread⟩
    | ok t =>
      cases hparse : parse? t with
      | none => exact .inr ⟨path, rfl, _, .invalid hread hparse⟩
      | some settings => exact .inl ⟨_, .file hread hparse⟩

theorem settingsAt_eq_error_iff :
    settingsAt files place = .error e ↔ ∃ path ∈ place, Refused files path e := by
  constructor
  · intro h
    rcases provides_or_refused files place with ⟨settings, hprovides⟩ | ⟨path, hpath, e', hrefused⟩
    · rw [settingsAt_of_provides hprovides] at h
      cases h
    · rw [Option.mem_def.mp hpath, settingsAt_of_refused hrefused] at h
      obtain rfl := Except.error.inj h
      exact ⟨path, hpath, hrefused⟩
  · rintro ⟨path, hpath, hrefused⟩
    rw [Option.mem_def.mp hpath]
    exact settingsAt_of_refused hrefused

theorem settingsAt_eq_ok_iff :
    settingsAt files place = .ok settings ↔ Provides files place settings := by
  refine ⟨fun h => ?_, settingsAt_of_provides⟩
  rcases provides_or_refused files place with ⟨settings', hprovides⟩ | ⟨path, hpath, e, hrefused⟩
  · rw [settingsAt_of_provides hprovides] at h
    obtain rfl := Except.ok.inj h
    exact hprovides
  · rw [Option.mem_def.mp hpath, settingsAt_of_refused hrefused] at h
    cases h

theorem load_eq_error_iff :
    load files env given = .error e ↔ ∃ path ∈ locate files env given, Refused files path e := by
  rw [load_eq, map_eq_error_iff, settingsAt_eq_error_iff]

theorem load_eq_ok_iff :
    load files env given = .ok config ↔
      ∃ settings, Provides files (locate files env given) settings ∧
        settings.override env = config := by
  rw [load_eq, map_eq_ok_iff]
  exact exists_congr fun settings => and_congr_left' settingsAt_eq_ok_iff

end

/-- Loading reads one file at most, the first of its places at which something is. Nothing but what
that file holds, and which of the places are taken, has an influence. It fails where the file is
refused, and otherwise the environment has the last word on logging, also without a file. -/
theorem load_from_one_file (files : Files) (env : Environment) (given : Option Text) :
    FirstOf files (places env given) (locate files env given) ∧
      (loading env given).reads files = (locate files env given).toList ∧
      (loading env given).answer files = load files env given ∧
      (∀ files' : Files,
        (∀ path ∈ places env given, files'.exists? path = files.exists? path) →
          (∀ path ∈ locate files env given, files'.read path = files.read path) →
            load files' env given = load files env given) ∧
      (∀ e, load files env given = .error e ↔
        ∃ path ∈ locate files env given, Refused files path e) ∧
      ∀ config, load files env given = .ok config ↔
        ∃ settings, Provides files (locate files env given) settings ∧
          config = ⟨settings.bindings, ⟨env.logLevel.getD settings.logging.level,
            env.logFormat.getD settings.logging.format⟩⟩ := by
  refine ⟨firstOf_locate files env given, reads_loading files env given,
    answer_loading files env given, fun files' hthere hsame => ?_, fun e => load_eq_error_iff,
    fun config => ?_⟩
  · exact load_congr files env given hthere hsame
  · rw [load_eq_ok_iff]
    exact exists_congr fun settings => and_congr_right' eq_comm

/-- A file that is no configuration stands before a good one, which does not count unless it is
given; a path that leads nowhere is given although there are candidates. -/
theorem load_from_one_file_shadowed :
    let broken := FileEntry.file (Utf8.encode "template_vars: [unclosed".toList)
    let good := FileEntry.file (Utf8.encode "template_vars:\n  a: b\n".toList)
    let files := (FileTree.ofList [("resolvent.yml".toList, broken),
      (".resolvent.yaml".toList, good)]).files
    let files' := (FileTree.ofList [("resolvent.yml".toList, broken),
      (".resolvent.yaml".toList, .directory)]).files
    let env : Environment := ⟨some "home".toList, some "warn".toList, none⟩
    (∀ path ∈ places env none, files'.exists? path = files.exists? path) ∧
      files'.read "resolvent.yml".toList = files.read "resolvent.yml".toList ∧
      load files' env none = load files env none ∧
      load files env none = .error (.invalidConfiguration "resolvent.yml".toList) ∧
      (loading env none).reads files = ["resolvent.yml".toList] ∧
      load files env (some ".resolvent.yaml".toList) =
        .ok ⟨[("a".toList, .string "b".toList)], ⟨"warn".toList, "pretty".toList⟩⟩ ∧
      load files env (some "absent.yaml".toList) =
        .ok ⟨[], ⟨"warn".toList, "pretty".toList⟩⟩ ∧
      (loading env (some "absent.yaml".toList)).reads files = [] := by
  intro broken good files files' env
  have hlocate : locate files env none = some "resolvent.yml".toList := by decide +kernel
  have hthere : ∀ path ∈ places env none, files'.exists? path = files.exists? path := by
    decide +kernel
  have hsame : files'.read "resolvent.yml".toList = files.read "resolvent.yml".toList := by
    decide +kernel
  have hread : files.readText "resolvent.yml".toList = .ok "template_vars: [unclosed".toList := by
    decide +kernel
  have hparse : parse? "template_vars: [unclosed".toList = none := by decide +kernel
  have habsent : locate files env (some "absent.yaml".toList) = none := by decide +kernel
  have hgiven : locate files env (some ".resolvent.yaml".toList) =
      some ".resolvent.yaml".toList := by decide +kernel
  have hread' : files.readText ".resolvent.yaml".toList = .ok "template_vars:\n  a: b\n".toList := by
    decide +kernel
  have hparse' : parse? "template_vars:\n  a: b\n".toList =
      some ⟨[("a".toList, .string "b".toList)], standard.logging⟩ := by decide +kernel
  obtain ⟨-, hreads, -, hcongr, herror, -⟩ := load_from_one_file files env none
  obtain ⟨-, -, -, -, -, hfile⟩ := load_from_one_file files env (some ".resolvent.yaml".toList)
  obtain ⟨-, hreads', -, -, -, hok⟩ := load_from_one_file files env (some "absent.yaml".toList)
  rw [hlocate] at hreads hcongr herror
  rw [hgiven] at hfile
  rw [habsent] at hreads' hok
  refine ⟨hthere, hsame, hcongr files' hthere ?_, ?_, hreads, ?_, ?_, hreads'⟩
  · intro path hpath
    obtain rfl := Option.some.inj hpath
    exact hsame
  · exact (herror _).mpr ⟨_, rfl, .invalid hread hparse⟩
  · exact (hfile _).mpr ⟨_, .file hread' hparse', rfl⟩
  · exact (hok _).mpr ⟨standard, .standard, rfl⟩

end Stencil.Configuration
