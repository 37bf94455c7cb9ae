import Stencil.Proofs.PropertyTree.Containment

/-!
# What a report lists

The report of a resolution is read off the sites of the tree, one after the other: a leaf that
takes a new text adds its path to the one list, a leaf that fails adds its path and its first error
to the other, and nothing else adds anything. When no name is empty, a path is the names on the way
with dots between them.
-/

namespace Stencil.PropertyTree

/-! ## Paths -/

theorem join_of_ne_nil {path : Text} (h : path ≠ []) (name : Text) :
    join path name = path ++ '.' :: name := by
  rw [join, if_neg (by simpa using h)]

theorem foldl_join_of_ne_nil {path : Text} (h : path ≠ []) (names : List Text) :
    names.foldl join path = Text.join ['.'] (path :: names) := by
  induction names generalizing path with
  | nil => rfl
  | cons name names ih =>
    have hne : path ++ '.' :: name ≠ [] := by simp
    rw [List.foldl_cons, join_of_ne_nil h, ih hne]
    cases names <;> simp [Text.join]

/-- When no name is empty, the path of a site is its names with dots between them. -/
theorem Site.path_eq_join {site : Site} (h : [] ∉ site.names) :
    site.path = Text.join ['.'] site.names := by
  rw [Site.path, Site.pathFrom]
  cases hnames : site.names with
  | nil => rfl
  | cons name names =>
    have hne : name ≠ [] := by
      rintro rfl
      simp [hnames] at h
    rw [List.foldl_cons, show join [] name = name from rfl, foldl_join_of_ne_nil hne]

section
variable (engine : Engine) (context : Context)

/-! ## The report as a list of sites -/

/-- What sites that stand below a path contribute to a report, one after the other. -/
def listed (path : Text) (l : List Site) : Report :=
  ⟨l.filterMap fun s => (s.leaf.rendered? engine context).map fun _ => s.pathFrom path,
    l.filterMap fun s => (s.leaf.failure? engine context).map fun e => (s.pathFrom path, e)⟩

theorem listed_append (path : Text) (l m : List Site) :
    listed engine context path (l ++ m) =
      listed engine context path l ++ listed engine context path m := by
  simp only [listed, List.filterMap_append]
  rfl

theorem listed_below (path name : Text) (l : List Site) :
    listed engine context path (l.map (.below name)) =
      listed engine context (join path name) l := by
  simp only [listed, List.filterMap_map]
  rfl

theorem listed_singleton (path : Text) (s : Site) :
    listed engine context path [s] =
      reportOf (s.pathFrom path) (s.leaf.outcome engine context) := by
  match h : s.leaf.outcome engine context with
  | none => simp [listed, Leaf.rendered?, Leaf.failure?, h, reportOf, Report.empty]
  | some (.ok new) => simp [listed, Leaf.rendered?, Leaf.failure?, h, reportOf, Report.ofRendered]
  | some (.error e) => simp [listed, Leaf.rendered?, Leaf.failure?, h, reportOf, Report.ofSkipped]

theorem resolveProperty_report_flat {p : Property}
    (hp : ∀ name inner, p ≠ .nested name inner) (path : Text) :
    (resolveProperty engine context path p).2 =
      listed engine context path (Site.ofProperty? p).toList := by
  cases p, hp using flat_cases with
  | unset name => rfl
  | accessor name held access =>
    rw [Site.ofProperty?, Option.toList_some, listed_singleton]
    rfl
  | text name value =>
    rw [Site.ofProperty?, Option.toList_some, listed_singleton, outcome_plain]
    rfl

theorem resolveAll_report (path : Text) (ps : List Property) :
    (resolveAll engine context path ps).2 =
      listed engine context path ((sites ps).map Prod.snd) := by
  induction ps using forest_induction generalizing path with
  | nil => rfl
  | nested name inner rest ihInner ihRest =>
    have hsites : (sites (.nested name inner :: rest)).map Prod.snd =
        ((sites inner).map Prod.snd).map (.below name) ++ (sites rest).map Prod.snd := by
      simp [sites, sitesOf, Function.comp_def]
    rw [hsites, listed_append, listed_below, ← ihInner, ← ihRest]
    rfl
  | flat p rest hp ihRest =>
    have hsites : (sites (p :: rest)).map Prod.snd =
        (Site.ofProperty? p).toList ++ (sites rest).map Prod.snd := by
      cases h : Site.ofProperty? p <;> simp [sites, sitesOf_flat hp, h, Function.comp_def]
    rw [hsites, listed_append, ← ihRest, ← resolveProperty_report_flat engine context hp]
    rfl

theorem resolve_rendered (ps : List Property) :
    (resolve engine context ps).2.rendered = (sites ps).filterMap fun a =>
      (a.2.leaf.rendered? engine context).map fun _ => a.2.path := by
  simp only [resolve, resolveAll_report, listed, List.filterMap_map]
  rfl

theorem resolve_skipped (ps : List Property) :
    (resolve engine context ps).2.skipped = (sites ps).filterMap fun a =>
      (a.2.leaf.failure? engine context).map fun e => (a.2.path, e) := by
  simp only [resolve, resolveAll_report, listed, List.filterMap_map]
  rfl

theorem isClean_iff (r : Report) : r.isClean = true ↔ r.skipped = [] := List.isEmpty_iff

theorem listed_skipped_eq_nil_iff (path : Text) (l : List Site) :
    (listed engine context path l).skipped = [] ↔
      ∀ s ∈ l, ∀ e, ¬s.leaf.Fails engine context e := by
  simp only [listed, List.filterMap_eq_nil_iff, Option.map_eq_none_iff]
  refine forall₂_congr fun s _ => ?_
  rw [Option.eq_none_iff_forall_not_mem]
  exact forall_congr' fun e => not_congr Leaf.failure?_eq_some_iff

end

/-- Exact report. Over the sites of a tree, which are the leaves that addresses lead to in
depth-first order, the rendered paths are those of the leaves that take a new text and the skipped
ones those of the leaves that fail, each with its first error; no leaf does both. A path is the
names that lead to the leaf with dots between them, unless one is empty, and the report is clean
exactly when no leaf fails. -/
theorem resolve_reports_exactly (engine : Engine) (context : Context) (ps : List Property) :
    (resolve engine context ps).2.rendered =
      (sites ps).filterMap (fun a =>
        (a.2.leaf.rendered? engine context).map fun _ => a.2.path) ∧
    (resolve engine context ps).2.skipped =
      (sites ps).filterMap (fun a =>
        (a.2.leaf.failure? engine context).map fun e => (a.2.path, e)) ∧
    (∀ leaf new, Leaf.rendered? engine context leaf = some new ↔ leaf.Takes engine context new) ∧
    (∀ leaf e, Leaf.failure? engine context leaf = some e ↔ leaf.Fails engine context e) ∧
    (∀ leaf new e, ¬(Leaf.Takes engine context leaf new ∧ leaf.Fails engine context e)) ∧
    (∀ address site, (address, site) ∈ sites ps ↔ siteAt? address ps = some site) ∧
    ((sites ps).map Prod.fst).Pairwise (· < ·) ∧
    (∀ a ∈ sites ps, [] ∉ a.2.names → a.2.path = Text.join ['.'] a.2.names) ∧
    ((resolve engine context ps).2.isClean = true ↔
      ∀ a ∈ sites ps, ∀ e, ¬a.2.leaf.Fails engine context e) := by
  refine ⟨resolve_rendered engine context ps, resolve_skipped engine context ps,
    fun _ _ => Leaf.rendered?_eq_some_iff, fun _ _ => Leaf.failure?_eq_some_iff,
    fun _ _ _ h => h.1.not_fails _ h.2, mem_sites_iff ps, sites_ascending ps,
    fun _ _ => Site.path_eq_join, ?_⟩
  rw [isClean_iff, resolve, resolveAll_report, listed_skipped_eq_nil_iff, List.forall_mem_map]

/-- A text that takes what it is rendered to and one that is no template, both in a nested object,
and a text without marks beside it. -/
theorem resolve_reports_exactly_nested :
    let context : Context := ⟨[("x".toList, .string "B".toList)]⟩
    let ps : List Property := [.nested "n".toList [.text "b".toList "\x7b\x7bx\x7d\x7d!".toList,
      .text "c".toList "\x7d\x7d\x7b\x7b".toList], .text "d".toList "plain".toList]
    let site : Site :=
      ⟨["n".toList, "b".toList], ⟨some "\x7b\x7bx\x7d\x7d!".toList, .plain⟩⟩
    ([0, 0], site) ∈ sites ps ∧ site.path = "n.b".toList ∧
      (resolve .basic context ps).2.rendered = ["n.b".toList] ∧
      (resolve .basic context ps).2.skipped =
        [("n.c".toList, .template (.syntaxError .malformed))] ∧
      site.leaf.Takes .basic context "B!".toList ∧ (resolve .basic context ps).2.isClean = false := by
  intro context ps site
  obtain ⟨hrendered, hskipped, htakes, hfails, -, hsites, -, hpaths, hclean⟩ :=
    resolve_reports_exactly .basic context ps
  let failing : Site := ⟨["n".toList, "c".toList], ⟨some "\x7d\x7d\x7b\x7b".toList, .plain⟩⟩
  have hsite : ([0, 0], site) ∈ sites ps := (hsites _ _).mpr rfl
  have hfailing : ([0, 1], failing) ∈ sites ps := (hsites _ _).mpr rfl
  have hfailure : failing.leaf.Fails .basic context (.template (.syntaxError .malformed)) :=
    (hfails _ _).mp (by decide +kernel)
  refine ⟨hsite, hpaths _ hsite (by decide), hrendered.trans (by decide +kernel),
    hskipped.trans (by decide +kernel), (htakes _ _).mp (by decide +kernel), ?_⟩
  rw [Bool.eq_false_iff, ne_eq, hclean]
  exact fun h => h _ hfailing _ hfailure

end Stencil.PropertyTree
