import Stencil.Proofs.Json.Members
import Stencil.Proofs.PropertyTree.Reporting
import Stencil.Proofs.Resolution.Outcome

/-!
# The two resolvers agree

A tree without getters and setters can be read off as an object: each property sets a member of its
name, and an unset one sets null. The resolver of trees contains a failure where the resolver of
values ends with it. Main statement: on a tree and the object read off it, the one has a clean
report exactly when the other succeeds, and then with the same result; otherwise the error of the
other is the first in the report.
-/

namespace Stencil.PropertyTree

/-! ## The object read off a tree -/

mutual
/-- The value read off a property. -/
def asJson : Property → Json
  | .text _ value => .string value
  | .nested _ properties => .object (Members.setAll [] (entries properties))
  | .unset _ => .null
  | .accessor _ held _ => (held.map Json.string).getD .null

/-- Names and values read off the properties, one after the other. -/
def entries : List Property → List (Text × Json)
  | [] => []
  | property :: properties => (property.name, asJson property) :: entries properties
end

/-- The object read off the properties. -/
def asMembers (ps : List Property) : Members := Members.setAll [] (entries ps)

mutual
/-- A property without a getter and a setter, in which each text with an opening mark has a closing
one too. -/
def Mappable : Property → Prop
  | .text _ value => openMarker <:+: value → closeMarker <:+: value
  | .nested _ properties => MappableAll properties
  | .unset _ => True
  | .accessor _ _ _ => False

/-- Such properties, with no name among siblings twice. -/
def MappableAll : List Property → Prop
  | [] => True
  | property :: properties =>
    property.name ∉ properties.map Property.name ∧ Mappable property ∧ MappableAll properties
end

theorem names_entries (ps : List Property) : Members.names (entries ps) = ps.map Property.name := by
  induction ps with
  | nil => rfl
  | cons p rest ih => rw [entries, List.map_cons, ← ih, Members.names, List.map_cons, Members.names]

theorem MappableAll.nodup {ps : List Property} (h : MappableAll ps) :
    (ps.map Property.name).Nodup := by
  induction ps with
  | nil => exact List.nodup_nil
  | cons p rest ih => exact List.nodup_cons.mpr ⟨h.1, ih h.2.2⟩

theorem asMembers_of_nodup {ps : List Property} (h : (ps.map Property.name).Nodup) :
    asMembers ps = entries ps := by
  rw [← names_entries] at h
  exact Members.setAll_of_nodup h

section
variable (engine : Engine) (context : Context)

theorem name_resolveProperty (path : Text) (p : Property) :
    (resolveProperty engine context path p).1.name = p.name := by
  cases p <;> rfl

theorem map_name_resolveAll (path : Text) (ps : List Property) :
    (resolveAll engine context path ps).1.map Property.name = ps.map Property.name := by
  rw [resolveAll_fst, List.map_map]
  exact List.map_congr_left fun p _ => name_resolveProperty engine context path p

end

/-! ## A report and an outcome -/

/-- What was skipped agrees with the outcome of resolving a value: nothing was, and the outcome is
the value, or the error is that of the first property skipped. -/
inductive Agrees {α : Type} (value : α) :
    (skipped : List (Text × PropertyError)) → (outcome : Except TemplateError α) → Prop
  | clean : Agrees value [] (.ok value)
  | failed (path : Text) (e : TemplateError) (more : List (Text × PropertyError)) :
      Agrees value ((path, .template e) :: more) (.error e)

theorem Agrees.map {α β : Type} {value : α} {skipped : List (Text × PropertyError)}
    {outcome : Except TemplateError α} (h : Agrees value skipped outcome) (f : α → β) :
    Agrees (f value) skipped (outcome.map f) := by
  cases h with
  | clean => exact .clean
  | failed path e more => exact .failed path e more

section
variable (engine : Engine) (context : Context)

/-- When something in the first property was skipped, that decides; otherwise the others do. -/
theorem agrees_cons (path : Text) {p : Property} {rest : List Property}
    (head : Agrees (asJson (resolveProperty engine context path p).1)
      (resolveProperty engine context path p).2.skipped
      (Resolution.resolve engine context (asJson p)))
    (tail : Agrees (entries (resolveAll engine context path rest).1)
      (resolveAll engine context path rest).2.skipped
      (Resolution.resolveMembers engine context (entries rest))) :
    Agrees (entries (resolveAll engine context path (p :: rest)).1)
      (resolveAll engine context path (p :: rest)).2.skipped
      (Resolution.resolveMembers engine context (entries (p :: rest))) := by
  have hentries : entries (resolveAll engine context path (p :: rest)).1 =
      (p.name, asJson (resolveProperty engine context path p).1) ::
        entries (resolveAll engine context path rest).1 := by
    rw [resolveAll, entries, name_resolveProperty]
  have hskipped : (resolveAll engine context path (p :: rest)).2.skipped =
      (resolveProperty engine context path p).2.skipped ++
        (resolveAll engine context path rest).2.skipped := rfl
  rw [hentries, hskipped, entries, Resolution.resolveMembers]
  generalize Resolution.resolve engine context (asJson p) = first at head
  generalize Resolution.resolveMembers engine context (entries rest) = others at tail
  generalize (resolveProperty engine context path p).2.skipped = skipped at head
  generalize (resolveAll engine context path rest).2.skipped = further at tail
  cases head with
  | failed path e more => exact .failed path e (more ++ further)
  | clean =>
    cases tail with
    | failed path e more => exact .failed path e more
    | clean => exact .clean

/-- A text with both marks or without an opening one is rendered by both resolvers or by none. -/
theorem agrees_text (path name : Text) {value : Text}
    (h : openMarker <:+: value → closeMarker <:+: value) :
    Agrees (asJson (resolveProperty engine context path (.text name value)).1)
      (resolveProperty engine context path (.text name value)).2.skipped
      (Resolution.resolve engine context (.string value)) := by
  by_cases hmark : openMarker <:+: value
  · rw [Resolution.resolve_template ((hasMarkers_iff value).mpr ⟨hmark, h hmark⟩)]
    cases hrender : engine.render value context with
    | error e =>
      rw [resolveProperty, Leaf.renderText?_of_error hmark hrender]
      exact .failed _ e []
    | ok new =>
      rw [resolveProperty, Leaf.renderText?_of_ok hmark hrender]
      exact .clean
  · have hoff : isMarked value = false := by
      rw [← Bool.not_eq_true, isMarked_iff]
      exact hmark
    have hplain : hasMarkers value = false := by
      rw [← Bool.not_eq_true, hasMarkers_iff]
      exact fun hboth => hmark hboth.1
    have hsame : Resolution.resolve engine context (.string value) = .ok (.string value) :=
      Resolution.resolve_other (by simp) (by simpa using hplain)
    rw [hsame, resolveProperty, renderText?, hoff]
    exact .clean

/-- A nested object agrees when its properties do. Their names are the same before and after, so
that neither of the two objects loses a member. -/
theorem agrees_nested (path name : Text) {inner : List Property}
    (hnames : (inner.map Property.name).Nodup)
    (h : Agrees (entries (resolveAll engine context (join path name) inner).1)
      (resolveAll engine context (join path name) inner).2.skipped
      (Resolution.resolveMembers engine context (entries inner))) :
    Agrees (asJson (resolveProperty engine context path (.nested name inner)).1)
      (resolveProperty engine context path (.nested name inner)).2.skipped
      (Resolution.resolve engine context (asJson (.nested name inner))) := by
  have hbefore : asMembers inner = entries inner := asMembers_of_nodup hnames
  have hafter : asMembers (resolveAll engine context (join path name) inner).1 =
      entries (resolveAll engine context (join path name) inner).1 :=
    asMembers_of_nodup (by rwa [map_name_resolveAll])
  rw [resolveProperty, asJson, asJson, ← asMembers, ← asMembers, hbefore, hafter,
    Resolution.resolve]
  exact h.map Json.object

theorem agrees_entries (path : Text) {ps : List Property} (h : MappableAll ps) :
    Agrees (entries (resolveAll engine context path ps).1)
      (resolveAll engine context path ps).2.skipped
      (Resolution.resolveMembers engine context (entries ps)) := by
  induction ps using forest_induction generalizing path with
  | nil => exact .clean
  | nested name inner rest ihInner ihRest =>
    obtain ⟨-, hinner, hrest⟩ := h
    refine agrees_cons engine context path ?_ (ihRest path hrest)
    exact agrees_nested engine context path name hinner.nodup (ihInner (join path name) hinner)
  | flat p rest hp ihRest =>
    obtain ⟨-, hfirst, hrest⟩ := h
    refine agrees_cons engine context path ?_ (ihRest path hrest)
    cases p, hp using flat_cases with
    | text name value => exact agrees_text engine context path name hfirst
    | unset name => exact .clean
    | accessor name held access => exact absurd hfirst (by simp [Mappable])

end

/-- The two resolvers agree. The tree has no getters and setters, no name twice among siblings, and
no text with an opening mark alone. Then its report is clean exactly when the object read off it is
resolved, which gives the object read off the resolved tree, names in order; otherwise the error
is that of the first property skipped. -/
theorem resolvers_agree {ps : List Property} (h : MappableAll ps) (engine : Engine)
    (context : Context) :
    ((resolve engine context ps).2.isClean = true ↔
      ∃ out, Resolution.resolveMembers engine context (asMembers ps) = .ok out) ∧
    ((resolve engine context ps).2.isClean = true →
      Resolution.resolveMembers engine context (asMembers ps) =
        .ok (asMembers (resolve engine context ps).1)) ∧
    ∀ e, Resolution.resolveMembers engine context (asMembers ps) = .error e →
      ∃ path, (resolve engine context ps).2.skipped.head? = some (path, .template e) := by
  have hagrees := agrees_entries engine context [] h
  have hafter : asMembers (resolve engine context ps).1 = entries (resolve engine context ps).1 :=
    asMembers_of_nodup (by rw [resolve, map_name_resolveAll]; exact h.nodup)
  rw [hafter, asMembers_of_nodup h.nodup]
  simp only [isClean_iff, resolve]
  generalize Resolution.resolveMembers engine context (entries ps) = outcome at hagrees
  generalize (resolveAll engine context [] ps).2.skipped = skipped at hagrees
  cases hagrees with
  | clean => exact ⟨by simp, fun _ => rfl, by simp⟩
  | failed path e more => exact ⟨by simp, by simp, by simp⟩

/-- Both resolvers meet the failing template of the nested object first, although a later one
fails too. -/
theorem resolvers_agree_nested :
    let tree : List Property :=
      [.text "a".toList "\x7b\x7bx\x7d\x7d".toList,
        .nested "n".toList [.unset "u".toList, .text "b".toList "\x7b\x7bf 1\x7d\x7d".toList],
        .text "c".toList "\x7b\x7bg 1\x7d\x7d".toList]
    MappableAll tree ∧
      ∃ path, (resolve .basic ⟨[("x".toList, .string "X".toList)]⟩ tree).2.skipped.head? =
        some (path, .template (.renderError ⟨.undefinedHelper "f".toList, some ⟨1, 1⟩⟩)) := by
  intro tree
  have hmappable : MappableAll tree :=
    ⟨by decide, fun _ => ⟨"\x7b\x7bx".toList, [], rfl⟩, by decide,
      ⟨by decide, trivial, by decide, fun _ => ⟨"\x7b\x7bf 1".toList, [], rfl⟩, trivial⟩,
      by decide, fun _ => ⟨"\x7b\x7bg 1".toList, [], rfl⟩, trivial⟩
  exact ⟨hmappable, (resolvers_agree hmappable .basic ⟨[("x".toList, .string "X".toList)]⟩).2.2 _
    (by decide +kernel)⟩

end Stencil.PropertyTree
