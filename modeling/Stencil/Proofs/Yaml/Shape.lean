import Stencil.Proofs.Json.Members
import Stencil.Proofs.Json.Shape
import Stencil.Yaml.Value

/-!
# Shape of what a document means

The objects in what a document means have each name once, at every depth, and its collections are
nested no deeper than the limit of documents.
-/

namespace Stencil.Yaml

/-- Whatever the computation gives, however many references it may follow, has the property. -/
def Yields {α : Type} (f : Following α) (P : α → Prop) : Prop :=
  ∀ left a left', f.run left = some (a, left') → P a

namespace Yields
variable {α β : Type} {f : Following α} {g : α → Following β} {P : α → Prop} {Q : β → Prop}

theorem trivial (f : Following α) : Yields f fun _ => True := fun _ _ _ _ => True.intro

theorem pure {a : α} (h : P a) : Yields (pure a : Following α) P := by
  intro left b left' hrun
  cases hrun
  exact h

theorem failure : Yields (failure : Following α) P := by
  intro left a left' hrun
  exact absurd hrun (by simp [StateT.run, Alternative.failure, StateT.failure])

theorem bind (hf : Yields f P) (hg : ∀ a, P a → Yields (g a) Q) : Yields (f >>= g) Q := by
  intro left b left' hrun
  rw [StateT.run_bind] at hrun
  obtain ⟨⟨a, between⟩, ha, hb⟩ := Option.bind_eq_some_iff.mp hrun
  exact hg a (hf left a between ha) between b left' hb

theorem lift {x : Option α} (h : ∀ a, x = some a → P a) : Yields (liftM x : Following α) P := by
  intro left b left' hrun
  obtain ⟨a, ha, hpair⟩ := Option.bind_eq_some_iff.mp hrun
  cases hpair
  exact h _ ha

/-- What each step keeps holds after all of them. -/
theorem foldlM {step : α → β → Following α} (hstep : ∀ a, P a → ∀ b, Yields (step a b) P)
    {a : α} (ha : P a) (l : List β) : Yields (l.foldlM step a) P := by
  induction l generalizing a with
  | nil => exact pure ha
  | cons b l ih => exact bind (hstep a ha b) fun a' ha' => ih ha'

theorem mapM {f : α → Following β} {P : β → Prop} {l : List α}
    (h : ∀ a ∈ l, Yields (f a) P) : Yields (l.mapM f) fun bs => ∀ b ∈ bs, P b := by
  induction l with
  | nil => exact .pure (by simp)
  | cons a l ih =>
    rw [List.mapM_cons]
    refine (h a List.mem_cons_self).bind fun b hb => ?_
    refine (ih fun a' ha' => h a' (List.mem_cons_of_mem _ ha')).bind fun bs hbs => ?_
    exact .pure (List.forall_mem_cons.mpr ⟨hb, hbs⟩)

theorem mono (hf : Yields f P) {P' : α → Prop} (h : ∀ a, P a → P' a) : Yields f P' :=
  fun left a left' hrun => h a (hf left a left' hrun)

theorem run? {d : Document} (hf : Yields f P) {a : α} (h : d.run? f = some a) : P a := by
  obtain ⟨⟨b, left⟩, hrun, rfl⟩ := Option.map_eq_some_iff.mp h
  exact hf _ _ _ hrun

end Yields

/-- What the reader of documents promises of a value: distinct names and a bounded nesting. -/
def Shaped (depth : Nat) (v : Json) : Prop := v.WellNamed ∧ v.NestedWithin depth

theorem Meaning.shaped_of_toJson? {m : Meaning} {t : Text} {v : Json} (h : m.toJson? t = some v)
    (depth : Nat) : Shaped depth v := by
  cases m with
  | null =>
    cases h
    exact ⟨.null, .null depth⟩
  | bool b =>
    cases h
    exact ⟨.bool b, .bool depth b⟩
  | text =>
    cases h
    exact ⟨.string t, .string depth t⟩
  | integer n =>
    obtain ⟨number, -, rfl⟩ := Option.map_eq_some_iff.mp h
    exact ⟨.number number, .number depth number⟩
  | float x =>
    cases x <;> cases h
    · exact ⟨.number _, .number depth _⟩
    · exact ⟨.null, .null depth⟩
    · exact ⟨.null, .null depth⟩

theorem shaped_of_scalar? {tag : Option Tag} {plain : Bool} {t : Text} {v : Json}
    (h : scalar? tag plain t = some v) (depth : Nat) : Shaped depth v := by
  have huntagged (h : (if plain then (Meaning.ofText t).toJson? t else some (.string t)) = some v) :
      Shaped depth v := by
    split at h
    · exact Meaning.shaped_of_toJson? h depth
    · cases h
      exact ⟨.string t, .string depth t⟩
  have hbind {α : Type} (x : Option α) (meaning : α → Meaning)
      (h : (x.bind fun a => (meaning a).toJson? t) = some v) : Shaped depth v := by
    obtain ⟨a, -, h⟩ := Option.bind_eq_some_iff.mp h
    exact Meaning.shaped_of_toJson? h depth
  unfold scalar? at h
  cases tag with
  | none => exact huntagged h
  | some tag =>
    dsimp only at h
    split at h
    · cases h
    split at h
    · obtain ⟨b, -, rfl⟩ := Option.map_eq_some_iff.mp h
      exact ⟨.bool b, .bool depth b⟩
    split at h
    · exact hbind _ _ h
    split at h
    · exact hbind _ _ h
    split at h
    · split at h
      · cases h
        exact ⟨.null, .null depth⟩
      · cases h
    split at h
    · exact huntagged h
    · cases h
      exact ⟨.string t, .string depth t⟩

theorem scalar?_ne_object (tag : Option Tag) (plain : Bool) (t : Text) (members : Members) :
    scalar? tag plain t ≠ some (.object members) := by
  intro h
  cases (shaped_of_scalar? h 0).2

namespace Document

theorem members?_shaped (d : Document) {value? : Node → Following Json} {depth : Nat}
    (hvalue : ∀ node, Yields (value? node) (Shaped depth)) (entries : List (Node × Node)) :
    Yields (d.members? value? entries) fun members =>
      (Members.names members).Nodup ∧ ∀ m ∈ members, Shaped depth m.2 := by
  refine Yields.foldlM
    (P := fun read => (Members.names read).Nodup ∧ ∀ m ∈ read, Shaped depth m.2)
    (fun read hread entry => ?_) (a := []) ⟨List.nodup_nil, by simp⟩ entries
  refine (Yields.trivial (d.text? entry.1)).bind fun name _ => ?_
  exact (hvalue entry.2).bind fun value hv =>
    .pure ⟨Members.nodup_names_set hread.1 name value, Members.forall_set hread.2 hv name⟩

theorem value?_shaped (d : Document) (depth : Nat) (node : Node) :
    Yields (d.value? depth node) (Shaped depth) := by
  have hscalar (depth : Nat) (tag : Option Tag) (plain : Bool) (t : Text) :
      Yields (liftM (scalar? tag plain t)) (Shaped depth) :=
    .lift fun value h => shaped_of_scalar? h depth
  induction depth generalizing node with
  | zero =>
    rw [value?]
    refine (Yields.trivial (d.follow node)).bind fun target _ => ?_
    cases target with
    | scalar tag plain t => exact hscalar 0 tag plain t
    | sequence _ _ | mapping _ _ | reference _ => exact .failure
  | succ depth ih =>
    rw [value?]
    refine (Yields.trivial (d.follow node)).bind fun target _ => ?_
    cases target with
    | scalar tag plain t => exact hscalar (depth + 1) tag plain t
    | reference number => exact .failure
    | sequence tag items =>
      dsimp only
      split
      · exact .failure
      · refine (Yields.mapM fun item _ => ih item).bind fun values hvalues => .pure ?_
        exact ⟨.array fun v hv => (hvalues v hv).1, .array fun v hv => (hvalues v hv).2⟩
    | mapping tag entries =>
      dsimp only
      split
      · exact .failure
      · refine (d.members?_shaped ih entries).bind fun members hmembers => .pure ?_
        exact ⟨.object hmembers.1 fun m hm => (hmembers.2 m hm).1,
          .object fun m hm => (hmembers.2 m hm).2⟩

end Document

/-- What a document means has distinct names throughout and is nested within the limit. -/
theorem shaped_of_parse? {t : Text} {v : Json} (h : parse? t = some v) :
    Shaped Document.nestingLimit v := by
  obtain ⟨d, -, hvalue⟩ := Option.bind_eq_some_iff.mp h
  rw [Document.toJson?] at hvalue
  split at hvalue
  · cases hvalue
    exact ⟨.null, .null _⟩
  · next node _ => exact (d.value?_shaped _ node).run? hvalue

end Stencil.Yaml
