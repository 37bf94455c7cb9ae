import Mathlib.Data.List.Forall2
import Stencil.Proofs.Yaml.DistinctNames

/-!
# References that are followed

What a computation on a document gives does not depend on how many references it may still follow,
as long as they are enough, and it follows the same number of them each time. So two computations
can be compared by their results and by the number of references that they follow.
-/

namespace Stencil.Yaml
variable {α β : Type}

/-- The computation gives a result by following `n` references, when it may follow that many. -/
def Gives (f : Following α) (a : α) (n : Nat) : Prop := ∀ left, f.run (n + left) = some (a, left)

/-- How many references a computation may follow decides only whether it fails. -/
def Steady (f : Following α) : Prop :=
  ∀ left a left', f.run left = some (a, left') → ∃ n, left = n + left' ∧ Gives f a n

namespace Gives
variable {f : Following α} {g : α → Following β} {a : α} {b : β} {m n : Nat}

theorem pure (a : α) : Gives (pure a : Following α) a 0 := fun left => by
  rw [Nat.zero_add]
  rfl

theorem bind (hf : Gives f a m) (hg : Gives (g a) b n) : Gives (f >>= g) b (m + n) := by
  intro left
  rw [StateT.run_bind, Nat.add_assoc, hf (n + left)]
  exact hg left

theorem yields (hf : Steady f) (h : Gives f a n) : Yields f (· = a) := by
  intro left a' left' hrun
  obtain ⟨n', -, h'⟩ := hf left a' left' hrun
  have hmore := h n'
  rw [Nat.add_comm, h' n] at hmore
  cases hmore
  rfl

/-- A property of whatever is given is one of the result. -/
theorem of_yields {P : α → Prop} (h : Gives f a n) (hP : Yields f P) : P a := hP _ _ _ (h 0)

/-- What two computations give one after the other, each of them gives by itself. -/
theorem unbind (hf : Steady f) (h : Gives (f >>= g) b n) :
    ∃ a m k, Gives f a m ∧ Gives (g a) b k ∧ n = m + k := by
  have hrun := h 0
  rw [StateT.run_bind] at hrun
  obtain ⟨⟨a, k⟩, ha, -⟩ := Option.bind_eq_some_iff.mp hrun
  obtain ⟨m, hm, hfa⟩ := hf _ a k ha
  obtain rfl : n = m + k := hm
  refine ⟨a, m, k, hfa, fun left => ?_, rfl⟩
  have hrun := h left
  rw [StateT.run_bind, Nat.add_assoc, hfa (k + left)] at hrun
  exact hrun

theorem unpure {a' : α} (h : Gives (Pure.pure a : Following α) a' n) : a' = a ∧ n = 0 := by
  have hrun := h 0
  cases hrun
  exact ⟨rfl, rfl⟩

end Gives

namespace Steady
variable {f : Following α} {g : α → Following β}

theorem pure (a : α) : Steady (pure a : Following α) := by
  intro left a' left' hrun
  cases hrun
  exact ⟨0, (Nat.zero_add left).symm, Gives.pure a⟩

theorem failure : Steady (failure : Following α) := fun _ _ _ hrun => nomatch hrun

theorem bind (hf : Steady f) (hg : ∀ a, Steady (g a)) : Steady (f >>= g) := by
  intro left b left' hrun
  rw [StateT.run_bind] at hrun
  obtain ⟨⟨a, between⟩, ha, hb⟩ := Option.bind_eq_some_iff.mp hrun
  obtain ⟨m, hm, hfa⟩ := hf left a between ha
  obtain ⟨n, hn, hgb⟩ := hg a between b left' hb
  exact ⟨m + n, by omega, hfa.bind hgb⟩

theorem lift (x : Option α) : Steady (liftM x : Following α) := by
  cases x with
  | none => exact fun _ _ _ hrun => nomatch hrun
  | some a => exact pure a

theorem mapM {f : α → Following β} (hf : ∀ a, Steady (f a)) (l : List α) : Steady (l.mapM f) := by
  induction l with
  | nil => exact pure []
  | cons a l ih =>
    rw [List.mapM_cons]
    exact (hf a).bind fun b => ih.bind fun bs => pure (b :: bs)

theorem foldlM {step : α → β → Following α} (hstep : ∀ a b, Steady (step a b)) (a : α)
    (l : List β) : Steady (l.foldlM step a) := by
  induction l generalizing a with
  | nil => exact pure a
  | cons b l ih => exact (hstep a b).bind fun a' => ih a'

/-- The result in a document comes from following few enough references. -/
theorem gives_of_run? {d : Document} (hf : Steady f) {a : α} (h : d.run? f = some a) :
    ∃ n ≤ 100 * d.size, Gives f a n := by
  obtain ⟨⟨a, left⟩, hrun, rfl⟩ := Option.map_eq_some_iff.mp h
  obtain ⟨n, hn, hgives⟩ := hf _ a left hrun
  exact ⟨n, by omega, hgives⟩

end Steady

theorem Gives.run? {f : Following α} {a : α} {n : Nat} (h : Gives f a n) {d : Document}
    (hn : n ≤ 100 * d.size) : d.run? f = some a := by
  obtain ⟨left, hleft⟩ := Nat.exists_eq_add_of_le hn
  rw [Document.run?, hleft, h left]
  rfl

theorem Yields.run?_eq_none {f : Following α} (h : Yields f fun _ => False) (d : Document) :
    d.run? f = none := by
  cases hrun : d.run? f with
  | none => rfl
  | some a => exact (h.run? hrun).elim

theorem Meaning.toJson?_string {m : Meaning} {t s : Text} (h : m.toJson? t = some (.string s)) :
    s = t := by
  cases m with
  | text =>
    cases h
    rfl
  | null | bool b => cases h
  | integer n =>
    obtain ⟨number, -, hnumber⟩ := Option.map_eq_some_iff.mp h
    cases hnumber
  | float x => cases x <;> cases h

/-- A scalar that denotes a text denotes itself. -/
theorem scalar?_string {tag : Option Tag} {plain : Bool} {t s : Text}
    (h : scalar? tag plain t = some (.string s)) : s = t := by
  have huntagged (h : (if plain then (Meaning.ofText t).toJson? t else some (.string t)) =
      some (.string s)) : s = t := by
    split at h
    · exact Meaning.toJson?_string h
    · cases h
      rfl
  have hbind {α : Type} (x : Option α) (meaning : α → Meaning)
      (h : (x.bind fun a => (meaning a).toJson? t) = some (.string s)) : s = t := by
    obtain ⟨a, -, h⟩ := Option.bind_eq_some_iff.mp h
    exact Meaning.toJson?_string h
  have hbool : (Meaning.bool? t).map Json.bool ≠ some (.string s) := by simp
  have hinteger := hbind (Meaning.integer? t) Meaning.integer
  have hfloat := hbind (Meaning.float? t) Meaning.float
  unfold scalar? at h
  cases tag with
  | none => exact huntagged h
  | some tag => grind

namespace Document
variable (d : Document)

theorem steady_follow (node : Node) : Steady (d.follow node) := by
  cases node with
  | reference number =>
    intro left target left' hrun
    cases left with
    | zero => cases hrun
    | succ left =>
      have hnext (left : Nat) : (d.follow (.reference number)).run (left + 1) =
          (d.anchors.node? number).map (·, left) := by
        unfold follow
        dsimp only
        generalize d.anchors.node? number = found
        cases found <;> rfl
      rw [hnext left] at hrun
      obtain ⟨found, hnode, hpair⟩ := Option.map_eq_some_iff.mp hrun
      cases hpair
      refine ⟨1, Nat.add_comm _ 1, fun more => ?_⟩
      rw [Nat.add_comm, hnext, hnode]
      rfl
  | scalar tag plain t | sequence tag items | mapping tag entries => exact .pure _

theorem steady_text? (node : Node) : Steady (d.text? node) := by
  refine (d.steady_follow node).bind fun target => ?_
  cases target with
  | scalar tag plain t => exact .pure t
  | sequence _ _ | mapping _ _ | reference _ => exact .failure

theorem steady_entries? (node : Node) : Steady (d.entries? node) := by
  refine (d.steady_follow node).bind fun target => ?_
  cases target with
  | scalar tag plain t =>
    dsimp only
    split
    · exact .pure []
    · exact .failure
  | mapping tag entries => exact .pure entries
  | sequence _ _ | reference _ => exact .failure

theorem steady_members? {value? : Node → Following Json} (hvalue : ∀ node, Steady (value? node))
    (entries : List (Node × Node)) : Steady (d.members? value? entries) := by
  refine Steady.foldlM (fun read entry => ?_) [] entries
  exact (d.steady_text? entry.1).bind fun name =>
    (hvalue entry.2).bind fun value => .pure (Members.set read name value)

theorem steady_value? (depth : Nat) (node : Node) : Steady (d.value? depth node) := by
  induction depth generalizing node with
  | zero =>
    rw [value?]
    refine (d.steady_follow node).bind fun target => ?_
    cases target with
    | scalar tag plain t => exact .lift _
    | sequence _ _ | mapping _ _ | reference _ => exact .failure
  | succ depth ih =>
    rw [value?]
    refine (d.steady_follow node).bind fun target => ?_
    cases target with
    | scalar tag plain t => exact .lift _
    | reference number => exact .failure
    | sequence tag items =>
      dsimp only
      split
      · exact .failure
      · exact (Steady.mapM ih items).bind fun values => .pure _
    | mapping tag entries =>
      dsimp only
      split
      · exact .failure
      · exact (d.steady_members? ih entries).bind fun members => .pure _

/-! ## Values and their parts -/

/-- What a node that is no reference means, and how many references its parts follow. -/
inductive TargetGives : Nat → Node → Json → Nat → Prop
  | scalar {tag : Option Tag} {plain : Bool} {t : Text} {v : Json}
      (h : scalar? tag plain t = some v) (depth : Nat) :
      TargetGives depth (.scalar tag plain t) v 0
  | sequence {depth n : Nat} {items : List Node} {values : List Json} (tag : Option Tag)
      (h : Gives (items.mapM (d.value? depth)) values n) :
      TargetGives (depth + 1) (.sequence tag items) (.array values) n
  | mapping {depth n : Nat} {entries : List (Node × Node)} {members : Members} (tag : Option Tag)
      (h : Gives (d.members? (d.value? depth) entries) members n) :
      TargetGives (depth + 1) (.mapping tag entries) (.object members) n

theorem gives_target {depth n : Nat} {node : Node} {v : Json}
    (h : Gives (d.value? depth node) v n) :
    ∃ target m k, Gives (d.follow node) target m ∧ d.TargetGives depth target v k ∧ n = m + k := by
  have hscalar {tag : Option Tag} {plain : Bool} {t : Text} {k : Nat}
      (ht : Gives (liftM (scalar? tag plain t) : Following Json) v k) :
      d.TargetGives depth (.scalar tag plain t) v k := by
    obtain ⟨value, hvalue, hpair⟩ := Option.bind_eq_some_iff.mp (ht 0)
    cases hpair
    exact .scalar hvalue depth
  cases depth with
  | zero =>
    obtain ⟨target, m, k, hfollow, htarget, rfl⟩ := h.unbind (d.steady_follow node)
    cases target with
    | scalar tag plain t => exact ⟨_, m, k, hfollow, hscalar htarget, rfl⟩
    | sequence _ _ | mapping _ _ | reference _ => exact absurd (htarget 0) nofun
  | succ depth =>
    obtain ⟨target, m, k, hfollow, htarget, rfl⟩ := h.unbind (d.steady_follow node)
    cases target with
    | reference number => exact absurd (htarget 0) nofun
    | scalar tag plain t => exact ⟨_, m, k, hfollow, hscalar htarget, rfl⟩
    | sequence tag items =>
      dsimp only at htarget
      split at htarget
      · exact absurd (htarget 0) nofun
      · obtain ⟨values, k, k', hitems, hpure, rfl⟩ :=
          htarget.unbind (.mapM (d.steady_value? depth) items)
        obtain ⟨rfl, rfl⟩ := hpure.unpure
        exact ⟨_, m, k, hfollow, .sequence tag hitems, rfl⟩
    | mapping tag entries =>
      dsimp only at htarget
      split at htarget
      · exact absurd (htarget 0) nofun
      · obtain ⟨members, k, k', hmembers, hpure, rfl⟩ :=
          htarget.unbind (d.steady_members? (d.steady_value? depth) entries)
        obtain ⟨rfl, rfl⟩ := hpure.unpure
        exact ⟨_, m, k, hfollow, .mapping tag hmembers, rfl⟩

/-- A node that means a text is one, and reading it as a text follows the same references. -/
theorem gives_text? {depth n : Nat} {node : Node} {t : Text}
    (h : Gives (d.value? depth node) (.string t) n) : Gives (d.text? node) t n := by
  obtain ⟨target, m, k, hfollow, htarget, rfl⟩ := d.gives_target h
  cases htarget with
  | scalar hscalar =>
    obtain rfl := scalar?_string hscalar
    exact hfollow.bind (Gives.pure t)

/-- A node that means an object has entries, which mean its members. -/
theorem gives_entries? {depth n : Nat} {node : Node} {members : Members}
    (h : Gives (d.value? (depth + 1) node) (.object members) n) :
    ∃ entries m k, Gives (d.entries? node) entries m ∧
      Gives (d.members? (d.value? depth) entries) members k ∧ n = m + k := by
  obtain ⟨target, m, k, hfollow, htarget, rfl⟩ := d.gives_target h
  cases htarget with
  | scalar hscalar => exact absurd hscalar (scalar?_ne_object _ _ _ members)
  | @mapping _ _ entries _ tag hmembers =>
    have hentries : Gives (d.entries? node) entries (m + 0) := hfollow.bind (Gives.pure entries)
    exact ⟨entries, m, k, hentries, hmembers, rfl⟩

end Document

/-! ## Entries one by one -/

/-- An entry of a mapping as it is read: its name, its value, the node of that, and how many
references the reading of each follows. -/
structure ReadEntry where
  name : Text
  node : Node
  value : Json
  nameCost : Nat
  valueCost : Nat

namespace ReadEntry

def member (e : ReadEntry) : Text × Json := (e.name, e.value)

/-- The entry of a name, if one has it. -/
def find? (es : List ReadEntry) (name : Text) : Option ReadEntry := es.find? (·.name = name)

theorem find?_cons_self (e : ReadEntry) (es : List ReadEntry) :
    find? (e :: es) e.name = some e := by
  simp [find?]

theorem find?_cons_of_ne {e : ReadEntry} {name : Text} (h : e.name ≠ name) (es : List ReadEntry) :
    find? (e :: es) name = find? es name := by
  simp [find?, h]

theorem find?_eq_none {es : List ReadEntry} {name : Text} (h : name ∉ es.map (·.name)) :
    find? es name = none := by
  rw [find?, List.find?_eq_none]
  intro e he
  have hne : e.name ≠ name := fun heq => h (List.mem_map.mpr ⟨e, he, heq⟩)
  simpa using hne

theorem get?_members (es : List ReadEntry) (name : Text) :
    Members.get? (es.map member) name = (find? es name).map value := by
  induction es with
  | nil => rfl
  | cons e es ih =>
    by_cases h : e.name = name
    · simp [Members.get?, find?, member, h]
    · have hne : (name == e.name) = false := by simpa using Ne.symm h
      rw [find?_cons_of_ne h, ← ih]
      simp [Members.get?, List.lookup_cons, member, hne]

/-- How many references the reading of all names follows. -/
def nameCosts : List ReadEntry → Nat
  | [] => 0
  | e :: es => e.nameCost + nameCosts es

/-- How many references the reading of all values follows. -/
def valueCosts : List ReadEntry → Nat
  | [] => 0
  | e :: es => e.valueCost + valueCosts es

/-- How many references the reading of the value of a name follows. -/
def costAt (es : List ReadEntry) (name : Text) : Nat := ((find? es name).map (·.valueCost)).getD 0

theorem costAt_cons_self (e : ReadEntry) (es : List ReadEntry) :
    costAt (e :: es) e.name = e.valueCost := by
  rw [costAt, find?_cons_self]
  rfl

theorem costAt_cons_of_ne {e : ReadEntry} {name : Text} (h : e.name ≠ name) (es : List ReadEntry) :
    costAt (e :: es) name = costAt es name := by
  rw [costAt, find?_cons_of_ne h, costAt]

theorem costAt_le (es : List ReadEntry) (name : Text) : costAt es name ≤ valueCosts es := by
  induction es with
  | nil => exact Nat.le_refl 0
  | cons e es ih =>
    rw [valueCosts]
    by_cases h : e.name = name
    · rw [← h, costAt_cons_self]
      exact Nat.le_add_right ..
    · rw [costAt_cons_of_ne h]
      exact Nat.le_add_left_of_le ih

/-- The values of two names do not share the references that their reading follows. -/
theorem costAt_add_le (es : List ReadEntry) {name name' : Text} (h : name ≠ name') :
    costAt es name + costAt es name' ≤ valueCosts es := by
  induction es with
  | nil => exact Nat.le_refl 0
  | cons e es ih =>
    rw [valueCosts]
    by_cases hname : e.name = name
    · subst hname
      rw [costAt_cons_self, costAt_cons_of_ne h]
      exact Nat.add_le_add_left (costAt_le es name') _
    · by_cases hname' : e.name = name'
      · subst hname'
        rw [costAt_cons_self, costAt_cons_of_ne hname, Nat.add_comm]
        exact Nat.add_le_add_left (costAt_le es name) _
      · rw [costAt_cons_of_ne hname, costAt_cons_of_ne hname']
        exact Nat.le_add_left_of_le ih

end ReadEntry

namespace Document
variable (d : Document)

/-- An entry of a mapping is read as this one. -/
structure Reads (value? : Node → Following Json) (entry : Node × Node) (e : ReadEntry) : Prop where
  name : Gives (d.text? entry.1) e.name e.nameCost
  node : entry.2 = e.node
  value : Gives (value? e.node) e.value e.valueCost

/-- The members that entries set come from the entries one by one. -/
theorem exists_reads {value? : Node → Following Json} (hvalue : ∀ node, Steady (value? node))
    {entries : List (Node × Node)} {members : Members} {n : Nat}
    (h : Gives (d.members? value? entries) members n) :
    ∃ es, List.Forall₂ (d.Reads value?) entries es ∧
      members = Members.setAll [] (es.map ReadEntry.member) ∧
      n = ReadEntry.nameCosts es + ReadEntry.valueCosts es := by
  rw [members?] at h
  generalize ([] : Members) = read at h ⊢
  induction entries generalizing read n with
  | nil =>
    obtain ⟨rfl, rfl⟩ := h.unpure
    exact ⟨[], .nil, rfl, rfl⟩
  | cons entry entries ih =>
    have hstep (read : Members) : Steady (do
        let name ← d.text? entry.1
        return Members.set read name (← value? entry.2)) :=
      (d.steady_text? entry.1).bind fun name =>
        (hvalue entry.2).bind fun value => .pure (Members.set read name value)
    rw [List.foldlM_cons] at h
    obtain ⟨read', m, k, hentry, hfurther, rfl⟩ := h.unbind (hstep read)
    obtain ⟨name, a, m, hname, hnamed, rfl⟩ := hentry.unbind (d.steady_text? entry.1)
    obtain ⟨value, b, m, hval, hset, rfl⟩ := hnamed.unbind (hvalue entry.2)
    obtain ⟨rfl, rfl⟩ := hset.unpure
    obtain ⟨es, hes, rfl, rfl⟩ := ih _ hfurther
    refine ⟨⟨name, entry.2, value, a, b⟩ :: es, .cons ⟨hname, rfl, hval⟩ hes, rfl, ?_⟩
    simp only [ReadEntry.nameCosts, ReadEntry.valueCosts]
    omega

/-- The names of a mapping, as they are written. -/
def names? (node : Node) : Following (List Text) := do
  (← d.entries? node).mapM fun entry => d.text? entry.1

theorem gives_names {value? : Node → Following Json} {entries : List (Node × Node)}
    {es : List ReadEntry} (h : List.Forall₂ (d.Reads value?) entries es) :
    Gives (entries.mapM fun entry => d.text? entry.1) (es.map (·.name))
      (ReadEntry.nameCosts es) := by
  induction h with
  | nil => exact Gives.pure []
  | @cons entry e entries es hentry hes ih =>
    rw [List.mapM_cons]
    exact hentry.name.bind (ih.bind (n := 0) (Gives.pure (e.name :: es.map (·.name))))

theorem exists_entry_of_mem {value? : Node → Following Json} {entries : List (Node × Node)}
    {es : List ReadEntry} (h : List.Forall₂ (d.Reads value?) entries es) {e : ReadEntry}
    (he : e ∈ es) : ∃ entry ∈ entries, d.Reads value? entry e := by
  induction h with
  | nil => exact absurd he List.not_mem_nil
  | @cons entry head entries es hentry _ ih =>
    rcases List.mem_cons.mp he with rfl | he
    · exact ⟨entry, List.mem_cons_self, hentry⟩
    · obtain ⟨entry', hmem, hreads⟩ := ih he
      exact ⟨entry', List.mem_cons_of_mem entry hmem, hreads⟩

/-- A node that means an object, and its entries, of distinct names, as they are read. -/
structure ObjectReading (depth : Nat) (node : Node) (members : Members) (n : Nat) where
  entries : List (Node × Node)
  es : List ReadEntry
  cost : Nat
  entries_eq : Gives (d.entries? node) entries cost
  reads : List.Forall₂ (d.Reads (d.value? depth)) entries es
  nodup : (es.map (·.name)).Nodup
  members_eq : es.map ReadEntry.member = members
  cost_eq : n = cost + (ReadEntry.nameCosts es + ReadEntry.valueCosts es)

theorem exists_reading {depth n : Nat} {node : Node} {members : Members}
    (h : Gives (d.value? (depth + 1) node) (.object members) n)
    (honce : Yields (d.names? node) List.Nodup) :
    Nonempty (d.ObjectReading depth node members n) := by
  obtain ⟨entries, m, k, hentries, hmembers, rfl⟩ := d.gives_entries? h
  obtain ⟨es, hreads, rfl, rfl⟩ := d.exists_reads (d.steady_value? depth) hmembers
  have hnames := (hentries.bind (d.gives_names hreads)).of_yields honce
  have hset : Members.setAll [] (es.map ReadEntry.member) = es.map ReadEntry.member := by
    have hmembers : (Members.names ([] ++ es.map ReadEntry.member)).Nodup := by
      rw [List.nil_append, Members.names, List.map_map]
      exact hnames
    rw [Members.setAll_of_nodup hmembers, List.nil_append]
  exact ⟨⟨entries, es, m, hentries, hreads, hnames, hset.symm, rfl⟩⟩

namespace ObjectReading
variable {d} {depth n : Nat} {node : Node} {members : Members}

theorem get?_eq (r : d.ObjectReading depth node members n) (name : Text) :
    Members.get? members name = (ReadEntry.find? r.es name).map (·.value) := by
  rw [← ReadEntry.get?_members, r.members_eq]

theorem find?_eq_none (r : d.ObjectReading depth node members n) {name : Text}
    (h : Members.get? members name = none) : ReadEntry.find? r.es name = none := by
  rwa [r.get?_eq, Option.map_eq_none_iff] at h

/-- The entry of a name that the object has. -/
theorem exists_entry (r : d.ObjectReading depth node members n) {name : Text} {v : Json}
    (h : Members.get? members name = some v) :
    ∃ e ∈ r.es, ReadEntry.find? r.es name = some e ∧
      Gives (d.value? depth e.node) v (ReadEntry.costAt r.es name) := by
  rw [r.get?_eq, Option.map_eq_some_iff] at h
  obtain ⟨e, hfind, rfl⟩ := h
  have hmem : e ∈ r.es := List.mem_of_find?_eq_some hfind
  obtain ⟨entry, -, hreads⟩ := d.exists_entry_of_mem r.reads hmem
  refine ⟨e, hmem, hfind, ?_⟩
  rw [ReadEntry.costAt, hfind]
  exact hreads.value

end ObjectReading
end Document
end Stencil.Yaml
