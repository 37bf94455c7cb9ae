import Stencil.Proofs.Engine.Failures
import Stencil.Proofs.Traversal

/-!
# Links of items

A loop over items may have the link of each item rendered as a template, and digested or encoded
then. Main statement: each link is rendered with its item as the whole context, whatever else the
context of the loop holds; the loop succeeds exactly when all of these renderings do, and writes
what becomes of them in the order of the items.
-/

namespace Stencil

namespace Template

/-! ## Loops over an array -/

section
variable {answers : Answers} {env : Environment} {body : Part}
  {out : Json → Except RenderError Text}
  (hbody : ∀ scope, scope.names = [] →
    (body (env.inside scope)).run answers = (out scope.base.value).map env.give)
include hbody

/-- A loop whose body sees of a scope only its data goes through the values in turn. -/
theorem renderItems_eq_mapM {arguments : Arguments} (hnames : arguments.names = [])
    (items : List (Text × Json × Json)) (first : Bool) :
    (renderItems arguments body items first env).run answers =
      ((items.mapM fun item => out item.2.2).map List.flatten).map env.give := by
  induction items generalizing first with
  | nil => rfl
  | cons item rest ih =>
    obtain ⟨label, key, value⟩ := item
    let scope : Scope := ⟨⟨value, arguments.computed⟩,
      [("first".toList, .bool first), ("last".toList, .bool rest.isEmpty), (label, key)],
      loopNames arguments.names ⟨value, arguments.computed⟩ key⟩
    have hscope : scope.names = [] := by
      dsimp only [scope]
      rw [hnames]
      rfl
    calc (renderItems arguments body ((label, key, value) :: rest) first env).run answers
      _ = (andThen env (fun env => body (env.inside scope))
          (renderItems arguments body rest false)).run answers := rfl
      _ = Except.map env.give (do return (← out value) ++
          (← (rest.mapM fun item => out item.2.2).map List.flatten)) :=
        run_andThen (hbody scope hscope) (ih false)
      _ = ((((label, key, value) :: rest).mapM fun item : Text × Json × Json =>
          out item.2.2).map List.flatten).map env.give := by
        rw [List.mapM_cons]
        cases out value with
        | error e => rfl
        | ok text => cases rest.mapM fun item => out item.2.2 <;> rfl

omit hbody in
theorem map_value_indexed (index : Nat) (items : List Json) :
    (indexed index items).map (fun item => item.2.2) = items := by
  induction items generalizing index with
  | nil => rfl
  | cons item items ih => rw [indexed, List.map_cons, ih]

theorem renderEach_array (items : List Json) (computed : Bool) :
    (renderEach env ⟨[.array items], [], [], computed⟩ body noPart).run answers =
      ((items.mapM out).map List.flatten).map env.give := by
  cases items with
  | nil => rfl
  | cons item items =>
    let arguments : Arguments := ⟨[.array (item :: items)], [], [], computed⟩
    calc (renderEach env arguments body noPart).run answers
      _ = (renderItems arguments body (indexed 0 (item :: items)) true env).run answers := rfl
      _ = (((indexed 0 (item :: items)).mapM fun item => out item.2.2).map List.flatten).map
          env.give := renderItems_eq_mapM hbody rfl _ true
      _ = ((((indexed 0 (item :: items)).map fun item => item.2.2).mapM out).map
          List.flatten).map env.give := by
        rw [List.mapM_map]
        rfl
      _ = (((item :: items).mapM out).map List.flatten).map env.give := by rw [map_value_indexed]

end

/-! ## The source and its template -/

/-- The source that writes, for each of the items, what a helper makes of its link. -/
def eachLink (helper : Text) : Text :=
  "\x7b\x7b#each items\x7d\x7d\x7b\x7b".toList ++ helper ++
    " link\x7d\x7d\x7b\x7b/each\x7d\x7d".toList

/-- The call of a helper with the link of the item. -/
def linkCall (position : Position) (helper : Text) : Template :=
  [.invoke position false ⟨helper, [.path (.ofName "link".toList)], []⟩ [] [] []]

/-- The template of the source, with its tags at the given places. -/
def eachLinkTemplate (outer inner : Position) (helper : Text) : Template :=
  [.invoke outer true ⟨"each".toList, [.path (.ofName "items".toList)], []⟩ []
    (linkCall inner helper) []]

/-- Whether a template is that of the source, its places aside. -/
def isEachLink (helper : Text) : Template → Bool
  | [.invoke _ true ⟨name, [.path items], []⟩ []
      [.invoke _ false ⟨called, [.path link], []⟩ [] [] []] []] =>
    name = "each".toList && items = .ofName "items".toList && called = helper &&
      link = .ofName "link".toList
  | _ => false

theorem eq_of_isEachLink {helper : Text} {template : Template}
    (h : isEachLink helper template = true) :
    ∃ outer inner, template = eachLinkTemplate outer inner helper := by
  unfold isEachLink at h
  split at h
  · next outer name items inner called link =>
    simp only [Bool.and_eq_true, decide_eq_true_eq] at h
    obtain ⟨⟨⟨rfl, rfl⟩, rfl⟩, rfl⟩ := h
    exact ⟨outer, inner, rfl⟩
  · exact absurd h (by simp)

/-! ## What the call writes -/

/-- The link of an item, when there is something to render. -/
def linkOf? (item : Members) : Option Text :=
  match item.get? "link".toList with
  | some (.string (c :: t)) => some (c :: t)
  | _ => none

/-- The link is missing, null or a text. -/
def HasLink (item : Members) : Prop :=
  item.get? "link".toList = none ∨ item.get? "link".toList = some .null ∨
    ∃ t, item.get? "link".toList = some (.string t)

/-- The link rendered with the item as its whole data, and then transformed; nothing when there is
none. -/
def linkText (answers : Answers) (f : Text → Text) (item : Members) : Except RenderError Text :=
  match linkOf? item with
  | none => .ok []
  | some link => (answers (.source link (.object item))).map f

/-- What is written for an item. A failure gets the place of the call. -/
def linkOutcome (answers : Answers) (f : Text → Text) (position : Position) (item : Members) :
    Except RenderError Text :=
  (linkText answers f item).mapError (·.placedAt position)

/-- The body of the loop: the call for the item of the scope. -/
def linkPart (helpers : HelperTable) (position : Position) (helper : Text) : Part :=
  fun env => renderElements helpers (linkCall position helper) env

/-- What the call writes when the given value is all of the data. -/
def callOutcome (answers : Answers) (f : Text → Text) (position : Position) (data : Json) :
    Except RenderError Text :=
  (((pathValue (.ofData data) (.ofName "link".toList)).bind fun value =>
    renderTransform f (.ofData data) ⟨[value], [], [], true⟩).run answers).mapError
      (·.placedAt position)

section
variable {helpers : HelperTable} {answers : Answers} {helper : Text} {f : Text → Text}

/-- The call sees of a scope only its data, as if that were all there is. -/
theorem linkPart_scope (hhelper : helpers.lookup helper = some (.transform f))
    (position : Position) (data : Json) (scope : Scope) (hnames : scope.names = []) :
    (linkPart helpers position helper ((Environment.ofData data).inside scope)).run answers =
      (callOutcome answers f position scope.base.value).map (Environment.ofData data).give := by
  obtain ⟨⟨value, computed⟩, locals, names⟩ := scope
  cases hnames
  exact variableCall_eq hhelper position "link".toList _

theorem callOutcome_item (position : Position) {item : Members} (hlink : HasLink item) :
    callOutcome answers f position (.object item) = linkOutcome answers f position item := by
  rw [callOutcome, pathValue_ofName, linkOutcome, linkText, linkOf?]
  rcases hlink with hnone | hnull | ⟨t, ht⟩
  · rw [hnone]
    rfl
  · rw [hnull]
    rfl
  · rw [ht]
    cases t with
    | nil => rfl
    | cons c t =>
      have hnull : Json.string (c :: t) ≠ .null := by simp
      have hempty : Json.string (c :: t) ≠ .string [] := by simp
      have hrun : (renderTransform f (.ofData (.object item))
          ⟨[.string (c :: t)], [], [], true⟩).run answers =
            (answers (.source (c :: t) (.object item))).map f :=
        run_renderTransform rfl hnull hempty
      exact congrArg (Except.mapError _) hrun

/-- The template writes the texts of the links one after the other, whatever else the data holds. -/
theorem eachLinkTemplate_eq (heach : helpers.lookup "each".toList = some .each)
    (hhelper : helpers.lookup helper = some (.transform f)) (outer inner : Position)
    {members : Members} {items : List Members}
    (hitems : members.get? "items".toList = some (.array (items.map .object)))
    (hlinks : ∀ item ∈ items, HasLink item) :
    (renderTemplate helpers (eachLinkTemplate outer inner helper)
        (.ofData (.object members))).run answers =
      ((items.mapM (linkOutcome answers f inner)).map List.flatten).mapError
        (·.placedAt outer) := by
  have hoperands : operandValues helpers (.ofData (.object members))
      [.path (.ofName "items".toList)] = pure [.array (items.map .object)] := by
    rw [operandValues, operandValue, pathValue_ofName, hitems]
    rfl
  have hfind : findHelper helpers true "each".toList = some .each := by
    rw [findHelper, heach]
    rfl
  have hbody : (fun env => renderElements helpers (linkCall inner helper) env) =
      linkPart helpers inner helper := rfl
  have hinverse : (fun env => renderElements helpers [] env) = noPart := rfl
  have hloop : ∀ computed, (renderEach (.ofData (.object members))
      ⟨[.array (items.map .object)], [], [], computed⟩
      (linkPart helpers inner helper) noPart).run answers =
        (((items.map .object).mapM (callOutcome answers f inner)).map List.flatten).map
          (Environment.ofData (.object members)).give :=
    renderEach_array (linkPart_scope hhelper inner (.object members)) (items.map .object)
  have htexts : (items.map .object).mapM (callOutcome answers f inner) =
      items.mapM (linkOutcome answers f inner) := by
    rw [List.mapM_map]
    exact Traversal.mapM_congr fun item hitem => callOutcome_item inner (hlinks item hitem)
  rw [renderTemplate, Rendering.run_map, eachLinkTemplate, run_renderElements_singleton,
    renderElement, Rendering.run_placedAt, renderCall, hoperands]
  simp only [bind, pure, Rendering.bind, optionValues, hfind, Helper.run, hbody, hinverse]
  rw [Rendering.run_map, Rendering.run_map, hloop, htexts]
  cases items.mapM (linkOutcome answers f inner) <;> rfl

end

end Template

namespace Engine
open Template

/-- The helpers that render their operand, by name, and what they make of the result. -/
def transforms : List (Text × (Text → Text)) :=
  [("sha256".toList, Sha256.digestText), ("urlEncode".toList, Encoding.form)]

theorem name_of_mem_transforms {helper : Text} {f : Text → Text} (h : (helper, f) ∈ transforms) :
    helper = "sha256".toList ∨ helper = "urlEncode".toList := by
  simp only [transforms, List.mem_cons, List.not_mem_nil, or_false, Prod.mk.injEq] at h
  exact h.imp And.left And.left

/-- The engine loops over arrays, and of the helpers that render their operand it has these two. -/
structure LoopsAndTransforms (engine : Engine) : Prop where
  each : engine.helpers.lookup "each".toList = some .each
  transform_iff : ∀ name f,
    engine.helpers.lookup name = some (.transform f) ↔ (name, f) ∈ transforms

theorem standard_loopsAndTransforms (now : Int) : (standard now).LoopsAndTransforms := by
  refine ⟨rfl, fun name f => ⟨fun h => ?_, fun h => ?_⟩⟩
  · obtain ⟨before, after, htable, -⟩ := List.lookup_eq_some_iff.mp h
    have hmem : (name, Helper.transform f) ∈ (standard now).helpers := by simp [htable]
    simpa [standard, Toolkit.helpers, basicHelpers, lookupHelper, test, binary, unary, comparison,
      transforms] using hmem
  · simp only [transforms, List.mem_cons, List.not_mem_nil, or_false, Prod.mk.injEq] at h
    rcases h with ⟨rfl, rfl⟩ | ⟨rfl, rfl⟩
    · rfl
    · rfl

theorem render_eq_ok_iff {engine : Engine} {source text : Text} {context : Context} :
    engine.render source context = .ok text ↔
      Template.render engine.helpers engine.room source context.toJson = .ok text := by
  rw [render]
  cases Template.render engine.helpers engine.room source context.toJson with
  | ok t => simp
  | error e => cases validate source <;> simp

section
variable {engine : Engine}

/-- The link of the item is missing, null or a text that calls neither of the two helpers. -/
structure AllowsLink (item : Members) : Prop where
  hasLink : HasLink item
  calls_neither : ∀ link template, linkOf? item = some link → parse link = .ok template →
    "sha256".toList ∉ calls template ∧ "urlEncode".toList ∉ calls template

/-- What is written for an item: nothing without a link, else what the transform makes of the link,
rendered with the item as its whole context. -/
inductive Writes (engine : Engine) (f : Text → Text) (item : Members) : Text → Prop
  | nothing : linkOf? item = none → Writes engine f item []
  | link {link t : Text} : linkOf? item = some link → engine.render link ⟨item⟩ = .ok t →
      Writes engine f item (f t)

theorem LoopsAndTransforms.findHelper_ne (h : engine.LoopsAndTransforms) {names : List Text}
    (hnames : "sha256".toList ∉ names ∧ "urlEncode".toList ∉ names) :
    ∀ name ∈ names, ∀ isBlock f,
      findHelper engine.helpers isBlock name ≠ some (.transform f) := by
  intro name hname isBlock f hfind
  rcases Option.or_eq_some_iff.mp hfind with hown | ⟨-, hmissing⟩
  · have hmem := (h.transform_iff name f).mp hown
    rcases name_of_mem_transforms hmem with rfl | rfl
    · exact hnames.1 hname
    · exact hnames.2 hname
  · have hmem := (h.transform_iff _ f).mp hmissing
    have hname : (if isBlock then missingBlockName else missingName) ∈ transforms.map Prod.fst :=
      List.mem_map_of_mem hmem
    have hother : missingBlockName ∉ transforms.map Prod.fst ∧
        missingName ∉ transforms.map Prod.fst := by decide
    cases isBlock with
    | true => exact hother.1 hname
    | false => exact hother.2 hname

/-- Inside a loop, one level deeper, the link is rendered as by itself. -/
theorem LoopsAndTransforms.answers_link (h : engine.LoopsAndTransforms) {item : Members}
    (hitem : AllowsLink item) {link : Text} (hlink : linkOf? item = some link) (data : Json) :
    engine.answers (.source link data) = Template.render engine.helpers engine.room link data :=
  renderSource_eq_of_calls (fun template hparse =>
    h.findHelper_ne (hitem.calls_neither link template hlink hparse)) engine.room engine.room
      (engine.room + 1) data

theorem writes_of_none {f : Text → Text} {item : Members} (hlink : linkOf? item = none)
    (text : Text) : Writes engine f item text ↔ text = [] := by
  constructor
  · rintro (- | ⟨hsome, -⟩)
    · rfl
    · exact absurd (hlink.symm.trans hsome) (by simp)
  · rintro rfl
    exact .nothing hlink

theorem writes_of_some {f : Text → Text} {item : Members} {link : Text}
    (hlink : linkOf? item = some link) (text : Text) :
    Writes engine f item text ↔ ∃ t, engine.render link ⟨item⟩ = .ok t ∧ f t = text := by
  constructor
  · rintro (hnone | ⟨hsome, ht⟩)
    · exact absurd (hnone.symm.trans hlink) (by simp)
    · have heq := Option.some.inj (hsome.symm.trans hlink)
      exact ⟨_, heq ▸ ht, rfl⟩
  · rintro ⟨t, ht, rfl⟩
    exact .link hlink ht

theorem LoopsAndTransforms.linkText_eq_ok_iff (h : engine.LoopsAndTransforms) {item : Members}
    (hitem : AllowsLink item) (f : Text → Text) (text : Text) :
    linkText engine.answers f item = .ok text ↔ Writes engine f item text := by
  rw [linkText]
  cases hlink : linkOf? item with
  | none =>
    rw [writes_of_none hlink]
    exact ⟨fun hnil => (Except.ok.inj hnil).symm, fun hnil => congrArg Except.ok hnil.symm⟩
  | some link =>
    rw [writes_of_some hlink]
    dsimp only
    rw [h.answers_link hitem hlink, Fallible.map_eq_ok_iff]
    exact exists_congr fun t => and_congr_left fun _ => render_eq_ok_iff.symm

theorem exists_writes_iff {f : Text → Text} {item : Members} :
    (∃ text, Writes engine f item text) ↔
      ∀ link, linkOf? item = some link → ∃ t, engine.render link ⟨item⟩ = .ok t := by
  cases hlink : linkOf? item with
  | none => simp [writes_of_none hlink]
  | some link =>
    simp only [writes_of_some hlink, Option.some.injEq, forall_eq']
    exact ⟨fun ⟨_, t, ht, _⟩ => ⟨t, ht⟩, fun ⟨t, ht⟩ => ⟨f t, t, ht, rfl⟩⟩

/-- Rendering the source goes through the links of the items and depends on nothing else. -/
theorem LoopsAndTransforms.render_eachLink_eq (h : engine.LoopsAndTransforms) {helper : Text}
    {f : Text → Text} (hhelper : (helper, f) ∈ transforms) :
    ∃ outer inner, ∀ (context : Context) (items : List Members),
      context.get? "items".toList = some (.array (items.map .object)) →
      (∀ item ∈ items, HasLink item) →
      engine.render (eachLink helper) context =
        (((items.mapM (linkOutcome engine.answers f inner)).map List.flatten).mapError
          (·.placedAt outer)).mapError .renderError := by
  have hsource : (parse (eachLink helper)).toOption.any (isEachLink helper) = true := by
    rcases name_of_mem_transforms hhelper with rfl | rfl
    · decide +kernel
    · decide +kernel
  obtain ⟨template, hparse, htest⟩ := Fallible.exists_of_any hsource
  obtain ⟨outer, inner, rfl⟩ := eq_of_isEachLink htest
  refine ⟨outer, inner, fun context items hitems hlinks => ?_⟩
  rw [render_of_parse_ok _ _ _ hparse, Context.toJson,
    eachLinkTemplate_eq h.each ((h.transform_iff helper f).mpr hhelper) outer inner hitems hlinks]

/-- Links in their own scope. Rendering the source succeeds exactly when each link that is there
renders with its item as the whole context; it then writes the transforms of these texts in turn,
and nothing for an item without a link. Otherwise it fails while it is written. No variable but the
items counts. -/
theorem render_eachLink_in_scope (h : engine.LoopsAndTransforms) {helper : Text} {f : Text → Text}
    (hhelper : (helper, f) ∈ transforms) {context : Context} {items : List Members}
    (hitems : context.get? "items".toList = some (.array (items.map .object)))
    (hlinks : ∀ item ∈ items, AllowsLink item) :
    ((∃ text, engine.render (eachLink helper) context = .ok text) ↔
      ∀ item ∈ items, ∀ link, linkOf? item = some link →
        ∃ t, engine.render link ⟨item⟩ = .ok t) ∧
    (∀ textOf : Members → Text, (∀ item ∈ items, Writes engine f item (textOf item)) →
      engine.render (eachLink helper) context = .ok (items.flatMap textOf)) ∧
    ((∃ item ∈ items, ∃ link e, linkOf? item = some link ∧ engine.render link ⟨item⟩ = .error e) →
      ∃ e, engine.render (eachLink helper) context = .error (.renderError e)) ∧
    ∀ other : Context, other.get? "items".toList = context.get? "items".toList →
      engine.render (eachLink helper) other = engine.render (eachLink helper) context := by
  obtain ⟨outer, inner, heq⟩ := h.render_eachLink_eq hhelper
  have hplaces : ∀ item ∈ items, HasLink item := fun item hitem => (hlinks item hitem).hasLink
  have hrender := heq context items hitems hplaces
  have hout : ∀ item ∈ items, ∀ text,
      linkOutcome engine.answers f inner item = .ok text ↔ Writes engine f item text := by
    intro item hitem text
    rw [← h.linkText_eq_ok_iff (hlinks item hitem)]
    exact Fallible.mapError_eq_ok_iff
  have hsucceeds : (∃ texts, items.mapM (linkOutcome engine.answers f inner) = .ok texts) ↔
      ∀ item ∈ items, ∀ link, linkOf? item = some link →
        ∃ t, engine.render link ⟨item⟩ = .ok t := by
    rw [Traversal.mapM_ok_iff]
    refine forall₂_congr fun item hitem => ?_
    rw [exists_congr (hout item hitem), exists_writes_iff]
  refine ⟨?_, ?_, ?_, ?_⟩
  · rw [← hsucceeds, hrender]
    cases items.mapM (linkOutcome engine.answers f inner) <;> simp [Except.map, Except.mapError]
  · intro textOf htexts
    have hall : items.mapM (linkOutcome engine.answers f inner) = .ok (items.map textOf) :=
      Traversal.mapM_eq_ok fun item hitem => (hout item hitem _).mpr (htexts item hitem)
    rw [hrender, hall]
    rfl
  · rintro ⟨item, hitem, link, e, hlink, he⟩
    cases hall : items.mapM (linkOutcome engine.answers f inner) with
    | error failure => exact ⟨_, by rw [hrender, hall]; rfl⟩
    | ok texts =>
      obtain ⟨t, ht⟩ := hsucceeds.mp ⟨texts, hall⟩ item hitem link hlink
      exact absurd (ht.symm.trans he) (by simp)
  · intro other hsame
    rw [heq other items (hsame.trans hitems) hplaces, hrender]

end

/-- A link with a variable that the context has too, a link that is null, and one that is missing. -/
theorem render_eachLink_in_scope_mixed :
    let first : Members := [("name".toList, .string "A B".toList),
      ("link".toList, .string "n=\x7b\x7bname\x7d\x7d\x7b\x7bcity\x7d\x7d".toList)]
    let items : List Members := [first, [("link".toList, .null)], [("name".toList, .string [])]]
    let context : Context :=
      ⟨[("city".toList, .string "C".toList), ("items".toList, .array (items.map .object))]⟩
    (standard 0).LoopsAndTransforms ∧ ("urlEncode".toList, Encoding.form) ∈ transforms ∧
      context.get? "items".toList = some (.array (items.map .object)) ∧
      (∀ item ∈ items, AllowsLink item) ∧
      (standard 0).render (eachLink "urlEncode".toList) context = .ok "n%3DA+B".toList := by
  intro first items context
  have hengine := standard_loopsAndTransforms 0
  have hhelper : ("urlEncode".toList, Encoding.form) ∈ transforms := by simp [transforms]
  have hitems : context.get? "items".toList = some (.array (items.map .object)) := rfl
  let link : Text := "n=\x7b\x7bname\x7d\x7d\x7b\x7bcity\x7d\x7d".toList
  have hcalls : (parse link).toOption.all (fun template => calls template = []) = true := by
    decide +kernel
  have hfirst : AllowsLink first := by
    have hpresent : linkOf? first = some link := rfl
    refine ⟨.inr (.inr ⟨link, rfl⟩), fun link' template hlink hparse => ?_⟩
    have heq : link = link' := Option.some.inj (hpresent.symm.trans hlink)
    rw [← heq] at hparse
    have hnone : calls template = [] := by
      rw [hparse] at hcalls
      exact of_decide_eq_true hcalls
    simp [hnone]
  have hnull : linkOf? [("link".toList, .null)] = none := rfl
  have hmissing : linkOf? [("name".toList, .string [])] = none := rfl
  have hlinks : ∀ item ∈ items, AllowsLink item := by
    intro item hitem
    simp only [items, List.mem_cons, List.not_mem_nil, or_false] at hitem
    rcases hitem with rfl | rfl | rfl
    · exact hfirst
    · exact ⟨.inr (.inl rfl), fun _ _ hlink => absurd (hnull.symm.trans hlink) (by simp)⟩
    · exact ⟨.inl rfl, fun _ _ hlink => absurd (hmissing.symm.trans hlink) (by simp)⟩
  have hlink : (standard 0).render link ⟨first⟩ = .ok "n=A B".toList := by decide +kernel
  have hwrites : ∀ item ∈ items, Writes (standard 0) Encoding.form item
      (if item = first then Encoding.form "n=A B".toList else []) := by
    intro item hitem
    simp only [items, List.mem_cons, List.not_mem_nil, or_false] at hitem
    rcases hitem with rfl | rfl | rfl
    · rw [if_pos rfl]
      exact .link rfl hlink
    · exact .nothing hnull
    · exact .nothing hmissing
  have hrender := (render_eachLink_in_scope hengine hhelper hitems hlinks).2.1 _ hwrites
  exact ⟨hengine, hhelper, hitems, hlinks, hrender.trans (by decide +kernel)⟩

end Engine
end Stencil
