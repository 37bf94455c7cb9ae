import Stencil.Proofs.Template.Requests
import Stencil.Template.Render

/-!
# Templates within a rendering

A helper may render a text from the data as a source of its own, and an inclusion writes a template
that is declared elsewhere. Main statement: what a template asks for can be read off it. It asks for
texts of sources only if it calls a helper that renders its operand, itself or in a template that it
holds, and for other templates only if it includes them; and of itself it always comes to its end.
-/

namespace Stencil.Template

/-! ## The helpers that a template calls -/

mutual
/-- The names that an operand calls. -/
def Operand.calls : Operand → List Text
  | .literal _ | .path _ => []
  | .call callee operands options => callee.name :: (operandCalls operands ++ optionCalls options)

def operandCalls : List Operand → List Text
  | [] => []
  | operand :: operands => operand.calls ++ operandCalls operands

def optionCalls : List (Text × Operand) → List Text
  | [] => []
  | (_, operand) :: options => operand.calls ++ optionCalls options
end

def Target.calls : Target → List Text
  | .named _ => []
  | .computed call => call.calls

def Inclusion.calls (inclusion : Inclusion) : List Text :=
  inclusion.target.calls ++ (operandCalls inclusion.operands ++ optionCalls inclusion.options)

/-- The names that the operands of a call or a directive call. -/
def Invocation.operandCalls (invocation : Invocation) : List Text :=
  Template.operandCalls invocation.operands ++ optionCalls invocation.options

def Invocation.calls (invocation : Invocation) : List Text :=
  invocation.name :: invocation.operandCalls

mutual
/-- The names that an element calls, also in the templates that it holds. A name that stands alone
in its tag is not among them: should it be that of a helper, there is no operand to render. -/
def Element.calls : Element → List Text
  | .text _ | .comment => []
  | .value _ operand => operand.calls
  | .invoke _ _ invocation _ body inverse => invocation.calls ++ (calls body ++ calls inverse)
  | .inclusion _ _ inclusion _ body => inclusion.calls ++ calls body
  | .directive _ _ invocation body => invocation.operandCalls ++ calls body

/-- The names that a template calls. -/
def calls : List Element → List Text
  | [] => []
  | element :: elements => element.calls ++ calls elements
end

mutual
/-- Whether an element includes other templates. A template that it only declares does not count. -/
def Element.includes : Element → Bool
  | .inclusion .. => true
  | .invoke _ _ _ _ body inverse => includes body || includes inverse
  | .text _ | .comment | .value .. | .directive .. => false

/-- Whether a template includes others. -/
def includes : List Element → Bool
  | [] => false
  | element :: elements => element.includes || includes elements
end

/-! ## What templates ask for -/

/-- The helpers, and what templates may ask for. -/
structure Allowance where
  helpers : HelperTable
  sources : Prop
  inclusions : Prop

namespace Allowance
variable (C : Allowance)

/-- If one of the names calls a helper that renders its operand, texts of sources are allowed. -/
def Covers (names : List Text) : Prop :=
  ∀ name ∈ names, ∀ isBlock f, findHelper C.helpers isBlock name = some (.transform f) → C.sources

def CoversInlines (inlines : Inlines) : Prop := ∀ entry ∈ inlines, C.Covers (calls entry.2)

/-- What a template can include calls helpers that are covered. -/
structure CoversEnv (env : Environment) : Prop where
  inlines : C.CoversInlines env.inlines
  blocks : ∀ template ∈ env.blocks, C.Covers (calls template)

/-- The requests that are allowed. -/
def Allows : Request → Prop
  | .source _ _ => C.sources
  | .template template env => C.inclusions ∧ C.Covers (calls template) ∧ C.CoversEnv env

/-- The rendering asks for nothing else, and what it declares is covered. -/
abbrev Keeps {α : Type} (r : Rendering (After α)) : Prop :=
  r.Keeps C.Allows fun a => C.CoversInlines a.inlines

/-- The rendering asks for nothing else, whatever its value is. -/
abbrev KeepsAny {α : Type} (r : Rendering α) : Prop := r.Keeps C.Allows fun _ => True

/-- A part of a block asks for nothing else in the environments that are covered. -/
def PartKeeps (part : Part) : Prop := ∀ env, C.CoversEnv env → C.Keeps (part env)

variable {C}

theorem Covers.subset {names fewer : List Text} (h : C.Covers names) (hsubset : fewer ⊆ names) :
    C.Covers fewer := fun name hname => h name (hsubset hname)

theorem Covers.left {names others : List Text} (h : C.Covers (names ++ others)) :
    C.Covers names := h.subset (List.subset_append_left names others)

theorem Covers.right {names others : List Text} (h : C.Covers (names ++ others)) :
    C.Covers others := h.subset (List.subset_append_right names others)

theorem Covers.tail {name : Text} {names : List Text} (h : C.Covers (name :: names)) :
    C.Covers names := h.subset (List.subset_cons_self name names)

namespace CoversEnv
variable {env : Environment}

theorem ofData (data : Json) : C.CoversEnv (.ofData data) :=
  ⟨List.forall_mem_nil _, List.forall_mem_nil _⟩

theorem inside (h : C.CoversEnv env) (scope : Scope) : C.CoversEnv (env.inside scope) :=
  ⟨h.inlines, h.blocks⟩

theorem declaring (h : C.CoversEnv env) {inlines : Inlines} (hinlines : C.CoversInlines inlines) :
    C.CoversEnv { env with inlines } := ⟨hinlines, h.blocks⟩

/-- A value that comes with nothing new declared. -/
theorem give (h : C.CoversEnv env) {α : Type} (a : α) :
    C.Keeps (pure (env.give a) : Rendering (After α)) := .value h.inlines

theorem including (h : C.CoversEnv env) (name : Text) (located : Option Json)
    (options : List (Text × Json)) (indent : Text) {body : Option Template}
    (hbody : ∀ template ∈ body, C.Covers (calls template)) :
    C.CoversEnv (env.including name located options indent body) := by
  refine ⟨h.inlines, fun template hmem => ?_⟩
  rcases List.mem_append.mp hmem with hown | hother
  · exact hbody template (Option.mem_toList.mp hown)
  · exact h.blocks template hother

theorem template? (h : C.CoversEnv env) {name : Text} {template : Template}
    (hfound : env.template? name = some template) : C.Covers (calls template) := by
  unfold Environment.template? at hfound
  split at hfound
  · exact h.blocks template (List.mem_of_getElem? hfound)
  · obtain ⟨before, after, htable, -⟩ := List.lookup_eq_some_iff.mp hfound
    exact h.inlines (name, template) (by simp [htable])

end CoversEnv

/-! ## Helpers -/

theorem andThen_keeps {env : Environment} (henv : C.CoversEnv env) {first second : Part}
    (hfirst : C.PartKeeps first) (hsecond : C.PartKeeps second) :
    C.Keeps (andThen env first second) := by
  refine (hfirst env henv).bind fun head hhead => ?_
  exact (hsecond _ (henv.declaring hhead)).bind fun tail htail => .value htail

variable {body inverse : Part}

theorem renderItems_keeps (hbody : C.PartKeeps body) (arguments : Arguments)
    (items : List (Text × Json × Json)) (first : Bool) :
    C.PartKeeps (renderItems arguments body items first) := by
  induction items generalizing first with
  | nil => exact fun env henv => henv.give []
  | cons item rest ih =>
    obtain ⟨label, key, value⟩ := item
    exact fun env henv => andThen_keeps henv (fun env henv => hbody _ (henv.inside _)) (ih false)

theorem missingOperand_keeps {α : Type} {P : α → Prop} (name : Text) :
    (missingOperand name).Keeps C.Allows P := .fail (by simp)

theorem renderTransform_keeps (hsources : C.sources) (f : Text → Text) (env : Environment)
    (arguments : Arguments) : C.KeepsAny (renderTransform f env arguments) := by
  unfold renderTransform
  split
  · exact .value trivial
  · exact .value trivial
  · exact .value trivial
  · exact .ask hsources fun text => .value trivial

section
variable {env : Environment} (henv : C.CoversEnv env) (arguments : Arguments)
  (hbody : C.PartKeeps body) (hinverse : C.PartKeeps inverse)
include henv hbody hinverse

theorem renderConditional_keeps (name : Text) (expected : Bool) :
    C.Keeps (renderConditional name expected env arguments body inverse) := by
  unfold renderConditional
  split
  · exact missingOperand_keeps name
  · split
    · exact hbody env henv
    · exact hinverse env henv

theorem renderEach_keeps : C.Keeps (renderEach env arguments body inverse) := by
  unfold renderEach
  split
  · exact missingOperand_keeps _
  · exact renderItems_keeps hbody arguments _ true env henv
  · exact renderItems_keeps hbody arguments _ true env henv
  · exact hinverse env henv

theorem renderWithin_keeps : C.Keeps (renderWithin env arguments body inverse) := by
  unfold renderWithin
  split
  · exact missingOperand_keeps _
  · split
    · exact hbody _ (henv.inside _)
    · exact hinverse env henv

/-- Only a helper that renders its operand asks for the text of a source by itself. -/
theorem run_keeps (helper : Helper) (hsources : ∀ f, helper = .transform f → C.sources) :
    C.Keeps (helper.run env arguments body inverse) := by
  cases helper with
  | conditional name expected =>
    exact (renderConditional_keeps henv arguments hbody hinverse name expected).map fun _ h => h
  | each => exact (renderEach_keeps henv arguments hbody hinverse).map fun _ h => h
  | within => exact (renderWithin_keeps henv arguments hbody hinverse).map fun _ h => h
  | pass => exact (hbody env henv).map fun _ h => h
  | silent => exact henv.give _
  | function compute =>
    rw [Helper.run]
    split
    · exact henv.give _
    · exact .fail (by simp)
  | writer compute =>
    rw [Helper.run]
    split
    · exact henv.give _
    · exact .fail (by simp)
  | transform f =>
    exact (renderTransform_keeps (hsources f rfl) f env arguments).map fun _ _ => henv.inlines

end

theorem noPart_keeps : C.PartKeeps noPart := fun _ henv => henv.give []

/-! ## Operands -/

mutual
theorem operandValue_keeps {env : Environment} (henv : C.CoversEnv env) (operand : Operand)
    (hcalls : C.Covers operand.calls) : C.KeepsAny (operandValue C.helpers env operand) := by
  match operand with
  | .literal value => exact .value trivial
  | .path path =>
    rw [operandValue, pathValue]
    split
    · exact .value trivial
    · exact .fail (by simp)
  | .call callee operands options =>
    rw [Operand.calls] at hcalls
    have hparts : C.Covers (operandCalls operands ++ optionCalls options) := hcalls.tail
    rw [operandValue]
    refine (operandValues_keeps henv operands hparts.left).bind fun values _ => ?_
    refine (optionValues_keeps henv options hparts.right).bind fun named _ => ?_
    split
    · next helper hhelper =>
      refine (run_keeps henv _ noPart_keeps noPart_keeps helper fun f hf => ?_).map
        fun _ _ => trivial
      exact hcalls callee.name List.mem_cons_self false f (hf ▸ hhelper)
    · exact .fail (by simp)

theorem operandValues_keeps {env : Environment} (henv : C.CoversEnv env)
    (operands : List Operand) (hcalls : C.Covers (operandCalls operands)) :
    C.KeepsAny (operandValues C.helpers env operands) := by
  match operands with
  | [] => exact .value trivial
  | operand :: operands =>
    rw [operandValues]
    refine (operandValue_keeps henv operand (Covers.left hcalls)).bind fun value _ => ?_
    exact (operandValues_keeps henv operands (Covers.right hcalls)).bind fun _ _ => .value trivial

theorem optionValues_keeps {env : Environment} (henv : C.CoversEnv env)
    (options : List (Text × Operand)) (hcalls : C.Covers (optionCalls options)) :
    C.KeepsAny (optionValues C.helpers env options) := by
  match options with
  | [] => exact .value trivial
  | (name, operand) :: options =>
    rw [optionValues]
    refine (operandValue_keeps henv operand (Covers.left hcalls)).bind fun value _ => ?_
    exact (optionValues_keeps henv options (Covers.right hcalls)).bind fun _ _ => .value trivial
end

section
variable {env : Environment} (henv : C.CoversEnv env)
include henv

/-! ## Values and calls -/

theorem renderCall_keeps (isBlock : Bool) (invocation : Invocation)
    (hcalls : C.Covers invocation.calls) (names : List Text) (hbody : C.PartKeeps body)
    (hinverse : C.PartKeeps inverse) :
    C.Keeps (renderCall C.helpers env isBlock invocation names body inverse) := by
  have hparts : C.Covers invocation.operandCalls := Covers.tail hcalls
  unfold renderCall
  refine (operandValues_keeps henv _ (Covers.left hparts)).bind fun values _ => ?_
  refine (optionValues_keeps henv _ (Covers.right hparts)).bind fun named _ => ?_
  split
  · next helper hhelper =>
    refine (run_keeps henv _ hbody hinverse helper fun f hf => ?_).map fun _ h => h
    exact hcalls invocation.name List.mem_cons_self isBlock f (hf ▸ hhelper)
  · exact .fail (by simp)

/-- Without an operand there is nothing to render. -/
theorem renderBare_keeps (helper : Helper) : C.KeepsAny (renderBare env helper) := by
  have hrun : C.Keeps (helper.run env ⟨[], [], [], true⟩ noPart noPart) := by
    cases helper with
    | transform f => exact henv.give (Json.string [])
    | _ => exact run_keeps henv _ noPart_keeps noPart_keeps _ (by simp)
  exact hrun.map fun _ _ => trivial

theorem renderPath_keeps (path : Path) : C.KeepsAny (renderPath C.helpers env path) := by
  unfold renderPath
  split
  · exact renderBare_keeps henv _
  · split
    · exact .fail (by simp)
    · exact .value trivial
    · split
      · exact renderBare_keeps henv _
      · exact .value trivial

theorem renderValue_keeps (operand : Operand) (hcalls : C.Covers operand.calls) :
    C.KeepsAny (renderValue C.helpers env operand) := by
  cases operand with
  | path path => exact renderPath_keeps henv path
  | literal | call =>
    refine (operandValue_keeps henv _ hcalls).bind fun value _ => ?_
    dsimp only
    split
    · exact renderBare_keeps henv _
    · exact .value trivial

end

/-! ## Directives and inclusions -/

theorem declare_keeps {env : Environment} (henv : C.CoversEnv env) (isBlock : Bool)
    (invocation : Invocation) (hcalls : C.Covers invocation.operandCalls) {body : Template}
    (hbody : C.Covers (calls body)) :
    (declare C.helpers env isBlock invocation body).Keeps C.Allows C.CoversInlines := by
  unfold declare
  refine (operandValues_keeps henv _ (Covers.left hcalls)).bind fun values _ => ?_
  refine (optionValues_keeps henv _ (Covers.right hcalls)).bind fun _ _ => ?_
  split
  · split
    · exact .fail (by simp)
    · split
      · exact .value (List.forall_mem_cons.mpr ⟨hbody, henv.inlines⟩)
      · exact .fail (by simp)
    · exact .fail (by simp)
  · exact .fail (by simp)

theorem declareAll_keeps (elements : List Element) (hcalls : C.Covers (calls elements))
    {env : Environment} (henv : C.CoversEnv env) :
    (declareAll C.helpers elements env).Keeps C.Allows C.CoversInlines := by
  induction elements generalizing env with
  | nil => exact .value henv.inlines
  | cons element elements ih =>
    have hrest : C.Covers (calls elements) := Covers.right hcalls
    cases element with
    | directive position isBlock invocation body =>
      have hown : C.Covers (invocation.operandCalls ++ calls body) := Covers.left hcalls
      refine ((declare_keeps henv isBlock invocation hown.left hown.right).placedAt position).bind
        fun inlines hinlines => ?_
      exact ih hrest (henv.declaring hinlines)
    | _ => exact ih hrest henv

theorem targetName_keeps {env : Environment} (henv : C.CoversEnv env) (target : Target)
    (hcalls : C.Covers target.calls) : C.KeepsAny (targetName C.helpers env target) := by
  cases target with
  | named name => exact .value trivial
  | computed call => exact (operandValue_keeps henv call hcalls).map fun _ _ => trivial

theorem renderInclusion_keeps (hinclusions : C.inclusions) {env : Environment}
    (henv : C.CoversEnv env) (inclusion : Inclusion) (hcalls : C.Covers inclusion.calls)
    (indent : Text) {body : Option Template}
    (hbody : ∀ template ∈ body, C.Covers (calls template)) :
    C.Keeps (renderInclusion C.helpers env inclusion indent body) := by
  have hdeclared : C.Covers (calls (body.getD [])) := by
    cases body with
    | none => exact List.forall_mem_nil _
    | some template => exact hbody template rfl
  unfold renderInclusion
  refine (targetName_keeps henv _ hcalls.left).bind fun name _ => ?_
  refine (operandValues_keeps henv _ hcalls.right.left).bind fun _ _ => ?_
  refine (optionValues_keeps henv _ hcalls.right.right).bind fun options _ => ?_
  refine (declareAll_keeps _ hdeclared henv).bind fun inlines hinlines => ?_
  have hafter : C.CoversEnv { env with inlines } := henv.declaring hinlines
  dsimp only
  split
  · exact .fail (by simp)
  · next template hfound =>
    have htemplate : C.Covers (calls template) := by
      rcases Option.or_eq_some_iff.mp hfound with hdeclared | ⟨-, hbodyIs⟩
      · exact hafter.template? hdeclared
      · exact hbody template hbodyIs
    exact .ask ⟨hinclusions, htemplate, hafter.including name _ _ indent hbody⟩
      fun text => hafter.give text

/-! ## Elements and templates -/

mutual
theorem renderElement_keeps (element : Element) (hcalls : C.Covers element.calls)
    (hinclusions : element.includes = true → C.inclusions) :
    C.PartKeeps (renderElement C.helpers element) := by
  intro env henv
  match element with
  | .text content => exact henv.give _
  | .comment => exact henv.give _
  | .value position operand =>
    refine Rendering.Keeps.placedAt ?_ position
    exact (renderValue_keeps henv operand hcalls).map fun _ _ => henv.inlines
  | .invoke position isBlock invocation names body inverse =>
    have hparts : C.Covers (calls body ++ calls inverse) := Covers.right hcalls
    refine (renderCall_keeps henv isBlock invocation (Covers.left hcalls) names ?_ ?_).placedAt
      position
    · refine renderElements_keeps body hparts.left fun h => hinclusions ?_
      simp [Element.includes, h]
    · refine renderElements_keeps inverse hparts.right fun h => hinclusions ?_
      simp [Element.includes, h]
  | .inclusion position isBlock inclusion indent body =>
    refine Rendering.Keeps.placedAt ?_ position
    refine renderInclusion_keeps (hinclusions rfl) henv inclusion (Covers.left hcalls) indent
      fun template hmem => ?_
    have hbody : template = body := by
      cases isBlock <;> simp_all
    rw [hbody]
    exact Covers.right hcalls
  | .directive position isBlock invocation body =>
    refine Rendering.Keeps.placedAt ?_ position
    exact (declare_keeps henv isBlock invocation (Covers.left hcalls) (Covers.right hcalls)).map
      fun _ h => h

theorem renderElements_keeps (elements : List Element) (hcalls : C.Covers (calls elements))
    (hinclusions : includes elements = true → C.inclusions) :
    C.PartKeeps (renderElements C.helpers elements) := by
  intro env henv
  match elements with
  | [] => exact henv.give []
  | element :: elements =>
    rw [renderElements]
    refine andThen_keeps henv (renderElement_keeps element (Covers.left hcalls) fun h => ?_)
      (renderElements_keeps elements (Covers.right hcalls) fun h => ?_)
    · exact hinclusions (by simp [includes, h])
    · exact hinclusions (by simp [includes, h])
end

theorem renderTemplate_keeps {template : Template} (hcalls : C.Covers (calls template))
    (hinclusions : includes template = true → C.inclusions) {env : Environment}
    (henv : C.CoversEnv env) : C.KeepsAny (renderTemplate C.helpers template env) :=
  (renderElements_keeps template hcalls hinclusions env henv).map fun _ _ => trivial

end Allowance

end Stencil.Template
