import Stencil.Engine

/-!
# Trees of properties

An object declares the properties that may hold templates: texts, nested objects, and properties
behind a getter and a setter that may fail. Resolving it renders every text with an opening mark
where it stands. A failure stays with its property, which keeps its value; the report lists what
was rendered and what was skipped, by the path of names that leads there.
-/

namespace Stencil

/-- Why a property was not resolved. -/
inductive PropertyError
  | read (reason : Text)
  | write (reason : Text)
  | template (error : TemplateError)
deriving DecidableEq, Repr

def PropertyError.message : PropertyError → Text
  | .read reason => "cannot read property: ".toList ++ reason
  | .write reason => "cannot write property: ".toList ++ reason
  | .template error => error.message

/-- A getter and a setter for a slot that may hold a text. Either may fail, and both may depend on
what the slot holds. -/
structure Accessor where
  /-- What the getter gives. -/
  read : (held : Option Text) → Except PropertyError (Option Text)
  /-- Whether the setter stores a text. One that it refuses leaves the slot as it was. -/
  accept : (held : Option Text) → (new : Text) → Except PropertyError Unit

/-- A declared property. -/
inductive Property
  | text (name value : Text)
  | nested (name : Text) (properties : List Property)
  /-- A text or a nested object that is not there. -/
  | unset (name : Text)
  /-- A text behind a getter and a setter. -/
  | accessor (name : Text) (held : Option Text) (access : Accessor)

namespace Property

def name : Property → Text
  | .text name _ => name
  | .nested name _ => name
  | .unset name => name
  | .accessor name _ _ => name

end Property

namespace PropertyTree

/-- What happened to the properties of an object, each list in the order of declaration. -/
structure Report where
  rendered : List Text
  skipped : List (Text × PropertyError)
deriving DecidableEq, Repr

namespace Report

def empty : Report := ⟨[], []⟩

def ofRendered (path : Text) : Report := ⟨[path], []⟩

def ofSkipped (path : Text) (error : PropertyError) : Report := ⟨[], [(path, error)]⟩

/-- What happened to two groups of properties, one after the other. -/
def append (a b : Report) : Report := ⟨a.rendered ++ b.rendered, a.skipped ++ b.skipped⟩

instance : Append Report := ⟨append⟩

/-- Whether no property was skipped. -/
def isClean (r : Report) : Bool := r.skipped.isEmpty

end Report

def join (path name : Text) : Text := if path.isEmpty then name else path ++ '.' :: name

/-- Whether a text is to be rendered. -/
def isMarked (t : Text) : Bool := Text.occurs openMarker t

/-- What becomes of a text: the new one, or why it stays; nothing when it is not marked. -/
def renderText? (engine : Engine) (context : Context) (t : Text) :
    Option (Except PropertyError Text) :=
  if isMarked t then some ((engine.render t context).mapError .template) else none

/-- What becomes of a text behind a getter and a setter. -/
def renderAccessor? (engine : Engine) (context : Context) (held : Option Text)
    (access : Accessor) : Option (Except PropertyError Text) :=
  match access.read held with
  | .error e => some (.error e)
  | .ok none => none
  | .ok (some t) =>
    (renderText? engine context t).map fun result =>
      match result with
      | .error e => .error e
      | .ok new => (access.accept held new).map fun _ => new

/-- What is reported for a property, given what became of its text. -/
def reportOf (path : Text) : Option (Except PropertyError Text) → Report
  | none => .empty
  | some (.ok _) => .ofRendered path
  | some (.error e) => .ofSkipped path e

def textAfter (old : Text) : Option (Except PropertyError Text) → Text
  | some (.ok new) => new
  | _ => old

/-- The text that a property behind a setter holds afterwards. -/
def storedAfter (old : Option Text) : Option (Except PropertyError Text) → Option Text
  | some (.ok new) => some new
  | _ => old

section
variable (engine : Engine) (context : Context)

mutual
/-- A property with its templates rendered, and what happened. -/
def resolveProperty (path : Text) : Property → Property × Report
  | .text name value =>
    let result := renderText? engine context value
    (.text name (textAfter value result), reportOf (join path name) result)
  | .nested name properties =>
    let (properties, report) := resolveAll (join path name) properties
    (.nested name properties, report)
  | .unset name => (.unset name, .empty)
  | .accessor name held access =>
    let result := renderAccessor? engine context held access
    (.accessor name (storedAfter held result) access, reportOf (join path name) result)

/-- Properties with their templates rendered, and what happened. -/
def resolveAll (path : Text) : List Property → List Property × Report
  | [] => ([], .empty)
  | property :: properties =>
    let (first, report) := resolveProperty path property
    let (rest, further) := resolveAll path properties
    (first :: rest, report ++ further)
end

/-- The properties of an object with their templates rendered, and the report. -/
def resolve (properties : List Property) : List Property × Report :=
  resolveAll engine context [] properties

end

end PropertyTree
end Stencil
