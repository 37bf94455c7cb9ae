import Stencil.CommandError
import Stencil.Inquiry
import Stencil.Yaml.Value

/-!
# Configuration

Variables for every template, and how much and in what form the program logs. All of it comes from
one file, which need not be there; the environment has the last word on logging.
-/

namespace Stencil

/-- How much is logged and in what form. -/
structure Logging where
  level : Text
  format : Text
deriving DecidableEq, Repr

/-- What the program is set to do. -/
structure Configuration where
  /-- The variables that every template has. -/
  bindings : Members
  logging : Logging
deriving DecidableEq

/-- What the program sees of its surroundings. -/
structure Environment where
  /-- The directory of the user; an empty path is the one that the program runs in. -/
  home : Option Text
  logLevel : Option Text
  logFormat : Option Text
deriving DecidableEq, Repr

namespace Environment

/-- The variable for how much is logged. -/
def levelName : Text := "RESOLVENT_LOG_LEVEL".toList

/-- The variable for the form of what is logged. -/
def formatName : Text := "RESOLVENT_LOG_FORMAT".toList

/-- The surroundings that variables, given by their names and values, describe. -/
def ofVariables (home : Option Text) (vars : List (Text × Text)) : Environment :=
  ⟨home, vars.lookup levelName, vars.lookup formatName⟩

end Environment

namespace Configuration

/-- The settings that hold where nothing else is said. -/
def standard : Configuration := ⟨[], ⟨"info".toList, "pretty".toList⟩⟩

open Yaml

/-- One entry more of a mapping with fixed names: each name at most once, others passed over. -/
def field? (d : Document) (names : List String) (found : List (Text × Node))
    (entry : Node × Node) : Following (List (Text × Node)) := do
  let name ← d.text? entry.1
  if !names.any (·.toList = name) then return found
  else if (found.lookup name).isSome then failure
  else return (name, entry.2) :: found

/-- The entries of a mapping with fixed names. -/
def fields? (d : Document) (names : List String) (node : Node) :
    Following (List (Text × Node)) := do
  (← d.entries? node).foldlM (field? d names) []

/-- The logging settings of a node, which must give both. -/
def logging? (d : Document) (node : Node) : Following Logging := do
  let found ← fields? d ["level", "format"] node
  match found.lookup "level".toList, found.lookup "format".toList with
  | some level, some format => return ⟨← d.text? level, ← d.text? format⟩
  | _, _ => failure

/-- The variables of a node, which must be a mapping. -/
def bindings? (d : Document) (node : Node) : Following Members := do
  d.members? (d.value? (Document.nestingLimit - 2)) (← d.entries? node)

def ofNode? (d : Document) (node : Node) : Following Configuration := do
  let found ← fields? d ["template_vars", "logging"] node
  let bindings ←
    match found.lookup "template_vars".toList with
    | some node => bindings? d node
    | none => pure standard.bindings
  let logging ←
    match found.lookup "logging".toList with
    | some node => logging? d node
    | none => pure standard.logging
  return ⟨bindings, logging⟩

/-- The configuration that a text describes; one without a document is the standard one. -/
def parse? (t : Text) : Option Configuration := do
  let d ← Document.ofText? t
  match d.root with
  | none => some standard
  | some node => d.run? (ofNode? d node)

/-- The configuration with the environment's settings for logging. -/
def override (config : Configuration) (env : Environment) : Configuration :=
  { config with
    logging :=
      ⟨env.logLevel.getD config.logging.level, env.logFormat.getD config.logging.format⟩ }

/-- The path of a file in a directory. -/
def join (directory name : Text) : Text :=
  if directory.isEmpty || directory.getLast? = some '/' then directory ++ name
  else directory ++ '/' :: name

/-- The paths at which a configuration is looked for, the first one first. -/
def candidates (env : Environment) : List Text :=
  ["resolvent.yaml".toList, "resolvent.yml".toList, ".resolvent.yaml".toList,
    ".resolvent.yml".toList] ++
  env.home.toList.map fun home => join home ".resolvent/config.yaml".toList

/-- The path of the one file that is read: the given one, or else the first candidate, if it is
there. -/
def locate (files : Files) (env : Environment) (given : Option Text) : Option Text :=
  match given with
  | some path => if files.exists? path then some path else none
  | none => (candidates env).find? files.exists?

def read (files : Files) (path : Text) : Except CommandError Configuration := do
  let t ← (files.readText path).mapError (.unreadable .configuration path)
  match parse? t with
  | some config => return config
  | none => throw (.invalidConfiguration path)

def load (files : Files) (env : Environment) (given : Option Text) :
    Except CommandError Configuration :=
  match locate files env given with
  | some path => (read files path).map (·.override env)
  | none => .ok (standard.override env)

/-! ## Step by step -/

/-- Looks for the first of some paths at which something is. -/
def firstFound : List Text → Inquiry (Option Text)
  | [] => return none
  | path :: paths => do
    if ← Inquiry.exists? path then return some path
    firstFound paths

/-- The path that the configuration is expected at: the given one, or the first candidate at which
something is. -/
def choosing (env : Environment) (given : Option Text) : Inquiry (Option Text) :=
  match given with
  | some path => return some path
  | none => firstFound (candidates env)

/-- Loads the configuration from a path if something is there. -/
def loadingFrom (env : Environment) : Option Text → Inquiry (Except CommandError Configuration)
  | some path => do
    if ← Inquiry.exists? path then
      return (read (← Inquiry.snapshot [path]) path).map (·.override env)
    return .ok (standard.override env)
  | none => return .ok (standard.override env)

/-- Loads the configuration by asking for one thing after the other. -/
def loading (env : Environment) (given : Option Text) :
    Inquiry (Except CommandError Configuration) := do
  loadingFrom env (← choosing env given)

end Configuration
end Stencil
