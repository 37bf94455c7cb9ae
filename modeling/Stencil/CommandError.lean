import Stencil.Context

/-!
# Errors of commands

Why a command fails. The wording names the file or the text that is at fault; what lies behind it
is kept apart.
-/

namespace Stencil

inductive InputRole
  | configuration
  | template
  | document
deriving DecidableEq, Repr

def InputRole.noun : InputRole → Text
  | .configuration => "config file".toList
  | .template => "template".toList
  | .document => "document".toList

inductive CommandError
  | unreadable (role : InputRole) (path : Text) (error : SystemError)
  | invalidConfiguration (path : Text)
  | invalidDocument (path : Text)
  | notAMapping (path : Text)
  | contextFailed (path : Text) (error : TemplateError)
  | renderFailed (path : Text) (error : TemplateError)
  | resolveFailed (path : Text) (error : TemplateError)
  | invalidVariable (text : Text)
  | undigested (path : Text) (error : SystemError)
  | unwritable (path : Text) (error : SystemError)
deriving DecidableEq, Repr

namespace CommandError

def quote (t : Text) : Text := '\'' :: (t ++ ['\''])

def message : CommandError → Text
  | .unreadable role path _ => "Failed to read ".toList ++ role.noun ++ ' ' :: quote path
  | .invalidConfiguration path => "Invalid config file ".toList ++ quote path
  | .invalidDocument path => "Failed to parse document ".toList ++ quote path
  | .notAMapping path => "Document ".toList ++ quote path ++ " must be a mapping".toList
  | .contextFailed path _ => "Failed to load context file ".toList ++ quote path
  | .renderFailed path _ => "Failed to render ".toList ++ quote path
  | .resolveFailed path _ => "Failed to resolve ".toList ++ quote path
  | .invalidVariable t =>
    "Invalid variable format ".toList ++ quote t ++ ". Expected 'key=value'".toList
  | .undigested path error => "Failed to read ".toList ++ path ++ ": ".toList ++ error.message
  | .unwritable path _ => "Failed to write output file ".toList ++ quote path

inductive Cause
  | template (error : TemplateError)
  | system (error : SystemError)
  | invalidYaml
deriving DecidableEq, Repr

def Cause.message : Cause → Text
  | .template error => error.message
  | .system error => error.message
  | .invalidYaml => "invalid YAML".toList

/-- What lies behind an error, when something does. -/
def cause? : CommandError → Option Cause
  | .unreadable _ _ error | .undigested _ error | .unwritable _ error => some (.system error)
  | .invalidConfiguration _ | .invalidDocument _ => some .invalidYaml
  | .contextFailed _ error | .renderFailed _ error | .resolveFailed _ error =>
    some (.template error)
  | .notAMapping _ | .invalidVariable _ => none

end CommandError
end Stencil
