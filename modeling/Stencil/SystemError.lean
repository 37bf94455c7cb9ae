import Stencil.Text.Numeral

/-!
# Errors of the system

What can go wrong when a file is read or written.
-/

namespace Stencil

inductive SystemError
  | notFound
  | isADirectory
  | notADirectory
  | invalidUtf8
  /-- Any other error, with its number and its description. -/
  | other (code : Nat) (description : Text)
deriving DecidableEq, Repr

def SystemError.message : SystemError → Text
  | .notFound => "No such file or directory (os error 2)".toList
  | .isADirectory => "Is a directory (os error 21)".toList
  | .notADirectory => "Not a directory (os error 20)".toList
  | .invalidUtf8 => "stream did not contain valid UTF-8".toList
  | .other code description =>
    description ++ " (os error ".toList ++ Numeral.ofNat code ++ [')']

end Stencil
