import Fronta.Hints.Lemmas.Steps

/-!
# No hint is lost before a close gives up
-/

namespace Fronta.Hints

open Sql Unicode Runs

variable {s : Sys} {actions : List Action}

section Runs

end Runs

end Fronta.Hints
