import Fronta.Sandbox.Lemmas.Controller

/-!
# Death before the outcome

A pidfd that could not be opened is taken for a dead init, a spawn that fails cleans up as well as it
can, and a controller that is cut short does not ask again. Elsewhere nothing of a sandbox runs once
`kill` has returned true.
-/

namespace Fronta.Sandbox

open Runs

variable {s : Sys} {actions : List Action}

section Runs

/-- A sandbox starts, with these answers to the lookups of bwrap and of the init. -/
def starts (outer init : Lookup) : List Action :=
  [.run, .start, .startInit, .spawned outer, .status init]

/-- A spawn is cancelled and its cleanup ends before the processes do. -/
example : (run Sys.step .init [.run, .start, .startInit, .spawned ⟨.fd, .marked⟩, .interrupt, .aborted,
    .kill .verify, .submit]).any (fun s => s.controller = .submitted ∧ s.host.alive = true) = true := by
  decide +kernel

/-- A controller is cancelled, and its last call of `kill` gives up on the init. -/
example : (run Sys.step .init (starts ⟨.fd, .marked⟩ ⟨.fd, .marked⟩ ++ [.cancel, .kill .other,
    .timeout 1, .free])).any (fun s => s.controller = .freed ∧ s.host.alive = true) = true := by
  decide +kernel

end Runs

end Fronta.Sandbox
