import Recalc.Action

set_option autoImplicit false

/-!
# Shared models

Several parts of a host can hold one model. Each operation has the model to itself from its start
to its end, and whoever holds the model alone can take it out.
-/

namespace Recalc

structure Shared where
  model : Model
  /-- How many hold the model beside the first holder. -/
  others : Nat := 0

namespace Shared

def share (s : Shared) : Shared := { s with others := s.others + 1 }

/-- One holder lets go; the first one stays. -/
def release (s : Shared) : Shared := { s with others := s.others - 1 }

def run {α : Type} (x : Action α) (s : Shared) : Option (Except Failure α × Shared) :=
  (x s.model).map fun r => (r.1, { s with model := r.2 })

/-- The model, when nobody else holds it. -/
def take? (s : Shared) : Option Model := if s.others = 0 then some s.model else none

end Shared

end Recalc
