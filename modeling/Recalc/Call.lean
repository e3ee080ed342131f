import Recalc.Evaluate
import Recalc.Reclaim

set_option autoImplicit false

/-!
# Calls by the host

A call from outside every formula first reclaims instances, when the model is configured so, and
then evaluates. The host says which handles it holds; those keep their instances alive. Fuel bounds
the number of formulas that run inside one another.
-/

namespace Recalc.Model

open Recalc.Action

/-- What a call by the host begins with. -/
def reclaimFirst (held : List Handle) : Action Unit :=
  modify fun m =>
    if m.stack.isEmpty && m.config.reclaimOnCall then (m.reclaim held).2 else m

def call (fuel : Nat) (held : List Handle) (id : CellId) (a : Arguments) : Action Value := do
  reclaimFirst held
  evaluate (runFormula fuel) id a

def selectInstance (fuel : Nat) (held : List Handle) (id : SpaceId) (a : Arguments) :
    Action Handle := do
  reclaimFirst held
  instantiate (runFormula fuel) id a

/-- The value of a name, as a formula in the space would read it. -/
def readFrom (fuel : Nat) (held : List Handle) (id : SpaceId) (name : String) :
    Action Value := do
  reclaimFirst held
  readName (runFormula fuel) id name none

/-- Destroy the instance of a space for these arguments, held or not. The answer tells whether
there was one. -/
def discardInstance (fuel : Nat) (id : SpaceId) (args : List Value) : Action Bool := do
  let key ← itemKey (runFormula fuel) id { positional := args }
  let _ ← read (·.space id)
  update (·.removeInstance id key)

def discardInstances (id : SpaceId) : Action Nat := do
  let _ ← read (·.space id)
  update (·.removeEveryInstance id)

end Recalc.Model
