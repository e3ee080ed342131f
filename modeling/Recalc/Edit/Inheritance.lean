import Recalc.Edit.Member

set_option autoImplicit false

/-!
# Editing bases and parameters

Bases are appended and removed one at a time. A base may not be the space itself, a space around
or inside it, or one that inherits from it. When deriving from a new base fails the base is taken
out again and the spaces are derived without it.
-/

namespace Recalc.Model

open Recalc.Action

def basesOf (m : Model) (id : SpaceId) : Except Failure (List SpaceId) := do
  return (← m.space id).bases

def descendsFrom (m : Model) (id ancestor : SpaceId) : Bool :=
  (reachFrom m.allBases (m.spaces.capacity + 1) [id]).any fun s =>
    (m.allBases s).contains ancestor

def closesCycle (m : Model) (id base : SpaceId) : Bool :=
  base == id || m.encloses base id || m.encloses id base || m.descendsFrom base id

def linkBase (fuel : Nat) (id base : SpaceId) : Action Summary := do
  let s ← read (·.editable id)
  let b ← read (·.space base)
  let m ← get
  if !b.isStatic then
    fail (.invalidArguments (m.dottedName id) (m.dottedName base ++ " is not a static space"))
  else if s.bases.contains base then return {}
  else if m.closesCycle id base then fail (.cyclicInheritance (m.dottedName id) (m.dottedName base))
  else
    modify (·.modifySpace id (Space.setBases (· ++ [base])))
    match ← attempt (deriveFrom fuel [id]) with
    | .ok summary => return summary
    | .error e =>
      modify (·.modifySpace id (Space.setBases (·.filter (· != base))))
      let _ ← deriveFrom fuel [id]
      fail e

def unlinkBase (fuel : Nat) (id base : SpaceId) : Action Summary := do
  let s ← read (·.editable id)
  let m ← get
  if !s.bases.contains base then
    fail (.invalidArguments (m.dottedName id) (m.dottedName base ++ " is not a base"))
  else
    modify (·.modifySpace id (Space.setBases (·.filter (· != base))))
    deriveFrom fuel [id]

/-- Declare the parameters of a static space, or replace them. The binder, when given, turns bound
arguments into the key of the instance. Keys that are already bound are not bound again. -/
def declareParams (fuel : Nat) (id : SpaceId) (params : List Param) (binder : Option Formula) :
    Action Unit := do
  let _ ← read (·.editable id)
  modify fun m =>
    (m.modifySpace id fun s => { s with signature := some ⟨params, binder⟩, ownSignature := true
      }).dropStaleInstances id
  let _ ← deriveFrom fuel [id]
  return

end Recalc.Model
