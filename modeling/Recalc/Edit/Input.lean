import Recalc.Evaluate

set_option autoImplicit false

/-!
# Inputs and forgetting

An input is the value of a cells object at a key, whatever its formula says. What was computed can
be forgotten, and instances go with it; definitions and inputs stay.
-/

namespace Recalc.Model

open Recalc.Action

def keyOf (m : Model) (id : CellId) (args : List Value) : Except Failure Key :=
  m.bindCells id { positional := args }

def putInput (id : CellId) (args : List Value) (v : Value) : Action Unit := do
  let key ← read (·.keyOf id args)
  modify fun m =>
    (m.invalidate (.cells id key)).2.modifyCell id fun c =>
      { c with contents := c.contents.putInput key v }

def takeInput (id : CellId) (args : List Value) : Action Bool := do
  let key ← read (·.keyOf id args)
  if (← read (·.cell id)).contents.hasInput key then
    modify fun m =>
      ((m.modifyCell id fun c => { c with contents := c.contents.dropInput key }).invalidate
        (.cells id key)).2
    return true
  else return false

def forgetCells (id : CellId) : Action Nat := do
  let _ ← read (·.cell id)
  update (·.invalidateCells id)

/-- Forget one node; nothing happens when nothing is stored for it. -/
def forgetAt (id : CellId) (args : List Value) : Action Nat := do
  let key ← read (·.keyOf id args)
  update (·.invalidate (.cells id key))

def forgetSpaces : Nat → List SpaceId → Nat → Model → Nat × Model
  | fuel + 1, id :: rest, count, m =>
    let children := ((m.spaces.get? id).map (·.spaces.values)).getD []
    let (evicted, m) := m.invalidateSpace id
    let m := (m.removeEveryInstance id).2
    forgetSpaces fuel ((children.filter m.spaces.contains).reverse ++ rest) (count + evicted) m
  | _, _, count, m => (count, m)

/-- Forget what the cells of a space and of the spaces inside it computed, with the instances. -/
def forgetWithin (id : SpaceId) : Action Nat := do
  let _ ← read (·.space id)
  update fun m => forgetSpaces m.spaces.capacity [id] 0 m

def forgetEach : List SpaceId → Action Unit
  | [] => pure ()
  | id :: rest => do
    let _ ← forgetWithin id
    forgetEach rest

/-- Drop every computed value, instance and edge. -/
def forgetAll : Action Unit := do
  forgetEach (← get).roots.values
  modify fun m => { m with graph := .empty }

/-- Say whether the cells of a space, and of spaces inside it without a setting, may be empty. -/
def letSpaceBeEmpty (id : SpaceId) (allow : Option Bool) : Action Unit := do
  let _ ← read (·.editable id)
  modify fun m => (m.modifySpace id fun s => { s with allowNone := allow }).dropStaleInstances id
  let _ ← forgetWithin id
  return

end Recalc.Model
