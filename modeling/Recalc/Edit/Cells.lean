import Recalc.Edit.Member

set_option autoImplicit false

/-!
# Editing cells

Cells defined under an inherited name override the derived ones; reverting an override lets them
follow their base again.
-/

namespace Recalc.Model

open Recalc.Action

/-- New cells in a static space. A formula may be missing: such cells only hold inputs. -/
def defineCells (fuel : Nat) (id : SpaceId) (name : String) (formula : Option Formula) :
    Action CellId := do
  admitName name
  let s ← read (·.editable id)
  let taken := (← get).nameTaken name (some id)
  match s.cells.get? name with
  | some existing =>
    if !(← read (·.cell existing)).derived then fail taken
    else
      modify fun m =>
        ((m.modifyCell existing fun c => { c with formula, derived := false }).invalidateCells
          existing).2
      let _ ← settleChange fuel id
      return existing
  | none =>
    if s.defines name then fail taken
    else
      let new ← update (·.addCells { name, space := id, formula, derived := false })
      settleAddition fuel id name [id]
      return new

/-- Replace the formula of static cells. Derived cells become authored ones. -/
def redefine (fuel : Nat) (id : CellId) (formula : Formula) : Action Summary := do
  let space := (← read (·.cell id)).space
  let _ ← read (·.editable space)
  modify fun m =>
    ((m.modifyCell id fun c => { c with formula := some formula, derived := false
      }).invalidateCells id).2.dropStaleInstances space
  deriveFrom fuel [space]

/-- Delete authored cells. A base that defines the name derives it again. -/
def removeCells (fuel : Nat) (id : CellId) : Action Summary := do
  let c ← read (·.cell id)
  let _ ← read (·.editable c.space)
  if c.derived then fail (.derivedMember c.name ((← get).dottedName c.space))
  else
    modify fun m =>
      (m.modifySpace c.space fun s => { s with cells := s.cells.erase c.name }).destroyCells id
    settleChange fuel c.space

def letCellsBeEmpty (fuel : Nat) (id : CellId) (allow : Option Bool) : Action Unit := do
  let space := (← read (·.cell id)).space
  let _ ← read (·.editable space)
  modify fun m =>
    (m.modifyCell id fun c => { c with allowNone := allow }).invalidateCells id |>.2
      |>.dropStaleInstances space
  let _ ← deriveFrom fuel [space]
  return

/-- Drop an override: the cells follow their base again. -/
def dropOverride (fuel : Nat) (id : CellId) : Action Summary := do
  let c ← read (·.cell id)
  let _ ← read (·.editable c.space)
  if c.derived then return {}
  let heritage ← read (·.heritage c.space)
  if heritage.cells.contains c.name then
    modify (·.modifyCell id fun c => { c with derived := true })
    deriveFrom fuel [c.space]
  else fail (.unknownName c.name ("the bases of " ++ (← get).dottedName c.space))

end Recalc.Model
