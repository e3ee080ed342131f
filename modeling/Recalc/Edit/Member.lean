import Recalc.Meaning
import Recalc.Wave

set_option autoImplicit false

/-!
# Members come and go

What all edits share: which names may be given to a member, the failure for a name that is taken,
and what follows when a member appears, changes or disappears. A new member that clashes with what
a descendant inherits is taken back out, and the descendants are derived as they were.
-/

namespace Recalc.Model

open Recalc.Action

def admitName (name : String) : Action Unit :=
  if name.isEmpty || (SystemName.ofString? name).isSome then
    fail (.invalidArguments name "reserved or empty name")
  else pure ()

def nameTaken (m : Model) (name : String) (place : Option SpaceId) : Failure :=
  .duplicateName name ((place.map m.dottedName).getD m.name)

def settleChange (fuel : Nat) (id : SpaceId) : Action Summary := do
  modify fun m => (m.invalidateSpace id).2.dropStaleInstances id
  deriveFrom fuel [id]

def withdraw (id : SpaceId) (name : String) (m : Model) : Model :=
  match m.spaces.get? id with
  | none => m
  | some s =>
    match s.cells.get? name with
    | some c =>
      (m.modifySpace id fun s => { s with cells := s.cells.erase name }).destroyCells c
    | none =>
      match s.refs.get? name with
      | some r =>
        (m.modifySpace id fun s => { s with refs := s.refs.erase name }).destroyReference r
      | none =>
        match s.spaces.get? name with
        | some child =>
          (m.modifySpace id fun s => { s with spaces := s.spaces.erase name }).destroySpace child
        | none => m

/-- Take the member called `name` back out, and derive the spaces without it. -/
def takeBack (fuel : Nat) (id : SpaceId) (name : String) : Action Summary := do
  modify (withdraw id name)
  let losers ← update unlinkDeadBases
  deriveFrom fuel (losers ++ [id])

/-- Derive after a member called `name` was added to a space. When that fails the member is taken
back. -/
def settleAddition (fuel : Nat) (id : SpaceId) (name : String) (starts : List SpaceId) :
    Action Unit := do
  modify fun m => ((m.invalidateSpace id).2.hideGlobal name).dropStaleInstances id
  match ← attempt (deriveFrom fuel starts) with
  | .ok _ => return
  | .error e =>
    let _ ← takeBack fuel id name
    fail e

end Recalc.Model
