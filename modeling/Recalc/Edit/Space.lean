import Recalc.Edit.Member
import Recalc.Replica
import Recalc.Path

set_option autoImplicit false

/-!
# Editing the tree of spaces

Static spaces are created and deleted by the host. Creating a space over a derived child of the
same name makes that child an authored one.
-/

namespace Recalc.Model

open Recalc.Action

def createSpace (fuel : Nat) (parent : Option SpaceId) (name : String) : Action SpaceId := do
  admitName name
  match parent with
  | none =>
    let m ← get
    if m.roots.contains name then fail (m.nameTaken name none)
    else
      update fun m =>
        let (id, m) := m.addSpace (Space.fresh name none false)
        (id, { m with roots := m.roots.insert name id })
  | some parent =>
    let s ← read (·.editable parent)
    let taken := (← get).nameTaken name (some parent)
    match s.spaces.get? name with
    | some existing =>
      if (← read (·.space existing)).isDerived then
        modify (·.modifySpace existing (Space.setDerived false))
        return existing
      else fail taken
    | none =>
      if s.defines name then fail taken
      else
        let id ← update (·.addChild parent (Space.fresh name (some parent) false))
        settleAddition fuel parent name [parent, id]
        return id

def removeSpace (fuel : Nat) (id : SpaceId) : Action Summary := do
  let s ← read (·.editable id)
  if s.isDerived then fail (.derivedMember s.name ((← get).dottedName id))
  else
    match s.parent with
    | some p =>
      modify (·.dropStaleInstances p)
      let _ ← read (·.space p)
      modify (·.modifySpace p fun q => { q with spaces := q.spaces.erase s.name })
    | none => modify fun m => { m with roots := m.roots.erase s.name }
    modify (·.destroySpace id)
    let losers ← update unlinkDeadBases
    match s.parent with
    | some p =>
      modify fun m => (m.invalidateSpace p).2
      deriveFrom fuel (losers ++ [p])
    | none => deriveFrom fuel losers

def spaceBelow (m : Model) : List String → SpaceId → Except Failure SpaceId
  | [], id => .ok id
  | name :: rest, id => do
    match (← m.space id).spaces.get? name with
    | some child => m.spaceBelow rest child
    | none => throw (.unknownName name (m.dottedName id))

def locate (m : Model) (path : String) : Except Failure SpaceId :=
  let (first, rest) := Path.split path
  match m.roots.get? first with
  | some id => m.spaceBelow rest id
  | none => .error (.unknownName first m.name)

/-- The child of a space; a child inside an instance is made at the first request. -/
def childNamed (id : SpaceId) (name : String) : Action SpaceId := do
  let s ← read (·.space id)
  match s.spaces.get? name with
  | some c => return c
  | none =>
    if s.isStatic then fail (.unknownName name ((← get).dottedName id))
    else ensureChild id name

def document (id : SpaceId) (doc : Option String) : Action Unit := do
  let _ ← read (·.editable id)
  modify (·.modifySpace id fun s => { s with doc })

end Recalc.Model
