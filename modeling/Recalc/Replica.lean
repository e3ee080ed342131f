import Recalc.Action
import Recalc.Meaning

set_option autoImplicit false

/-!
# Replicas

The root of an instance and the children inside it are replicas of static spaces. The root is made
when the instance is; a child is made when it is first asked for.
-/

namespace Recalc.Model

open Recalc.Action

def addReplica (m : Model) (s : Space) (counterpart : SpaceId) : SpaceId × Model :=
  let (id, m) := m.addSpace s
  (id, m.copyCells id counterpart)

/-- Make the root of an instance of `owner`. It lies in the instances that `owner` lies in. -/
def makeItem (owner : SpaceId) (args : Key) : Action SpaceId := do
  let counterpart ← read (·.counterpart owner)
  let s ← read (·.space owner)
  update fun m =>
    m.addReplica
      { name := s.name, parent := s.parent
        kind := .item owner counterpart args (m.pinsOf owner) } counterpart

def ensureChild (parent : SpaceId) (name : String) : Action SpaceId := do
  let s ← read (·.space parent)
  match s.spaces.get? name with
  | some child => return child
  | none =>
    let m ← get
    let unknown := Failure.unknownName name (m.dottedName parent)
    match m.instanceRoot? parent with
    | none => fail unknown
    | some root =>
      let source ← read fun m => do m.space (← m.counterpart parent)
      match source.spaces.get? name with
      | none => fail unknown
      | some counterpart =>
        update fun m =>
          let (child, m) := m.addReplica
            { name, parent := some parent, kind := .dynamic counterpart root } counterpart
          (child, m.modifySpace parent fun p => { p with spaces := p.spaces.insert name child })

def ensurePath : List String → SpaceId → Action SpaceId
  | [], id => pure id
  | name :: rest, id => do ensurePath rest (← ensureChild id name)

def ensurePlace : Place → Action SpaceId
  | .existing id => do
    let _ ← read (·.space id)
    return id
  | .pending start path => ensurePath path start

end Recalc.Model
