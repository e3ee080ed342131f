import Recalc.Model

set_option autoImplicit false

/-!
# What names mean

A bare name seen from a space means, in this order: a system name; a member of the space, where a
replica also sees the children of its counterpart that are not there yet and the references of its
counterpart; a parameter of an enclosing instance, innermost first; a model-level reference. To
find a meaning is only to look at the model.
-/

namespace Recalc

/-- Names with a fixed meaning that nothing can shadow. -/
inductive SystemName where
  | self
  | parent
  | model

def SystemName.ofString? (name : String) : Option SystemName :=
  if name == "_self" || name == "_space" then some .self
  else if name == "_parent" then some .parent
  else if name == "_model" then some .model
  else none

inductive Place where
  | existing (id : SpaceId)
  /-- Children inside an instance that are not there yet, along `path` below `start`. -/
  | pending (start : SpaceId) (path : List String)

inductive RefMeaning where
  | value (v : Value)
  | space (target : Place)

inductive Meaning where
  | cells (id : CellId)
  | space (target : Place)
  | ref (id : RefId) (target : RefMeaning)
  | param (v : Value)
  | model

namespace Model

def climb (m : Model) : Nat → SpaceId → Except Failure (Option SpaceId)
  | 0, id => .ok (some id)
  | count + 1, id => do
    match (← m.space id).parent with
    | some p => m.climb count p
    | none => return none

/-- Follow children downwards. A child of a replica that only the counterpart has is pending; where
a child does not exist at all there is no target. -/
def descend (m : Model) : List String → SpaceId → Except Failure (Option Place)
  | [], id => .ok (some (.existing id))
  | name :: rest, id => do
    let s ← m.space id
    match s.spaces.get? name with
    | some child => m.descend rest child
    | none =>
      if s.isStatic then return none
      let source ← m.space (← m.counterpart id)
      return if source.spaces.contains name then some (.pending id (name :: rest)) else none

/-- Replay the way from `origin` to `target` through the tree, starting from `current`. Where the
way does not exist the target itself is meant. -/
def replay (m : Model) (origin target current : SpaceId) :
    Except Failure Place := do
  if origin == current then return .existing target
  let upward := m.ancestry origin
  let downward := m.ancestry target
  match upward.find? downward.contains with
  | none => return .existing target
  | some common =>
    let ups := upward.findIdx (· == common)
    let downs := ((downward.takeWhile (· != common)).filterMap fun s =>
      (m.spaces.get? s).map Space.name).reverse
    let depth := ups + downs.length
    if m.config.maxDepth < depth then throw (.tooDeep depth m.config.maxDepth)
    match ← m.climb ups current with
    | none => return .existing target
    | some top => return (← m.descend downs top).getD (.existing target)

def refMeaning (m : Model) (id : RefId) (current : SpaceId) : Except Failure RefMeaning := do
  let r ← m.reference id
  match r.value, r.relative, r.origin with
  | .space h, true, some origin => return .space (← m.replay origin h.id current)
  | v, _, _ => return .value v

def memberMeaning (m : Model) (id : SpaceId) (name : String) :
    Except Failure (Option Meaning) := do
  let s ← m.space id
  match s.cells.get? name with
  | some c => return some (.cells c)
  | none =>
    match s.spaces.get? name with
    | some child => return some (.space (.existing child))
    | none =>
      let counterpart ← m.counterpart id
      let source ← m.space counterpart
      if counterpart != id && source.spaces.contains name then
        return some (.space (.pending id [name]))
      match source.refs.get? name with
      | some r => return some (.ref r (← m.refMeaning r id))
      | none => return none

def boundArgumentFrom (m : Model) (name : String) :
    Nat → Option SpaceId → Except Failure (Option Value)
  | fuel + 1, some item => do
    match (← m.space item).kind with
    | .item owner counterpart args _ =>
      let source ← m.space counterpart
      match source.signature.bind fun spec => spec.params.findIdx? (·.name == name) with
      | some i => return args.values[i]?
      | none => m.boundArgumentFrom name fuel (m.instanceRoot? owner)
    | _ => return none
  | _, _ => return none

def boundArgument (m : Model) (id : SpaceId) (name : String) : Except Failure (Option Value) :=
  m.boundArgumentFrom name m.spaces.capacity (m.instanceRoot? id)

def meaning (m : Model) (id : SpaceId) (name : String) : Except Failure Meaning := do
  let s ← m.space id
  match SystemName.ofString? name with
  | some .parent =>
    return match s.parent with
      | some p => .space (.existing p)
      | none => .model
  | some .model => return .model
  | some .self => return .space (.existing id)
  | none =>
    match ← m.memberMeaning id name with
    | some found => return found
    | none =>
      match ← m.boundArgument id name with
      | some v => return .param v
      | none =>
        match m.globals.get? name with
        | some r => return .ref r (.value (← m.reference r).value)
        | none => throw (.unknownName name (m.dottedName id))

end Model

end Recalc
