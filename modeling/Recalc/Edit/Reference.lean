import Recalc.Edit.Member

set_option autoImplicit false

/-!
# Editing references

A reference binds a value to a name in a static space, or at the level of the model where every
space sees it. Whether a reference to a space is relative is decided when the value is bound.
-/

namespace Recalc.Model

open Recalc.Action

/-- Whether a value bound in a space is to be found relative to where it is read. -/
def bindsRelatively (m : Model) (id : SpaceId) (v : Value) (mode : RefMode) : Bool :=
  match mode, v with
  | .relative, .space _ => true
  | .auto, .space h =>
    (m.spaces.get? h.id).any Space.isStatic && m.rootOf? id == m.rootOf? h.id
  | _, _ => false

/-- A new reference in a static space. Defining an inherited name overrides the derived one. -/
def bindName (fuel : Nat) (id : SpaceId) (name : String) (value : Value) (mode : RefMode) :
    Action RefId := do
  admitName name
  let relative := (← get).bindsRelatively id value mode
  let s ← read (·.editable id)
  let taken := (← get).nameTaken name (some id)
  match s.refs.get? name with
  | some existing =>
    if !(← read (·.reference existing)).derived then fail taken
    else
      modify fun m =>
        ((m.modifyRef existing fun r =>
          { r with value, mode, relative, origin := some id, derived := false }).invalidate
          (.ref existing)).2
      let _ ← deriveFrom fuel [id]
      return existing
  | none =>
    if s.defines name then fail taken
    else
      let new ← update (·.addRef
        { name, owner := some id, value, mode, relative, origin := some id, derived := false })
      settleAddition fuel id name [id]
      return new

/-- Bind a reference to another value. Derived references become authored ones. -/
def rebind (fuel : Nat) (id : RefId) (value : Value) : Action Summary := do
  let r ← read (·.reference id)
  match r.owner with
  | none =>
    modify fun m => ((m.modifyRef id fun r => { r with value }).invalidate (.ref id)).2
    return {}
  | some space =>
    let _ ← read (·.editable space)
    modify fun m =>
      ((m.modifyRef id fun r =>
        { r with value, relative := m.bindsRelatively space value r.mode, origin := some space,
                 derived := false }).invalidate (.ref id)).2
    deriveFrom fuel [space]

def unbind (fuel : Nat) (id : RefId) : Action Summary := do
  let r ← read (·.reference id)
  match r.owner with
  | none =>
    modify fun m => { m with globals := m.globals.erase r.name }.destroyReference id
    return {}
  | some space =>
    let _ ← read (·.editable space)
    if r.derived then fail (.derivedMember r.name ((← get).dottedName space))
    else
      modify fun m =>
        (m.modifySpace space fun s => { s with refs := s.refs.erase r.name }).destroyReference id
      settleChange fuel space

def bindGlobal (name : String) (value : Value) : Action RefId := do
  admitName name
  let m ← get
  if m.globals.contains name then fail (m.nameTaken name none)
  else
    update (·.addRef
      { name, owner := none, value, mode := .absolute, relative := false, origin := none,
        derived := false })

def globalNamed (m : Model) (name : String) : Except Failure RefId :=
  match m.globals.get? name with
  | some id => .ok id
  | none => .error (.unknownName name m.name)

def rebindGlobal (fuel : Nat) (name : String) (value : Value) : Action Unit := do
  let _ ← rebind fuel (← read (·.globalNamed name)) value
  return

def unbindGlobal (fuel : Nat) (name : String) : Action Unit := do
  let _ ← unbind fuel (← read (·.globalNamed name))
  return

end Recalc.Model
