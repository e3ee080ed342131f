import Recalc.Inspect
import Recalc.Snapshot

set_option autoImplicit false

/-!
# Capturing a snapshot

Every authored definition of a model goes into its snapshot. That fails when a formula has no
source key, or when a reference or an input holds a value that cannot be stored.
-/

namespace Recalc

mutual

def Value.isStorable : Value → Bool
  | .space _ | .host _ => false
  | .tuple items | .list items => Value.areStorable items
  | _ => true

def Value.areStorable : List Value → Bool
  | [] => true
  | v :: vs => v.isStorable && Value.areStorable vs

end

namespace Model

def storeFormula (f : Formula) (owner : String) : Except Failure StoredFormula :=
  match f.source with
  | some source => .ok { source, params := f.params }
  | none => .error (.persistence ("formula of " ++ owner ++ " has no source key"))

/-- A reference can be bound to a static space, but not to one inside an instance. -/
def storeValue (m : Model) (v : Value) (owner : String) : Except Failure StoredValue := do
  match v with
  | .space h =>
    if (← m.space h.id).isStatic then return .space (m.dottedName h.id)
    else throw (.persistence (owner ++ " is bound to the instance space " ++ m.dottedName h.id))
  | v =>
    if v.isStorable then return .value v
    else throw (.persistence ("value of " ++ owner ++ " cannot be stored"))

def storeInputs (c : Cells) (label : String) : Except Failure (List StoredInput) :=
  let entries := c.contents.inputs.entries
  if entries.all fun e => e.2.isStorable && Value.areStorable e.1.values then
    .ok (sortByText (Value.displayItems ·.args)
      (entries.map fun e => { args := e.1.values, value := e.2 }))
  else .error (.persistence ("an input of " ++ label ++ " cannot be stored"))

/-- The stored part of a cells object. Derived cells without inputs have none. -/
def storeCells (m : Model) (id : CellId) : Except Failure (List StoredCells) := do
  let c ← m.cell id
  let label := m.cellsName id
  let formula ← match c.formula with
    | some f => if c.derived then pure none else some <$> storeFormula f label
    | none => pure none
  let inputs ← storeInputs c label
  if c.derived && inputs.isEmpty then return []
  return [{ name := c.name, derived := c.derived, formula, inputs
            allowNone := if c.derived then none else c.allowNone }]

def storeRef (m : Model) (path : String) (id : RefId) : Except Failure (List StoredRef) := do
  let r ← m.reference id
  if r.derived then return []
  return [{ name := r.name, value := ← m.storeValue r.value (path ++ "." ++ r.name)
            mode := r.mode }]

def storeParams (s : Space) (path : String) :
    Except Failure (Option (List Param) × Option StoredFormula) := do
  match s.signature with
  | some spec =>
    if s.ownSignature then
      let binder ← match spec.binder with
        | some b => some <$> storeFormula b path
        | none => pure none
      return (some spec.params, binder)
    else return (none, none)
  | none => return (none, none)

def storeSpace (m : Model) : Nat → SpaceId → Except Failure StoredSpace
  | 0, id => .error (gone "space" id)
  | fuel + 1, id => do
    let s ← m.space id
    let path := m.dottedName id
    let (params, binder) ← storeParams s path
    let cells ← s.cells.values.mapM m.storeCells
    let refs ← s.refs.values.mapM (m.storeRef path)
    let children ← s.spaces.values.mapM (m.storeSpace fuel)
    return { name := s.name, derived := s.isDerived, bases := s.bases.map m.dottedName
             params, binder, cells := cells.flatten, refs := refs.flatten, children
             allowNone := s.allowNone, doc := s.doc }

def storeGlobal (m : Model) (e : String × RefId) : Except Failure StoredRef := do
  let r ← m.reference e.2
  return { name := e.1, value := ← m.storeValue r.value e.1, mode := r.mode }

def snapshot (m : Model) : Except Failure Snapshot := do
  let spaces ← m.roots.values.mapM (m.storeSpace m.spaces.capacity)
  let globals ← m.globals.entries.mapM m.storeGlobal
  return { name := m.name, config := m.config, spaces, globals }

end Model

end Recalc
