import Recalc.Edit.Inheritance
import Recalc.Edit.Input

set_option autoImplicit false

/-!
# Inspection

What a host can see of a model without changing it. Listings of keys come in the order of their
written form, listings of nodes in the order of their labels.
-/

namespace Recalc

structure LabelledNode where
  entity : Entity
  args : List Value
  label : String

namespace Model

/-- A list in the order of a written form; equal forms keep their order. -/
def sortByText {α : Type} (text : α → String) (l : List α) : List α :=
  l.mergeSort fun a b => !decide (text b < text a)

def labelled (m : Model) (nodes : List Node) : List LabelledNode :=
  sortByText LabelledNode.label (nodes.map fun n => ⟨n.entity, n.key.values, m.labelOf n⟩)

def liveName (m : Model) (id : SpaceId) : Except Failure String := do
  let _ ← m.space id
  return m.dottedName id

def parentOf (m : Model) (id : SpaceId) : Except Failure (Option SpaceId) := do
  return (← m.space id).parent

def documentation (m : Model) (id : SpaceId) : Except Failure (Option String) := do
  return (← m.space (← m.counterpart id)).doc

def cellsNamed (m : Model) (id : SpaceId) (name : String) : Except Failure CellId := do
  match (← m.space id).cells.get? name with
  | some c => return c
  | none => throw (.unknownName name (m.dottedName id))

def refNamed (m : Model) (id : SpaceId) (name : String) : Except Failure RefId := do
  match (← m.space (← m.counterpart id)).refs.get? name with
  | some r => return r
  | none => throw (.unknownName name (m.dottedName id))

def namesOfRefs (m : Model) (id : SpaceId) : Except Failure (List String) := do
  return (← m.space (← m.counterpart id)).refs.names

def global? (m : Model) (name : String) : Option Value :=
  ((m.globals.get? name).bind m.refs.get?).map (·.value)

def paramNames (m : Model) (id : SpaceId) : Except Failure (Option (List String)) := do
  return (← m.space (← m.counterpart id)).signature.map fun spec => spec.params.map (·.name)

def instanceArgs (m : Model) (id : SpaceId) : Except Failure (List (List Value)) := do
  return sortByText Value.displayItems ((← m.space id).instances.keys.map Key.values)

def inputList (m : Model) (id : CellId) : Except Failure (List (List Value × Value)) := do
  return sortByText (Value.displayItems ·.1)
    ((← m.cell id).contents.inputs.entries.map fun e => (e.1.values, e.2))

def computedArgs (m : Model) (id : CellId) : Except Failure (List (List Value)) := do
  return sortByText Value.displayItems ((← m.cell id).contents.values.keys.map Key.values)

def hasInputAt (m : Model) (id : CellId) (args : List Value) : Except Failure Bool := do
  let key ← m.keyOf id args
  return (← m.cell id).contents.hasInput key

def hasComputedAt (m : Model) (id : CellId) (args : List Value) : Except Failure Bool := do
  let key ← m.keyOf id args
  return (← m.cell id).contents.hasComputed key

/-- What a node read when it was last computed. -/
def readsAt (m : Model) (id : CellId) (args : List Value) :
    Except Failure (List LabelledNode) := do
  return m.labelled (m.graph.readsOf (.cells id (← m.keyOf id args)))

def readersAt (m : Model) (id : CellId) (args : List Value) :
    Except Failure (List LabelledNode) := do
  return m.labelled (m.graph.readersOf (.cells id (← m.keyOf id args)))

def refReaders (m : Model) (id : RefId) : Except Failure (List LabelledNode) := do
  let _ ← m.reference id
  return m.labelled (m.graph.readersOf (.ref id))

def readCount (m : Model) : Nat := m.graph.size

end Model

end Recalc
