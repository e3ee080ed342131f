import Recalc.Edit.Cells
import Recalc.Edit.Inheritance
import Recalc.Edit.Input
import Recalc.Edit.Reference
import Recalc.Edit.Space
import Recalc.Inspect
import Recalc.Registry
import Recalc.Snapshot

set_option autoImplicit false

/-!
# Rebuilding a model

A snapshot is replayed through the ordinary edits: all spaces first, then bases and parameters so
that inheritance can run, then members, then inputs and model-level references. Derived spaces are
created as authored ones and flagged back.
-/

namespace Recalc

abbrev Loader := String → List Param → Except Failure Formula

namespace StoredSpace

mutual

/-- A space and those inside it, each with the path of its parent, parents first. -/
def flatten (parent : Option String) : StoredSpace → List (Option String × StoredSpace)
  | ⟨name, derived, bases, params, binder, cells, refs, children, allowNone, doc⟩ =>
    let path := match parent with
      | some p => p ++ "." ++ name
      | none => name
    (parent, ⟨name, derived, bases, params, binder, cells, refs, children, allowNone, doc⟩) ::
      flattenAll (some path) children

def flattenAll (parent : Option String) :
    List StoredSpace → List (Option String × StoredSpace)
  | [] => []
  | s :: rest => flatten parent s ++ flattenAll parent rest

end

end StoredSpace

namespace Model

open Recalc.Action

def each {α : Type} (f : α → Action Unit) : List α → Action Unit
  | [] => pure ()
  | a :: rest => do
    f a
    each f rest

def createSpaces (fuel : Nat) :
    List (Option String × StoredSpace) → Action (List (SpaceId × StoredSpace))
  | [] => pure []
  | (path, s) :: rest => do
    let parent ← match path with
      | some p => some <$> read (·.locate p)
      | none => pure none
    let id ← createSpace fuel parent s.name
    let more ← createSpaces fuel rest
    return (id, s) :: more

def loadOptional (load : Loader) : Option StoredFormula → Action (Option Formula)
  | some f => some <$> ofExcept (load f.source f.params)
  | none => pure none

def restoreBases (fuel : Nat) (load : Loader) (e : SpaceId × StoredSpace) : Action Unit := do
  each (fun path => do
    let base ← read (·.locate path)
    let _ ← linkBase fuel e.1 base
    return) e.2.bases
  match e.2.params with
  | some params => declareParams fuel e.1 params (← loadOptional load e.2.binder)
  | none => return

def liveValue (m : Model) : StoredValue → Except Failure Value
  | .value v => .ok v
  | .space path => do return .space (← m.handleTo (← m.locate path))

def restoreRef (fuel : Nat) (id : SpaceId) (r : StoredRef) : Action Unit := do
  let v ← read (·.liveValue r.value)
  let _ ← bindName fuel id r.name v r.mode
  return

def restoreCells (fuel : Nat) (load : Loader) (id : SpaceId) (c : StoredCells) :
    Action Unit := do
  let cell ← defineCells fuel id c.name (← loadOptional load c.formula)
  if c.allowNone.isSome then letCellsBeEmpty fuel cell c.allowNone

def restoreMembers (fuel : Nat) (load : Loader) (e : SpaceId × StoredSpace) : Action Unit := do
  each (restoreRef fuel e.1) e.2.refs
  each (restoreCells fuel load e.1) (e.2.cells.filter (!·.derived))
  if e.2.allowNone.isSome then letSpaceBeEmpty e.1 e.2.allowNone
  if e.2.doc.isSome then document e.1 e.2.doc

def restoreFlag (e : SpaceId × StoredSpace) : Action Unit := do
  if e.2.derived then
    let _ ← read (·.space e.1)
    modify (·.modifySpace e.1 (Space.setDerived true))

def restoreInputs (e : SpaceId × StoredSpace) : Action Unit :=
  each (fun c => do
    let cell ← read (·.cellsNamed e.1 c.name)
    each (fun i => putInput cell i.args i.value) c.inputs) e.2.cells

def restoreGlobal (g : StoredRef) : Action Unit := do
  let v ← read (·.liveValue g.value)
  let _ ← bindGlobal g.name v
  return

def restore (fuel : Nat) (load : Loader) (s : Snapshot) : Action Unit := do
  let spaces ← createSpaces fuel (StoredSpace.flattenAll none s.spaces)
  each (restoreBases fuel load) spaces
  each (restoreMembers fuel load) spaces
  each restoreFlag spaces
  each restoreInputs spaces
  each restoreGlobal s.globals

def ofSnapshot (fuel : Nat) (load : Loader) (s : Snapshot) (order : WalkOrder := .bySlot) :
    Option (Except Failure Model) :=
  match restore fuel load s { name := s.name, config := s.config, order } with
  | some (.ok (), m) => some (.ok m)
  | some (.error e, _) => some (.error e)
  | none => none

end Model

end Recalc
