import Recalc.Pool
import Recalc.Graph
import Recalc.Space
import Recalc.Stack

set_option autoImplicit false

/-!
# Models

A model owns its entities in three pools, lists its root spaces and model-level references by
name, and keeps the dependency graph and the stack of nodes under evaluation. This module has the
record, checked access to entities, and what follows from the links between spaces: counterparts,
instance roots, handles, lineages and the labels shown to people.
-/

namespace Recalc

structure Config where
  /-- The most nodes under evaluation at a time, and the longest walk that a relative reference
  may take through the tree of spaces. -/
  maxDepth : Nat := 256
  /-- Whether cells may be empty where neither they nor their spaces say. -/
  allowNone : Bool := false
  /-- Reclaim instances that nothing holds at the start of every call by the host. -/
  reclaimOnCall : Bool := true
  deriving DecidableEq, Repr

/-- How the spaces of a model come out of a hash set that was filled in slot order: nothing but a
permutation is known of it. -/
structure WalkOrder where
  of : List SpaceId → List SpaceId
  perm : ∀ l, (of l).Perm l

def WalkOrder.bySlot : WalkOrder := ⟨fun l => l, fun l => .refl l⟩

structure Model where
  name : String
  config : Config := {}
  /-- In which order the spaces are searched for links to bases that are gone. -/
  order : WalkOrder := .bySlot
  spaces : Pool .space Space := .empty
  cells : Pool .cells Cells := .empty
  refs : Pool .ref Reference := .empty
  roots : NameMap SpaceId := .empty
  globals : NameMap RefId := .empty
  graph : Graph := .empty
  /-- The nodes under evaluation. -/
  stack : Stack := .empty
  /-- How many formula bodies were started. -/
  runs : Nat := 0

namespace Model

def gone {family : Family} (what : String) (id : Id family) : Failure :=
  .deleted (what ++ " " ++ id.text)

def space (m : Model) (id : SpaceId) : Except Failure Space :=
  match m.spaces.get? id with
  | some s => .ok s
  | none => .error (gone "space" id)

def cell (m : Model) (id : CellId) : Except Failure Cells :=
  match m.cells.get? id with
  | some c => .ok c
  | none => .error (gone "cells" id)

def reference (m : Model) (id : RefId) : Except Failure Reference :=
  match m.refs.get? id with
  | some r => .ok r
  | none => .error (gone "reference" id)

def modifySpace (m : Model) (id : SpaceId) (f : Space → Space) : Model :=
  { m with spaces := m.spaces.modify id f }

def modifyCell (m : Model) (id : CellId) (f : Cells → Cells) : Model :=
  { m with cells := m.cells.modify id f }

def modifyRef (m : Model) (id : RefId) (f : Reference → Reference) : Model :=
  { m with refs := m.refs.modify id f }

/-- The static space that a space is a replica of; a static space is its own counterpart. -/
def counterpart (m : Model) (id : SpaceId) : Except Failure SpaceId := do
  let s ← m.space id
  return match s.kind with
    | .static .. => id
    | .item _ counterpart _ _ => counterpart
    | .dynamic counterpart _ => counterpart

def instanceRoot? (m : Model) (id : SpaceId) : Option SpaceId :=
  match m.spaces.get? id with
  | some s =>
    match s.kind with
    | .static .. => none
    | .item .. => some id
    | .dynamic _ root => some root
  | none => none

/-- The instances that a handle to a space keeps alive, the innermost first. -/
def pinsOf (m : Model) (id : SpaceId) : List SpaceId :=
  match m.instanceRoot? id with
  | some root =>
    match m.spaces.get? root with
    | some s =>
      match s.kind with
      | .item _ _ _ enclosing => root :: enclosing
      | _ => []
    | none => []
  | none => []

def handleTo (m : Model) (id : SpaceId) : Except Failure Handle := do
  let _ ← m.space id
  return ⟨id, m.pinsOf id⟩

def ancestryFrom (m : Model) : Nat → SpaceId → List SpaceId
  | 0, _ => []
  | fuel + 1, id =>
    match m.spaces.get? id with
    | some s =>
      id :: match s.parent with
        | some p => m.ancestryFrom fuel p
        | none => []
    | none => []

def ancestry (m : Model) (id : SpaceId) : List SpaceId := m.ancestryFrom m.spaces.capacity id

def encloses (m : Model) (ancestor id : SpaceId) : Bool :=
  (m.ancestry id).tail.contains ancestor

def rootOf? (m : Model) (id : SpaceId) : Option SpaceId := (m.ancestry id).getLast?

/-- Explicit bases followed by implicit ones, each live base once. -/
def allBases (m : Model) (id : SpaceId) : List SpaceId :=
  match m.spaces.get? id with
  | some s =>
    (s.bases ++ s.implicitBases).foldl
      (fun out b => if !out.contains b && m.spaces.contains b then out ++ [b] else out) []
  | none => []

def deletedLabel {family : Family} (id : Id family) : String := "<deleted " ++ id.text ++ ">"

def dottedNameFrom (m : Model) : Nat → SpaceId → String
  | 0, id => deletedLabel id
  | fuel + 1, id =>
    match m.spaces.get? id with
    | none => deletedLabel id
    | some s =>
      match s.kind with
      | .item owner _ args _ => m.dottedNameFrom fuel owner ++ "[" ++ args.text ++ "]"
      | _ =>
        match s.parent with
        | some p => m.dottedNameFrom fuel p ++ "." ++ s.name
        | none => s.name

/-- The name of a space in messages, such as `Outer.Inner` or `Outer[1, 2].Inner`. -/
def dottedName (m : Model) (id : SpaceId) : String := m.dottedNameFrom (m.spaces.capacity + 1) id

def cellsName (m : Model) (id : CellId) : String :=
  match m.cells.get? id with
  | some c => m.dottedName c.space ++ "." ++ c.name
  | none => deletedLabel id

/-- The readable form of a node, such as `Outer.Inner.cell(1, 2)`. -/
def labelOf (m : Model) (n : Node) : String :=
  match n.entity with
  | .cells id =>
    match m.cells.get? id with
    | some c => m.dottedName c.space ++ "." ++ c.name ++ "(" ++ n.key.text ++ ")"
    | none => deletedLabel id
  | .space id => m.dottedName id ++ "[" ++ n.key.text ++ "]"
  | .ref id =>
    match m.refs.get? id with
    | some r =>
      match r.owner with
      | some owner => m.dottedName owner ++ "." ++ r.name
      | none => r.name
    | none => deletedLabel id

/-- The labels of the nodes under evaluation, the outermost first. -/
def trace (m : Model) : List String := m.stack.nodes.reverse.map m.labelOf

def editable (m : Model) (id : SpaceId) : Except Failure Space := do
  let s ← m.space id
  if s.isStatic then return s else throw (.readOnly (m.dottedName id))

def addSpace (m : Model) (s : Space) : SpaceId × Model :=
  let (id, spaces) := m.spaces.insert s
  (id, { m with spaces })

def addCells (m : Model) (c : Cells) : CellId × Model :=
  let (id, cells) := m.cells.insert c
  (id, { m with cells }.modifySpace c.space fun s =>
    { s with cells := s.cells.insert c.name id })

def addRef (m : Model) (r : Reference) : RefId × Model :=
  let (id, refs) := m.refs.insert r
  let m := { m with refs }
  match r.owner with
  | some owner => (id, m.modifySpace owner fun s => { s with refs := s.refs.insert r.name id })
  | none => (id, { m with globals := m.globals.insert r.name id })

def addChild (m : Model) (parent : SpaceId) (s : Space) : SpaceId × Model :=
  let (id, m) := m.addSpace s
  (id, m.modifySpace parent fun p => { p with spaces := p.spaces.insert s.name id })

def copyCells (m : Model) (replica counterpart : SpaceId) : Model :=
  match m.spaces.get? counterpart with
  | none => m
  | some source =>
    (source.cells.values.filterMap m.cells.get?).foldl
      (fun m c =>
        (m.addCells
          { name := c.name, space := replica, formula := c.formula, derived := true,
            allowNone := c.allowNone }).2)
      m

end Model

end Recalc
