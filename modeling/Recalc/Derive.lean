import Recalc.Action
import Recalc.Invalidate

set_option autoImplicit false

/-!
# Derivation

A static space derives every member it does not author from its effective bases: the first base
that defines a name decides. Bases, and authored members, must agree on the kind of a name. The
children of one name in the bases become the implicit bases of the child of that name. Parameters
that a space did not set itself are those of its first base with any.
-/

namespace Recalc

inductive MemberKind where
  | cells
  | space
  | reference
  deriving DecidableEq

def MemberKind.noun : MemberKind → String
  | .cells => "cells"
  | .space => "a space"
  | .reference => "a reference"

/-- What a space inherits from its bases: the source of each member, and for children every source
in base order. -/
structure Heritage where
  cells : NameMap CellId := .empty
  refs : NameMap RefId := .empty
  spaces : NameMap (List SpaceId) := .empty
  signature : Option Signature := none

/-- Add what one base defines, where no earlier base did. -/
def Heritage.withBase (heritage : Heritage) (s : Space) : Heritage where
  cells := s.cells.entries.foldl (fun t e => t.insertNew e.1 e.2) heritage.cells
  refs := s.refs.entries.foldl (fun t e => t.insertNew e.1 e.2) heritage.refs
  spaces := s.spaces.entries.foldl (fun t e => t.insert e.1 ((t.get? e.1).getD [] ++ [e.2]))
    heritage.spaces
  signature := heritage.signature.or s.signature

structure Changes where
  created : Nat := 0
  updated : Nat := 0
  removed : Nat := 0
  /-- The names of the space may mean something else now. -/
  structural : Bool := false
  /-- The definition of a member changed. -/
  redefined : Bool := false
  /-- A child was destroyed with everything inside it. -/
  destroyed : Bool := false
  /-- Spaces that need deriving in turn. -/
  follow : List SpaceId := []

namespace Changes

def append (a b : Changes) : Changes where
  created := a.created + b.created
  updated := a.updated + b.updated
  removed := a.removed + b.removed
  structural := a.structural || b.structural
  redefined := a.redefined || b.redefined
  destroyed := a.destroyed || b.destroyed
  follow := a.follow ++ b.follow

instance : Append Changes := ⟨append⟩

def memberCreated : Changes := { created := 1, structural := true }

def memberRemoved : Changes := { removed := 1, structural := true }

end Changes

namespace Model

open Recalc.Action

def collect {α : Type} (f : α → Action Changes) : List α → Action Changes
  | [] => pure {}
  | a :: rest => do
    let first ← f a
    let more ← collect f rest
    return first ++ more

/-- A name is one kind of member here and another kind there. -/
def conflict (m : Model) (id : SpaceId) (name : String) (first second : MemberKind × SpaceId) :
    Failure :=
  .inheritanceConflict name (m.dottedName id)
    ("it is " ++ first.1.noun ++ " in " ++ m.dottedName first.2 ++ " but " ++
      second.1.noun ++ " in " ++ m.dottedName second.2)

def membersOf (s : Space) : List (String × MemberKind) :=
  s.cells.names.map (·, .cells) ++ s.spaces.names.map (·, .space) ++
    s.refs.names.map (·, .reference)

/-- The kinds that names have among the bases, each with the base that decided it. -/
abbrev Kinds := NameMap (MemberKind × SpaceId)

/-- Note the members of one base; they must agree with the kinds noted before. -/
def noteKinds (m : Model) (id base : SpaceId) :
    List (String × MemberKind) → Kinds → Except Failure Kinds
  | [], kinds => .ok kinds
  | (name, kind) :: rest, kinds =>
    match kinds.get? name with
    | some seen =>
      if seen.1 = kind then m.noteKinds id base rest kinds
      else .error (m.conflict id name seen (kind, base))
    | none => m.noteKinds id base rest (kinds.insert name (kind, base))

def gatherBases (m : Model) (id : SpaceId) :
    List SpaceId → Kinds → Heritage → Except Failure (Kinds × Heritage)
  | [], kinds, heritage => .ok (kinds, heritage)
  | base :: rest, kinds, heritage => do
    let s ← m.space base
    let kinds ← m.noteKinds id base (membersOf s) kinds
    m.gatherBases id rest kinds (heritage.withBase s)

def authored (m : Model) (s : Space) : List (String × MemberKind) :=
  (s.cells.entries.filter fun e => (m.cells.get? e.2).any (!·.derived)).map (·.1, .cells) ++
    (s.refs.entries.filter fun e => (m.refs.get? e.2).any (!·.derived)).map (·.1, .reference) ++
    (s.spaces.entries.filter fun e => (m.spaces.get? e.2).any (!·.isDerived)).map (·.1, .space)

def checkAuthored (m : Model) (id : SpaceId) (kinds : Kinds) :
    List (String × MemberKind) → Except Failure Unit
  | [] => .ok ()
  | (name, kind) :: rest =>
    match kinds.get? name with
    | some inherited =>
      if inherited.1 = kind then m.checkAuthored id kinds rest
      else .error (m.conflict id name (kind, id) inherited)
    | none => m.checkAuthored id kinds rest

def heritage (m : Model) (id : SpaceId) : Except Failure Heritage := do
  let (kinds, heritage) ← m.gatherBases id (m.allBases id) .empty {}
  let s ← m.space id
  m.checkAuthored id kinds (m.authored s)
  return heritage

/-- Derive one cells object. A derived one follows its source in formula and setting; its inputs
stay. -/
def deriveCells (id : SpaceId) (name : String) (source : CellId) : Action Changes := do
  let src ← read (·.cell source)
  let s ← read (·.space id)
  match s.cells.get? name with
  | none =>
    modify fun m =>
      (m.addCells { name, space := id, formula := src.formula, derived := true,
                    allowNone := src.allowNone }).2.hideGlobal name
    return .memberCreated
  | some own =>
    let current ← read (·.cell own)
    if current.derived && (!equalFormulas current.formula src.formula
        || current.allowNone != src.allowNone) then
      modify fun m =>
        ((m.modifyCell own fun c => { c with formula := src.formula, allowNone := src.allowNone
          }).invalidateCells own).2
      return { updated := 1, redefined := true }
    else return {}

def dropCells (id : SpaceId) (heritage : Heritage) (e : String × CellId) : Action Changes := do
  if heritage.cells.contains e.1 then return {}
  let c ← read (·.cell e.2)
  if c.derived then
    modify fun m =>
      (m.modifySpace id fun s => { s with cells := s.cells.erase e.1 }).destroyCells e.2
    return .memberRemoved
  else return {}

/-- Derive one reference. A derived one follows its source in value, mode and origin. -/
def deriveRef (id : SpaceId) (name : String) (source : RefId) : Action Changes := do
  let src ← read (·.reference source)
  let s ← read (·.space id)
  match s.refs.get? name with
  | none =>
    modify fun m =>
      (m.addRef { src with name, owner := some id, derived := true }).2.hideGlobal name
    return .memberCreated
  | some own =>
    let current ← read (·.reference own)
    if current.derived && (current.value != src.value || current.mode != src.mode
        || current.origin != src.origin) then
      modify fun m =>
        ((m.modifyRef own fun r =>
          { r with value := src.value, mode := src.mode, relative := src.relative,
                   origin := src.origin }).invalidate (.ref own)).2
      return { updated := 1 }
    else return {}

def dropRef (id : SpaceId) (heritage : Heritage) (e : String × RefId) : Action Changes := do
  if heritage.refs.contains e.1 then return {}
  let r ← read (·.reference e.2)
  if r.derived then
    modify fun m =>
      (m.modifySpace id fun s => { s with refs := s.refs.erase e.1 }).destroyReference e.2
    return .memberRemoved
  else return {}

def deriveChild (id : SpaceId) (name : String) (sources : List SpaceId) : Action Changes := do
  let s ← read (·.space id)
  match s.spaces.get? name with
  | none =>
    let child ← update fun m =>
      m.addChild id ((Space.fresh name (some id) true).setImplicitBases fun _ => sources)
    modify (·.hideGlobal name)
    return { Changes.memberCreated with follow := [child] }
  | some child =>
    let c ← read (·.space child)
    if c.isStatic && c.implicitBases != sources then
      modify (·.modifySpace child (Space.setImplicitBases fun _ => sources))
      return { follow := [child] }
    else return {}

/-- A child that no base defines: a derived one is destroyed, an authored one loses its implicit
bases. -/
def dropChild (id : SpaceId) (heritage : Heritage) (e : String × SpaceId) : Action Changes := do
  if heritage.spaces.contains e.1 then return {}
  let c ← read (·.space e.2)
  if c.isDerived then
    modify fun m =>
      (m.modifySpace id fun s => { s with spaces := s.spaces.erase e.1 }).destroySpace e.2
    return { Changes.memberRemoved with destroyed := true }
  else if !c.implicitBases.isEmpty then
    modify (·.modifySpace e.2 (Space.setImplicitBases fun _ => []))
    return { follow := [e.2] }
  else return {}

def sameSignature : Option Signature → Option Signature → Bool
  | some a, some b => a.same b
  | none, none => true
  | _, _ => false

/-- Inherit parameters, unless the space set its own. -/
def deriveSignature (id : SpaceId) (heritage : Heritage) : Action Changes := do
  let s ← read (·.space id)
  if !s.ownSignature && !sameSignature s.signature heritage.signature then
    modify (·.modifySpace id fun s => { s with signature := heritage.signature })
    return { structural := true }
  else return {}

def lostBase (m : Model) (id : SpaceId) : Bool :=
  match m.spaces.get? id with
  | some s => !((s.bases ++ s.implicitBases).all m.spaces.contains)
  | none => false

/-- Drop base links to spaces that are gone, and list the spaces that lost one. -/
def unlinkDeadBases (m : Model) : List SpaceId × Model :=
  let live := m.spaces.contains
  let losers := (m.order.of m.spaces.ids).filter m.lostBase
  (losers, losers.foldl
    (fun m id => m.modifySpace id fun s =>
      (s.setBases (·.filter live)).setImplicitBases (·.filter live)) m)

def deriveMembers (id : SpaceId) (heritage : Heritage) : Action Changes := do
  let cells ← collect (fun e => deriveCells id e.1 e.2) heritage.cells.entries
  let noCells ← collect (dropCells id heritage) (← read (·.space id)).cells.entries
  let refs ← collect (fun e => deriveRef id e.1 e.2) heritage.refs.entries
  let noRefs ← collect (dropRef id heritage) (← read (·.space id)).refs.entries
  let spaces ← collect (fun e => deriveChild id e.1 e.2) heritage.spaces.entries
  let noSpaces ← collect (dropChild id heritage) (← read (·.space id)).spaces.entries
  let signature ← deriveSignature id heritage
  return cells ++ noCells ++ refs ++ noRefs ++ spaces ++ noSpaces ++ signature

def dropStale (id : SpaceId) (changes : Changes) (m : Model) : Model :=
  let m := if changes.structural then (m.invalidateSpace id).2 else m
  if changes.structural || changes.redefined then m.dropStaleInstances id else m

/-- Drop what the changes of a space made stale; the answer lists spaces that lost a base. -/
def settle (id : SpaceId) (changes : Changes) : Action (List SpaceId) := do
  modify (dropStale id changes)
  if changes.destroyed then update unlinkDeadBases else return []

/-- Bring the derived members of a static space in line with its bases. -/
def derive (id : SpaceId) : Action Changes := do
  if !(← read (·.space id)).isStatic then return {}
  let heritage ← read (·.heritage id)
  let changes ← deriveMembers id heritage
  let losers ← settle id changes
  return { changes with follow := changes.follow ++ losers }

end Model

end Recalc
