import Recalc.Invalidate

set_option autoImplicit false

/-!
# Reclaiming instances

An instance can go once no handle keeps it and no stored value read it. The handles that count are
those stored anywhere in the model, in definitions, contents of cells, keys and the graph, and
those the host holds; an instance that lies in another one keeps that one as well.
-/

namespace Recalc.Model

def handles (m : Model) : List Handle :=
  m.cells.entries.flatMap (·.2.handles) ++ m.refs.entries.flatMap (·.2.value.handles) ++
    m.spaces.entries.flatMap (·.2.handles) ++ m.graph.handles ++
    m.stack.nodes.flatMap (·.key.handles)

/-- The instances that something other than their own record keeps alive, when the host holds the
given handles. -/
def pinned (m : Model) (held : List Handle) : List SpaceId :=
  (held ++ m.handles).flatMap Handle.pins ++ m.spaces.entries.flatMap (·.2.enclosing)

/-- Nothing keeps the instance `item` of `owner`, and no stored value read it. -/
def isFree (m : Model) (pinned : List SpaceId) (owner : SpaceId) (key : Key)
    (item : SpaceId) : Bool :=
  match (m.spaces.get? item).map Space.kind with
  | some (.item ..) => !pinned.contains item && !m.graph.hasReaders (.item owner key)
  | _ => true

def allInstances (m : Model) : List ((SpaceId × Key) × SpaceId) :=
  m.spaces.entries.flatMap fun e => e.2.instances.entries.map fun i => ((e.1, i.1), i.2)

def freeInstances (m : Model) (held : List Handle) : List (SpaceId × Key) :=
  match m.allInstances with
  | [] => []
  | all =>
    let pinned := m.pinned held
    (all.filter fun i => m.isFree pinned i.1.1 i.1.2 i.2).map (·.1)

def removeInstances (m : Model) (dead : List (SpaceId × Key)) : Nat × Model :=
  dead.foldl
    (fun r i => let (found, m) := r.2.removeInstance i.1 i.2
      (if found then r.1 + 1 else r.1, m))
    (0, m)

/-- Destroy what can go, for at most `fuel` rounds: an instance that goes may free others. -/
def reclaimRounds (held : List Handle) : Nat → Nat → Model → Nat × Model
  | 0, count, m => (count, m)
  | fuel + 1, count, m =>
    match m.freeInstances held with
    | [] => (count, m)
    | dead =>
      let (destroyed, m) := m.removeInstances dead
      reclaimRounds held fuel (count + destroyed) m

def reclaim (held : List Handle) (m : Model) : Nat × Model :=
  reclaimRounds held (m.spaces.capacity + 1) 0 m

end Recalc.Model
