import Recalc.Model

set_option autoImplicit false

/-!
# Invalidation and destruction

Invalidating a node forgets what was computed for it and for everything that read it, with all
reads of those nodes; inputs are definitions and stay. Destroying an entity invalidates its nodes,
removes every edge at them and frees the entity.
-/

namespace Recalc.Model

def isComputed (m : Model) (n : Node) : Bool :=
  match n.entity with
  | .cells id => (m.cells.get? id).any (·.contents.hasComputed n.key)
  | _ => false

def forget (m : Model) (n : Node) : Model :=
  let m := { m with graph := m.graph.dropReads n }
  match n.entity with
  | .cells id => m.modifyCell id fun c => { c with contents := c.contents.evict n.key }
  | _ => m

/-- A sweep over a node and everything that read it: the nodes that wait for their turn, those that
had it, the number of computed values forgotten so far, and the model so far. -/
structure Sweep where
  waiting : List Node
  seen : KeySet Node
  count : Nat
  model : Model

def Sweep.start (m : Model) (n : Node) : Sweep := ⟨[n], .empty, 0, m⟩

/-- Forget the first waiting node that had no turn yet, and let its readers wait. The edges to the
readers are read before the edges from the node go. -/
def Sweep.step (s : Sweep) : Option Sweep :=
  match s.waiting.dropWhile s.seen.contains with
  | [] => none
  | n :: rest =>
    some {
      waiting := s.model.graph.readersOf n ++ rest
      seen := s.seen.add n
      count := s.count + (if s.model.isComputed n then 1 else 0)
      model := s.model.forget n }

def Sweep.run : Nat → Sweep → Sweep
  | 0, s => s
  | fuel + 1, s =>
    match s.step with
    | none => s
    | some s' => run fuel s'

/-- Forget a node and everything that transitively read it, and count the computed values. A node
other than the first has its turn only for what it read. -/
def invalidate (m : Model) (n : Node) : Nat × Model :=
  let s := (Sweep.start m n).run (m.graph.reads.size + 1)
  (s.count, s.model)

def invalidateAll (m : Model) (nodes : List Node) : Nat × Model :=
  nodes.foldl (fun r n => let (count, m) := r.2.invalidate n; (r.1 + count, m)) (0, m)

/-- The nodes of a cells object: with an edge, with an input, or computed. -/
def nodesOfCells (m : Model) (id : CellId) : List Node :=
  let inGraph := m.graph.nodesAbout (.cells id)
  match m.cells.get? id with
  | some c =>
    inGraph ++
      ((c.contents.values.keys ++ c.contents.inputs.keys).map (Node.cells id)).filter
        fun n => !m.graph.mentions n
  | none => inGraph

def invalidateCells (m : Model) (id : CellId) : Nat × Model := m.invalidateAll (m.nodesOfCells id)

def invalidateEach (m : Model) (ids : List CellId) : Nat × Model :=
  ids.foldl (fun r id => let (count, m) := r.2.invalidateCells id; (r.1 + count, m)) (0, m)

/-- Names in a space may mean something else now, so forget everything its cells computed. -/
def invalidateSpace (m : Model) (id : SpaceId) : Nat × Model :=
  match m.spaces.get? id with
  | some s => m.invalidateEach s.cells.values
  | none => (0, m)

def prune (m : Model) (e : Entity) : Model := { m with graph := m.graph.prune e }

def destroyCells (m : Model) (id : CellId) : Model :=
  let m := (m.invalidateCells id).2.prune (.cells id)
  { m with cells := m.cells.erase id }

def destroyReference (m : Model) (id : RefId) : Model :=
  let m := (m.invalidate (.ref id)).2.prune (.ref id)
  { m with refs := m.refs.erase id }

def destroyTree : Nat → Model → SpaceId → Model
  | 0, m, _ => m
  | fuel + 1, m, id =>
    match m.spaces.remove? id with
    | none => m
    | some (s, spaces) =>
      let m := { m with spaces }
      let m := s.instances.entries.foldl
        (fun m e => destroyTree fuel (m.invalidate (.item id e.1)).2 e.2) m
      let m := m.prune (.space id)
      let m := s.cells.values.foldl destroyCells m
      let m := s.refs.values.foldl destroyReference m
      s.spaces.values.foldl (destroyTree fuel) m

def destroySpace (m : Model) (id : SpaceId) : Model := destroyTree (m.spaces.capacity + 1) m id

/-- Remove an instance from the table of its owner and destroy it with everything that read it.
The answer tells whether there was one. -/
def removeInstance (m : Model) (owner : SpaceId) (key : Key) : Bool × Model :=
  match (m.spaces.get? owner).bind (·.instances.get? key) with
  | none => (false, m)
  | some item =>
    let m := m.modifySpace owner fun s => { s with instances := s.instances.erase key }
    (true, (m.invalidate (.item owner key)).2.destroySpace item)

def removeEveryInstance (m : Model) (id : SpaceId) : Nat × Model :=
  match m.spaces.get? id with
  | none => (0, m)
  | some s =>
    s.instances.keys.foldl
      (fun r key => let (found, m) := r.2.removeInstance id key
        (if found then r.1 + 1 else r.1, m))
      (0, m)

/-- Definitions inside a static space changed, so the instances of it and of the static spaces
around it are copies of stale ones. -/
def dropStaleInstances (m : Model) (id : SpaceId) : Model :=
  ((m.ancestry id).filter fun s => (m.spaces.get? s).any Space.isStatic).foldl
    (fun m s => (m.removeEveryInstance s).2) m

/-- A member called `name` appeared, so whoever read the model-level reference of that name has to
read again. -/
def hideGlobal (m : Model) (name : String) : Model :=
  match m.globals.get? name with
  | some id => (m.invalidate (.ref id)).2
  | none => m

end Recalc.Model
