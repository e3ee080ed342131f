import Recalc.Key
import Recalc.Table

set_option autoImplicit false

/-!
# Dependency graph

An edge from a reader to a node says that computing the reader read the value of the node. Edges
are indexed both ways, so that invalidation can walk from a changed node to its readers and
eviction can drop the reads of a node. A third index lists, for each entity, the keys of its nodes
that have an edge. No stored set is empty and no node reads itself.
-/

namespace Recalc

open Std

structure Graph where
  /-- The nodes that read a node. -/
  readers : Table Node (KeySet Node) := .empty
  /-- The nodes that a node read. -/
  reads : Table Node (KeySet Node) := .empty
  /-- The keys of an entity's nodes that have an edge. -/
  keys : Table Entity (KeySet Key) := .empty

namespace Graph

def empty : Graph := {}

instance : Inhabited Graph := ⟨empty⟩

def setAt {κ ν : Type} [Ord κ] [TransOrd κ] [Ord ν] (t : Table κ (KeySet ν)) (k : κ) : KeySet ν :=
  (t.get? k).getD .empty

def addAt {κ ν : Type} [Ord κ] [TransOrd κ] [Ord ν] [TransOrd ν] (t : Table κ (KeySet ν)) (k : κ)
    (v : ν) : Table κ (KeySet ν) :=
  t.insert k ((setAt t k).add v)

/-- Remove a member from the set stored under `k`; an emptied set is removed. -/
def removeAt {κ ν : Type} [Ord κ] [TransOrd κ] [Ord ν] [TransOrd ν] (t : Table κ (KeySet ν)) (k : κ)
    (v : ν) : Table κ (KeySet ν) :=
  match t.get? k with
  | some s =>
    let rest := s.erase v
    if rest.isEmpty then t.erase k else t.insert k rest
  | none => t

def readersOf (g : Graph) (n : Node) : List Node := (setAt g.readers n).keys

def readsOf (g : Graph) (n : Node) : List Node := (setAt g.reads n).keys

def hasReaders (g : Graph) (n : Node) : Bool := g.readers.contains n

def mentions (g : Graph) (n : Node) : Bool := (setAt g.keys n.entity).contains n.key

def nodesAbout (g : Graph) (e : Entity) : List Node := (setAt g.keys e).keys.map (⟨e, ·⟩)

def size (g : Graph) : Nat := g.reads.values.foldl (fun n s => n + s.size) 0

def enlist (g : Graph) (n : Node) : Graph := { g with keys := addAt g.keys n.entity n.key }

def delist (g : Graph) (n : Node) : Graph :=
  if g.readers.contains n || g.reads.contains n then g
  else { g with keys := removeAt g.keys n.entity n.key }

/-- Record that `reader` read `n`. A repeated read is one edge, and nothing reads itself. -/
def record (g : Graph) (reader n : Node) : Graph :=
  if reader == n then g
  else if (setAt g.reads reader).contains n then g
  else
    ({ g with
        reads := addAt g.reads reader n
        readers := addAt g.readers n reader }.enlist reader).enlist n

/-- Forget that `reader` read `n`, in the index by node read. -/
def dropReader (reader : Node) (g : Graph) (n : Node) : Graph :=
  { g with readers := removeAt g.readers n reader }.delist n

def dropReads (g : Graph) (reader : Node) : Graph :=
  match g.reads.get? reader with
  | none => g
  | some ns =>
    (ns.keys.foldl (dropReader reader) { g with reads := g.reads.erase reader }).delist reader

/-- Forget that `reader` read `n`, in the index by reader. -/
def dropRead (n : Node) (g : Graph) (reader : Node) : Graph :=
  { g with reads := removeAt g.reads reader n }.delist reader

def dropReaders (g : Graph) (n : Node) : Graph :=
  match g.readers.get? n with
  | none => g
  | some rs => rs.keys.foldl (dropRead n) { g with readers := g.readers.erase n }

def isolate (g : Graph) (n : Node) : Graph := ((g.dropReads n).dropReaders n).delist n

def prune (g : Graph) (e : Entity) : Graph := (g.nodesAbout e).foldl isolate g

def handles (g : Graph) : List Handle :=
  let ofNode (n : Node) := n.key.handles
  let ofSets (t : Table Node (KeySet Node)) :=
    t.entries.flatMap fun e => ofNode e.1 ++ e.2.keys.flatMap ofNode
  ofSets g.readers ++ ofSets g.reads ++ g.keys.entries.flatMap fun e => e.2.keys.flatMap Key.handles

end Graph

end Recalc
