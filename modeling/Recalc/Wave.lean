import Recalc.Derive
import Recalc.Reach

set_option autoImplicit false

/-!
# Waves

An edit of a static space is followed by a wave that derives the space and everything downstream
of it. A space waits while its parent or one of its bases is still in the queue. When a whole
rotation made no progress only waiting spaces are left, and the first is taken all the same.
-/

namespace Recalc

structure Summary where
  /-- How often a space was derived. -/
  spaces : Nat := 0
  created : Nat := 0
  updated : Nat := 0
  removed : Nat := 0
  deriving DecidableEq, Repr

def Summary.changesNothing (s : Summary) : Bool :=
  s.created == 0 && s.updated == 0 && s.removed == 0

def Summary.add (s : Summary) (c : Changes) : Summary where
  spaces := s.spaces + 1
  created := s.created + c.created
  updated := s.updated + c.updated
  removed := s.removed + c.removed

namespace Model

open Recalc.Action

def heirs (m : Model) (id : SpaceId) : List SpaceId :=
  (m.spaces.entries.filter fun e => (e.2.bases ++ e.2.implicitBases).contains id).map (·.1)

/-- The spaces that a wave from `starts` begins with, in order. -/
def frontier (m : Model) (starts : List SpaceId) : List SpaceId :=
  reachFrom m.heirs m.spaces.capacity (starts.filter m.spaces.contains).reverse

def waits (m : Model) (id : SpaceId) (queue : List SpaceId) : Bool :=
  ((m.spaces.get? id).bind Space.parent).any queue.contains ||
    (m.allBases id).any fun b => b != id && queue.contains b

def enqueue (queue more : List SpaceId) : List SpaceId :=
  more.foldl (fun q id => if q.contains id then q else q ++ [id]) queue

/-- Go on with a wave for at most `fuel` steps; `stalled` spaces in a row had to wait. -/
def wave : Nat → Nat → List SpaceId → Summary → Action Summary
  | 0, _, _, _ => exhausted
  | _ + 1, _, [], summary => pure summary
  | fuel + 1, stalled, id :: rest, summary => do
    let m ← get
    if !m.spaces.contains id then wave fuel stalled rest summary
    else if stalled ≤ rest.length && m.waits id rest then
      wave fuel (stalled + 1) (rest ++ [id]) summary
    else
      let changes ← derive id
      let m ← get
      wave fuel 0 (enqueue rest (changes.follow ++ m.heirs id)) (summary.add changes)

def deriveFrom (fuel : Nat) (starts : List SpaceId) : Action Summary := do
  let m ← get
  wave fuel 0 (m.frontier starts) {}

end Model

end Recalc
