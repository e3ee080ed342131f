import Recalc.Table

set_option autoImplicit false

/-!
# Reachability

Depth-first search from a stack of items. Each item is visited once; the answer lists the visited
items in the order of their visits. The number of distinct items bounds the search.
-/

namespace Recalc

open Std

variable {α : Type} [Ord α] [TransOrd α]

/-- Visit at most `fuel` more items, the head of `stack` first, and put them on top of those visited
before, the last one first. The successors of an item go on top of the stack, the last one
uppermost. -/
def visitFrom (next : α → List α) : Nat → List α → KeySet α → List α → List α
  | 0, _, _, visited => visited
  | fuel + 1, stack, seen, visited =>
    match stack.dropWhile seen.contains with
    | [] => visited
    | a :: rest => visitFrom next fuel ((next a).reverse ++ rest) (seen.add a) (a :: visited)

def reachFrom (next : α → List α) (fuel : Nat) (stack : List α) : List α :=
  (visitFrom next fuel stack .empty []).reverse

end Recalc
