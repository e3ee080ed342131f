import Recalc.Call
import Recalc.Edit.Cells
import Recalc.Edit.Reference
import Recalc.Edit.Space

set_option autoImplicit false

/-!
# A worked example

A shop has a price and the total of a quantity. The total reads the price, so computing it leaves
one edge in the dependency graph.
-/

namespace Recalc.Shop

open Recalc.Action Model

def total (args : List Value) : Body Value := do
  let price ← Body.ofExcept (← Body.query (.lookup none "price" none)).toInt
  let quantity ← Body.ofExcept (args.getD 0 .empty).toInt
  return .int (price * quantity)

def totalFormula : Formula := ⟨0, [{ name := "q" }], .computed total [], none⟩

/-- Set the shop up in a model, and ask for the total of a quantity. -/
def totalFor (fuel : Nat) (price quantity : Int64) : Action Value := do
  let shop ← createSpace fuel none "Shop"
  let _ ← bindName fuel shop "price" (.int price) .auto
  let cells ← defineCells fuel shop "total" (some totalFormula)
  call fuel [] cells { positional := [.int quantity] }

def start : Model := { name := "doc" }

end Recalc.Shop
