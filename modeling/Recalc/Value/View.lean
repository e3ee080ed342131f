import Recalc.Failure
import Recalc.Value.Text

set_option autoImplicit false

/-!
# Views of values

A view reads a value as an integer, a number, a text and so on, or finds that it is none. Booleans
are integers, and integers are numbers. The demanding forms raise a failure instead.
-/

namespace Recalc.Value

def toInt? : Value → Option Int64
  | .int i => some i
  | .bool b => some (if b then 1 else 0)
  | _ => none

/-- Integers widen to the nearest number. -/
def toNumber? : Value → Option Number
  | .int i => some (Number.ofInt i.toInt)
  | .number x => some x
  | .bool b => some (Number.ofNat (if b then 1 else 0))
  | _ => none

def toBool? : Value → Option Bool
  | .bool b => some b
  | _ => none

def toText? : Value → Option String
  | .text s => some s
  | _ => none

def toSpace? : Value → Option Handle
  | .space h => some h
  | _ => none

def toItems? : Value → Option (List Value)
  | .tuple items | .list items => some items
  | _ => none

def unexpected (wanted : String) (v : Value) : Failure :=
  .raised ("expected " ++ wanted ++ ", got " ++ v.display)

def demand {α : Type} (wanted : String) (view : Value → Option α) (v : Value) :
    Except Failure α :=
  match view v with
  | some a => .ok a
  | none => .error (unexpected wanted v)

def toInt (v : Value) : Except Failure Int64 := v.demand "an integer" toInt?

def toNumber (v : Value) : Except Failure Number := v.demand "a number" toNumber?

def toSpace (v : Value) : Except Failure Handle := v.demand "a space" toSpace?

mutual

def hasKeyForm : Value → Bool
  | .host _ => false
  | .tuple items | .list items => haveKeyForm items
  | _ => true

def haveKeyForm : List Value → Bool
  | [] => true
  | v :: vs => hasKeyForm v && haveKeyForm vs

end

/-- The values that host data turns into: a sequence becomes a tuple, and a missing value the
absence of one. -/
class Embeds (α : Type) where
  embed : α → Value

export Embeds (embed)

instance : Embeds Value := ⟨id⟩

instance : Embeds Int64 := ⟨.int⟩

instance : Embeds Int32 := ⟨fun i => .int i.toInt64⟩

instance : Embeds Number := ⟨.number⟩

instance : Embeds Bool := ⟨.bool⟩

instance : Embeds String := ⟨.text⟩

instance : Embeds Handle := ⟨.space⟩

instance : Embeds (List Value) := ⟨.tuple⟩

instance {α : Type} [Embeds α] : Embeds (Option α) := ⟨fun o => (o.map embed).getD .empty⟩

end Recalc.Value
