import Recalc.Failure
import Recalc.Json.Read
import Recalc.Value

set_option autoImplicit false

/-!
# Stored values

A value is stored as the name of its form with its content: `"Empty"`, or an object with one
member. Handles and host objects have no stored form; the first of them in a value is the reason
why the value has none.
-/

namespace Recalc

/-- Stored numbers are positional from `0.00001` to below `1e16`, exponents have a sign, and of two
equally near decimals the one that ends in an even digit is stored. -/
def Number.stored : Number.Format := ⟨-5, 15, .plus, .even⟩

/-- What is not finite is stored as null. -/
def Number.toJson (x : Number) : Json :=
  if x.isFinite then .numeral (Number.stored.numeral x) else .null

def Json.tagged (tag : String) (content : Json) : Json := Json.ofMembers [(tag, content)]

def Failure.notStorable (form : String) : Failure :=
  .persistence ("the enum variant Value::" ++ form ++ " cannot be serialized")

namespace Value

mutual

def toJson : Value → Except Failure Json
  | .empty => .ok (.ofText "Empty")
  | .bool b => .ok (.tagged "Bool" (.bool b))
  | .int i => .ok (.tagged "Int" (.ofInt i.toInt))
  | .number x => .ok (.tagged "Number" x.toJson)
  | .text s => .ok (.tagged "Text" (.ofText s))
  | .tuple items => do return .tagged "Tuple" (.array (← itemsToJson items))
  | .list items => do return .tagged "List" (.array (← itemsToJson items))
  | .space _ => .error (.notStorable "Space")
  | .host _ => .error (.notStorable "Opaque")

def itemsToJson : List Value → Except Failure (List Json)
  | [] => .ok []
  | v :: vs => do
    let j ← toJson v
    let js ← itemsToJson vs
    return j :: js

end

def ofTag? (tag : String) : Option Value := if tag = "Empty" then some .empty else none

def ofScalar? (tag : String) (content : Json) : Option Value :=
  if tag = "Empty" then
    match content with
    | .null => some .empty
    | _ => none
  else if tag = "Bool" then content.readBool?.map .bool
  else if tag = "Int" then content.readInt64?.map .int
  else if tag = "Number" then content.readNumber?.map .number
  else if tag = "Text" then content.readText?.map .text
  else none

/-- Read a stored value. A tuple takes room for its object and for its array. -/
def ofJson? : Nat → Json → Option Value
  | _, .text (some tag) => ofTag? tag
  | room + 1, .object [(some tag, content)] =>
    if tag = "Tuple" || tag = "List" then
      match room, content with
      | inner + 1, .array items =>
        (items.mapM (ofJson? inner)).map fun vs => if tag = "Tuple" then .tuple vs else .list vs
      | _, _ => none
    else ofScalar? tag content
  | _, _ => none

end Value

end Recalc
