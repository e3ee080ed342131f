import Recalc.Number.Text
import Recalc.Value

set_option autoImplicit false

/-!
# Written values

How values appear in labels and messages. Texts are quoted without escapes, and a tuple of one
item has a trailing comma.
-/

namespace Recalc

/-- A host object shows nothing but its identity. -/
def HostObject.text (o : HostObject) : String := "<opaque@" ++ toString o.ident ++ ">"

def intText (i : Int64) : String := toString i.toInt

namespace Value

mutual

def display : Value → String
  | .empty => "None"
  | .bool b => toString b
  | .int i => intText i
  | .number x => x.text
  | .text s => "'" ++ s ++ "'"
  | .tuple [item] => "(" ++ display item ++ ",)"
  | .tuple items => "(" ++ displayItems items ++ ")"
  | .list items => "[" ++ displayItems items ++ "]"
  | .space h => "<space " ++ h.id.text ++ ">"
  | .host o => o.text

def displayItems : List Value → String
  | [] => ""
  | [item] => display item
  | item :: items => display item ++ ", " ++ displayItems items

end

end Value

end Recalc
