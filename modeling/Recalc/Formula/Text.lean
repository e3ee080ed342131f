import Recalc.Formula
import Recalc.Text.Quoted

set_option autoImplicit false

/-!
# Written formulas

How a formula is written for inspection: the names of its parameters and its source key.
-/

namespace Recalc.Formula

def sourceText : Option String → String
  | some source => "Some(" ++ Quoted.quote source ++ ")"
  | none => "None"

def text (f : Formula) : String :=
  "Formula \x7b params: [" ++ String.intercalate ", " (f.names.map Quoted.quote) ++
    "], source: " ++ sourceText f.source ++ " \x7d"

end Recalc.Formula
