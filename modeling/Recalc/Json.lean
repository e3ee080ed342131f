import Recalc.Numeral

set_option autoImplicit false

/-!
# JSON

JSON as grammar has it: members keep their order, names may repeat, numerals are kept as written,
and a string may name an unpaired surrogate, in which case it has no text.
-/

namespace Recalc

inductive Json where
  | null
  | bool (b : Bool)
  | numeral (n : Numeral)
  | text (s : Option String)
  | array (items : List Json)
  | object (members : List (Option String × Json))

namespace Json

instance : Inhabited Json := ⟨.null⟩

def ofText (s : String) : Json := .text (some s)

def ofInt (i : Int) : Json := .numeral (Numeral.ofInt i)

def ofNat (n : Nat) : Json := ofInt n

def ofMembers (members : List (String × Json)) : Json :=
  .object (members.map fun m => (some m.1, m.2))

end Json

end Recalc
