import Recalc.Formula
import Recalc.NameMap

set_option autoImplicit false

/-!
# Formula registries

A registry turns the source keys of a snapshot back into formulas. All uses of a key share the one
formula registered for it.
-/

namespace Recalc

structure Registry where
  formulas : NameMap Formula := .empty

namespace Registry

def empty : Registry := {}

def size (r : Registry) : Nat := r.formulas.size

def get? (r : Registry) (source : String) : Option Formula := r.formulas.get? source

def register (r : Registry) (f : Formula) : Except Failure Registry :=
  match f.source with
  | some source => .ok { formulas := r.formulas.insert source f }
  | none => .error (.persistence "cannot register a formula without a source key")

/-- The formula of a key, which must have the stored parameters. -/
def formulaFor (r : Registry) (source : String) (params : List Param) : Except Failure Formula :=
  match r.get? source with
  | none => .error (.persistence ("no formula registered for \x60" ++ source ++ "\x60"))
  | some f =>
    if f.params == params then .ok f
    else .error (.persistence
      ("parameters of \x60" ++ source ++ "\x60 do not match the stored ones"))

end Registry

end Recalc
