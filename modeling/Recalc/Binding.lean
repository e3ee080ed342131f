import Recalc.Formula

set_option autoImplicit false

/-!
# Argument binding

Binding turns positional and named arguments into one value for each parameter, in the order of
the parameters. A parameter takes its positional argument, else its named one, else its default.
-/

namespace Recalc

namespace Binding

def position? (params : List Param) (name : String) : Option Nat :=
  params.findIdx? (·.name == name)

/-- Fill the places named by the arguments; a place can be filled once. -/
def placeNamed (params : List Param) (invalid : String → Failure) :
    List (String × Value) → List (Option Value) → Except Failure (List (Option Value))
  | [], slots => .ok slots
  | (name, v) :: rest, slots =>
    match position? params name with
    | none => .error (invalid ("unexpected keyword argument '" ++ name ++ "'"))
    | some i =>
      match slots[i]? with
      | some (some _) => .error (invalid ("got multiple values for argument '" ++ name ++ "'"))
      | _ => placeNamed params invalid rest (slots.set i (some v))

def fillDefaults (invalid : String → Failure) :
    List Param → List (Option Value) → Except Failure (List Value)
  | p :: params, slot :: slots =>
    match slot.or p.default with
    | some v => (fillDefaults invalid params slots).map (v :: ·)
    | none => .error (invalid ("missing required argument '" ++ p.name ++ "'"))
  | _, _ => .ok []

def placePositional (params : List Param) (args : List Value) : List (Option Value) :=
  args.map some ++ List.replicate (params.length - args.length) none

end Binding

open Binding in
/-- One value for each parameter. Failures name `target` as what was called. -/
def matchArguments (params : List Param) (a : Arguments) (target : String) :
    Except Failure (List Value) :=
  let invalid := Failure.invalidArguments target
  if params.length < a.positional.length then
    .error (invalid ("takes " ++ toString params.length ++ " positional arguments but " ++
      toString a.positional.length ++ " were given"))
  else
    match placeNamed params invalid a.named (placePositional params a.positional) with
    | .error e => .error e
    | .ok slots => fillDefaults invalid params slots

end Recalc
