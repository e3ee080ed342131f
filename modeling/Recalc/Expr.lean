import Recalc.Expr.Operation

set_option autoImplicit false

/-!
# Expressions

A small language for formula bodies. Operands are evaluated from left to right, and the first
failure ends the evaluation unless an expression around it recovers.
-/

namespace Recalc

inductive Expr where
  | literal (v : Value)
  /-- The argument at a position. -/
  | arg (position : Int)
  /-- Read a name in the space of the body. -/
  | read (name : String)
  /-- Call what a name stands for. -/
  | call (name : String) (args : List Expr) (named : List (String × Expr))
  /-- Read a name in another space. -/
  | readIn (place : Expr) (name : String)
  | callIn (place : Expr) (name : String) (args : List Expr)
  /-- The instance of a parameterised space. -/
  | item (place : Expr) (args : List Expr)
  | cond (test yes no : Expr)
  /-- Evaluate all, and give the last value. -/
  | seq (all : List Expr)
  /-- The second expression where the first one fails. -/
  | recover (tried instead : Expr)
  /-- The kind of the failure of an expression, as a text, or else its value. -/
  | kindOf (tried : Expr)
  | fail (failure : Failure)
  | apply (op : Operation) (operands : List Expr)
  | ask (about : Enquiry) (operands : List Expr)

namespace Expr

def argAt (args : List Value) (position : Int) : Except Failure Value :=
  match if position < 0 then none else args[position.toNat]? with
  | some v => .ok v
  | none => .error (.raised ("no argument " ++ toString position))

def toBool (v : Value) : Except Failure Bool := v.demand "a boolean" Value.toBool?

def place (v : Value) : Body Handle := Body.ofExcept v.toSpace

mutual

def eval (args : List Value) : Expr → Body Value
  | .literal v => pure v
  | .arg position => Body.ofExcept (argAt args position)
  | .read name => Body.query (.lookup none name none)
  | .call name es named => do
    let positional ← evalAll args es
    let named ← evalNamed args named
    Body.query (.lookup none name (some { positional, named }))
  | .readIn e name => do
    let v ← eval args e
    Body.query (.lookup (some (← place v)) name none)
  | .callIn e name es => do
    let v ← eval args e
    let positional ← evalAll args es
    Body.query (.lookup (some (← place v)) name (some { positional }))
  | .item e es => do
    let v ← eval args e
    let vs ← evalAll args es
    Body.query (.item (← place v) vs)
  | .cond test yes no => do
    let b ← Body.ofExcept (toBool (← eval args test))
    if b then eval args yes else eval args no
  | .seq es => do
    let vs ← evalAll args es
    return vs.getLastD .empty
  | .recover tried instead => do
    match ← (eval args tried).attempt with
    | .ok v => return v
    | .error _ => eval args instead
  | .kindOf tried => do
    match ← (eval args tried).attempt with
    | .ok v => return v
    | .error e => return .text e.kind.name
  | .fail failure => Body.fail failure
  | .apply op es => do Body.ofExcept (op.apply (← evalAll args es))
  | .ask about es => do about.ask (← evalAll args es)

def evalAll (args : List Value) : List Expr → Body (List Value)
  | [] => pure []
  | e :: es => do
    let v ← eval args e
    let vs ← evalAll args es
    return v :: vs

def evalNamed (args : List Value) : List (String × Expr) → Body (List (String × Value))
  | [] => pure []
  | (name, e) :: rest => do
    let v ← eval args e
    let more ← evalNamed args rest
    return (name, v) :: more

end

mutual

def handles : Expr → List Handle
  | .literal v => v.handles
  | .arg _ | .read _ | .fail _ => []
  | .call _ es named => handlesAll es ++ handlesNamed named
  | .readIn e _ => handles e
  | .callIn e _ es | .item e es => handles e ++ handlesAll es
  | .cond test yes no => handles test ++ handles yes ++ handles no
  | .recover tried instead => handles tried ++ handles instead
  | .kindOf tried => handles tried
  | .seq es | .apply _ es | .ask _ es => handlesAll es

def handlesAll : List Expr → List Handle
  | [] => []
  | e :: es => handles e ++ handlesAll es

def handlesNamed : List (String × Expr) → List Handle
  | [] => []
  | (_, e) :: rest => handles e ++ handlesNamed rest

end

/-- The rule that evaluates an expression. It keeps the handles of the literals. -/
def rule (e : Expr) : Rule := .computed (fun args => e.eval args) e.handles

end Expr

end Recalc
