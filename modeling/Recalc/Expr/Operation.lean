import Recalc.Formula
import Recalc.Text.Redact
import Recalc.Value.View

set_option autoImplicit false

/-!
# Operations of expressions

An operation takes values that are already known. Arithmetic is exact on integers of 64 bits and
fails where the result does not fit; as soon as one operand is no integer, both are numbers. An
operand that is not given counts as the absence of a value.
-/

namespace Recalc

inductive Operation where
  | add
  | sub
  | mul
  | div
  | mod
  | less
  | equal
  | tuple
  | list
  /-- The item of a sequence at a position. -/
  | nth
  | length
  | raise
  /-- The text of a value as it stands in messages, without identities of host objects. -/
  | describe
  | toInt
  | toNumber
  | toSpace
  | asBool
  | asText
  deriving DecidableEq, Repr

namespace Operation

def ofName? : String → Option Operation
  | "+" => some .add
  | "-" => some .sub
  | "*" => some .mul
  | "/" => some .div
  | "%" => some .mod
  | "<" => some .less
  | "=" => some .equal
  | "tuple" => some .tuple
  | "list" => some .list
  | "nth" => some .nth
  | "len" => some .length
  | "raise" => some .raise
  | "str" => some .describe
  | "int" => some .toInt
  | "num" => some .toNumber
  | "space" => some .toSpace
  | "bool" => some .asBool
  | "text" => some .asText
  | _ => none

def checked (problem : String) (r : Int) : Except Failure Value :=
  if Int64.minValue.toInt ≤ r ∧ r ≤ Int64.maxValue.toInt then .ok (.int r.toInt64)
  else .error (.raised problem)

def arithmetic (onInts : Int → Int → Int) (onNumbers : Number → Number → Number) (a b : Value) :
    Except Failure Value :=
  match a.toInt?, b.toInt? with
  | some i, some j => checked "integer overflow" (onInts i.toInt j.toInt)
  | _, _ => do
    let x ← a.toNumber
    let y ← b.toNumber
    return .number (onNumbers x y)

/-- The remainder that is never negative. -/
def remainder (a b : Value) : Except Failure Value := do
  let i ← a.toInt
  let j ← b.toInt
  if j = 0 ∨ (i = Int64.minValue ∧ j = -1) then throw (.raised "bad modulus")
  else return .int (i.toInt % j.toInt).toInt64

def items (v : Value) : Except Failure (List Value) := v.demand "a sequence" Value.toItems?

def itemAt (v : Value) (position : Value) : Except Failure Value := do
  let i ← position.toInt
  let vs ← items v
  let missing := Failure.raised ("index " ++ intText i ++ " out of range")
  if i < 0 then throw missing
  else match vs[i.toInt.toNat]? with
    | some w => return w
    | none => throw missing

def apply (op : Operation) (vs : List Value) : Except Failure Value :=
  let a := vs.getD 0 .empty
  let b := vs.getD 1 .empty
  match op with
  | .add => arithmetic (· + ·) Number.add a b
  | .sub => arithmetic (· - ·) Number.sub a b
  | .mul => arithmetic (· * ·) Number.mul a b
  | .div => do
    let x ← a.toNumber
    let y ← b.toNumber
    return .number (x.div y)
  | .mod => remainder a b
  | .less => do
    let x ← a.toNumber
    let y ← b.toNumber
    return .bool (x.less y)
  | .equal => .ok (.bool (a == b))
  | .tuple => .ok (.tuple vs)
  | .list => .ok (.list vs)
  | .nth => itemAt a b
  | .length => (items a).map fun l => .int l.length.toInt64
  | .raise => .error (.raised (a.toText?.getD a.display))
  | .describe => .ok (.text (Redact.redact a.display))
  | .toInt => a.toInt.map .int
  | .toNumber => a.toNumber.map .number
  | .toSpace => a.toSpace.map .space
  | .asBool => .ok ((a.toBool?.map .bool).getD .empty)
  | .asText => .ok ((a.toText?.map .text).getD .empty)

end Operation

inductive Enquiry where
  /-- The arguments of an instance root. -/
  | argValues
  /-- The space the body runs in. -/
  | here
  /-- The number of nodes being evaluated. -/
  | depth
  | modelName
  deriving DecidableEq, Repr

def Enquiry.ofName? : String → Option Enquiry
  | "argvalues" => some .argValues
  | "here" => some .here
  | "depth" => some .depth
  | "model" => some .modelName
  | _ => none

def Enquiry.ask (e : Enquiry) (vs : List Value) : Body Value :=
  match e with
  | .argValues => do Body.query (.argValues (← Body.ofExcept (vs.getD 0 .empty).toSpace))
  | .here => Body.query .here
  | .depth => Body.query .depth
  | .modelName => Body.query .modelName

end Recalc
