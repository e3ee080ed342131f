import Recalc.Json
import Recalc.Number.Text

set_option autoImplicit false

/-!
# Reading values out of JSON

Numerals become integers or numbers, records are read from objects or from arrays of their fields,
and a choice is an object with the one name of an alternative. The nesting of what is read is
limited: `room` is the number of arrays and objects that may still be entered. Members that no
field asks for are not looked at.
-/

namespace Recalc

namespace Numeral

/-- The integer that a numeral without fraction and exponent stands for. There is no negative
zero among the integers. -/
def toInt? (n : Numeral) : Option Int :=
  if n.fraction.isEmpty && n.exponent.isNone then
    let v := value n.whole
    if n.negative then (if v = 0 then none else some (-(v : Int))) else some v
  else none

def significandLimit : Nat := UInt64.size

/-- Take whole digits into a significand. Digits that do not fit any more only count. -/
def takeWhole : List Char → Nat → Nat × Nat
  | [], acc => (acc, 0)
  | c :: rest, acc =>
    let next := 10 * acc + value [c]
    if next < significandLimit then takeWhole rest next else (acc, (c :: rest).length)

/-- Take digits after the point into a significand. Digits that do not fit any more are
dropped. -/
def takeFraction : List Char → Nat → Nat × Nat
  | [], acc => (acc, 0)
  | c :: rest, acc =>
    let next := 10 * acc + value [c]
    if next < significandLimit then
      let (n, count) := takeFraction rest next
      (n, count + 1)
    else (acc, 0)

def stepLimit : Nat := 308

/-- Apply a power of ten in steps, each of them rounded. An infinite product is out of range. -/
def applyScale : Nat → Number → Int → Option Number
  | 0, _, _ => none
  | fuel + 1, x, exponent =>
    if exponent.natAbs ≤ stepLimit then
      let power := Number.ofNat (Number.powerOfTen exponent.natAbs)
      if 0 ≤ exponent then
        let y := x.mul power
        if y.isInfinite then none else some y
      else some (x.div power)
    else if x.isZero then some x
    else if 0 ≤ exponent then none
    else applyScale fuel (x.div (Number.ofNat (Number.powerOfTen stepLimit))) (exponent + stepLimit)

/-- The number that a numeral is read as: its significand, cut to 64 bits, rounded and then scaled.
A significand is gone after three steps downwards, so four always suffice. -/
def toNumber? (n : Numeral) : Option Number :=
  let (whole, dropped) := takeWhole n.whole 0
  let (significand, taken) := takeFraction n.fraction whole
  (applyScale 4 (Number.ofNat significand) (dropped - taken + n.scale)).map fun x =>
    if n.negative then x.neg else x

end Numeral

namespace Json

def nestingLimit : Nat := 127

def readInt? : Json → Option Int
  | .numeral n => n.toInt?
  | _ => none

def readInt64? (j : Json) : Option Int64 :=
  j.readInt?.bind fun i =>
    if Int64.minValue.toInt ≤ i ∧ i ≤ Int64.maxValue.toInt then some i.toInt64 else none

def readNat64? (j : Json) : Option Nat :=
  j.readInt?.bind fun i => if 0 ≤ i ∧ i < UInt64.size then some i.toNat else none

def readNumber? : Json → Option Number
  | .numeral n => n.toNumber?
  | _ => none

def readBool? : Json → Option Bool
  | .bool b => some b
  | _ => none

def readText? : Json → Option String
  | .text s => s
  | _ => none

def readList? {α : Type} (item : Nat → Json → Option α) : Nat → Json → Option (List α)
  | room + 1, .array items => items.mapM (item room)
  | _, _ => none

/-- The value of a name that occurs at most once. -/
def member? (members : List (Option String × Json)) (name : String) : Option (Option Json) :=
  match members.filter (·.1 == some name) with
  | [] => some none
  | [m] => some (some m.2)
  | _ => none

def fields? (names : List String) : Json → Option (List (Option Json))
  | .object members =>
    if members.all (·.1.isSome) then names.mapM (member? members) else none
  | .array items =>
    if items.length ≤ names.length then
      some (items.map some ++ List.replicate (names.length - items.length) none)
    else none
  | _ => none

def readRecord? {α : Type} (names : List String) (build : Nat → List (Option Json) → Option α) :
    Nat → Json → Option α
  | room + 1, j => (j.fields? names).bind (build room)
  | 0, _ => none

def required? {α : Type} (item : Json → Option α) (field : Option Json) : Option α :=
  field.bind item

def orDefault? {α : Type} (default : α) (item : Json → Option α) : Option Json → Option α
  | none => some default
  | some j => item j

def optional? {α : Type} (item : Json → Option α) : Option Json → Option (Option α)
  | none => some none
  | some .null => some none
  | some j => (item j).map some

end Json

end Recalc
