import Recalc.Number

set_option autoImplicit false

/-!
# Shortest decimals

A finite number is written with the fewest significant digits that read back to it. Among the
decimals with that many digits, the one nearest to the number is taken; where two are equally near,
the choice is a parameter. All comparisons are made in exact arithmetic: the decimals that read
back are those in the interval half-way to the two neighbouring numbers, with its ends when the
significand is even.
-/

namespace Recalc.Number

/-- The decimal `digits * 10 ^ exponent`. -/
structure Decimal where
  digits : Nat
  exponent : Int
  deriving DecidableEq, Repr

/-- Which of two neighbouring decimals is taken when both are equally near. -/
inductive Tie where
  /-- The greater one. -/
  | up
  /-- The one whose last digit is even. -/
  | even
  deriving DecidableEq, Repr

/-- A positive number with the interval of reals that round to it, over a common denominator. -/
structure Interval where
  lower : Nat
  value : Nat
  upper : Nat
  den : Nat
  closed : Bool

/-- The interval of a positive number. Below a power of two the gap is half as wide. -/
def interval (s : Scaled) : Interval :=
  let gap := if s.significand = hiddenBit && -1074 < s.exponent then 1 else 2
  let scale := s.exponent - 2
  let num (n : Nat) : Nat := if 0 ≤ scale then n <<< scale.toNat else n
  { lower := num (4 * s.significand - gap)
    value := num (4 * s.significand)
    upper := num (4 * s.significand + 2)
    den := if 0 ≤ scale then 1 else 1 <<< (-scale).toNat
    closed := s.significand % 2 == 0 }

/-- The power of ten with `10 ^ e ≤ num / den < 10 ^ (e + 1)`. -/
def decimalExponent (num den : Nat) : Int :=
  if den ≤ num then (digitCount (num / den) : Int) - 1
  else -(digitCount ((den - 1) / num) : Int)

namespace Interval

/-- The grid point `d * 10 ^ exponent`, over the interval's denominator and the grid's. -/
def gridValue (i : Interval) (exponent : Int) (d : Nat) : Nat :=
  if 0 ≤ exponent then d * powerOfTen exponent.toNat * i.den else d * i.den

def onGrid (exponent : Int) (n : Nat) : Nat :=
  if 0 ≤ exponent then n else n * powerOfTen (-exponent).toNat

/-- The decimal reads back: it lies inside, or on an end that belongs to the interval. -/
def holds (i : Interval) (c : Decimal) : Bool :=
  let x := i.gridValue c.exponent c.digits
  let low := onGrid c.exponent i.lower
  let high := onGrid c.exponent i.upper
  if i.closed then low ≤ x && x ≤ high else low < x && x < high

def below (i : Interval) (exponent : Int) : Decimal :=
  ⟨if 0 ≤ exponent then i.value / (i.den * powerOfTen exponent.toNat)
    else i.value * powerOfTen (-exponent).toNat / i.den, exponent⟩

def distance (i : Interval) (c : Decimal) : Nat :=
  let x := i.gridValue c.exponent c.digits
  let v := onGrid c.exponent i.value
  (x - v) + (v - x)

def nearer (i : Interval) (tie : Tie) (low high : Decimal) : Decimal :=
  match compare (i.distance low) (i.distance high), tie with
  | .lt, _ => low
  | .gt, _ => high
  | .eq, .up => high
  | .eq, .even => if low.digits % 2 = 0 then low else high

/-- Of the value's two neighbours on a grid, the nearer one that reads back. -/
def nearest? (i : Interval) (tie : Tie) (exponent : Int) : Option Decimal :=
  let low := i.below exponent
  let high : Decimal := ⟨low.digits + 1, exponent⟩
  match i.holds low, i.holds high with
  | true, true => some (i.nearer tie low high)
  | true, false => some low
  | false, true => some high
  | false, false => none

/-- Try `count` finer grids, the coarsest first, from the one at `exponent` on. -/
def search (i : Interval) (tie : Tie) : Nat → Int → Option Decimal
  | 0, _ => none
  | count + 1, exponent =>
    match i.nearest? tie exponent with
    | some c => some c
    | none => i.search tie count (exponent - 1)

end Interval

/-- Seventeen digits always suffice. -/
def maxDigits : Nat := 17

def Decimal.strip : Nat → Decimal → Decimal
  | 0, c => c
  | fuel + 1, c =>
    if c.digits ≠ 0 ∧ c.digits % 10 = 0 then Decimal.strip fuel ⟨c.digits / 10, c.exponent + 1⟩
    else c

def shortest (tie : Tie) (x : Number) : Decimal :=
  if x.isZero then ⟨0, 0⟩
  else
    let i := interval x.scaled
    let top := decimalExponent i.value i.den
    match i.search tie maxDigits top with
    | some c => c.strip (maxDigits + 1)
    | none => ⟨0, 0⟩

end Recalc.Number
