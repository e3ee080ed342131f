import Recalc.Number.Shortest
import Recalc.Numeral

set_option autoImplicit false

/-!
# Written numbers

A finite number is written by its shortest decimal, positionally where its leading digit stands
between two powers of ten and with an exponent elsewhere. What differs from one output to another
is one record; the reader accepts every decimal and rounds it to the nearest number.
-/

namespace Recalc.Number

open Numeral

/-- The decisions of a number format. Positional notation is used for leading digits at
`10 ^ least` up to and including `10 ^ greatest`. -/
structure Format where
  least : Int
  greatest : Int
  /-- The mark in front of an exponent that is not negative. -/
  upward : ExponentMark
  tie : Tie

/-- Digits with the decimal point after the first `point` of them. Missing places are zeros, and
there is always a digit on either side. -/
def positional (negative : Bool) (ds : List Char) (point : Int) : Numeral :=
  let count : Int := ds.length
  if point ≤ 0 then
    { negative, whole := ['0'], fraction := List.replicate (-point).toNat '0' ++ ds }
  else if count ≤ point then
    { negative, whole := ds ++ List.replicate (point - count).toNat '0', fraction := ['0'] }
  else { negative, whole := ds.take point.toNat, fraction := ds.drop point.toNat }

def Format.scientific (f : Format) (negative : Bool) (ds : List Char) (exponent : Int) : Numeral :=
  { negative, whole := ds.take 1, fraction := ds.drop 1
    exponent := some (if 0 ≤ exponent then f.upward else .minus, digits exponent.natAbs) }

def Format.numeral (f : Format) (x : Number) : Numeral :=
  let c := x.shortest f.tie
  let ds := digits c.digits
  let exponent := c.exponent + ds.length - 1
  if f.least ≤ exponent && exponent ≤ f.greatest then positional x.negative ds (exponent + 1)
  else f.scientific x.negative ds exponent

/-- Labels and messages write numbers from `0.0001` to below `1e16` positionally, and an exponent
without a plus. Of two equally near decimals they show the greater. -/
def display : Format := ⟨-4, 15, .none, .up⟩

def text (x : Number) : String :=
  if x.isNaN then "NaN"
  else if x.isInfinite then (if x.negative then "-inf" else "inf")
  else (display.numeral x).text

def takeSign : List Char → Bool × List Char
  | '-' :: rest => (true, rest)
  | '+' :: rest => (false, rest)
  | cs => (false, cs)

/-- An exponent this large takes no further digits. -/
def exponentLimit : Nat := 0x10000

def exponentValue (ds : List Char) : Nat :=
  ds.foldl (fun n c => if n < exponentLimit then 10 * n + value [c] else n) 0

def readExponent? : List Char → Option Int
  | [] => some 0
  | c :: rest =>
    if c = 'e' ∨ c = 'E' then
      let (negative, cs) := takeSign rest
      match spanDigits cs with
      | ([], _) => none
      | (ds, []) => some (if negative then -(exponentValue ds : Int) else exponentValue ds)
      | (_, _ :: _) => none
    else none

/-- Reads `nan`, `inf` or `infinity` in any case, or a decimal with an optional point and exponent,
rounded to the nearest number. -/
def read? (s : String) : Option Number :=
  let (negative, cs) := takeSign s.toList
  let word := String.ofList (cs.map Char.toLower)
  if word = "nan" then some (ofMagnitude negative nan.magnitude)
  else if word = "inf" || word = "infinity" then some (infinity negative)
  else
    let (whole, rest) := spanDigits cs
    let (fraction, rest) := match rest with
      | '.' :: tail => spanDigits tail
      | _ => ([], rest)
    if whole.isEmpty && fraction.isEmpty then none
    else
      (readExponent? rest).map fun exponent =>
        ofDecimal negative (value (whole ++ fraction)) (exponent - fraction.length)

end Recalc.Number
