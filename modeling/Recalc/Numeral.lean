set_option autoImplicit false

/-!
# Decimal numerals

A numeral is written text, not a value: a sign, the digits before and after the point, and an
exponent with or without a mark. Digits are kept as characters.
-/

namespace Recalc

inductive ExponentMark where
  | none
  | plus
  | minus
  deriving DecidableEq, Repr

structure Numeral where
  negative : Bool
  whole : List Char
  /-- No point is written when there are no digits after it. -/
  fraction : List Char := []
  exponent : Option (ExponentMark × List Char) := none
  deriving DecidableEq, Repr

namespace Numeral

def digits (n : Nat) : List Char := Nat.toDigits 10 n

def value (ds : List Char) : Nat := ds.foldl (fun n c => 10 * n + (c.toNat - '0'.toNat)) 0

def spanDigits : List Char → List Char × List Char
  | [] => ([], [])
  | c :: rest =>
    if c.isDigit then
      let (ds, tail) := spanDigits rest
      (c :: ds, tail)
    else ([], c :: rest)

def ofInt (i : Int) : Numeral := { negative := i < 0, whole := digits i.natAbs }

def ExponentMark.chars : ExponentMark → List Char
  | .none => []
  | .plus => ['+']
  | .minus => ['-']

def write (n : Numeral) (rest : List Char) : List Char :=
  (if n.negative then ['-'] else []) ++ n.whole ++
    (if n.fraction.isEmpty then [] else '.' :: n.fraction) ++
    (match n.exponent with
      | some (mark, ds) => 'e' :: (ExponentMark.chars mark ++ ds)
      | none => []) ++ rest

def text (n : Numeral) : String := String.ofList (n.write [])

def scale (n : Numeral) : Int :=
  match n.exponent with
  | some (.minus, ds) => -(value ds : Int)
  | some (_, ds) => value ds
  | none => 0

end Numeral

end Recalc
