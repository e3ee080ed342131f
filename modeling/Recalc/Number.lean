set_option autoImplicit false

/-!
# Numbers

A number is a binary floating-point value of 64 bits, kept as its bit pattern. Two patterns are
the same number when they agree after folding the two zeros into one and all not-a-numbers into
one. Rounding is exact: a quotient of naturals goes to the nearest number, a tie to the one whose
significand is even.
-/

namespace Recalc

/-- A 64-bit floating-point value: one sign bit, eleven exponent bits, 52 fraction bits. -/
structure Number where
  bits : UInt64
  deriving DecidableEq, Repr

namespace Number

def signBit : Nat := 0x8000000000000000

/-- The unit of the exponent field, which is also the bit that a significand has beyond its
fraction. -/
def hiddenBit : Nat := 0x10000000000000

def negative (x : Number) : Bool := signBit ≤ x.bits.toNat

def magnitude (x : Number) : Nat := x.bits.toNat % signBit

/-- The magnitude of infinity; larger magnitudes are not numbers. -/
def infinityMagnitude : Nat := 0x7FF * hiddenBit

def isNaN (x : Number) : Bool := infinityMagnitude < x.magnitude

def isInfinite (x : Number) : Bool := x.magnitude == infinityMagnitude

def isFinite (x : Number) : Bool := x.magnitude < infinityMagnitude

def isZero (x : Number) : Bool := x.magnitude == 0

def ofMagnitude (negative : Bool) (magnitude : Nat) : Number :=
  ⟨((if negative then signBit else 0) + magnitude).toUInt64⟩

def zero : Number := ⟨0⟩

def nan : Number := ofMagnitude false (infinityMagnitude + hiddenBit / 2)

def infinity (negative : Bool) : Number := ofMagnitude negative infinityMagnitude

/-- One pattern for both zeros and one for everything that is not a number. -/
def canonical (x : Number) : Number :=
  if x.isZero then zero else if x.isNaN then nan else x

/-- Equality of numbers: the zeros agree, and every not-a-number agrees with every other. -/
def same (x y : Number) : Bool := x.canonical.bits == y.canonical.bits

/-- The number `significand * 2 ^ exponent` that a finite pattern stands for, without its sign. -/
structure Scaled where
  significand : Nat
  exponent : Int

/-- Patterns with an empty exponent field have no hidden bit and share the least exponent. -/
def scaled (x : Number) : Scaled :=
  let field : Nat := x.magnitude / hiddenBit
  let fraction : Nat := x.magnitude % hiddenBit
  if field = 0 then ⟨fraction, -1074⟩ else ⟨hiddenBit + fraction, (field : Int) - 1075⟩

def scaleDown (num den : Nat) (exponent : Int) : Nat × Nat :=
  if 0 ≤ exponent then (num, den <<< exponent.toNat) else (num <<< (-exponent).toNat, den)

/-- The quotient rounded to the nearest natural, a tie to the even one. -/
def roundQuotient (num den : Nat) : Nat :=
  let q := num / den
  let twice := 2 * (num % den)
  if den < twice || (twice == den && q % 2 == 1) then q + 1 else q

/-- The exponent at which `num / den` has a significand of 53 bits, or the least one. -/
def exponentOfRatio (num den : Nat) : Int :=
  let estimate : Int := (Nat.log2 num : Int) - Nat.log2 den - 52
  let (n, d) := scaleDown num den estimate
  max (-1074) (if n < d * hiddenBit then estimate - 1 else estimate)

/-- The number nearest to `num / den`; beyond the largest finite one it is infinity. -/
def ofRatio (negative : Bool) (num den : Nat) : Number :=
  if num = 0 then ofMagnitude negative 0
  else
    let exponent := exponentOfRatio num den
    let (n, d) := scaleDown num den exponent
    let magnitude := (exponent + 1074).toNat * hiddenBit + roundQuotient n d
    ofMagnitude negative (min magnitude infinityMagnitude)

def ofNat (n : Nat) : Number := ofRatio false n 1

def ofInt (i : Int) : Number := ofRatio (i < 0) i.natAbs 1

def digitCount (n : Nat) : Nat := (Nat.toDigits 10 n).length

def powerOfTen (n : Nat) : Nat := Nat.pow 10 n

/-- The number nearest to `significand * 10 ^ exponent`. With `top` as below, such a decimal is less
than `10 ^ top` and at least a tenth of it, so those that are infinite or zero by their size alone
are settled without the power of ten. -/
def ofDecimal (negative : Bool) (significand : Nat) (exponent : Int) : Number :=
  let top := digitCount significand + exponent
  if significand = 0 || top < -323 then ofMagnitude negative 0
  else if 309 < top then infinity negative
  else if 0 ≤ exponent then ofRatio negative (significand * powerOfTen exponent.toNat) 1
  else ofRatio negative significand (powerOfTen (-exponent).toNat)

def toFloat (x : Number) : Float := Float.ofBits x.bits

def ofFloat (x : Float) : Number := ⟨x.toBits⟩

def neg (x : Number) : Number := ofMagnitude (!x.negative) x.magnitude

def add (x y : Number) : Number := ofFloat (x.toFloat + y.toFloat)

def sub (x y : Number) : Number := ofFloat (x.toFloat - y.toFloat)

def mul (x y : Number) : Number := ofFloat (x.toFloat * y.toFloat)

def div (x y : Number) : Number := ofFloat (x.toFloat / y.toFloat)

/-- The numeric order, in which not-a-numbers are unordered. -/
def less (x y : Number) : Bool := decide (x.toFloat < y.toFloat)

end Number

end Recalc
