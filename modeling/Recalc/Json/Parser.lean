import Recalc.Json

set_option autoImplicit false

/-!
# Reading JSON

The parser accepts the grammar and nothing else: no leading zeros, no trailing commas, no bare
control characters in strings. It checks neither that strings have a text nor that numerals are in
range; that is for whoever gives them a meaning.
-/

namespace Recalc.Json

def skipBlank : List Char → List Char
  | [] => []
  | c :: rest => if c = ' ' || c = '\n' || c = '\t' || c = '\r' then skipBlank rest else c :: rest

def hexValue? (c : Char) : Option Nat :=
  if '0' ≤ c && c ≤ '9' then some (c.toNat - 48)
  else if 'a' ≤ c && c ≤ 'f' then some (c.toNat - 87)
  else if 'A' ≤ c && c ≤ 'F' then some (c.toNat - 55)
  else none

def hexValues? (a b c d : Char) : Option Nat := do
  return 4096 * (← hexValue? a) + 256 * (← hexValue? b) + 16 * (← hexValue? c) + (← hexValue? d)

def unescape? : Char → Option Nat
  | '"' => some 34
  | '\\' => some 92
  | '/' => some 47
  | 'b' => some 8
  | 'f' => some 12
  | 'n' => some 10
  | 'r' => some 13
  | 't' => some 9
  | _ => none

/-- The code units of a string up to its closing quote, and the rest. -/
def parseUnits : List Char → Option (List Nat × List Char)
  | '"' :: rest => some ([], rest)
  | '\\' :: 'u' :: a :: b :: c :: d :: rest => do
    let unit ← hexValues? a b c d
    let (units, rest) ← parseUnits rest
    return (unit :: units, rest)
  | '\\' :: c :: rest => do
    let unit ← unescape? c
    let (units, rest) ← parseUnits rest
    return (unit :: units, rest)
  | c :: rest =>
    if c.toNat < 32 then none
    else do
      let (units, rest) ← parseUnits rest
      return (c.toNat :: units, rest)
  | [] => none

def isHighSurrogate (unit : Nat) : Bool := 0xD800 ≤ unit && unit < 0xDC00

def isLowSurrogate (unit : Nat) : Bool := 0xDC00 ≤ unit && unit < 0xE000

/-- The characters that code units stand for; surrogates must come in pairs. -/
def assemble : List Nat → Option (List Char)
  | [] => some []
  | [unit] =>
    if isHighSurrogate unit || isLowSurrogate unit then none else some [Char.ofNat unit]
  | unit :: next :: rest =>
    if isHighSurrogate unit then
      if isLowSurrogate next then
        (assemble rest).map (Char.ofNat (0x10000 + (unit - 0xD800) * 0x400 + (next - 0xDC00)) :: ·)
      else none
    else if isLowSurrogate unit then none
    else (assemble (next :: rest)).map (Char.ofNat unit :: ·)

def parseText (cs : List Char) : Option (Option String × List Char) := do
  let (units, rest) ← parseUnits cs
  return ((assemble units).map String.ofList, rest)

/-- Digits before the point: no zero in front of others. -/
def parseWhole (cs : List Char) : Option (List Char × List Char) :=
  match cs with
  | '0' :: rest => some (['0'], rest)
  | _ =>
    match Numeral.spanDigits cs with
    | ([], _) => none
    | r => some r

def parseDigits (cs : List Char) : Option (List Char × List Char) :=
  match Numeral.spanDigits cs with
  | ([], _) => none
  | r => some r

def parseFraction : List Char → Option (List Char × List Char)
  | '.' :: rest => parseDigits rest
  | cs => some ([], cs)

def parseExponentDigits (mark : ExponentMark) (cs : List Char) :
    Option (Option (ExponentMark × List Char) × List Char) := do
  let (ds, rest) ← parseDigits cs
  return (some (mark, ds), rest)

def parseMarked : List Char → Option (Option (ExponentMark × List Char) × List Char)
  | '+' :: rest => parseExponentDigits .plus rest
  | '-' :: rest => parseExponentDigits .minus rest
  | cs => parseExponentDigits .none cs

def parseExponent : List Char → Option (Option (ExponentMark × List Char) × List Char)
  | 'e' :: rest => parseMarked rest
  | 'E' :: rest => parseMarked rest
  | cs => some (none, cs)

def parseUnsigned (negative : Bool) (cs : List Char) : Option (Json × List Char) := do
  let (whole, rest) ← parseWhole cs
  let (fraction, rest) ← parseFraction rest
  let (exponent, rest) ← parseExponent rest
  return (.numeral { negative, whole, fraction, exponent }, rest)

def parseNumeral : List Char → Option (Json × List Char)
  | '-' :: rest => parseUnsigned true rest
  | cs => parseUnsigned false cs

mutual

def parseValue : Nat → List Char → Option (Json × List Char)
  | 0, _ => none
  | fuel + 1, cs =>
    match skipBlank cs with
    | 'n' :: 'u' :: 'l' :: 'l' :: rest => some (.null, rest)
    | 't' :: 'r' :: 'u' :: 'e' :: rest => some (.bool true, rest)
    | 'f' :: 'a' :: 'l' :: 's' :: 'e' :: rest => some (.bool false, rest)
    | '"' :: rest => (parseText rest).map fun r => (.text r.1, r.2)
    | '[' :: rest =>
      match skipBlank rest with
      | ']' :: rest => some (.array [], rest)
      | rest => (parseItems fuel rest).map fun r => (.array r.1, r.2)
    | '\x7b' :: rest =>
      match skipBlank rest with
      | '\x7d' :: rest => some (.object [], rest)
      | rest => (parseMembers fuel rest).map fun r => (.object r.1, r.2)
    | cs => parseNumeral cs

def parseItems : Nat → List Char → Option (List Json × List Char)
  | 0, _ => none
  | fuel + 1, cs => do
    let (item, rest) ← parseValue fuel cs
    match skipBlank rest with
    | ',' :: rest => do
      let (items, rest) ← parseItems fuel rest
      return (item :: items, rest)
    | ']' :: rest => return ([item], rest)
    | _ => none

def parseMembers : Nat → List Char → Option (List (Option String × Json) × List Char)
  | 0, _ => none
  | fuel + 1, cs => do
    match skipBlank cs with
    | '"' :: rest => do
      let (name, rest) ← parseText rest
      match skipBlank rest with
      | ':' :: rest => do
        let (value, rest) ← parseValue fuel rest
        match skipBlank rest with
        | ',' :: rest => do
          let (members, rest) ← parseMembers fuel rest
          return ((name, value) :: members, rest)
        | '\x7d' :: rest => return ([(name, value)], rest)
        | _ => none
      | _ => none
    | _ => none

end

/-- Read a text that holds one value and blanks. Every two steps of the parser take a character,
so the length of the text bounds them. -/
def parse? (s : String) : Option Json := do
  let cs := s.toList
  let (j, rest) ← parseValue (2 * cs.length + 2) cs
  if (skipBlank rest).isEmpty then some j else none

end Recalc.Json
