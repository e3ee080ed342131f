import Recalc.Json

set_option autoImplicit false

/-!
# Writing JSON

Compactly, or with one item or member a line and an indentation of two blanks. Empty arrays and
objects take no lines. Only quotes, backslashes and control characters are escaped.
-/

namespace Recalc.Json

def hexDigit (n : Nat) : Char := if n < 10 then Char.ofNat (48 + n) else Char.ofNat (87 + n)

def escape (c : Char) : List Char :=
  if c = '"' then ['\\', '"']
  else if c = '\\' then ['\\', '\\']
  else if c = '\n' then ['\\', 'n']
  else if c = '\r' then ['\\', 'r']
  else if c = '\t' then ['\\', 't']
  else if c.toNat = 8 then ['\\', 'b']
  else if c.toNat = 12 then ['\\', 'f']
  else if c.toNat < 32 then
    ['\\', 'u', '0', '0', hexDigit (c.toNat / 16), hexDigit (c.toNat % 16)]
  else [c]

/-- A string in front of `rest`. Without a text it is written as an unpaired surrogate. -/
def writeText (s : Option String) (rest : List Char) : List Char :=
  let body := match s with
    | some s => s.toList.flatMap escape
    | none => ['\\', 'u', 'd', '8', '0', '0']
  '"' :: (body ++ '"' :: rest)

inductive Layout where
  | compact
  | pretty
  deriving DecidableEq

def Layout.line : Layout → Nat → List Char → List Char
  | .compact, _, rest => rest
  | .pretty, depth, rest => '\n' :: (List.replicate (2 * depth) ' ' ++ rest)

def Layout.colon : Layout → List Char → List Char
  | .compact, rest => ':' :: rest
  | .pretty, rest => ':' :: ' ' :: rest

mutual

def write (layout : Layout) (depth : Nat) : Json → List Char → List Char
  | .null, rest => 'n' :: 'u' :: 'l' :: 'l' :: rest
  | .bool true, rest => 't' :: 'r' :: 'u' :: 'e' :: rest
  | .bool false, rest => 'f' :: 'a' :: 'l' :: 's' :: 'e' :: rest
  | .numeral n, rest => n.write rest
  | .text s, rest => writeText s rest
  | .array [], rest => '[' :: ']' :: rest
  | .array (item :: items), rest =>
    '[' :: layout.line (depth + 1) (write layout (depth + 1) item
      (writeItems layout depth items rest))
  | .object [], rest => '\x7b' :: '\x7d' :: rest
  | .object ((name, value) :: members), rest =>
    '\x7b' :: layout.line (depth + 1) (writeText name (layout.colon
      (write layout (depth + 1) value (writeMembers layout depth members rest))))

def writeItems (layout : Layout) (depth : Nat) : List Json → List Char → List Char
  | [], rest => layout.line depth (']' :: rest)
  | item :: items, rest =>
    ',' :: layout.line (depth + 1) (write layout (depth + 1) item
      (writeItems layout depth items rest))

def writeMembers (layout : Layout) (depth : Nat) :
    List (Option String × Json) → List Char → List Char
  | [], rest => layout.line depth ('\x7d' :: rest)
  | (name, value) :: members, rest =>
    ',' :: layout.line (depth + 1) (writeText name (layout.colon
      (write layout (depth + 1) value (writeMembers layout depth members rest))))

end

def render (layout : Layout) (j : Json) : String := String.ofList (write layout 0 j [])

end Recalc.Json
