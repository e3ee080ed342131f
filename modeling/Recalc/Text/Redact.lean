set_option autoImplicit false

/-!
# Redaction

The identity of a host object means nothing outside the process that made it. Texts that leave the
process show a host object without its identity: everything from `<opaque@` through the next `>`,
or to the end of the text when there is none, becomes `<opaque>`.
-/

namespace Recalc.Redact

/-- What a written host object starts with. -/
def mark : List Char := "<opaque@".toList

def blank : List Char := "<opaque>".toList

def afterMark? (cs : List Char) : Option (List Char) :=
  if mark.isPrefixOf cs then some (cs.drop mark.length) else none

def afterEnd (cs : List Char) : List Char := (cs.dropWhile (· != '>')).drop 1

def redactFrom : Nat → List Char → List Char
  | 0, cs => cs
  | _ + 1, [] => []
  | fuel + 1, c :: cs =>
    match afterMark? (c :: cs) with
    | none => c :: redactFrom fuel cs
    | some inside => blank ++ redactFrom fuel (afterEnd inside)

/-- A text without the identities of host objects. -/
def redact (s : String) : String :=
  let cs := s.toList
  String.ofList (redactFrom (cs.length + 1) cs)

end Recalc.Redact
