import Recalc.Key

set_option autoImplicit false

/-!
# What cells hold

Each cells object holds the values it computed and the inputs that the host put there, by key. An
input hides what was computed for its key, and no value is computed over an input.
-/

namespace Recalc

structure Contents where
  values : Table Key Value := .empty
  inputs : Table Key Value := .empty

namespace Contents

def empty : Contents := {}

instance : Inhabited Contents := ⟨empty⟩

def get? (c : Contents) (k : Key) : Option Value := (c.inputs.get? k).or (c.values.get? k)

def hasInput (c : Contents) (k : Key) : Bool := c.inputs.contains k

def hasComputed (c : Contents) (k : Key) : Bool := c.values.contains k

/-- Store a computed value, unless the key carries an input. -/
def store? (c : Contents) (k : Key) (v : Value) : Option Contents :=
  if c.hasInput k then none else some { c with values := c.values.insert k v }

def putInput (c : Contents) (k : Key) (v : Value) : Contents :=
  { values := c.values.erase k, inputs := c.inputs.insert k v }

def dropInput (c : Contents) (k : Key) : Contents := { c with inputs := c.inputs.erase k }

def evict (c : Contents) (k : Key) : Contents := { c with values := c.values.erase k }

def handles (c : Contents) : List Handle :=
  (c.values.entries ++ c.inputs.entries).flatMap fun e => e.1.handles ++ e.2.handles

end Contents

end Recalc
