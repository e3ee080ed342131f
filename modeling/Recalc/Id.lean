set_option autoImplicit false

/-!
# Identities of entities

Spaces, cells and references live in pools. An identity is a slot index together with the
generation of that slot, so a slot that is used again never answers to an old identity. Copying
an identity keeps nothing alive.
-/

namespace Recalc

open Std

/-- The three families of entities, each with its own pool. -/
inductive Family where
  | space
  | cells
  | ref
  deriving DecidableEq, Repr

def Family.tag : Family → String
  | .space => "space"
  | .cells => "cells"
  | .ref => "ref"

/-- Slot `index` in its `generation`-th use. The family is a phantom: identities of different
families cannot be mixed up. -/
structure Id (family : Family) where
  index : UInt32
  generation : UInt32
  deriving DecidableEq, Repr

/-- Identity of a space: static, instance root, or child inside an instance. -/
abbrev SpaceId := Id .space

abbrev CellId := Id .cells

abbrev RefId := Id .ref

namespace Id

variable {family : Family}

/-- The form `space#3v1`: family, index, generation. -/
def text (id : Id family) : String :=
  family.tag ++ "#" ++ toString id.index.toNat ++ "v" ++ toString id.generation.toNat

/-- Identities are ordered by index, then by generation. -/
instance : Ord (Id family) := ⟨compareLex (compareOn index) (compareOn generation)⟩

instance : TransOrd (Id family) :=
  inferInstanceAs (TransCmp (compareLex (compareOn fun id : Id family => id.index)
    (compareOn fun id : Id family => id.generation)))

instance : LawfulEqOrd (Id family) where
  eq_of_compare {a b} h := by
    have h : compareLex (compareOn index) (compareOn generation) a b = .eq := h
    simp only [compareLex, compareOn, Ordering.then_eq_eq, LawfulEqOrd.compare_eq_iff_eq] at h
    cases a
    cases b
    cases h.1
    cases h.2
    rfl

def le (a b : Id family) : Bool := (compare a b).isLE

end Id

end Recalc
