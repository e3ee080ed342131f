import Recalc.Id

set_option autoImplicit false

/-!
# Handles

A handle names a space and keeps alive the instances the space lies in. Its pins are the roots of
those instances, the innermost first; a handle to a space outside every instance pins nothing.
Handles are compared by the space they name.
-/

namespace Recalc

open Std

structure Handle where
  id : SpaceId
  pins : List SpaceId := []
  deriving Repr

namespace Handle

def isPinning (h : Handle) : Bool := !h.pins.isEmpty

instance : BEq Handle := ⟨fun a b => a.id == b.id⟩

instance : EquivBEq Handle where
  rfl := fun {a} => beq_self_eq_true a.id
  symm := fun {a b} h => by
    have h : (a.id == b.id) = true := h
    show (b.id == a.id) = true
    rw [beq_iff_eq] at h ⊢
    exact h.symm
  trans := fun {a b c} h h' => by
    have h : (a.id == b.id) = true := h
    have h' : (b.id == c.id) = true := h'
    show (a.id == c.id) = true
    rw [beq_iff_eq] at h h' ⊢
    exact h.trans h'

instance : Ord Handle := ⟨compareOn fun h => h.id⟩

instance : TransOrd Handle := inferInstanceAs (TransCmp (compareOn fun h : Handle => h.id))

instance : LawfulBEqOrd Handle where
  compare_eq_iff_beq {a b} := by
    show compare a.id b.id = .eq ↔ (a.id == b.id) = true
    exact LawfulBEqCmp.compare_eq_iff_beq

def text (h : Handle) : String :=
  "SpaceRef \x7b id: " ++ h.id.text ++ ", anchored: " ++ toString h.isPinning ++ " \x7d"

end Handle

end Recalc
