import Recalc.Handle
import Recalc.Number

set_option autoImplicit false

/-!
# Values

What formulas compute, references bind and calls pass as arguments. Equality is structural, with
numbers compared after folding zeros and not-a-numbers, handles by the space they name and host
objects by identity. It is an equivalence relation, although equal values need not be identical.
-/

namespace Recalc

/-- An object of the host program, known only by its identity. -/
structure HostObject where
  ident : Nat
  deriving DecidableEq, Repr

inductive Value where
  /-- The absence of a value. -/
  | empty
  | bool (b : Bool)
  | int (i : Int64)
  | number (x : Number)
  | text (s : String)
  | tuple (items : List Value)
  /-- A sequence that becomes a tuple where it is used as an argument. -/
  | list (items : List Value)
  | space (handle : Handle)
  | host (object : HostObject)

namespace Value

instance : Inhabited Value := ⟨.empty⟩

mutual

def same : Value → Value → Bool
  | .empty, .empty => true
  | .bool a, .bool b => a == b
  | .int a, .int b => a == b
  | .number a, .number b => a.same b
  | .text a, .text b => a == b
  | .tuple a, .tuple b => sameItems a b
  | .list a, .list b => sameItems a b
  | .space a, .space b => a == b
  | .host a, .host b => a == b
  | _, _ => false

def sameItems : List Value → List Value → Bool
  | [], [] => true
  | a :: as, b :: bs => same a b && sameItems as bs
  | _, _ => false

end

instance : BEq Value := ⟨same⟩

mutual

theorem same_refl : (v : Value) → same v v = true
  | .empty => by simp [same]
  | .bool _ => by simp [same]
  | .int _ => by simp [same]
  | .number _ => by simp [same, Number.same]
  | .text _ => by simp [same]
  | .tuple items => by simp [same, sameItems_refl items]
  | .list items => by simp [same, sameItems_refl items]
  | .space _ => by simp [same]
  | .host _ => by simp [same]

theorem sameItems_refl : (vs : List Value) → sameItems vs vs = true
  | [] => by simp [sameItems]
  | v :: vs => by simp [sameItems, same_refl v, sameItems_refl vs]

end

mutual

theorem same_symm : (v w : Value) → same v w = true → same w v = true
  | .empty, w => by cases w <;> simp [same]
  | .bool _, w => by
    cases w <;> simp [same]
    exact Eq.symm
  | .int _, w => by
    cases w <;> simp [same]
    exact Eq.symm
  | .number _, w => by
    cases w <;> simp [same, Number.same]
    exact Eq.symm
  | .text _, w => by
    cases w <;> simp [same]
    exact Eq.symm
  | .tuple a, w => by
    cases w <;> simp [same]
    exact sameItems_symm a _
  | .list a, w => by
    cases w <;> simp [same]
    exact sameItems_symm a _
  | .space _, w => by
    cases w <;> simp [same]
    exact BEq.symm
  | .host _, w => by
    cases w <;> simp [same]
    exact Eq.symm

theorem sameItems_symm : (vs ws : List Value) → sameItems vs ws = true → sameItems ws vs = true
  | [], ws => by cases ws <;> simp [sameItems]
  | v :: vs, ws => by
    cases ws <;> simp [sameItems]
    exact fun h h' => ⟨same_symm v _ h, sameItems_symm vs _ h'⟩

end

mutual

theorem same_trans : (u v w : Value) → same u v = true → same v w = true → same u w = true
  | .empty, v, w => by cases v <;> cases w <;> simp [same]
  | .bool _, v, w => by
    cases v <;> cases w <;> simp [same]
    exact Eq.trans
  | .int _, v, w => by
    cases v <;> cases w <;> simp [same]
    exact Eq.trans
  | .number _, v, w => by
    cases v <;> cases w <;> simp [same, Number.same]
    exact Eq.trans
  | .text _, v, w => by
    cases v <;> cases w <;> simp [same]
    exact Eq.trans
  | .tuple a, v, w => by
    cases v <;> cases w <;> simp [same]
    exact sameItems_trans a _ _
  | .list a, v, w => by
    cases v <;> cases w <;> simp [same]
    exact sameItems_trans a _ _
  | .space _, v, w => by
    cases v <;> cases w <;> simp [same]
    exact BEq.trans
  | .host _, v, w => by
    cases v <;> cases w <;> simp [same]
    exact Eq.trans

theorem sameItems_trans : (us vs ws : List Value) →
    sameItems us vs = true → sameItems vs ws = true → sameItems us ws = true
  | [], vs, ws => by cases vs <;> cases ws <;> simp [sameItems]
  | u :: us, vs, ws => by
    cases vs <;> cases ws <;> simp [sameItems]
    exact fun h h' k k' => ⟨same_trans u _ _ h k, sameItems_trans us _ _ h' k'⟩

end

instance : EquivBEq Value where
  rfl := same_refl _
  symm := same_symm _ _
  trans := same_trans _ _ _

mutual

def handles : Value → List Handle
  | .tuple items | .list items => itemHandles items
  | .space h => [h]
  | _ => []

def itemHandles : List Value → List Handle
  | [] => []
  | v :: vs => handles v ++ itemHandles vs

end

def isEmpty : Value → Bool
  | .empty => true
  | _ => false

end Value

end Recalc
