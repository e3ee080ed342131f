import Recalc.Table
import Recalc.Value.Order
import Recalc.Value.View

set_option autoImplicit false

/-!
# Keys and nodes

A key is an argument tuple in its normal form: sequences have become tuples at every depth and no
host object occurs. A node is an entity together with a key; two calls with equal arguments
address the same node. Keys and nodes are ordered in agreement with their equality.
-/

namespace Recalc

open Std

namespace Value

mutual

def isNormal : Value → Bool
  | .list _ | .host _ => false
  | .tuple items => areNormal items
  | _ => true

def areNormal : List Value → Bool
  | [] => true
  | v :: vs => isNormal v && areNormal vs

end

def unhashable (o : HostObject) : Failure :=
  .unhashable ("Opaque(" ++ o.text ++ ") has no immutable value form")

mutual

/-- The normal form: sequences become tuples, at every depth. -/
def normalize : Value → Except Failure Value
  | .tuple items | .list items => (normalizeItems items).map .tuple
  | .host o => .error (unhashable o)
  | v => .ok v

def normalizeItems : List Value → Except Failure (List Value)
  | [] => .ok []
  | v :: vs =>
    match normalize v with
    | .error e => .error e
    | .ok w => (normalizeItems vs).map (w :: ·)

end

mutual

theorem isNormal_of_normalize : (v w : Value) → normalize v = .ok w → w.isNormal = true
  | .empty, w, h => by cases h; rfl
  | .bool _, w, h => by cases h; rfl
  | .int _, w, h => by cases h; rfl
  | .number _, w, h => by cases h; rfl
  | .text _, w, h => by cases h; rfl
  | .space _, w, h => by cases h; rfl
  | .host _, w, h => by simp [normalize] at h
  | .tuple items, w, h => by
    simp only [normalize] at h
    cases hi : normalizeItems items with
    | error e => rw [hi] at h; cases h
    | ok ws => rw [hi] at h; cases h; exact areNormal_of_normalizeItems items ws hi
  | .list items, w, h => by
    simp only [normalize] at h
    cases hi : normalizeItems items with
    | error e => rw [hi] at h; cases h
    | ok ws => rw [hi] at h; cases h; exact areNormal_of_normalizeItems items ws hi

theorem areNormal_of_normalizeItems :
    (vs ws : List Value) → normalizeItems vs = .ok ws → areNormal ws = true
  | [], ws, h => by cases h; rfl
  | v :: vs, ws, h => by
    simp only [normalizeItems] at h
    cases hv : normalize v with
    | error e => rw [hv] at h; cases h
    | ok w =>
      rw [hv] at h
      cases hvs : normalizeItems vs with
      | error e => rw [hvs] at h; cases h
      | ok us =>
        rw [hvs] at h
        cases h
        simp [areNormal, isNormal_of_normalize v w hv, areNormal_of_normalizeItems vs us hvs]

end

end Value

structure Key where
  values : List Value
  normal : Value.areNormal values = true

namespace Key

def empty : Key := ⟨[], rfl⟩

instance : Inhabited Key := ⟨empty⟩

def same (a b : Key) : Bool := Value.sameItems a.values b.values

instance : BEq Key := ⟨same⟩

instance : EquivBEq Key where
  rfl := Value.sameItems_refl _
  symm := Value.sameItems_symm _ _
  trans := Value.sameItems_trans _ _ _

instance : Ord Key := ⟨compareOn fun k => Value.tuple k.values⟩

instance : TransOrd Key :=
  inferInstanceAs (TransCmp (compareOn fun k : Key => Value.tuple k.values))

instance : LawfulBEqOrd Key where
  compare_eq_iff_beq {a b} := by
    have h : compare (Value.tuple a.values) (Value.tuple b.values) = .eq ↔
        Value.same (.tuple a.values) (.tuple b.values) = true := LawfulBEqCmp.compare_eq_iff_beq
    rwa [Value.same] at h

/-- The key of an argument list, or the failure of its first argument without a normal form. -/
def ofValues (args : List Value) : Except Failure Key :=
  match h : Value.normalizeItems args with
  | .ok values => .ok ⟨values, Value.areNormal_of_normalizeItems args values h⟩
  | .error e => .error e

def handles (k : Key) : List Handle := Value.itemHandles k.values

def text (k : Key) : String := Value.displayItems k.values

end Key

/-- What a node is about: cells, a parameterised space whose arguments select an instance, or a
reference. -/
inductive Entity where
  | cells (id : CellId)
  | space (id : SpaceId)
  | ref (id : RefId)
  deriving DecidableEq

namespace Entity

def text : Entity → String
  | .cells id => id.text
  | .space id => id.text
  | .ref id => id.text

def rank : Entity → Nat
  | .cells _ => 0
  | .space _ => 1
  | .ref _ => 2

def index : Entity → UInt32
  | .cells id => id.index
  | .space id => id.index
  | .ref id => id.index

def generation : Entity → UInt32
  | .cells id => id.generation
  | .space id => id.generation
  | .ref id => id.generation

def order : Entity → Entity → Ordering :=
  compareLex (compareOn rank) (compareLex (compareOn index) (compareOn generation))

instance : Ord Entity := ⟨order⟩

instance : TransOrd Entity :=
  inferInstanceAs (TransCmp
    (compareLex (compareOn rank) (compareLex (compareOn index) (compareOn generation))))

theorem eq_of_parts_eq : (a b : Entity) → a.rank = b.rank → a.index = b.index →
    a.generation = b.generation → a = b
  | .cells ⟨_, _⟩, .cells ⟨_, _⟩, _, rfl, rfl => rfl
  | .space ⟨_, _⟩, .space ⟨_, _⟩, _, rfl, rfl => rfl
  | .ref ⟨_, _⟩, .ref ⟨_, _⟩, _, rfl, rfl => rfl

instance : LawfulEqOrd Entity where
  eq_of_compare {a b} h := by
    have h : compareLex (compareOn rank) (compareLex (compareOn index) (compareOn generation)) a b =
      .eq := h
    simp only [compareLex, compareOn, Ordering.then_eq_eq, LawfulEqOrd.compare_eq_iff_eq] at h
    exact eq_of_parts_eq a b h.1 h.2.1 h.2.2

end Entity

structure Node where
  entity : Entity
  key : Key

namespace Node

def same (a b : Node) : Bool := a.entity == b.entity && a.key == b.key

instance : BEq Node := ⟨same⟩

instance : EquivBEq Node where
  rfl := fun {a} => by
    show (a.entity == a.entity && a.key == a.key) = true
    simp
  symm := fun {a b} h => by
    have h : (a.entity == b.entity && a.key == b.key) = true := h
    show (b.entity == a.entity && b.key == a.key) = true
    rw [Bool.and_eq_true, beq_iff_eq] at h ⊢
    exact ⟨h.1.symm, BEq.symm h.2⟩
  trans := fun {a b c} h h' => by
    have h : (a.entity == b.entity && a.key == b.key) = true := h
    have h' : (b.entity == c.entity && b.key == c.key) = true := h'
    show (a.entity == c.entity && a.key == c.key) = true
    rw [Bool.and_eq_true, beq_iff_eq] at h h' ⊢
    exact ⟨h.1.trans h'.1, BEq.trans h.2 h'.2⟩

def order : Node → Node → Ordering := compareLex (compareOn entity) (compareOn key)

instance : Ord Node := ⟨order⟩

instance : TransOrd Node :=
  inferInstanceAs (TransCmp (compareLex (compareOn entity) (compareOn key)))

instance : LawfulBEqOrd Node where
  compare_eq_iff_beq {a b} := by
    show compareLex (compareOn entity) (compareOn key) a b = .eq ↔
      (a.entity == b.entity && a.key == b.key) = true
    simp only [compareLex, compareOn, Ordering.then_eq_eq, Bool.and_eq_true,
      LawfulBEqCmp.compare_eq_iff_beq]

def cells (id : CellId) (key : Key) : Node := ⟨.cells id, key⟩

def item (space : SpaceId) (key : Key) : Node := ⟨.space space, key⟩

/-- Reads of a reference are recorded against its one node. -/
def ref (id : RefId) : Node := ⟨.ref id, .empty⟩

def ofValues (entity : Entity) (args : List Value) : Except Failure Node :=
  (Key.ofValues args).map (⟨entity, ·⟩)

/-- The form `cells#0v0(1, 2)`, by identity rather than by name. -/
def text (n : Node) : String := n.entity.text ++ (Value.tuple n.key.values).display

end Node

/-- How many members a list has, counting equal ones once. -/
def countDistinct {α : Type} [Ord α] [TransOrd α] (l : List α) : Nat :=
  (l.foldl KeySet.add (Table.empty : KeySet α)).size

end Recalc
