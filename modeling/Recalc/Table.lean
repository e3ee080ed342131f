import Std.Data.ExtTreeMap

set_option autoImplicit false

/-!
# Tables

A table maps keys to values, where keys are told apart by an order. It is a search tree, listed in
increasing order of its keys. Writing to a key that is already there keeps the key first stored: of
two keys that are equal but not identical, the older one remains visible. Two tables with the same
listing are equal, however they came about.
-/

namespace Recalc

open Std

structure Table (κ ν : Type) [Ord κ] where
  tree : ExtTreeMap κ ν

namespace Table

variable {κ ν : Type} [Ord κ]

def empty : Table κ ν := ⟨∅⟩

instance : Inhabited (Table κ ν) := ⟨empty⟩

variable [TransOrd κ]

def isEmpty (t : Table κ ν) : Bool := t.tree.isEmpty

def size (t : Table κ ν) : Nat := t.tree.size

def entries (t : Table κ ν) : List (κ × ν) := t.tree.toList

def keys (t : Table κ ν) : List κ := t.tree.keys

def values (t : Table κ ν) : List ν := t.tree.values

def get? (t : Table κ ν) (k : κ) : Option ν := t.tree[k]?

def contains (t : Table κ ν) (k : κ) : Bool := t.tree.contains k

/-- Write `v` under `k`, or under the key equal to `k` that is already there. -/
def insert (t : Table κ ν) (k : κ) (v : ν) : Table κ ν :=
  ⟨t.tree.insert (t.tree.getKeyD k k) v⟩

def erase (t : Table κ ν) (k : κ) : Table κ ν := ⟨t.tree.erase k⟩

theorem get?_empty (k : κ) : (empty : Table κ ν).get? k = none := ExtTreeMap.getElem?_empty

theorem contains_eq_isSome (t : Table κ ν) (k : κ) : t.contains k = (t.get? k).isSome :=
  ExtTreeMap.contains_eq_isSome_getElem?

/-- The key under which a value is written for `k` is equal to `k`. -/
theorem compare_getKeyD (t : Table κ ν) (k : κ) : compare (t.tree.getKeyD k k) k = .eq := by
  by_cases h : k ∈ t.tree
  · rw [← ExtTreeMap.getKey_eq_getKeyD (h := h)]
    exact ExtTreeMap.compare_getKey_self h
  · rw [ExtTreeMap.getKeyD_eq_fallback h]
    exact ReflCmp.compare_self

section Laws

variable [BEq κ] [LawfulBEqOrd κ]

/-- The keys listed are those that are there. -/
theorem contains_keys (t : Table κ ν) (k : κ) : t.keys.contains k = t.contains k :=
  ExtTreeMap.contains_keys

/-- A written key reads back; other keys are untouched. -/
theorem get?_insert (t : Table κ ν) (k j : κ) (v : ν) :
    (t.insert k v).get? j = if k == j then some v else t.get? j := by
  have h : compare (t.tree.getKeyD k k) j = compare k j :=
    TransCmp.congr_left (t.compare_getKeyD k)
  simp [get?, insert, ExtTreeMap.getElem?_insert, h, LawfulBEqCmp.compare_eq_iff_beq]

theorem get?_erase (t : Table κ ν) (k j : κ) :
    (t.erase k).get? j = if k == j then none else t.get? j := by
  simp [get?, erase, ExtTreeMap.getElem?_erase, LawfulBEqCmp.compare_eq_iff_beq]

theorem contains_insert (t : Table κ ν) (k j : κ) (v : ν) :
    (t.insert k v).contains j = (k == j || t.contains j) := by
  rw [contains_eq_isSome, contains_eq_isSome, get?_insert]
  cases k == j <;> rfl

theorem contains_erase (t : Table κ ν) (k j : κ) :
    (t.erase k).contains j = (!(k == j) && t.contains j) := by
  rw [contains_eq_isSome, contains_eq_isSome, get?_erase]
  cases k == j <;> rfl

end Laws

end Table

abbrev KeySet (κ : Type) [Ord κ] := Table κ Unit

namespace KeySet

variable {κ : Type} [Ord κ] [TransOrd κ]

def add (s : KeySet κ) (k : κ) : KeySet κ := s.insert k ()

end KeySet

end Recalc
