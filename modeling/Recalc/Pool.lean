import Recalc.Id

set_option autoImplicit false

/-!
# Pools

A pool stores entities under generational identities. Removing an entity bumps the generation
of its slot and puts the slot on the free list; the slot freed last is used first. Look-ups
compare generations, so an identity that outlived its entity finds nothing.
-/

namespace Recalc

/-- A storage place: how often it was freed, and what it holds now. -/
structure Slot (α : Type) where
  generation : UInt32
  value : Option α

structure Pool (family : Family) (α : Type) where
  slots : Array (Slot α) := #[]
  free : List UInt32 := []

namespace Pool

variable {family : Family} {α : Type}

def empty : Pool family α := {}

def get? (a : Pool family α) (id : Id family) : Option α :=
  match a.slots[id.index.toNat]? with
  | some slot => if slot.generation = id.generation then slot.value else none
  | none => none

def contains (a : Pool family α) (id : Id family) : Bool :=
  (a.get? id).isSome

/-- Store `v` in the slot freed last, or in a new one. -/
def insert (a : Pool family α) (v : α) : Id family × Pool family α :=
  match a.free with
  | index :: rest =>
    match a.slots[index.toNat]? with
    | some slot =>
      (⟨index, slot.generation⟩,
        { slots := a.slots.setIfInBounds index.toNat { slot with value := some v }, free := rest })
    | none => (⟨index, 0⟩, { a with free := rest })
  | [] =>
    (⟨a.slots.size.toUInt32, 0⟩, { a with slots := a.slots.push ⟨0, some v⟩ })

def modify (a : Pool family α) (id : Id family) (f : α → α) : Pool family α :=
  match a.get? id with
  | some v =>
    { a with slots := a.slots.setIfInBounds id.index.toNat ⟨id.generation, some (f v)⟩ }
  | none => a

/-- Take the entity stored under `id` out. The generation wraps after `2 ^ 32` removals. -/
def remove? (a : Pool family α) (id : Id family) : Option (α × Pool family α) :=
  match a.get? id with
  | some v =>
    some (v,
      { slots := a.slots.setIfInBounds id.index.toNat ⟨id.generation + 1, none⟩
        free := id.index :: a.free })
  | none => none

def erase (a : Pool family α) (id : Id family) : Pool family α :=
  match a.remove? id with
  | some (_, b) => b
  | none => a

theorem get?_eq_some {a : Pool family α} {id : Id family} {v : α} (h : a.get? id = some v) :
    a.slots[id.index.toNat]? = some ⟨id.generation, some v⟩ := by
  unfold get? at h
  split at h
  next slot hs =>
    split at h
    next hg =>
      obtain ⟨g, w⟩ := slot
      rw [hs]
      simp_all
    next => contradiction
  next => contradiction

/-- Only the entity under `id` changes. -/
theorem get?_modify (a : Pool family α) (id other : Id family) (f : α → α) :
    (a.modify id f).get? other = if id = other then (a.get? id).map f else a.get? other := by
  cases h : a.get? id with
  | none =>
    by_cases heq : id = other
    · subst heq
      simp [modify, h]
    · simp [modify, h, heq]
  | some v =>
    have hs := get?_eq_some h
    have hlt : id.index.toNat < a.slots.size := (Array.getElem?_eq_some_iff.1 hs).1
    obtain ⟨i, g⟩ := id
    obtain ⟨j, k⟩ := other
    rw [modify, h]
    by_cases hij : i = j
    · subst hij
      simp only [get?, Array.getElem?_setIfInBounds, hs, hlt]
      by_cases hgk : g = k <;> simp [hgk]
    · have hne : ¬ i.toNat = j.toNat := fun h => hij (UInt32.toNat_inj.1 h)
      simp [get?, hne, hij]

/-- A removed identity names nothing; the others keep their entities. -/
theorem get?_erase (a : Pool family α) (id other : Id family) :
    (a.erase id).get? other = if id = other then none else a.get? other := by
  cases h : a.get? id with
  | none =>
    by_cases heq : id = other
    · subst heq
      simp [erase, remove?, h]
    · simp [erase, remove?, h, heq]
  | some v =>
    have hs := get?_eq_some h
    have hlt : id.index.toNat < a.slots.size := (Array.getElem?_eq_some_iff.1 hs).1
    obtain ⟨i, g⟩ := id
    obtain ⟨j, k⟩ := other
    rw [erase, remove?, h]
    by_cases hij : i = j
    · subst hij
      simp only [get?, Array.getElem?_setIfInBounds, hs, hlt]
      by_cases hgk : g = k <;> simp [hgk]
    · have hne : ¬ i.toNat = j.toNat := fun h => hij (UInt32.toNat_inj.1 h)
      simp [get?, hne, hij]

def entriesFrom : Nat → List (Slot α) → List (Id family × α)
  | _, [] => []
  | index, slot :: rest =>
    match slot.value with
    | some v => (⟨index.toUInt32, slot.generation⟩, v) :: entriesFrom (index + 1) rest
    | none => entriesFrom (index + 1) rest

def entries (a : Pool family α) : List (Id family × α) :=
  entriesFrom 0 a.slots.toList

def ids (a : Pool family α) : List (Id family) :=
  a.entries.map (·.1)

def capacity (a : Pool family α) : Nat :=
  a.slots.size

end Pool

end Recalc
