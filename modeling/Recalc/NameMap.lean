set_option autoImplicit false

/-!
# Name maps

The members of a space are listed by name. A name map keeps its entries in increasing order of
their names (order of code points), each name once, so two maps with the same look-ups are equal
and every listing comes out in name order.
-/

namespace Recalc

structure NameMap (α : Type) where
  entries : List (String × α)
  sorted : entries.Pairwise fun a b => a.1 < b.1

namespace NameMap

variable {α : Type}

def empty : NameMap α := ⟨[], .nil⟩

instance : Inhabited (NameMap α) := ⟨empty⟩

def isEmpty (m : NameMap α) : Bool := m.entries.isEmpty

def size (m : NameMap α) : Nat := m.entries.length

def names (m : NameMap α) : List String := m.entries.map (·.1)

def values (m : NameMap α) : List α := m.entries.map (·.2)

def get? (m : NameMap α) (name : String) : Option α :=
  (m.entries.find? (·.1 == name)).map (·.2)

def contains (m : NameMap α) (name : String) : Bool :=
  (m.get? name).isSome

def insertEntry (name : String) (v : α) : List (String × α) → List (String × α)
  | [] => [(name, v)]
  | e :: rest =>
    if e.1 < name then e :: insertEntry name v rest
    else if e.1 = name then (name, v) :: rest
    else (name, v) :: e :: rest

theorem mem_insertEntry {name : String} {v : α} {l : List (String × α)} {e : String × α}
    (h : e ∈ insertEntry name v l) : e = (name, v) ∨ e ∈ l := by
  induction l with
  | nil => simpa [insertEntry] using h
  | cons a rest ih =>
    simp only [insertEntry] at h
    split at h
    · rcases List.mem_cons.1 h with rfl | h
      · exact .inr List.mem_cons_self
      · exact (ih h).imp_right (List.mem_cons_of_mem _)
    · split at h
      · exact (List.mem_cons.1 h).imp_right (List.mem_cons_of_mem _)
      · exact List.mem_cons.1 h

theorem insertEntry_sorted (name : String) (v : α) {l : List (String × α)}
    (h : l.Pairwise fun a b => a.1 < b.1) :
    (insertEntry name v l).Pairwise fun a b => a.1 < b.1 := by
  induction l with
  | nil => exact List.pairwise_singleton _ _
  | cons a rest ih =>
    obtain ⟨ha, hrest⟩ := List.pairwise_cons.1 h
    simp only [insertEntry]
    split
    next hlt =>
      refine List.pairwise_cons.2 ⟨fun e he => ?_, ih hrest⟩
      rcases mem_insertEntry he with rfl | he
      · exact hlt
      · exact ha e he
    next hge =>
      split
      next heq => exact List.pairwise_cons.2 ⟨fun e he => heq ▸ ha e he, hrest⟩
      next hne =>
        have hlt : name < a.1 :=
          Classical.byContradiction fun hn =>
            hne (String.le_antisymm (String.not_lt.1 hn) (String.not_lt.1 hge))
        refine List.pairwise_cons.2 ⟨fun e he => ?_, h⟩
        rcases List.mem_cons.1 he with rfl | he
        · exact hlt
        · exact String.lt_trans hlt (ha e he)

def insert (m : NameMap α) (name : String) (v : α) : NameMap α :=
  ⟨insertEntry name v m.entries, insertEntry_sorted name v m.sorted⟩

def erase (m : NameMap α) (name : String) : NameMap α :=
  ⟨m.entries.filter fun e => !(e.1 == name), m.sorted.filter _⟩

def insertNew (m : NameMap α) (name : String) (v : α) : NameMap α :=
  if m.contains name then m else m.insert name v

theorem get?_empty (name : String) : (empty : NameMap α).get? name = none := rfl

theorem find?_insertEntry (name other : String) (v : α) (l : List (String × α)) :
    ((insertEntry name v l).find? (·.1 == other)).map (·.2) =
      if name = other then some v else (l.find? (·.1 == other)).map (·.2) := by
  induction l with
  | nil => by_cases h : name = other <;> simp [insertEntry, h]
  | cons e rest ih =>
    simp only [insertEntry]
    split
    next hlt =>
      have hne : ¬ e.1 = name := fun h => String.lt_irrefl _ (h ▸ hlt)
      by_cases he : e.1 = other
      · have h : ¬ name = other := fun h => hne (he.trans h.symm)
        simp [he, h]
      · simp [he, ih]
    next =>
      split
      next heq =>
        by_cases h : name = other
        · simp [h]
        · simp [h, heq]
      next =>
        by_cases h : name = other <;> simp [h]

/-- A written name reads back; other names are untouched. -/
theorem get?_insert (m : NameMap α) (name other : String) (v : α) :
    (m.insert name v).get? other = if name = other then some v else m.get? other :=
  find?_insertEntry name other v m.entries

theorem get?_erase (m : NameMap α) (name other : String) :
    (m.erase name).get? other = if name = other then none else m.get? other := by
  simp only [get?, erase, List.find?_filter]
  by_cases h : name = other
  · subst h
    simp
  · have : (fun e : String × α => decide ((!e.1 == name) = true ∧ (e.1 == other) = true)) =
        fun e => e.1 == other := by
      funext e
      by_cases he : e.1 = other
      · simp [he, Ne.symm h]
      · simp [he]
    rw [this, if_neg h]

end NameMap

end Recalc
