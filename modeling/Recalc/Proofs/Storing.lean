import Recalc.Proofs.Tracking

set_option autoImplicit false

/-!
# What cells store

A computed value is stored, an input is put there or taken away: what one cells object holds
changes at one key, and what is stored elsewhere is as before.
-/

namespace Recalc

namespace Contents

variable {c c' : Contents} {key k : Key} {v : Value}

def Exclusive (c : Contents) : Prop := ∀ k, c.hasInput k = true → c.hasComputed k = false

theorem store?_eq_some : c.store? key v = some c' ↔
    c.hasInput key = false ∧ c' = { c with values := c.values.insert key v } := by
  unfold store?
  cases c.hasInput key <;> simp [eq_comm]

theorem inputs_eq_none_iff : c.inputs.get? key = none ↔ c.hasInput key = false := by
  rw [hasInput, Table.contains_eq_isSome, Option.isSome_eq_false_iff, Option.isNone_iff_eq_none]

theorem get?_congr (c : Contents) (h : (key == k) = true) : c.get? key = c.get? k := by
  unfold get?
  rw [Table.get?_congr _ h, Table.get?_congr _ h]

theorem get?_store (h : c.store? key v = some c') (k : Key) :
    c'.get? k = if key == k then some v else c.get? k := by
  obtain ⟨hnone, rfl⟩ := store?_eq_some.1 h
  show (c.inputs.get? k).or ((c.values.insert key v).get? k) = _
  rw [Table.get?_insert]
  split
  next hk => rw [← Table.get?_congr _ hk, inputs_eq_none_iff.2 hnone, Option.none_or]
  next => rfl

theorem hasComputed_store (h : c.store? key v = some c') (k : Key) :
    c'.hasComputed k = (key == k || c.hasComputed k) := by
  obtain ⟨-, rfl⟩ := store?_eq_some.1 h
  exact Table.contains_insert _ _ _ _

theorem Exclusive.store (hc : c.Exclusive) (h : c.store? key v = some c') : c'.Exclusive := by
  intro k hk
  obtain ⟨hnone, rfl⟩ := store?_eq_some.1 h
  change c.hasInput k = true at hk
  rw [hasComputed, Table.contains_insert, Bool.or_eq_false_iff]
  refine ⟨Bool.eq_false_iff.2 fun hkey => ?_, hc k hk⟩
  rw [hasInput, ← Table.contains_congr _ hkey, ← hasInput, hnone] at hk
  contradiction

theorem get?_putInput (c : Contents) (key : Key) (v : Value) (k : Key) :
    (c.putInput key v).get? k = if key == k then some v else c.get? k := by
  show ((c.inputs.insert key v).get? k).or ((c.values.erase key).get? k) = _
  rw [Table.get?_insert, Table.get?_erase]
  split <;> rfl

theorem Exclusive.putInput (hc : c.Exclusive) : (c.putInput key v).Exclusive := by
  intro k hk
  change (c.inputs.insert key v).contains k = true at hk
  show (c.values.erase key).contains k = false
  rw [Table.contains_insert, Bool.or_eq_true] at hk
  rw [Table.contains_erase]
  rcases hk with hk | hk
  · rw [hk]
    rfl
  · rw [show c.values.contains k = false from hc k hk, Bool.and_false]

theorem get?_dropInput (hk : (key == k) = false) : (c.dropInput key).get? k = c.get? k := by
  show ((c.inputs.erase key).get? k).or (c.values.get? k) = _
  rw [Table.get?_erase, hk]
  rfl

theorem Exclusive.dropInput (hc : c.Exclusive) : (c.dropInput key).Exclusive := by
  intro k hk
  change (c.inputs.erase key).contains k = true at hk
  rw [Table.contains_erase, Bool.and_eq_true] at hk
  exact hc k hk.2

end Contents

namespace Model

section Changing

variable (m : Model) (id : CellId) (f : Contents → Contents)

theorem get?_modifyContents (other : CellId) :
    (m.modifyCell id fun c => { c with contents := f c.contents }).cells.get? other =
      (m.cells.get? other).map fun c =>
        if id = other then { c with contents := f c.contents } else c := by
  refine (Pool.get?_modify _ _ _ _).trans ?_
  split
  next heq => rw [heq]
  next => exact Option.map_id'.symm

variable {m id} {n : Node}

theorem isComputed_modifyContents (hf : ∀ c, m.cells.get? id = some c → n.entity = .cells id →
      c.contents.hasComputed n.key = true → (f c.contents).hasComputed n.key = true)
    (hn : m.isComputed n = true) :
    (m.modifyCell id fun c => { c with contents := f c.contents }).isComputed n = true := by
  obtain ⟨other, c, he, hc, hk⟩ := isComputed_iff.1 hn
  refine isComputed_iff.2 ⟨other, _, he, by rw [get?_modifyContents, hc, Option.map_some], ?_⟩
  split
  next heq =>
    subst heq
    exact hf c hc he hk
  next => exact hk

theorem isLive_modifyContents (hf : ∀ c, m.cells.get? id = some c → n.entity = .cells id →
      (c.contents.get? n.key).isSome = true → ((f c.contents).get? n.key).isSome = true)
    (hn : m.isLive n = true) :
    (m.modifyCell id fun c => { c with contents := f c.contents }).isLive n = true := by
  unfold isLive at hn ⊢
  split
  next other he =>
    simp only [he] at hn
    obtain ⟨c, hc, hk⟩ := (Option.any_eq_true _ _).1 hn
    rw [get?_modifyContents, hc, Option.map_some, Option.any_some]
    split
    next heq =>
      subst heq
      exact hf c hc he hk
    next => exact hk
  next other he =>
    simp only [he] at hn
    exact hn
  next other he =>
    simp only [he] at hn
    exact hn

theorem exclusive_modifyContents
    (hm : ∀ other c, m.cells.get? other = some c → c.contents.Exclusive)
    (hf : ∀ c, m.cells.get? id = some c → c.contents.Exclusive → (f c.contents).Exclusive)
    (other : CellId) (c : Cells)
    (hc : (m.modifyCell id fun c => { c with contents := f c.contents }).cells.get? other = some c) :
    c.contents.Exclusive := by
  rw [get?_modifyContents] at hc
  obtain ⟨d, hd, rfl⟩ := Option.map_eq_some_iff.1 hc
  split
  next heq =>
    subst heq
    exact hf d hd (hm id d hd)
  next => exact hm other d hd

/-- Whether a node of the cells is the one with the key. -/
theorem node_beq_of_entity (key : Key) (he : n.entity = .cells id) :
    (Node.cells id key == n) = (key == n.key) := by
  rw [Graph.node_beq_iff, he]
  show (Entity.cells id == Entity.cells id && key == n.key) = _
  rw [BEq.rfl, Bool.true_and]

end Changing

end Model

end Recalc
