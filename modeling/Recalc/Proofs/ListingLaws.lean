import Recalc.NameMap
import Recalc.Table

set_option autoImplicit false

/-!
# Laws of listings

What a look-up in a name map or a table finds is in its listing, and the other way round.
-/

namespace Recalc

namespace NameMap

variable {α : Type} {m : NameMap α} {name : String} {v : α}

theorem mem_entries_of_get? (h : m.get? name = some v) : (name, v) ∈ m.entries := by
  obtain ⟨e, he, rfl⟩ := Option.map_eq_some_iff.1 h
  have hname := List.find?_some he
  rw [beq_iff_eq] at hname
  rw [← hname]
  exact List.mem_of_find?_eq_some he

theorem find?_of_mem {l : List (String × α)} (sorted : l.Pairwise fun a b => a.1 < b.1)
    (h : (name, v) ∈ l) : (l.find? (·.1 == name)).map (·.2) = some v := by
  induction l with
  | nil => cases h
  | cons e rest ih =>
    obtain ⟨hfirst, hrest⟩ := List.pairwise_cons.1 sorted
    rcases List.mem_cons.1 h with rfl | h
    · simp
    · have hne : ¬ e.1 = name := fun heq => String.lt_irrefl _ (heq ▸ hfirst _ h)
      simp [hne, ih hrest h]

theorem mem_entries : (name, v) ∈ m.entries ↔ m.get? name = some v :=
  ⟨find?_of_mem m.sorted, mem_entries_of_get?⟩

theorem mem_values : v ∈ m.values ↔ ∃ name, m.get? name = some v := by
  constructor
  · intro h
    obtain ⟨e, he, rfl⟩ := List.mem_map.1 h
    exact ⟨e.1, mem_entries.1 he⟩
  · rintro ⟨name, h⟩
    exact List.mem_map.2 ⟨_, mem_entries.2 h, rfl⟩

/-- No name is listed twice. -/
theorem pairwise_ne (m : NameMap α) : m.entries.Pairwise fun a b => a.1 ≠ b.1 := by
  refine m.sorted.imp fun {a b} h heq => ?_
  rw [heq] at h
  exact String.lt_irrefl _ h

end NameMap

namespace Table

open Std

variable {κ ν : Type} [Ord κ] [TransOrd κ] {t : Table κ ν} {k : κ} {v : ν}

theorem get?_of_mem_entries (h : (k, v) ∈ t.entries) : t.get? k = some v :=
  (ExtTreeMap.mem_toList_iff_getKey?_eq_some_and_getElem?_eq_some.1 h).2

variable [BEq κ] [LawfulBEqOrd κ]

omit [BEq κ] [LawfulBEqOrd κ] in
/-- What is stored under a key is listed under the key first stored. -/
theorem mem_entries_getKey (hk : k ∈ t.tree) (h : t.get? k = some v) :
    (t.tree.getKey k hk, v) ∈ t.entries := by
  have hjk : compare (t.tree.getKey k hk) k = .eq := ExtTreeMap.compare_getKey_self hk
  refine ExtTreeMap.mem_toList_iff_getKey?_eq_some_and_getElem?_eq_some.2 ⟨?_, ?_⟩
  · rw [ExtTreeMap.getKey?_congr hjk, ExtTreeMap.getKey?_eq_some_getKey hk]
  · exact (ExtTreeMap.getElem?_congr hjk).trans h

theorem mem_entries_of_get? (h : t.get? k = some v) : ∃ j, (j, v) ∈ t.entries ∧ (j == k) = true := by
  have hmem : k ∈ t.tree := ExtTreeMap.mem_iff_isSome_getElem?.2 (Option.isSome_iff_exists.2 ⟨v, h⟩)
  have hjk : compare (t.tree.getKey k hmem) k = .eq := ExtTreeMap.compare_getKey_self hmem
  exact ⟨t.tree.getKey k hmem, mem_entries_getKey hmem h, LawfulBEqCmp.compare_eq_iff_beq.1 hjk⟩

omit [BEq κ] [LawfulBEqOrd κ] in
/-- A key is listed with its value. -/
theorem mem_keys_iff : k ∈ t.keys ↔ ∃ v, (k, v) ∈ t.entries := by
  rw [keys, ← ExtTreeMap.map_fst_toList_eq_keys, List.mem_map]
  exact ⟨fun ⟨⟨_, v⟩, hv, heq⟩ => ⟨v, heq ▸ hv⟩, fun ⟨v, hv⟩ => ⟨(k, v), hv, rfl⟩⟩

omit [BEq κ] [LawfulBEqOrd κ] in
/-- What is listed after a write was listed before, or is written, under a key that was there or,
for want of one, under the key given. -/
theorem mem_entries_of_insert {j : κ} {u w : ν} (h : (j, w) ∈ (t.insert k u).entries) :
    (j, w) ∈ t.entries ∨ w = u ∧ (j ∈ t.keys ∨ j = k ∧ t.get? k = none) := by
  rw [entries, insert, ExtTreeMap.mem_toList_iff_getKey?_eq_some_and_getElem?_eq_some,
    ExtTreeMap.getKey?_insert, ExtTreeMap.getElem?_insert] at h
  split at h
  next =>
    obtain ⟨hkey, hvalue⟩ := h
    cases hkey
    cases hvalue
    refine .inr ⟨rfl, ?_⟩
    by_cases hk : k ∈ t.tree
    · obtain ⟨v, hv⟩ := Option.isSome_iff_exists.1 (ExtTreeMap.mem_iff_isSome_getElem?.1 hk)
      rw [← ExtTreeMap.getKey_eq_getKeyD (h := hk)]
      exact .inl (mem_keys_iff.2 ⟨v, mem_entries_getKey hk hv⟩)
    · exact .inr ⟨ExtTreeMap.getKeyD_eq_fallback hk, ExtTreeMap.getElem?_eq_none hk⟩
  next => exact .inl (ExtTreeMap.mem_toList_iff_getKey?_eq_some_and_getElem?_eq_some.2 h)

omit [BEq κ] [LawfulBEqOrd κ] in
/-- What is listed after a removal was listed before. -/
theorem mem_entries_of_erase {j : κ} {w : ν} (h : (j, w) ∈ (t.erase k).entries) :
    (j, w) ∈ t.entries := by
  rw [entries, erase, ExtTreeMap.mem_toList_iff_getKey?_eq_some_and_getElem?_eq_some,
    ExtTreeMap.getKey?_erase, ExtTreeMap.getElem?_erase] at h
  split at h
  next => cases h.1
  next => exact ExtTreeMap.mem_toList_iff_getKey?_eq_some_and_getElem?_eq_some.2 h

omit [BEq κ] [LawfulBEqOrd κ] in
theorem entries_empty : (empty : Table κ ν).entries = [] := by
  refine List.eq_nil_iff_forall_not_mem.2 fun e he => ?_
  have hnone := (get?_of_mem_entries he).symm.trans (get?_empty e.1)
  contradiction

end Table

end Recalc
