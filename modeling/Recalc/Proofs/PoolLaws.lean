import Mathlib.Data.Finset.Card
import Mathlib.Data.Finset.Range
import Recalc.Pool

set_option autoImplicit false

/-!
# Laws of pools

A pool is tidy when its free list names empty slots only, each once. Every operation keeps a pool
tidy. A new entity gets an identity that named nothing before, as long as slots have an index of
32 bits; past that bound the new entity cannot be found, and nothing else changes.
-/

namespace Recalc.Pool

variable {family : Family} {α : Type}

/-- The free list names empty slots, each once. -/
structure Tidy (a : Pool family α) : Prop where
  vacant : ∀ i ∈ a.free, i.toNat < a.slots.size ∧ ∀ g, a.get? ⟨i, g⟩ = none
  nodup : a.free.Nodup

def Addressable (a : Pool family α) : Prop := a.slots.size ≤ UInt32.size

theorem tidy_empty : (empty : Pool family α).Tidy :=
  ⟨by simp [empty], by simp [empty]⟩

theorem get?_empty (id : Id family) : (empty : Pool family α).get? id = none := by
  simp [empty, get?]

theorem contains_iff {a : Pool family α} {id : Id family} :
    a.contains id = true ↔ ∃ v, a.get? id = some v := Option.isSome_iff_exists

theorem lt_size_of_get? {a : Pool family α} {id : Id family} {v : α} (h : a.get? id = some v) :
    id.index.toNat < a.slots.size :=
  (Array.getElem?_eq_some_iff.1 (get?_eq_some h)).1

/-- Two live identities in one slot are the same. -/
theorem eq_of_index_eq {a : Pool family α} {id other : Id family} {v w : α}
    (h : a.get? id = some v) (h' : a.get? other = some w) (hi : id.index = other.index) :
    id = other := by
  have hs := get?_eq_some h
  rw [hi, get?_eq_some h'] at hs
  obtain ⟨i, g⟩ := id
  obtain ⟨j, k⟩ := other
  simp only [Option.some.injEq, Slot.mk.injEq] at hs
  rw [hs.1, show i = j from hi]

section Modify

variable (a : Pool family α) (id : Id family) (f : α → α)

theorem free_modify : (a.modify id f).free = a.free := by
  unfold modify
  split <;> rfl

theorem size_modify : (a.modify id f).slots.size = a.slots.size := by
  unfold modify
  split <;> simp

theorem contains_modify (other : Id family) :
    (a.modify id f).contains other = a.contains other := by
  unfold contains
  rw [get?_modify]
  split
  next h => rw [← h, Option.isSome_map]
  next => rfl

theorem modify_of_get?_none (h : a.get? id = none) : a.modify id f = a := by
  rw [modify, h]

theorem tidy_modify (h : a.Tidy) : (a.modify id f).Tidy where
  vacant i hi := by
    rw [free_modify] at hi
    rw [size_modify]
    refine ⟨(h.vacant i hi).1, fun g => ?_⟩
    have hc := contains_modify a id f ⟨i, g⟩
    rw [contains, contains, (h.vacant i hi).2 g] at hc
    simpa using hc
  nodup := by
    rw [free_modify]
    exact h.nodup

end Modify

section Erase

variable (a : Pool family α) (id : Id family)

theorem size_erase : (a.erase id).slots.size = a.slots.size := by
  unfold erase remove?
  cases a.get? id <;> simp

theorem remove?_eq_some {v : α} {b : Pool family α} :
    a.remove? id = some (v, b) ↔ a.get? id = some v ∧ b = a.erase id := by
  unfold erase remove?
  cases h : a.get? id with
  | none => simp
  | some w => simp [eq_comm]

theorem remove?_eq_none : a.remove? id = none ↔ a.get? id = none := by
  unfold remove?
  cases h : a.get? id <;> simp

theorem erase_of_get?_none (h : a.get? id = none) : a.erase id = a := by
  rw [erase, remove?, h]

theorem tidy_erase (h : a.Tidy) : (a.erase id).Tidy := by
  cases hv : a.get? id with
  | none => rwa [erase_of_get?_none a id hv]
  | some v =>
    have free_eq : (a.erase id).free = id.index :: a.free := by
      rw [erase, remove?, hv]
    refine ⟨fun i hi => ?_, ?_⟩
    · rw [free_eq] at hi
      rw [size_erase]
      rcases List.mem_cons.1 hi with rfl | hi
      · refine ⟨lt_size_of_get? hv, fun g => ?_⟩
        rw [get?_erase]
        split
        next => rfl
        next hne =>
          cases hw : a.get? ⟨id.index, g⟩ with
          | none => rfl
          | some w => exact absurd (eq_of_index_eq hv hw rfl) hne
      · refine ⟨(h.vacant i hi).1, fun g => ?_⟩
        rw [get?_erase, (h.vacant i hi).2 g]
        split <;> rfl
    · rw [free_eq]
      refine List.nodup_cons.2 ⟨fun hi => ?_, h.nodup⟩
      have := (h.vacant _ hi).2 id.generation
      rw [show (⟨id.index, id.generation⟩ : Id family) = id from rfl, hv] at this
      exact absurd this (by simp)

end Erase

section Insert

variable {a : Pool family α} {v : α}

def Fresh (a b : Pool family α) (id : Id family) (v : α) : Prop :=
  a.get? id = none ∧ ∀ other, b.get? other = if id = other then some v else a.get? other

theorem size_insert_le (a : Pool family α) (v : α) :
    a.slots.size ≤ (a.insert v).2.slots.size := by
  unfold insert
  split
  · split <;> simp
  · simp

theorem insert_of_free {i : UInt32} {rest : List UInt32} (tidy : a.Tidy)
    (hf : a.free = i :: rest) : a.Fresh (a.insert v).2 (a.insert v).1 v ∧
      (a.insert v).2.free = rest ∧ (a.insert v).2.slots.size = a.slots.size ∧
      (a.insert v).1.index = i := by
  obtain ⟨hlt, hempty⟩ := tidy.vacant i (by rw [hf]; exact List.mem_cons_self)
  have hslot : a.slots[i.toNat]? = some a.slots[i.toNat] := Array.getElem?_eq_getElem hlt
  have hins : a.insert v = (⟨i, a.slots[i.toNat].generation⟩,
      { slots := a.slots.setIfInBounds i.toNat { a.slots[i.toNat] with value := some v }
        free := rest }) := by
    unfold insert
    rw [hf]
    simp only [hslot]
  rw [hins]
  refine ⟨⟨hempty _, fun other => ?_⟩, rfl, by simp, rfl⟩
  obtain ⟨j, k⟩ := other
  by_cases hij : i = j
  · subst hij
    by_cases hg : a.slots[i.toNat].generation = k
    · simp [get?, hlt, hg]
    · have hne : ¬ (⟨i, a.slots[i.toNat].generation⟩ : Id family) = ⟨i, k⟩ := by
        simp [hg]
      rw [if_neg hne, hempty k]
      simp [get?, hlt, hg]
  · have hne : ¬ i.toNat = j.toNat := fun h => hij (UInt32.toNat_inj.1 h)
    simp [get?, hne, hij]

theorem insert_of_no_free (hf : a.free = []) :
    a.insert v = (⟨a.slots.size.toUInt32, 0⟩, { a with slots := a.slots.push ⟨0, some v⟩ }) := by
  unfold insert
  rw [hf]

theorem fresh_of_room (hf : a.free = []) (room : a.slots.size < UInt32.size) :
    a.Fresh (a.insert v).2 (a.insert v).1 v := by
  rw [insert_of_no_free hf]
  have hidx : a.slots.size.toUInt32.toNat = a.slots.size := UInt32.toNat_ofNat_of_lt' room
  refine ⟨by simp [get?, hidx], fun other => ?_⟩
  obtain ⟨j, k⟩ := other
  by_cases hij : a.slots.size.toUInt32 = j
  · subst hij
    by_cases hk : (0 : UInt32) = k <;> simp [get?, hidx, hk]
  · have hne : ¬ j.toNat = a.slots.size := by
      intro h
      exact hij (UInt32.toNat_inj.1 (hidx.trans h.symm))
    simp [get?, Array.getElem?_push, hne, hij]

/-- In a full pool a new entity cannot be found, and everything else is as before. -/
theorem get?_insert_of_full (hf : a.free = []) (full : UInt32.size ≤ a.slots.size)
    (other : Id family) : (a.insert v).2.get? other = a.get? other := by
  rw [insert_of_no_free hf]
  have hlt : other.index.toNat < a.slots.size := Nat.lt_of_lt_of_le other.index.toNat_lt full
  have hne : ¬ other.index.toNat = a.slots.size := by omega
  simp [get?, Array.getElem?_push, hne]

theorem insert_cases (tidy : a.Tidy) (v : α) :
    a.Fresh (a.insert v).2 (a.insert v).1 v ∨
      ∀ other, (a.insert v).2.get? other = a.get? other := by
  cases hf : a.free with
  | cons i rest => exact .inl (insert_of_free tidy hf).1
  | nil =>
    by_cases room : a.slots.size < UInt32.size
    · exact .inl (fresh_of_room hf room)
    · exact .inr fun other => get?_insert_of_full hf (by omega) other

/-- While slots have an index of 32 bits a new identity is fresh. -/
theorem insert_fresh (tidy : a.Tidy) (small : (a.insert v).2.Addressable) :
    a.Fresh (a.insert v).2 (a.insert v).1 v := by
  cases hf : a.free with
  | cons i rest => exact (insert_of_free tidy hf).1
  | nil =>
    refine fresh_of_room hf ?_
    rw [insert_of_no_free hf] at small
    exact Nat.lt_of_succ_le (by simpa [Addressable] using small)

theorem tidy_insert (tidy : a.Tidy) (v : α) : (a.insert v).2.Tidy := by
  cases hf : a.free with
  | cons i rest =>
    obtain ⟨hfresh, hfree, hsize, hindex⟩ := insert_of_free (v := v) tidy hf
    have hnodup := tidy.nodup
    rw [hf] at hnodup
    obtain ⟨hi, hrest⟩ := List.nodup_cons.1 hnodup
    refine ⟨fun j hj => ?_, by rwa [hfree]⟩
    rw [hfree] at hj
    rw [hsize]
    have hvacant := tidy.vacant j (by rw [hf]; exact List.mem_cons_of_mem _ hj)
    refine ⟨hvacant.1, fun g => ?_⟩
    rw [hfresh.2, hvacant.2 g, if_neg]
    rintro heq
    rw [heq] at hindex
    exact hi (hindex ▸ hj)
  | nil =>
    rw [insert_of_no_free hf]
    exact ⟨by simp [hf], by simp [hf]⟩

end Insert

/-- Live identities without repetition are no more than the slots. -/
theorem length_le_capacity (a : Pool family α) (l : List (Id family)) (nodup : l.Nodup)
    (live : ∀ id ∈ l, a.contains id = true) : l.length ≤ a.capacity := by
  have hmap : (l.map fun id => id.index.toNat).Nodup := by
    refine List.Nodup.map_on (fun id hid other hother heq => ?_) nodup
    obtain ⟨v, hv⟩ := contains_iff.1 (live id hid)
    obtain ⟨w, hw⟩ := contains_iff.1 (live other hother)
    exact eq_of_index_eq hv hw (UInt32.toNat_inj.1 heq)
  have hsub : (l.map fun id => id.index.toNat).toFinset ⊆ Finset.range a.slots.size := by
    intro i hi
    obtain ⟨id, hid, rfl⟩ := List.mem_map.1 (List.mem_toFinset.1 hi)
    obtain ⟨v, hv⟩ := contains_iff.1 (live id hid)
    exact Finset.mem_range.2 (lt_size_of_get? hv)
  have hcard := Finset.card_le_card hsub
  rw [List.toFinset_card_of_nodup hmap, List.length_map, Finset.card_range] at hcard
  exact hcard

def population (a : Pool family α) : Nat := a.slots.toList.countP (·.value.isSome)

theorem population_le_capacity (a : Pool family α) : a.population ≤ a.capacity := by
  unfold population capacity
  rw [← Array.length_toList]
  exact List.countP_le_length

/-- One slot with an entity is written. -/
theorem count_write {a : Pool family α} {id : Id family} {v : α} (h : a.get? id = some v)
    (slot : Slot α) :
    (a.slots.setIfInBounds id.index.toNat slot).toList.countP (·.value.isSome) + 1 =
      a.population + if slot.value.isSome then 1 else 0 := by
  have hs := get?_eq_some h
  have hlt := lt_size_of_get? h
  have hlen : id.index.toNat < a.slots.toList.length := by simpa using hlt
  have hget : a.slots.toList[id.index.toNat] = ⟨id.generation, some v⟩ := by
    rw [Array.getElem_toList]
    exact (Array.getElem?_eq_some_iff.1 hs).2
  have hpos : 0 < a.slots.toList.countP (·.value.isSome) :=
    List.countP_pos_iff.2 ⟨⟨id.generation, some v⟩, hget ▸ List.getElem_mem _, rfl⟩
  rw [Array.toList_setIfInBounds, List.countP_set hlen, hget, population, Option.isSome_some,
    if_pos rfl]
  omega

theorem population_erase {a : Pool family α} {id : Id family} {v : α} (h : a.get? id = some v) :
    (a.erase id).population + 1 = a.population := by
  simp only [erase, remove?, h, population]
  exact count_write h _

theorem population_modify (a : Pool family α) (id : Id family) (f : α → α) :
    (a.modify id f).population = a.population := by
  cases h : a.get? id with
  | none => rw [modify_of_get?_none a id f h]
  | some v =>
    simp only [modify, h, population]
    exact Nat.succ.inj (count_write h ⟨id.generation, some (f v)⟩)

/-- A tidy pool has one entity more after an insertion, also when its slot has no index. -/
theorem population_insert {a : Pool family α} (tidy : a.Tidy) (v : α) :
    (a.insert v).2.population = a.population + 1 := by
  cases hf : a.free with
  | nil =>
    rw [insert_of_no_free hf]
    simp [population]
  | cons i rest =>
    obtain ⟨hlt, hempty⟩ := tidy.vacant i (by rw [hf]; exact List.mem_cons_self)
    have hslot : a.slots[i.toNat]? = some a.slots[i.toNat] := Array.getElem?_eq_getElem hlt
    have hvacant : a.slots[i.toNat].value = none := by
      simpa [get?, hslot] using hempty a.slots[i.toNat].generation
    have hlen : i.toNat < a.slots.toList.length := by simpa using hlt
    have hvalue : a.slots.toList[i.toNat].value = none := by rw [Array.getElem_toList, hvacant]
    simp only [insert, hf, hslot, population, Array.toList_setIfInBounds, List.countP_set hlen,
      hvalue]
    simp

section Entries

theorem mem_entriesFrom {n : Nat} {l : List (Slot α)} {e : Id family × α} :
    e ∈ entriesFrom n l ↔
      ∃ k, l[k]? = some ⟨e.1.generation, some e.2⟩ ∧ e.1.index = (n + k).toUInt32 := by
  induction l generalizing n with
  | nil => simp [entriesFrom]
  | cons slot rest ih =>
    have shift : (∃ k, (slot :: rest)[k]? = some ⟨e.1.generation, some e.2⟩ ∧
        e.1.index = (n + k).toUInt32) ↔
        (slot = ⟨e.1.generation, some e.2⟩ ∧ e.1.index = n.toUInt32) ∨
          ∃ k, rest[k]? = some ⟨e.1.generation, some e.2⟩ ∧ e.1.index = (n + 1 + k).toUInt32 := by
      constructor
      · rintro ⟨k, hk, hi⟩
        cases k with
        | zero => exact .inl ⟨by simpa using hk, by simpa using hi⟩
        | succ k => exact .inr ⟨k, by simpa using hk, by rw [hi]; congr 1; omega⟩
      · rintro (⟨hs, hi⟩ | ⟨k, hk, hi⟩)
        · exact ⟨0, by simpa using hs, by simpa using hi⟩
        · exact ⟨k + 1, by simpa using hk, by rw [hi]; congr 1; omega⟩
    rw [shift]
    obtain ⟨⟨i, g⟩, v⟩ := e
    obtain ⟨gen, value⟩ := slot
    cases value with
    | none => simp [entriesFrom, ih]
    | some w =>
      simp only [entriesFrom, List.mem_cons, ih, Prod.mk.injEq, Id.mk.injEq, Slot.mk.injEq,
        Option.some.injEq]
      refine or_congr ?_ Iff.rfl
      constructor
      · rintro ⟨⟨hi, hg⟩, hv⟩
        exact ⟨⟨hg.symm, hv.symm⟩, hi⟩
      · rintro ⟨⟨hg, hv⟩, hi⟩
        exact ⟨⟨hi, hg.symm⟩, hv.symm⟩

theorem mem_entries_of_get? {a : Pool family α} {id : Id family} {v : α}
    (h : a.get? id = some v) : (id, v) ∈ a.entries := by
  refine mem_entriesFrom.2 ⟨id.index.toNat, ?_, ?_⟩
  · rw [Array.getElem?_toList, get?_eq_some h]
  · rw [Nat.zero_add]
    exact (UInt32.ofNat_toNat).symm

/-- While slots have an index of 32 bits the listing has the live entities only. -/
theorem mem_entries {a : Pool family α} (small : a.Addressable) {id : Id family} {v : α} :
    (id, v) ∈ a.entries ↔ a.get? id = some v := by
  refine ⟨fun h => ?_, mem_entries_of_get?⟩
  obtain ⟨k, hk, hi⟩ := mem_entriesFrom.1 h
  rw [Array.getElem?_toList] at hk
  have hlt : k < a.slots.size := (Array.getElem?_eq_some_iff.1 hk).1
  have hidx : id.index.toNat = k := by
    rw [show id.index = (0 + k).toUInt32 from hi, Nat.zero_add]
    exact UInt32.toNat_ofNat_of_lt' (Nat.lt_of_lt_of_le hlt small)
  simp [get?, hidx, hk]

/-- While slots have an index of 32 bits no identity is listed twice. -/
theorem nodup_ids {a : Pool family α} (small : a.Addressable) : a.ids.Nodup := by
  have key : ∀ (l : List (Slot α)) (n : Nat), n + l.length ≤ UInt32.size →
      ((entriesFrom n l : List (Id family × α)).map (·.1)).Nodup := by
    intro l
    induction l with
    | nil => exact fun _ _ => List.nodup_nil
    | cons slot rest ih =>
      intro n hn
      rw [List.length_cons] at hn
      have hrest := ih (n + 1) (by omega)
      unfold entriesFrom
      split
      next v _ =>
        refine List.nodup_cons.2 ⟨fun hmem => ?_, hrest⟩
        -- those listed later lie in slots further on
        obtain ⟨e, he, hid⟩ := List.mem_map.1 hmem
        obtain ⟨k, hk, hindex⟩ := mem_entriesFrom.1 he
        have hlt := (List.getElem?_eq_some_iff.1 hk).1
        rw [hid] at hindex
        have hindex := congrArg UInt32.toNat hindex
        rw [UInt32.toNat_ofNat_of_lt' (by omega), UInt32.toNat_ofNat_of_lt' (by omega)] at hindex
        omega
      next => exact hrest
  exact key a.slots.toList 0 (by simpa [Addressable] using small)

/-- The listing has an identity for every entity. -/
theorem length_ids (a : Pool family α) : a.ids.length = a.population := by
  have hfrom : ∀ (l : List (Slot α)) n, (entriesFrom n l : List (Id family × α)).length =
      l.countP (·.value.isSome) := by
    intro l
    induction l with
    | nil => exact fun _ => rfl
    | cons slot rest ih =>
      intro n
      unfold entriesFrom
      split
      next v hv => rw [List.length_cons, ih, List.countP_cons_of_pos (by rw [hv]; rfl)]
      next hv => rw [ih, List.countP_cons_of_neg (by rw [hv]; exact Bool.false_ne_true)]
  rw [ids, List.length_map]
  exact hfrom a.slots.toList 0

end Entries

/-! ## Generations -/

/-- How often a slot was freed, as far as 32 bits tell. -/
def generation? (a : Pool family α) (i : Nat) : Option UInt32 := a.slots[i]?.map (·.generation)

theorem generation?_of_get? {a : Pool family α} {id : Id family} {v : α} (h : a.get? id = some v) :
    a.generation? id.index.toNat = some id.generation := by
  rw [generation?, get?_eq_some h, Option.map_some]

theorem generation?_modify (a : Pool family α) (id : Id family) (f : α → α) (i : Nat) :
    (a.modify id f).generation? i = a.generation? i := by
  unfold modify
  split
  next v hv =>
    unfold generation?
    dsimp only
    rw [Array.getElem?_setIfInBounds]
    split
    next hi => rw [if_pos (lt_size_of_get? hv), ← hi, get?_eq_some hv, Option.map_some, Option.map_some]
    next => rfl
  next => rfl

/-- Only the slot of the entity that goes is freed. -/
theorem generation?_erase {a : Pool family α} {id : Id family} {v : α} (h : a.get? id = some v)
    (i : Nat) : (a.erase id).generation? i =
      if id.index.toNat = i then some (id.generation + 1) else a.generation? i := by
  unfold erase remove? generation?
  rw [h]
  dsimp only
  rw [Array.getElem?_setIfInBounds]
  split
  next => rw [if_pos (lt_size_of_get? h), Option.map_some]
  next => rfl

/-- A new entity frees nothing. -/
theorem generation?_insert {a : Pool family α} {i : Nat} {g : UInt32} (h : a.generation? i = some g)
    (v : α) : (a.insert v).2.generation? i = some g := by
  obtain ⟨slot, hslot, hg⟩ := Option.map_eq_some_iff.1 h
  have hlt := (Array.getElem?_eq_some_iff.1 hslot).1
  unfold insert
  split
  next index rest _ =>
    split
    next other hother =>
      unfold generation?
      dsimp only
      rw [Array.getElem?_setIfInBounds]
      split
      next hi =>
        subst hi
        cases hslot.symm.trans hother
        rw [if_pos hlt, Option.map_some, hg]
      next => exact h
    next => exact h
  next =>
    unfold generation?
    dsimp only
    rw [Array.getElem?_push, if_neg (Nat.ne_of_lt hlt)]
    exact h

end Recalc.Pool
