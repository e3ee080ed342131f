import Recalc.Proofs.Culling

set_option autoImplicit false

/-!
# What removals leave of a graph

The graph stores a key as it was first recorded, and equal keys can hold different handles. Removing
edges never writes a key anew: a key that is left is the one that was stored in its place before. So
the edges that are left decide which keys are stored, and with them which handles the graph keeps.
-/

namespace Recalc

open Std

/-! ## Parts of a table -/

namespace Table

variable {κ ν : Type} [Ord κ] [TransOrd κ] [BEq κ] [LawfulBEqOrd κ] {t t₁ t₂ : Table κ ν}

/-- Of equal keys a table lists one. -/
theorem eq_of_mem_entries {e e' : κ × ν} (h : e ∈ t.entries) (h' : e' ∈ t.entries)
    (hkey : (e.1 == e'.1) = true) : e = e' := by
  obtain ⟨hk, hv⟩ := ExtTreeMap.mem_toList_iff_getKey?_eq_some_and_getElem?_eq_some.1 h
  obtain ⟨hk', hv'⟩ := ExtTreeMap.mem_toList_iff_getKey?_eq_some_and_getElem?_eq_some.1 h'
  have hcmp : compare e.1 e'.1 = .eq := LawfulBEqCmp.compare_eq_iff_beq.2 hkey
  rw [ExtTreeMap.getKey?_congr hcmp, hk', Option.some.injEq] at hk
  rw [ExtTreeMap.getElem?_congr hcmp, hv', Option.some.injEq] at hv
  exact Prod.ext hk.symm hv.symm

omit [BEq κ] [LawfulBEqOrd κ] in
theorem nodup_entries (t : Table κ ν) : t.entries.Nodup :=
  ExtTreeMap.ordered_keys_toList.imp fun {a b} h heq => by
    subst heq
    have hself : compare a.1 a.1 = .eq := ReflCmp.compare_self
    rw [hself] at h
    contradiction

/-- Parts of one table agree on the keys that they have in common. -/
theorem entries_subset (h₁ : t₁.entries ⊆ t.entries) (h₂ : t₂.entries ⊆ t.entries)
    (hkeys : ∀ k, t₁.contains k = true → t₂.contains k = true) : t₁.entries ⊆ t₂.entries := by
  intro e he
  have hcontains := hkeys e.1 (contains_of_get? (get?_of_mem_entries he))
  rw [contains_eq_isSome, Option.isSome_iff_exists] at hcontains
  obtain ⟨v, hv⟩ := hcontains
  obtain ⟨j, hj, hkey⟩ := mem_entries_of_get? hv
  rwa [eq_of_mem_entries (h₁ he) (h₂ hj) (BEq.symm hkey)]

omit [BEq κ] [LawfulBEqOrd κ] in
theorem eq_of_entries (h : t₁.entries ⊆ t₂.entries) (h' : t₂.entries ⊆ t₁.entries) : t₁ = t₂ := by
  have hperm : t₁.entries.Perm t₂.entries :=
    (List.perm_ext_iff_of_nodup (nodup_entries t₁) (nodup_entries t₂)).2 fun _ =>
      ⟨fun he => h he, fun he => h' he⟩
  obtain ⟨tree₁⟩ := t₁
  obtain ⟨tree₂⟩ := t₂
  exact congrArg Table.mk (ExtTreeMap.ext_toList hperm)

end Table

/-! ## Parts of a graph -/

namespace Graph

section Sets

variable {κ ν : Type} [Ord κ] [TransOrd κ] [Ord ν] [TransOrd ν] {t t' t₁ t₂ : Table κ (KeySet ν)}

/-- Each set that is left is stored under the key it had before, and has no new members. -/
def Thins (t t' : Table κ (KeySet ν)) : Prop :=
  ∀ k s', (k, s') ∈ t'.entries → ∃ s, (k, s) ∈ t.entries ∧ s'.keys ⊆ s.keys

theorem Thins.refl (t : Table κ (KeySet ν)) : Thins t t :=
  fun _ s h => ⟨s, h, List.Subset.refl _⟩

theorem Thins.trans (h : Thins t t₁) (h' : Thins t₁ t₂) : Thins t t₂ := by
  intro k s₂ hs₂
  obtain ⟨s₁, hs₁, hsub₁⟩ := h' k s₂ hs₂
  obtain ⟨s, hs, hsub⟩ := h k s₁ hs₁
  exact ⟨s, hs, List.Subset.trans hsub₁ hsub⟩

theorem thins_erase (t : Table κ (KeySet ν)) (k : κ) : Thins t (t.erase k) :=
  fun _ s h => ⟨s, Table.mem_entries_of_erase h, List.Subset.refl _⟩

variable [BEq κ] [LawfulBEqOrd κ]

theorem thins_removeAt (t : Table κ (KeySet ν)) (k : κ) (v : ν) : Thins t (removeAt t k v) := by
  unfold removeAt
  split
  next s hs =>
    dsimp only
    split
    next => exact thins_erase t k
    next =>
      intro j r hj
      rcases Table.mem_entries_of_insert hj with hold | ⟨rfl, hkey | ⟨-, hnone⟩⟩
      · exact ⟨r, hold, List.Subset.refl _⟩
      · obtain ⟨u, hu⟩ := Table.mem_keys_iff.1 hkey
        refine ⟨u, hu, ?_⟩
        have hget := Table.get?_of_mem_entries hj
        have hold := Table.get?_of_mem_entries hu
        rw [Table.get?_insert] at hget
        split at hget
        next hkj =>
          rw [← Table.get?_congr t hkj, hs, Option.some.injEq] at hold
          subst hold
          intro w hw
          obtain ⟨x, hx⟩ := Table.mem_keys_iff.1 hw
          exact Table.mem_keys_iff.2 ⟨x, Table.mem_entries_of_erase hx⟩
        next =>
          rw [hold, Option.some.injEq] at hget
          rw [hget]
          exact List.Subset.refl _
      · rw [hs] at hnone
        contradiction
  next => exact Thins.refl t

/-- Which keys and members are left in two parts of a table follows from which are contained. -/
theorem Thins.determined (h₁ : Thins t t₁) (h₂ : Thins t t₂) {k : κ} {s₁ : KeySet ν} {v : ν}
    [BEq ν] [LawfulBEqOrd ν] (hk : (k, s₁) ∈ t₁.entries) (hv : v ∈ s₁.keys)
    (hcontains : (setAt t₂ k).contains v = true) : ∃ s₂, (k, s₂) ∈ t₂.entries ∧ v ∈ s₂.keys := by
  obtain ⟨s, hs, hsub⟩ := h₁ k s₁ hk
  cases hget : t₂.get? k with
  | none =>
    rw [setAt, hget, Option.getD_none, KeySet.contains_empty] at hcontains
    contradiction
  | some s₂ =>
    obtain ⟨j, hj, hkey⟩ := Table.mem_entries_of_get? hget
    obtain ⟨s', hs', hsub'⟩ := h₂ j s₂ hj
    cases Table.eq_of_mem_entries hs' hs hkey
    refine ⟨s₂, hj, ?_⟩
    rw [setAt, hget, Option.getD_some, Table.contains_eq_isSome] at hcontains
    obtain ⟨u, hu⟩ := Option.isSome_iff_exists.1 hcontains
    obtain ⟨w, hw, hwv⟩ := Table.mem_entries_of_get? hu
    obtain ⟨x, hx⟩ := Table.mem_keys_iff.1 (hsub hv)
    obtain ⟨y, hy⟩ := Table.mem_keys_iff.1 (hsub' (Table.mem_keys_iff.2 ⟨u, hw⟩))
    cases Table.eq_of_mem_entries hy hx hwv
    exact Table.mem_keys_iff.2 ⟨u, hw⟩

/-- What holds of the keys and members of a part holds of those of a part with fewer members. -/
theorem Thins.within (h₁ : Thins t t₁) (h₂ : Thins t t₂) [BEq ν] [LawfulBEqOrd ν]
    {A : κ → Prop} {B : ν → Prop}
    (hsub : ∀ k v, (setAt t₁ k).contains v = true → (setAt t₂ k).contains v = true)
    (hw : Within A B t₂) {k : κ} {s : KeySet ν} {v : ν} (hk : (k, s) ∈ t₁.entries)
    (hv : v ∈ s.keys) : A k ∧ B v := by
  have hcontains : (setAt t₁ k).contains v = true := by
    rw [setAt, Table.get?_of_mem_entries hk, Option.getD_some, ← Table.contains_keys]
    exact contains_of_mem hv
  obtain ⟨s₂, hs₂, hv₂⟩ := h₁.determined h₂ hk hv (hsub k v hcontains)
  exact ⟨(hw k s₂ hs₂).1, (hw k s₂ hs₂).2 v hv₂⟩

/-- In a part without empty sets that covers its keys as well. -/
theorem Thins.within_of_noEmpty (h₁ : Thins t t₁) (h₂ : Thins t t₂) [BEq ν] [LawfulBEqOrd ν]
    {A : κ → Prop} {B : ν → Prop} (hfull : NoEmpty t₁)
    (hsub : ∀ k v, (setAt t₁ k).contains v = true → (setAt t₂ k).contains v = true)
    (hw : Within A B t₂) : Within A B t₁ := by
  intro k s hk
  refine ⟨?_, fun v hv => (h₁.within h₂ hsub hw hk hv).2⟩
  obtain ⟨v, hv⟩ := hfull k s (Table.get?_of_mem_entries hk)
  rw [Table.contains_eq_isSome, Option.isSome_iff_exists] at hv
  obtain ⟨u, hu⟩ := hv
  obtain ⟨w, hentry, -⟩ := Table.mem_entries_of_get? hu
  exact (h₁.within h₂ hsub hw hk (Table.mem_keys_iff.2 ⟨u, hentry⟩)).1

end Sets

structure Thinned (g g' : Graph) : Prop where
  readers : Thins g.readers g'.readers
  reads : Thins g.reads g'.reads
  keys : Thins g.keys g'.keys

namespace Thinned

variable {g g₁ g₂ : Graph}

theorem refl (g : Graph) : g.Thinned g := ⟨.refl _, .refl _, .refl _⟩

theorem trans (h : g.Thinned g₁) (h' : g₁.Thinned g₂) : g.Thinned g₂ :=
  ⟨h.readers.trans h'.readers, h.reads.trans h'.reads, h.keys.trans h'.keys⟩

theorem outlasts (g : Graph) : Outlasts g.Thinned where
  eraseReaders _ _ h := ⟨h.readers.trans (thins_erase _ _), h.reads, h.keys⟩
  eraseReads _ _ h := ⟨h.readers, h.reads.trans (thins_erase _ _), h.keys⟩
  readers _ _ _ h := ⟨h.readers.trans (thins_removeAt _ _ _), h.reads, h.keys⟩
  reads _ _ _ h := ⟨h.readers, h.reads.trans (thins_removeAt _ _ _), h.keys⟩
  keys _ _ _ h := ⟨h.readers, h.reads, h.keys.trans (thins_removeAt _ _ _)⟩

/-- Of two parts of a graph, one with fewer edges keeps no handle that the other does not keep. -/
theorem handles_subset (h₁ : g.Thinned g₁) (h₂ : g.Thinned g₂) (hg₁ : g₁.Indexed)
    (hg₂ : g₂.Indexed) (hedges : ∀ a b, g₁.hasEdge a b = true → g₂.hasEdge a b = true) :
    g₁.handles ⊆ g₂.handles := by
  have hkeyed := keyed_iff.2 fun a (ha : a ∈ g₂.handles) => ha
  refine keyed_iff.1 ⟨?_, ?_, fun e s he => ⟨trivial, fun k hk => ?_⟩⟩
  · refine h₁.readers.within_of_noEmpty h₂.readers hg₁.readers (fun n r hr => ?_) hkeyed.readers
    exact (hg₂.inverse r n).trans (hedges r n ((hg₁.inverse r n).symm.trans hr))
  · exact h₁.reads.within_of_noEmpty h₂.reads hg₁.reads hedges hkeyed.reads
  · refine (h₁.keys.within h₂.keys (fun e k hmentions => ?_) hkeyed.keys he hk).2
    -- a node is listed under its entity exactly when it has an edge
    have hstored := ((hg₁.listed ⟨e, k⟩).2 hmentions).resolve_right (by simp)
    rcases exists_edge_of_isStored hg₁.toPaired hstored with ⟨a, ha⟩ | ⟨b, hb⟩
    · exact (hg₂.mentions_of_edge (hedges _ _ ha)).2
    · exact (hg₂.mentions_of_edge (hedges _ _ hb)).1

end Thinned

end Graph

namespace Model

open Recalc.Action

def Thinned (m m' : Model) : Prop := m.graph.Thinned m'.graph

instance : Frame Thinned where
  refl m := .refl m.graph
  trans h h' := Graph.Thinned.trans h h'

theorem removalFrame_thinned : RemovalFrame Thinned where
  frame := inferInstance
  forget m n := by
    have hdrop : Thinned m { m with graph := m.graph.dropReads n } :=
      (Graph.Thinned.outlasts m.graph).dropReads (.refl m.graph) n
    unfold forget
    split
    · exact hdrop
    · exact hdrop
  prune m e := (Graph.Thinned.outlasts m.graph).prune (.refl m.graph) e
  eraseSpace m _ := .refl m.graph
  eraseCells m _ := .refl m.graph
  eraseRef m _ := .refl m.graph
  eraseInstance m _ _ := .refl m.graph

end Model

end Recalc
