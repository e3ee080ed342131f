import Recalc.Proofs.Keeping
import Recalc.Proofs.Levels

set_option autoImplicit false

/-!
# Reclamation leaves nothing to reclaim

Every round of a reclamation destroys the root of an instance that is still there, so there are
fewer spaces after it, and there are never more rounds to come than spaces. The last one finds
nothing that could go: a handle keeps each instance that is left, or somebody has read it.
-/

namespace Recalc.Model

open Recalc.Action

variable {m : Model} {held : List Handle}

/-! ## Rounds -/

/-- A space that is destroyed is not there any more, and no other one comes. -/
theorem population_destroySpace {id : SpaceId} (hlive : m.spaces.contains id = true) :
    (m.destroySpace id).spaces.population < m.spaces.population := by
  obtain ⟨s, hs⟩ := Pool.contains_iff.1 hlive
  have hless := Pool.population_erase hs
  obtain ⟨bound, hbound⟩ : ∃ bound, bound = (m.spaces.erase id).population := ⟨_, rfl⟩
  suffices h : AtMost bound (m.destroySpace id) by
    have hle : (m.destroySpace id).spaces.population ≤ bound := h
    omega
  unfold destroySpace destroyTree
  rw [(Pool.remove?_eq_some _ _).2 ⟨hs, rfl⟩]
  dsimp only
  have herased : AtMost bound { m with spaces := m.spaces.erase id } := Nat.le_of_eq hbound.symm
  have hinstances := List.foldlRecOn (motive := AtMost bound) s.instances.entries
    (fun m' (e : Key × SpaceId) => destroyTree m.spaces.capacity (m'.invalidate (.item id e.1)).2 e.2)
    herased fun m' h e _ =>
      (h.of_spaces (forgetsAll_invalidate m' _).forgetsSome.alike.spaces).destroyTree _ e.2
  have hpruned := hinstances.of_spaces (alike_prune _ (.space id)).spaces
  have hcells := List.foldlRecOn (motive := AtMost bound) s.cells.values destroyCells hpruned
    fun m' h c _ => h.of_spaces (spaces_destroyCells m' c)
  have hrefs := List.foldlRecOn (motive := AtMost bound) s.refs.values destroyReference hcells
    fun m' h r _ => h.of_spaces (spaces_destroyReference m' r)
  exact List.foldlRecOn (motive := AtMost bound) s.spaces.values _ hrefs
    fun m' h c _ => h.destroyTree _ c

theorem population_removeInstance_le (m : Model) (owner : SpaceId) (key : Key) :
    (m.removeInstance owner key).2.spaces.population ≤ m.spaces.population := by
  unfold removeInstance
  split
  next => exact Nat.le_refl _
  next item _ =>
    have halike := (forgetsAll_invalidate (m.modifySpace owner fun s =>
      { s with instances := s.instances.erase key }) (.item owner key)).forgetsSome.alike
    have hcut : AtMost m.spaces.population (m.modifySpace owner fun s =>
        { s with instances := s.instances.erase key }) :=
      Nat.le_of_eq (Pool.population_modify m.spaces owner _)
    exact (hcut.of_spaces halike.spaces).destroyTree _ item

/-- An instance that is removed is a space less. -/
theorem population_removeInstance_lt {owner item : SpaceId} {key : Key}
    (hitem : (m.spaces.get? owner).bind (·.instances.get? key) = some item)
    (hlive : m.spaces.contains item = true) :
    (m.removeInstance owner key).2.spaces.population < m.spaces.population := by
  unfold removeInstance
  rw [hitem]
  have halike := (forgetsAll_invalidate (m.modifySpace owner fun s =>
    { s with instances := s.instances.erase key }) (.item owner key)).forgetsSome.alike
  refine Nat.lt_of_lt_of_eq (population_destroySpace ?_) ?_
  · rw [halike.spaces]
    exact (Pool.contains_modify m.spaces owner _ item).trans hlive
  · rw [halike.spaces]
    exact Pool.population_modify m.spaces owner _

/-- A round that begins with an instance that can go leaves fewer spaces. -/
theorem Owned.population_round (hm : m.Owned) (room : m.Addressable) {i : SpaceId × Key}
    {rest : List (SpaceId × Key)} (hfree : i ∈ m.freeInstances held) :
    (m.removeInstances (i :: rest)).2.spaces.population < m.spaces.population := by
  obtain ⟨item, hitem, -⟩ := hm.of_mem_freeInstances room hfree
  obtain ⟨s, hs, hlisted⟩ := Option.bind_eq_some_iff.1 hitem
  obtain ⟨t, -, -, -, ht, -⟩ := hm.item_of_listed hs hlisted
  have hfirst := population_removeInstance_lt hitem (Pool.contains_iff.2 ⟨t, ht⟩)
  have hrest : ∀ (dead : List (SpaceId × Key)) (r : Nat × Model),
      (dead.foldl (fun r i => (if (r.2.removeInstance i.1 i.2).1 then r.1 + 1 else r.1,
        (r.2.removeInstance i.1 i.2).2)) r).2.spaces.population ≤ r.2.spaces.population := by
    intro dead
    induction dead with
    | nil => exact fun r => Nat.le_refl _
    | cons i dead ih =>
      exact fun r => Nat.le_trans (ih _) (population_removeInstance_le r.2 i.1 i.2)
  exact Nat.lt_of_le_of_lt (hrest rest _) hfirst

/-- After a reclamation no instance can go. -/
theorem Owned.freeInstances_reclaim (hm : m.Owned) (room : m.Addressable) (held : List Handle) :
    (m.reclaim held).2.freeInstances held = [] := by
  have hremove : ∀ (dead : List (SpaceId × Key)) (r : Nat × Model),
      Under Owned Drops r.2 (dead.foldl (fun r i => (if (r.2.removeInstance i.1 i.2).1
        then r.1 + 1 else r.1, (r.2.removeInstance i.1 i.2).2)) r).2 := by
    intro dead
    induction dead with
    | nil => exact fun r => Frame.refl r.2
    | cons i dead ih => exact fun r => Frame.trans (under_removeInstance r.2 i.1 i.2) (ih (_, _))
  have hrounds : ∀ fuel count (m : Model), m.Owned → m.Addressable → m.spaces.population < fuel →
      (reclaimRounds held fuel count m).2.freeInstances held = [] := by
    intro fuel
    induction fuel with
    | zero => exact fun _ _ _ _ h => absurd h (Nat.not_lt_zero _)
    | succ fuel ih =>
      intro count m hm room hfuel
      unfold reclaimRounds
      cases hdead : m.freeInstances held with
      | nil => exact hdead
      | cons i rest =>
        obtain ⟨howned, hdrops⟩ := hremove (i :: rest) (0, m) hm
        have hless : (m.removeInstances (i :: rest)).2.spaces.population < m.spaces.population :=
          hm.population_round room (hdead ▸ List.mem_cons_self)
        exact ih _ _ howned (hdrops.addressable.2 room)
          (Nat.lt_of_lt_of_le hless (Nat.le_of_lt_succ hfuel))
  exact hrounds _ _ m hm room (Nat.lt_succ_of_le (Pool.population_le_capacity m.spaces))

/-! ## What is left -/

/-- What keeps an instance alive when the host holds the given handles. -/
inductive Pins (m : Model) (held : List Handle) (i : SpaceId) : Prop
  | held {h : Handle} : h ∈ held → i ∈ h.pins → Pins m held i
  | cells {id : CellId} {c : Cells} {h : Handle} : m.cells.get? id = some c → h ∈ c.handles →
      i ∈ h.pins → Pins m held i
  | ref {id : RefId} {r : Reference} {h : Handle} : m.refs.get? id = some r →
      h ∈ r.value.handles → i ∈ h.pins → Pins m held i
  | space {id : SpaceId} {s : Space} {h : Handle} : m.spaces.get? id = some s → h ∈ s.handles →
      i ∈ h.pins → Pins m held i
  | graph {h : Handle} : h ∈ m.graph.handles → i ∈ h.pins → Pins m held i
  | stack {n : Node} {h : Handle} : n ∈ m.stack.nodes → h ∈ n.key.handles → i ∈ h.pins →
      Pins m held i
  | inside {id : SpaceId} {s : Space} : m.spaces.get? id = some s → i ∈ s.enclosing →
      Pins m held i

theorem mem_pinned_iff (room : m.Addressable) {i : SpaceId} :
    i ∈ m.pinned held ↔ m.Pins held i := by
  constructor
  · intro h
    unfold pinned handles at h
    simp only [List.mem_append, List.mem_flatMap, Prod.exists, Pool.mem_entries room.1,
      Pool.mem_entries room.2, Pool.mem_entries room.3] at h
    rcases h with ⟨a, (ha | ((((⟨id, c, hc, ha⟩ | ⟨id, r, hr, ha⟩) | ⟨id, s, hs, ha⟩) | ha) |
        ⟨n, hn, ha⟩)), hi⟩ | ⟨id, s, hs, hi⟩
    · exact .held ha hi
    · exact .cells hc ha hi
    · exact .ref hr ha hi
    · exact .space hs ha hi
    · exact .graph ha hi
    · exact .stack hn ha hi
    · exact .inside hs hi
  · intro h
    unfold pinned handles
    simp only [List.mem_append, List.mem_flatMap, Prod.exists, Pool.mem_entries room.1,
      Pool.mem_entries room.2, Pool.mem_entries room.3]
    cases h with
    | held ha hi => exact .inl ⟨_, .inl ha, hi⟩
    | cells hc ha hi => exact .inl ⟨_, .inr (.inl (.inl (.inl (.inl ⟨_, _, hc, ha⟩)))), hi⟩
    | ref hr ha hi => exact .inl ⟨_, .inr (.inl (.inl (.inl (.inr ⟨_, _, hr, ha⟩)))), hi⟩
    | space hs ha hi => exact .inl ⟨_, .inr (.inl (.inl (.inr ⟨_, _, hs, ha⟩))), hi⟩
    | graph ha hi => exact .inl ⟨_, .inr (.inl (.inr ha)), hi⟩
    | stack hn ha hi => exact .inl ⟨_, .inr (.inr ⟨_, hn, ha⟩), hi⟩
    | inside hs hi => exact .inr ⟨_, _, hs, hi⟩

theorem hasReaders_iff (hg : m.graph.Indexed) {n : Node} :
    m.graph.hasReaders n = true ↔ ∃ a, m.graph.hasEdge a n = true := by
  unfold Graph.hasReaders
  constructor
  · intro h
    rw [Table.contains_eq_isSome] at h
    obtain ⟨s, hs⟩ := Option.isSome_iff_exists.1 h
    obtain ⟨a, ha⟩ := hg.readers n s hs
    refine ⟨a, (hg.inverse a n).symm.trans ?_⟩
    rwa [Graph.hasReader, Graph.setAt, hs]
  · rintro ⟨a, ha⟩
    exact Graph.contains_of_contains_setAt ((hg.inverse a n).trans ha)

/-- Where no instance can go, each one is kept by a handle or was read. -/
theorem kept_of_freeInstances_nil (room : m.Addressable) (hg : m.graph.Indexed)
    (hnil : m.freeInstances held = []) {owner c item : SpaceId} {s t : Space} {key args : Key}
    {enclosing : List SpaceId} (hs : m.spaces.get? owner = some s)
    (hitem : s.instances.get? key = some item) (ht : m.spaces.get? item = some t)
    (hk : t.kind = .item owner c args enclosing) :
    m.Pins held item ∨ ∃ a, m.graph.hasEdge a (.item owner key) = true := by
  obtain ⟨key', hentry, hkey⟩ := Table.mem_entries_of_get? hitem
  have hall : ((owner, key'), item) ∈ m.allInstances :=
    List.mem_flatMap.2 ⟨(owner, s), (Pool.mem_entries room.1).2 hs,
      List.mem_map.2 ⟨(key', item), hentry, rfl⟩⟩
  have hbusy : m.isFree (m.pinned held) owner key' item = false := by
    refine Bool.eq_false_iff.2 fun hfree => ?_
    have hmem : (owner, key') ∈ m.freeInstances held := by
      unfold freeInstances
      split
      next hnone =>
        rw [hnone] at hall
        cases hall
      next => exact List.mem_map.2 ⟨_, List.mem_filter.2 ⟨hall, hfree⟩, rfl⟩
    rw [hnil] at hmem
    cases hmem
  unfold isFree at hbusy
  rw [ht, Option.map_some, hk] at hbusy
  simp only [Bool.and_eq_false_iff, Bool.not_eq_false', List.contains_eq_mem,
    decide_eq_true_eq] at hbusy
  refine hbusy.imp (mem_pinned_iff room).1 fun hread => ?_
  obtain ⟨a, ha⟩ := (hasReaders_iff hg).1 hread
  refine ⟨a, (m.graph.hasEdge_congr BEq.rfl ?_).symm.trans ha⟩
  rw [Graph.node_beq_iff]
  show ((Entity.space owner == Entity.space owner) && (key' == key)) = true
  rw [BEq.rfl, hkey]
  rfl

end Recalc.Model
