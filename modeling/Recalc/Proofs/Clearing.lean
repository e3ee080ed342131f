import Recalc.Proofs.TrackedRequests

set_option autoImplicit false

/-!
# Invalidation is exact

Invalidating a node forgets the node and everything that rests on it, by the edges there were before
it, and nothing else. The walk takes edges away while it follows them; it ends on every graph, and a
second one finds nothing to do.
-/

namespace Recalc

open Std Recalc.Model

/-! ## Forgetting what is not there -/

theorem Table.erase_of_contains_eq_false {κ ν : Type} [Ord κ] [TransOrd κ] {t : Table κ ν} {k : κ}
    (h : t.contains k = false) : t.erase k = t := by
  have habsent : t.tree[k]? = none := by
    have := t.contains_eq_isSome k
    rw [h, eq_comm, Option.isSome_eq_false_iff, Option.isNone_iff_eq_none] at this
    exact this
  have htree : t.tree.erase k = t.tree := by
    refine ExtTreeMap.ext_getKey_getElem? (fun j _ _ => ExtTreeMap.getKey_erase) fun j => ?_
    rw [ExtTreeMap.getElem?_erase]
    split
    next hkj => rw [← ExtTreeMap.getElem?_congr hkj, habsent]
    next => rfl
  rw [Table.erase, htree]

theorem Pool.modify_eq_self {family : Family} {α : Type} {a : Pool family α} {id : Id family}
    {f : α → α} (h : ∀ v, a.get? id = some v → f v = v) : a.modify id f = a := by
  unfold modify
  split
  next v hv =>
    have hslot := get?_eq_some hv
    have hslots : a.slots.setIfInBounds id.index.toNat ⟨id.generation, some v⟩ = a.slots := by
      refine Array.ext_getElem? fun j => ?_
      rw [Array.getElem?_setIfInBounds]
      split
      next hj => rw [if_pos (Array.getElem?_eq_some_iff.1 hslot).1, ← hj, hslot]
      next => rfl
    rw [h v hv, hslots]
  next => rfl

namespace Model

variable {m : Model} {n : Node}

/-- A node without a computed value that read nothing has nothing to forget. -/
theorem forget_eq_self (hg : m.graph.Indexed) (hvalue : m.isComputed n = false)
    (hreads : ∀ b, m.graph.hasEdge n b = false) : m.forget n = m := by
  have hgraph : m.graph.dropReads n = m.graph := by
    unfold Graph.dropReads
    split
    next => rfl
    next s hs =>
      obtain ⟨b, hb⟩ := hg.reads n s hs
      have hedge : m.graph.hasEdge n b = s.contains b := by
        rw [Graph.hasEdge, Graph.setAt, hs]
        rfl
      rw [hreads b, hb] at hedge
      contradiction
  unfold forget
  rw [hgraph]
  split
  next id hid =>
    have hcell : m.cells.modify id (fun c => { c with contents := c.contents.evict n.key }) =
        m.cells := by
      refine Pool.modify_eq_self fun c hc => ?_
      have hnone : c.contents.values.contains n.key = false := by
        unfold isComputed at hvalue
        rw [hid] at hvalue
        simp only [hc, Option.any_some] at hvalue
        exact hvalue
      rw [Contents.evict, Table.erase_of_contains_eq_false hnone]
    show { m with cells := _ } = m
    rw [hcell]
  next => rfl

/-- A node that no edge touches, without a value, is invalidated for nothing. -/
theorem invalidate_eq_self (hg : m.graph.Indexed) (hvalue : m.isComputed n = false)
    (hfree : m.Untouched n) : m.invalidate n = (0, m) := by
  have hreaders : m.graph.readersOf n = [] := by
    refine List.eq_nil_iff_forall_not_mem.2 fun a ha => ?_
    have hedge := contains_of_mem ha
    rw [Graph.mem_readersOf hg, (hfree a).1] at hedge
    contradiction
  have hwaiting : [n].dropWhile (Table.empty : KeySet Node).contains = [n] := by
    rw [List.dropWhile_cons_of_neg (by rw [KeySet.contains_empty]; simp)]
  have hfirst : (Sweep.start m n).step = some ⟨[], KeySet.add .empty n, 0, m⟩ := by
    unfold Sweep.step Sweep.start
    simp only [hwaiting, hreaders, hvalue, forget_eq_self hg hvalue fun b => (hfree b).2]
    rfl
  unfold invalidate
  rw [Sweep.run, hfirst]
  dsimp only
  rw [Sweep.run_of_step_eq_none rfl]

namespace Clears

variable {R : Node → Prop} {r : Nat × Model}

theorem indexed (h : Clears R m r) (hg : m.graph.Indexed) : r.2.graph.Indexed := by
  obtain ⟨gone, -, -, hloses, -⟩ := h
  exact (hloses.graph hg).1

/-- The edges that stay are those of readers that stay. -/
theorem hasEdge_iff (h : Clears R m r) (hg : m.graph.Indexed) (a b : Node) :
    r.2.graph.hasEdge a b = true ↔ m.graph.hasEdge a b = true ∧ ¬ R a := by
  obtain ⟨gone, -, hgone, hloses, -⟩ := h
  rw [(hloses.graph hg).2, Bool.and_eq_true, Bool.not_eq_true', ← hgone, Bool.not_eq_true, and_comm]

theorem isComputed_iff (h : Clears R m r) (a : Node) :
    r.2.isComputed a = true ↔ m.isComputed a = true ∧ ¬ R a := by
  obtain ⟨gone, -, hgone, hloses, -⟩ := h
  rw [hloses.isComputed, Bool.and_eq_true, Bool.not_eq_true', ← hgone, Bool.not_eq_true, and_comm]

/-- A node that stays, when all readers of what goes go too, rests on what it rested on. -/
theorem restsOn_iff (h : Clears R m r) (hg : m.graph.Indexed)
    (closed : ∀ a b, m.graph.hasEdge a b = true → R b → R a) {a : Node} (ha : ¬ R a) :
    r.2.RestsOn a n ↔ m.RestsOn a n := by
  refine ⟨fun hrest => hrest.mono fun x y hxy => ((h.hasEdge_iff hg x y).1 hxy).1, fun hrest => ?_⟩
  induction hrest with
  | self hab => exact .self hab
  | read hedge _ ih =>
    exact .read ((h.hasEdge_iff hg _ _).2 ⟨hedge, ha⟩) (ih fun hb => ha (closed _ _ hedge hb))

end Clears

/-- A node that was invalidated has no value and no edges. -/
theorem untouched_invalidate (hg : m.graph.Indexed) (n : Node) :
    (m.invalidate n).2.isComputed n = false ∧ (m.invalidate n).2.Untouched n := by
  have hclears := clears_invalidate hg n
  have hself : m.RestsOn n n := .self BEq.rfl
  refine ⟨Bool.eq_false_iff.2 fun hn => ((hclears.isComputed_iff n).1 hn).2 hself, fun a => ?_⟩
  constructor <;> refine Bool.eq_false_iff.2 fun hedge => ?_
  · obtain ⟨hold, hkept⟩ := (hclears.hasEdge_iff hg a n).1 hedge
    exact hkept (.read hold hself)
  · exact ((hclears.hasEdge_iff hg n a).1 hedge).2 hself

theorem invalidate_invalidate (hg : m.graph.Indexed) (n : Node) :
    (m.invalidate n).2.invalidate n = (0, (m.invalidate n).2) :=
  have ⟨hvalue, hfree⟩ := untouched_invalidate hg n
  invalidate_eq_self ((clears_invalidate hg n).indexed hg) hvalue hfree

/-- Invalidating nodes one after the other clears what rested on any of them at the start. -/
theorem clears_invalidateAll (hg : m.graph.Indexed) (nodes : List Node) :
    Clears (fun a => ∃ b ∈ nodes, m.RestsOn a b) m (m.invalidateAll nodes) := by
  -- the nodes before the rest of the list are cleared with their readers
  have key : ∀ (nodes : List Node) (R : Node → Prop) (r : Nat × Model), Clears R m r →
      (∀ a b, m.graph.hasEdge a b = true → R b → R a) →
      Clears (fun a => R a ∨ ∃ b ∈ nodes, m.RestsOn a b) m
        (nodes.foldl (fun r n => (r.1 + (r.2.invalidate n).1, (r.2.invalidate n).2)) r) := by
    intro nodes
    induction nodes with
    | nil => exact fun R r h _ => h.congr fun a => by simp
    | cons n nodes ih =>
      intro R r h closed
      have hnext : Clears (fun a => R a ∨ m.RestsOn a n) m
          (r.1 + (r.2.invalidate n).1, (r.2.invalidate n).2) :=
        (h.trans (clears_invalidate (h.indexed hg) n)).congr fun a =>
          or_congr_right' fun ha => h.restsOn_iff hg closed ha
      refine (ih _ _ hnext fun a b hab hb => ?_).congr fun a => ?_
      · exact hb.imp (closed a b hab) (.read hab)
      · rw [or_assoc, List.exists_mem_cons_iff]
  refine (key nodes _ _ (Clears.refl m) fun _ _ _ h => h).congr fun a => ?_
  rw [false_or]

/-- Invalidating a cells object clears what rested on any node of it: computed, with an input, or
with an edge. -/
theorem clears_invalidateCells (hg : m.graph.Indexed) (id : CellId) :
    Clears (fun a => ∃ b, m.IsUsed id b ∧ m.RestsOn a b) m (m.invalidateCells id) := by
  refine (clears_invalidateAll hg (m.nodesOfCells id)).congr fun a => ?_
  constructor
  · rintro ⟨b, hb, hab⟩
    exact ⟨b, isUsed_of_contains (contains_of_mem hb), hab⟩
  · rintro ⟨b, hb, hab⟩
    obtain ⟨c, hc, hbc⟩ := List.contains_iff_exists_mem_beq.1 (contains_nodesOfCells hb)
    exact ⟨c, hc, hab.congr_right hbc⟩

/-- Further steps than there are readers find nothing to do. -/
theorem invalidate_eq_run (hg : m.graph.Indexed) (n : Node) {fuel : Nat}
    (enough : m.graph.reads.size < fuel) : ((Sweep.start m n).run fuel).step = none ∧
      m.invalidate n =
        (((Sweep.start m n).run fuel).count, ((Sweep.start m n).run fuel).model) := by
  obtain ⟨more, rfl⟩ := Nat.exists_eq_add_of_le (Nat.succ_le_of_lt enough)
  have hend := Sweep.ends_of_indexed hg n
  rw [Sweep.run_add, Sweep.run_of_step_eq_none hend]
  exact ⟨hend, rfl⟩

/-- Exactly the nodes of `R` are cleared, also in the edges, whose indices agree afterwards. -/
structure ClearsOut (R : Node → Prop) (m : Model) (r : Nat × Model) : Prop where
  clears : Clears R m r
  indexed : r.2.graph.Indexed
  edges : ∀ a b, r.2.graph.hasEdge a b = true ↔ m.graph.hasEdge a b = true ∧ ¬ R a

theorem Clears.out {R : Node → Prop} {r : Nat × Model} (h : Clears R m r) (hg : m.graph.Indexed) :
    ClearsOut R m r := ⟨h, h.indexed hg, h.hasEdge_iff hg⟩

/-- Invalidation in a model ends, forgets exactly what rests on the node by the edges there were,
counts the values that go, and does nothing when it is repeated. -/
structure InvalidationSound (m : Model) : Prop where
  ends : ∀ n fuel, m.graph.reads.size < fuel → ((Sweep.start m n).run fuel).step = none ∧
    m.invalidate n = (((Sweep.start m n).run fuel).count, ((Sweep.start m n).run fuel).model)
  node : ∀ n, ClearsOut (m.RestsOn · n) m (m.invalidate n)
  again : ∀ n, (m.invalidate n).2.invalidate n = (0, (m.invalidate n).2)
  cells : ∀ id, ClearsOut (fun a => ∃ b, m.IsUsed id b ∧ m.RestsOn a b) m (m.invalidateCells id)

end Model

theorem Reachable.invalidationSound {m : Model} (h : Reachable m) : m.InvalidationSound := by
  have hg := h.calm.indexed
  exact ⟨fun n _ enough => invalidate_eq_run hg n enough, fun n => (clears_invalidate hg n).out hg,
    invalidate_invalidate hg, fun id => (clears_invalidateCells hg id).out hg⟩

/-- Invalidating the price takes the total that read it along. -/
theorem shop_invalidationSound : ∃ m, Request.runAll 9 [] shopRequests Shop.start = some m ∧
    m.graph.size = 1 ∧ (m.invalidate (.ref ⟨0, 0⟩)).1 = 1 ∧ m.InvalidationSound := by
  have hrun : ((Request.runAll 9 [] shopRequests Shop.start).any fun m =>
      m.graph.size == 1 && (m.invalidate (.ref ⟨0, 0⟩)).1 == 1) = true := by decide +kernel
  obtain ⟨m, hm, hfacts⟩ := (Option.any_eq_true _ _).1 hrun
  rw [Bool.and_eq_true, beq_iff_eq, beq_iff_eq] at hfacts
  exact ⟨m, hm, hfacts.1, hfacts.2,
    Reachable.invalidationSound ⟨_, .new "doc" {}, Request.becomes_of_runAll shopRequests hm⟩⟩

end Recalc
