import Recalc.Proofs.Culling
import Recalc.Proofs.Sustaining

set_option autoImplicit false

/-!
# What reclamation spares

An instance that sustains what is to be kept cannot go: as long as everything to be kept is there, a
handle pins it or a read of it is recorded. So a reclamation takes other instances only, and those
lie around nothing that is to be kept.
-/

namespace Recalc.Model

open Recalc.Action

variable {issue : SpaceId → List SpaceId} {held held' : List Handle} {m m' l : Model} {x : Node}

/-! ## Stored handles pin -/

section Pinning

variable (hl : l.Stocked issue) {i : SpaceId} {a : Handle}
include hl

theorem Stocked.pins_cells {id : CellId} {c : Cells} (hc : l.cells.get? id = some c)
    (ha : a ∈ c.handles) (hi : i ∈ issue a.id) : l.Pins held i :=
  .cells hc ha (by rwa [hl.cells id c hc a ha])

theorem Stocked.pins_ref {id : RefId} {r : Reference} (hr : l.refs.get? id = some r)
    (ha : a ∈ r.value.handles) (hi : i ∈ issue a.id) : l.Pins held i :=
  .ref hr ha (by rwa [hl.refs id r hr a ha])

theorem Stocked.pins_space {id : SpaceId} {s : Space} (hs : l.spaces.get? id = some s)
    (ha : a ∈ s.handles) (hi : i ∈ issue a.id) : l.Pins held i :=
  .space hs ha (by rwa [hl.spaces id s hs a ha])

/-- A handle in the key under which something is stored pins, and so does its like. -/
theorem Stocked.pins_key {id : CellId} {c : Cells} {key : Key} {v : Value}
    (hc : l.cells.get? id = some c) (hv : c.contents.get? key = some v) (ha : a ∈ key.handles)
    (hi : i ∈ issue a.id) : l.Pins held i := by
  obtain ⟨j, hentry, hj⟩ : ∃ j, (j, v) ∈ c.contents.values.entries ++ c.contents.inputs.entries ∧
      (j == key) = true := by
    rcases Option.or_eq_some_iff.1 hv with hv | ⟨-, hv⟩
    · obtain ⟨j, hentry, hj⟩ := Table.mem_entries_of_get? hv
      exact ⟨j, List.mem_append_right _ hentry, hj⟩
    · obtain ⟨j, hentry, hj⟩ := Table.mem_entries_of_get? hv
      exact ⟨j, List.mem_append_left _ hentry, hj⟩
  obtain ⟨b, hb, hid⟩ := Key.exists_handle_of_beq (BEq.symm hj) ha
  refine hl.pins_cells hc (a := b) (List.mem_append_right _ ?_) (by rwa [hid])
  exact List.mem_flatMap.2 ⟨_, hentry, List.mem_append_left _ hb⟩

/-- A handle in the key of an instance pins, and so does its like. -/
theorem Stocked.pins_itemKey {id item : SpaceId} {s : Space} {key : Key}
    (hs : l.spaces.get? id = some s) (hitem : s.instances.get? key = some item)
    (ha : a ∈ key.handles) (hi : i ∈ issue a.id) : l.Pins held i := by
  obtain ⟨j, hentry, hj⟩ := Table.mem_entries_of_get? hitem
  obtain ⟨b, hb, hid⟩ := Key.exists_handle_of_beq (BEq.symm hj) ha
  refine hl.pins_space hs (a := b) (List.mem_append_left _ (List.mem_append_right _ ?_))
    (by rwa [hid])
  exact List.mem_flatMap.2 ⟨j, Table.mem_keys_iff.2 ⟨item, hentry⟩, hb⟩

theorem Stocked.pins_edge {n n' : Node} (hedge : l.graph.hasEdge n n' = true)
    (ha : a ∈ n.key.handles ∨ a ∈ n'.key.handles) (hi : i ∈ issue a.id) : l.Pins held i := by
  obtain ⟨b, hb, hid⟩ := Graph.exists_handle_of_edge hedge ha
  refine .graph hb ?_
  rw [Graph.keyed_iff.1 hl.graph b hb, hid]
  exact hi

end Pinning

/-! ## The model while instances go -/

structure Sheltered (issue : SpaceId → List SpaceId) (m m' : Model) (x : Node) (l : Model) :
    Prop where
  drops : Drops m' l
  spaces : ∀ id, m'.spaces.contains id = true → Safe issue m m' x id → l.spaces.contains id = true

structure Spared (issue : SpaceId → List SpaceId) (m m' : Model) (x : Node) (l : Model) :
    Prop extends Sheltered issue m m' x l where
  culls : Culls m' l
  indexed : l.graph.Indexed
  edges : ∀ a b, l.graph.hasEdge a b = true → m'.graph.hasEdge a b = true
  values : ∀ a, Kept m m' x a → m'.isComputed a = true → l.isComputed a = true
  reads : ∀ a b, Kept m m' x a → m'.graph.hasEdge a b = true → l.graph.hasEdge a b = true

/-- What is left has its home where it had it. -/
theorem Drops.home (h : Drops m l) {e : Entity} {a : Address} (ha : l.home? e = some a) :
    m.home? e = some a := by
  cases e with
  | cells id =>
    obtain ⟨c, hc, rfl⟩ := cells_of_home? ha
    obtain ⟨d, hd, hbare⟩ := h.cells id c hc
    rw [home?_cells hd, Cells.home, Cells.home, (Cells.mk.inj hbare).1, (Cells.mk.inj hbare).2.1]
  | space id =>
    obtain ⟨s, hs, rfl⟩ := space_of_home? ha
    obtain ⟨t, ht, heq, -⟩ := h.space id s hs
    rw [home?_space ht, heq]
    rfl
  | ref id =>
    obtain ⟨r, hr, rfl⟩ := ref_of_home? ha
    exact home?_ref (h.refs id r hr)

theorem Drops.inside (h : Drops m l) {id : SpaceId} {e : Entity} (hinside : l.Inside id e) :
    m.Inside id e := by
  induction hinside with
  | self => exact .self
  | member hhome hp _ ih => exact .member (h.home hhome) hp ih

section Sheltering

variable (hc : Computes issue held m m' x) (hl : l.Owned) (hshelter : Sheltered issue m m' x l)
include hshelter

theorem Sheltered.space {id : SpaceId} {s : Space} (hs : m'.spaces.get? id = some s)
    (hsafe : Safe issue m m' x id) :
    ∃ s', l.spaces.get? id = some s' ∧ s' = { s with instances := s'.instances } := by
  obtain ⟨s', hs'⟩ := Pool.contains_iff.1 (hshelter.spaces id (Pool.contains_iff.2 ⟨s, hs⟩) hsafe)
  obtain ⟨t, ht, heq, -⟩ := hshelter.drops.space id s' hs'
  cases hs.symm.trans ht
  exact ⟨s', hs', heq⟩

include hc

/-- An instance that sustains is safe itself. -/
theorem Sheltered.item {i owner c : SpaceId} {t : Space} {key : Key} {around : List SpaceId}
    (hi : Sustained issue m m' x i) (ht : m'.spaces.get? i = some t)
    (hk : t.kind = .item owner c key around) :
    ∃ t', l.spaces.get? i = some t' ∧ t' = { t with instances := t'.instances } := by
  refine hshelter.space ht fun j hj => ?_
  rw [← hc.after.issuing.pins i t ht, pinsOf_of_enclosing ht hk] at hj
  rcases List.mem_cons.1 hj with rfl | hj
  · exact hi
  · exact .around hi ht hk hj

include hl

/-- An instance that sustains stays listed. -/
theorem Sheltered.listed {p i : SpaceId} {s : Space} {key : Key} (hs : m'.spaces.get? p = some s)
    (hitem : s.instances.get? key = some i) (hi : Sustained issue m m' x i) :
    ∃ s', l.spaces.get? p = some s' ∧ s'.instances.get? key = some i := by
  obtain ⟨t, c, args, around, ht, hk, hkey⟩ := hc.after.faithful.owned.item_of_listed hs hitem
  obtain ⟨t', ht', heq⟩ := hshelter.item hc hi ht hk
  obtain ⟨s', hs', hlisted⟩ := hl.item_holder ht' (by rw [heq]; exact hk)
  exact ⟨s', hs', by rwa [← Table.get?_congr _ hkey]⟩

/-- Cells in a safe place stay. -/
theorem Sheltered.cells {id : CellId} {c : Cells} (hcell : m'.cells.get? id = some c)
    (hsafe : Safe issue m m' x c.space) : ∃ c', l.cells.get? id = some c' := by
  have hm := hc.after.faithful.owned
  obtain ⟨s, hs, -⟩ := hm.holder (home?_cells hcell) rfl
  obtain ⟨c', hcell', -⟩ := hshelter.drops.keepsCells hm hl hcell
    (hshelter.spaces c.space (Pool.contains_iff.2 ⟨s, hs⟩) hsafe)
  exact ⟨c', hcell'⟩

theorem Sheltered.refs (id : RefId) : l.refs.get? id = m'.refs.get? id :=
  hshelter.drops.keepsRefs hc.after.faithful.owned hl id

/-- What a kept node is about has not gone. -/
theorem Sheltered.not_gone {n : Node} (hn : Kept m m' x n) : ¬ l.Gone n := by
  intro hgone
  have hhoused := hc.housed hn
  cases he : n.entity with
  | cells id =>
    simp only [Gone, he] at hgone
    obtain ⟨c, -, hcell, -, hsafe⟩ := hhoused.cells id he
    obtain ⟨c', hcell'⟩ := hshelter.cells hc hl hcell hsafe
    cases hgone.symm.trans hcell'
  | space p =>
    simp only [Gone, he] at hgone
    obtain ⟨s, i, hs, hitem, hi⟩ := hhoused.item p he
    obtain ⟨s', hs', hlisted⟩ := hshelter.listed hc hl hs hitem hi
    cases (hgone s' hs').symm.trans hlisted
  | ref r =>
    simp only [Gone, he] at hgone
    obtain ⟨q, hq⟩ := Pool.contains_iff.1 (hhoused.ref r he)
    cases hgone.symm.trans ((hshelter.refs hc hl r).trans hq)

end Sheltering

section Sparing

variable (hc : Computes issue held m m' x) (hl : l.Owned) (hspared : Spared issue m m' x l)
include hc hl hspared

/-- Cells in a safe place stay with their formula, their inputs and what is to be kept. -/
theorem Spared.contents {id : CellId} {c : Cells} (hcell : m'.cells.get? id = some c)
    (hsafe : Safe issue m m' x c.space) :
    ∃ c', l.cells.get? id = some c' ∧ c'.formula = c.formula ∧
      ∀ key v, c.contents.get? key = some v →
        (c.contents.inputs.get? key = none → Kept m m' x (.cells id key)) →
          c'.contents.get? key = some v := by
  obtain ⟨c', hcell'⟩ := hspared.toSheltered.cells hc hl hcell hsafe
  obtain ⟨d, hd, hformula, hinputs, -⟩ := hspared.culls.cells id c' hcell'
  cases hcell.symm.trans hd
  refine ⟨c', hcell', hformula, fun key v hv hkept => ?_⟩
  unfold Contents.get? at hv ⊢
  rw [hinputs]
  rcases Option.or_eq_some_iff.1 hv with hv | ⟨hnone, hv⟩
  · rw [hv, Option.some_or]
  have hcomputed := Table.contains_of_get? hv
  have hleft := hspared.values (.cells id key) (hkept hnone)
    (isComputed_iff.2 ⟨id, c, rfl, hcell, hcomputed⟩)
  obtain ⟨other, d, he, hd, hleft⟩ := isComputed_iff.1 hleft
  cases he
  cases hcell'.symm.trans hd
  rw [hnone, Option.none_or]
  exact hspared.culls.value hcell hcell' hv hleft

/-- What is stored at a kept node is still stored. -/
theorem Spared.stored {z : Node} {id : CellId} {c : Cells} {v : Value} (hz : Kept m m' x z)
    (he : z.entity = .cells id) (hcell : m'.cells.get? id = some c)
    (hv : c.contents.get? z.key = some v) :
    ∃ c', l.cells.get? id = some c' ∧ c'.contents.get? z.key = some v := by
  obtain ⟨d, -, hd, -, hsafe⟩ := (hc.housed hz).cells id he
  cases hcell.symm.trans hd
  obtain ⟨c', hcell', -, hkeeps⟩ := hspared.contents hc hl hcell hsafe
  refine ⟨c', hcell', hkeeps z.key v hv fun _ => ?_⟩
  rwa [Node.cells, ← he]

omit hl in
theorem Spared.stocked : l.Stocked issue := hspared.culls.stocked hc.after.stocked

/-- What pinned an instance before the call pins it still. -/
theorem Spared.pins {i : SpaceId} (hheld : held ⊆ held') (h : m.Pins held i) :
    l.Pins held' i := by
  have hstocked := hspared.stocked hc
  cases h with
  | held ha hi => exact .held (hheld ha) hi
  | @cells id c a hcell ha hi =>
    rw [hc.before.stocked.cells id c hcell a ha] at hi
    obtain ⟨c₁, hcell₁, hext, hsafe⟩ := hc.cells_safe hcell
    obtain ⟨c', hcell', hformula, hkeeps⟩ := hspared.contents hc hl hcell₁ hsafe
    rcases List.mem_append.1 ha with ha | ha
    · refine hstocked.pins_cells hcell' (List.mem_append_left _ ?_) hi
      rwa [hformula, hext.formula]
    obtain ⟨⟨key, v⟩, hentry, ha⟩ := List.mem_flatMap.1 ha
    have hv : c.contents.get? key = some v := by
      unfold Contents.get?
      rcases List.mem_append.1 hentry with hentry | hentry
      · have hvalue := Table.get?_of_mem_entries hentry
        have hnone : c.contents.inputs.get? key = none := by
          refine Contents.inputs_eq_none_iff.2 (Bool.eq_false_iff.2 fun hinput => ?_)
          have hfree := hc.before.running.tracked.exclusive id c key hcell hinput
          rw [Contents.hasComputed, Table.contains_of_get? hvalue] at hfree
          contradiction
        rw [hnone, hvalue, Option.none_or]
      · rw [Table.get?_of_mem_entries hentry, Option.some_or]
    have hv' := hkeeps key v (hext.get? hv) fun hnone => by
      rw [hext.inputs] at hnone
      have hvalue : c.contents.values.get? key = some v := by
        unfold Contents.get? at hv
        rwa [hnone, Option.none_or] at hv
      exact kept_of_isComputed
        (isComputed_iff.2 ⟨id, c, rfl, hcell, Table.contains_of_get? hvalue⟩)
    rcases List.mem_append.1 ha with ha | ha
    · exact hstocked.pins_key hcell' hv' ha hi
    · refine hstocked.pins_cells hcell' (List.mem_append_right _ (handles_of_get? hv' ha)) hi
  | @ref id r a hr ha hi =>
    rw [hc.before.stocked.refs id r hr a ha] at hi
    have hr' : l.refs.get? id = some r := by
      rw [hspared.refs hc hl, hc.vouched.enriches.refs, hr]
    exact hstocked.pins_ref hr' ha hi
  | @space id s a hs ha hi =>
    rw [hc.before.stocked.spaces id s hs a ha] at hi
    obtain ⟨s₁, hs₁, hext⟩ := hc.vouched.enriches.spaces id s hs
    obtain ⟨s', hs', heq⟩ := hspared.space hs₁ (hc.before.safe hs)
    have hkind : s'.kind = s.kind := by rw [heq, ← hext.kind]
    have hsignature : s'.signature = s.signature := by rw [heq, hext.same]
    rcases List.mem_append.1 ha with ha | ha
    · rcases List.mem_append.1 ha with ha | ha
      · refine hstocked.pins_space hs'
          (List.mem_append_left _ (List.mem_append_left _ ?_)) hi
        rwa [hsignature]
      · obtain ⟨key, hkey, ha⟩ := List.mem_flatMap.1 ha
        obtain ⟨item, hentry⟩ := Table.mem_keys_iff.1 hkey
        have hitem := Table.get?_of_mem_entries hentry
        obtain ⟨t, -, -, -, ht, -⟩ := hc.before.faithful.owned.item_of_listed hs hitem
        obtain ⟨u, hu, hlisted⟩ := hspared.listed hc hl hs₁ (hext.instances _ _ hitem)
          (.there (Pool.contains_iff.2 ⟨t, ht⟩))
        exact hstocked.pins_itemKey hu hlisted ha hi
    · refine hstocked.pins_space hs' (List.mem_append_right _ ?_) hi
      rwa [hkind]
  | @graph a ha hi =>
    have hissued : a.pins = issue a.id := Graph.keyed_iff.1 hc.before.stocked.graph a ha
    rw [hissued] at hi
    -- whatever has a key in the graph is at an end of an edge, and that one is still there
    have hkeyed : m.graph.Keyed fun k => ∀ b ∈ k.handles, i ∈ issue b.id → l.Pins held' i := by
      refine hc.calm.indexed.keyed fun n n' hedge => ?_
      have hn : m.isComputed n = true := by
        refine (hc.calm.reader n n' hedge).resolve_right ?_
        rw [hc.calm.idle]
        exact Bool.false_ne_true
      have hleft := hspared.reads n n' (kept_of_isComputed hn)
        (hc.vouched.enriches.edges n n' hedge)
      exact ⟨fun b hb hj => hstocked.pins_edge hleft (.inl hb) hj,
        fun b hb hj => hstocked.pins_edge hleft (.inr hb) hj⟩
    exact Graph.keyed_iff.1 hkeyed a ha hi
  | stack hn ha hi =>
    rw [hc.calm.idle] at hn
    cases hn
  | @inside id s hs hi =>
    obtain ⟨s₁, hs₁, hext⟩ := hc.vouched.enriches.spaces id s hs
    obtain ⟨s', hs', heq⟩ := hspared.space hs₁ (hc.before.safe hs)
    refine .inside hs' ?_
    unfold Space.enclosing at hi ⊢
    rwa [heq, hext.kind]

/-- As long as all that is to be kept is there, what sustains it cannot go. -/
theorem Spared.not_free (hheld : held ⊆ held') {p i : SpaceId} {s : Space} {key : Key}
    (hs : m'.spaces.get? p = some s) (hitem : s.instances.get? key = some i)
    (hi : Sustained issue m m' x i) :
    l.Pins held' i ∨ ∃ a, l.graph.hasEdge a (.item p key) = true := by
  have hstocked := hspared.stocked hc
  obtain ⟨t, c, args, around, ht, hk, hkey⟩ := hc.after.faithful.owned.item_of_listed hs hitem
  have hitemKey : ∀ {k : Key}, (k == key) = true → (Node.item p k == .item p key) = true := by
    intro k hk
    rw [Graph.node_beq_iff]
    show ((Entity.space p == Entity.space p) && (k == key)) = true
    rw [BEq.rfl, hk]
    rfl
  cases hi with
  | there hlive =>
    -- it could not go before the call, and what kept it is still there
    obtain ⟨u, hu⟩ := Pool.contains_iff.1 hlive
    obtain ⟨u', hu', hext⟩ := hc.vouched.enriches.spaces i u hu
    cases ht.symm.trans hu'
    have hku : u.kind = .item p c args around := hext.kind.symm.trans hk
    obtain ⟨q, hq, hlisted⟩ := hc.before.faithful.owned.item_holder hu hku
    refine (kept_of_freeInstances_nil hc.before.issuing.room hc.calm.indexed hc.exhausted hq hlisted
      hu hku).imp (hspared.pins hc hl hheld) fun ⟨a, ha⟩ => ⟨a, ?_⟩
    have hcomputed : m.isComputed a = true := by
      refine (hc.calm.reader a _ ha).resolve_right ?_
      rw [hc.calm.idle]
      exact Bool.false_ne_true
    have hleft := hspared.reads a _ (kept_of_isComputed hcomputed)
      (hc.vouched.enriches.edges a _ ha)
    exact (l.graph.hasEdge_congr BEq.rfl (hitemKey hkey)).symm.trans hleft
  | key hz he hh hi =>
    obtain ⟨d, v, hd, hv, -⟩ := (hc.housed hz).cells _ he
    obtain ⟨d', hd', hv'⟩ := hspared.stored hc hl hz he hd hv
    exact .inl (hstocked.pins_key hd' hv' hh hi)
  | formula hz he hd hf hh hi =>
    obtain ⟨d, -, hd', -, hsafe⟩ := (hc.housed hz).cells _ he
    cases hd.symm.trans hd'
    obtain ⟨d', hd', hformula, -⟩ := hspared.contents hc hl hd hsafe
    refine .inl (hstocked.pins_cells hd' (List.mem_append_left _ ?_) hi)
    rwa [hformula, hf]
  | value hz hd hv hh hi =>
    obtain ⟨d', hd', hv'⟩ := hspared.stored hc hl hz rfl hd hv
    exact .inl (hstocked.pins_cells hd' (List.mem_append_right _ (handles_of_get? hv' hh)) hi)
  | ref hq hh hi => exact .inl (hstocked.pins_ref ((hspared.refs hc hl _).trans hq) hh hi)
  | @signature id u spec h _ hu hstatic hspec hh hi =>
    obtain ⟨u', hu', heq⟩ := hspared.drops.static' hu hstatic
    have hsignature : u'.signature = some spec := by rw [heq, ← hspec]
    refine .inl (hstocked.pins_space hu' ?_ hi)
    refine List.mem_append_left _ (List.mem_append_left _ ?_)
    rwa [hsignature]
  | @item z p' key' s' _ hz hread hs' hlisted =>
    obtain ⟨t', c', args', around', ht', hk', hkey'⟩ :=
      hc.after.faithful.owned.item_of_listed hs' hlisted
    cases ht.symm.trans ht'
    cases hk.symm.trans hk'
    have hkeys := BEq.trans (BEq.symm hkey') hkey
    refine .inr ⟨z, (l.graph.hasEdge_congr BEq.rfl (hitemKey hkeys)).symm.trans ?_⟩
    exact hspared.reads z _ hz hread
  | @args j owner' c' u args' around' _ _ hj hu hku hh hi =>
    obtain ⟨u', hu', heq⟩ := hspared.item hc hj hu hku
    have hkind : u'.kind = .item owner' c' args' around' := by rw [heq, ← hku]
    refine .inl (hstocked.pins_space hu' (List.mem_append_right _ ?_) hi)
    rwa [hkind]
  | @around j owner' c' u args' around' _ hj hu hku hi =>
    obtain ⟨u', hu', heq⟩ := hspared.item hc hj hu hku
    have hkind : u'.kind = .item owner' c' args' around' := by rw [heq, ← hku]
    refine .inl (.inside hu' ?_)
    unfold Space.enclosing
    rwa [hkind]

/-- The removal of an instance spares what is to be kept, unless it sustains it. -/
theorem Spared.removeInstance {p : SpaceId} {key : Key}
    (hout : ∀ i, (l.spaces.get? p).bind (·.instances.get? key) = some i →
      ¬ Sustained issue m m' x i) : Spared issue m m' x (l.removeInstance p key).2 := by
  obtain ⟨howned, hdropped⟩ := under_removeInstance l p key hl
  obtain ⟨hindexed, hbereaves⟩ := bereaves_removeInstance l p key hspared.indexed
  have hshelter : Sheltered issue m m' x (l.removeInstance p key).2 := by
    refine ⟨Frame.trans hspared.drops hdropped, fun id hid hsafe => ?_⟩
    obtain ⟨s, hs⟩ := Pool.contains_iff.1 (hspared.spaces id hid hsafe)
    cases hitem : (l.spaces.get? p).bind (·.instances.get? key) with
    | none =>
      unfold Model.removeInstance
      rw [hitem]
      exact Pool.contains_iff.2 ⟨s, hs⟩
    | some i =>
      refine hl.kept_removeInstance hitem hs fun hinside => hout i hitem (hsafe i ?_)
      -- the space lies in the instance, which is then one that it lies in
      obtain ⟨q, hq, hi⟩ := Option.bind_eq_some_iff.1 hitem
      obtain ⟨q', hq', -, hsub⟩ := hspared.drops.space p q hq
      obtain ⟨t, c, args, around, ht, hk, -⟩ :=
        hc.after.faithful.owned.item_of_listed hq' (hsub key i hi)
      obtain ⟨s', hs'⟩ := Pool.contains_iff.1 hid
      rw [← hc.after.issuing.pins id s' hs']
      refine hc.after.faithful.mem_pinsOf_of_inside ?_ (hspared.drops.inside hinside)
      rw [pinsOf_of_enclosing ht hk]
      exact List.mem_cons_self
  -- nothing is lost that rests on kept nodes only
  have hkept : ∀ {a b : Node}, Kept m m' x a → l.RestsOn a b →
      ¬ (l.removeInstance p key).2.Gone b := fun ha hrest =>
    hshelter.not_gone hc howned (ha.rests (hrest.mono hspared.edges))
  refine ⟨hshelter, Frame.trans hspared.culls (culls_removeInstance l p key), hindexed,
    fun a b hab => hspared.edges a b (hbereaves.costs.edges a b hab), fun a ha hcomputed => ?_,
    fun a b ha hab => ?_⟩
  · refine (hbereaves.costs.values a (hspared.values a ha hcomputed)).resolve_right ?_
    rintro ⟨b, hrest, hgone⟩
    exact hkept ha hrest hgone
  · refine (hbereaves.costs.reads a b (hspared.reads a b ha hab)).resolve_right ?_
    rintro ⟨c, hrest, hgone⟩
    exact hkept ha hrest hgone

end Sparing

/-- A reclamation spares what is to be kept. -/
theorem Computes.spared (hc : Computes issue held m m' x) (hheld : held ⊆ held') :
    Spared issue m m' x (m'.reclaim held').2 := by
  have hm := hc.after.faithful.owned
  refine hm.reclaim_keeps (Q := Spared issue m m' x) (fun l l₁ hl hspared hl₁ hdrops hspared₁ p key
    hfree => hspared₁.removeInstance hc hl₁ fun i hitem hi => ?_)
    ⟨⟨Frame.refl m', fun _ h _ => h⟩, Frame.refl m', hc.calm'.indexed, fun _ _ h => h,
      fun _ _ h => h, fun _ _ _ h => h⟩
  -- what was free at the beginning of the round is still listed under its key
  have room := hspared.drops.addressable.2 hc.after.issuing.room
  obtain ⟨j, hj, hunpinned, hunread⟩ := hl.of_mem_freeInstances room hfree
  obtain ⟨s₁, hs₁, hlisted₁⟩ := Option.bind_eq_some_iff.1 hitem
  obtain ⟨s, hs, -, hsub⟩ := hdrops.space p s₁ hs₁
  rw [hs, Option.bind_some, hsub key i hlisted₁, Option.some.injEq] at hj
  subst hj
  obtain ⟨s', hs', -, hsub'⟩ := hspared.drops.space p s hs
  rcases hspared.not_free hc hl hheld hs' (hsub' key i (hsub key i hlisted₁)) hi with hpins | hread
  · exact hunpinned ((mem_pinned_iff room).2 hpins)
  · rw [(hasReaders_iff hspared.indexed).2 hread] at hunread
    contradiction

end Recalc.Model
