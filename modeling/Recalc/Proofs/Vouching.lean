import Recalc.Proofs.Evaluations
import Recalc.Proofs.Vicinity

set_option autoImplicit false

/-!
# Evaluation vouches for what it records

While discreet formulas run, a node only comes to know handles whose instances its own records keep
alive: it found them in its key, in what it read or in definitions. So of every read that it records
the instances around what it read are kept alive by the records of the node, and every handle that
is stored has the pins that it was issued with.
-/

namespace Recalc.Model

open Recalc.Action

variable {issue : SpaceId → List SpaceId} {m m₁ m' : Model}

/-! ## Noting a read -/

theorem Alike.issuing (h : Alike m m') : m'.Issuing issue ↔ m.Issuing issue := by
  have hpins : ∀ id, m'.pinsOf id = m.pinsOf id := fun id => by
    unfold pinsOf instanceRoot?
    rw [h.spaces]
  refine ⟨fun hm => ⟨h.addressable.1 hm.room, fun id s hs => ?_⟩,
    fun hm => ⟨h.addressable.2 hm.room, fun id s hs => ?_⟩⟩
  · rw [← h.spaces] at hs
    rw [← hpins, hm.pins id s hs]
  · rw [h.spaces] at hs
    rw [hpins, hm.pins id s hs]

/-- Records are all that is stored, besides the graph and the stack. -/
theorem Stocked.of_records (h : m.Stocked issue) (hcells : m'.cells = m.cells)
    (hrefs : m'.refs = m.refs) (hspaces : m'.spaces = m.spaces)
    (hgraph : m'.graph.Keyed fun k => Issued issue k.handles)
    (hstack : ∀ n ∈ m'.stack.nodes, Issued issue n.key.handles) : m'.Stocked issue := by
  refine ⟨fun id c hc => ?_, fun id r hr => ?_, fun id s hs => ?_, hgraph, hstack⟩
  · rw [hcells] at hc
    exact h.cells id c hc
  · rw [hrefs] at hr
    exact h.refs id r hr
  · rw [hspaces] at hs
    exact h.spaces id s hs

theorem pools_noteRead (n : Node) (m : Model) : (noteRead n m).cells = m.cells ∧
    (noteRead n m).refs = m.refs ∧ (noteRead n m).spaces = m.spaces := by
  unfold noteRead
  split <;> exact ⟨rfl, rfl, rfl⟩

/-- The edges after a read was noted are the old ones and the one of the read. -/
theorem edges_noteRead {n a b : Node} (h : (noteRead n m).graph.hasEdge a b = true) :
    m.graph.hasEdge a b = true ∨
      ∃ z, m.stack.top? = some z ∧ (z == a) = true ∧ (n == b) = true := by
  unfold noteRead at h
  split at h
  next z hz =>
    rw [Graph.hasEdge_record, Bool.or_eq_true, Bool.and_eq_true, Bool.and_eq_true] at h
    exact h.symm.imp_right fun h => ⟨z, hz, h.1⟩
  next => exact .inl h

/-- The node that is noted brings its handles along. -/
theorem Stocked.noteRead (h : m.Stocked issue) {n : Node} (hn : Issued issue n.key.handles) :
    (noteRead n m).Stocked issue := by
  obtain ⟨hcells, hrefs, hspaces⟩ := pools_noteRead n m
  refine h.of_records hcells hrefs hspaces ?_ ?_
  · unfold Model.noteRead
    split
    next z hz => exact h.graph.record (h.stack z (List.mem_of_mem_head? hz)) hn
    next => exact h.graph
  · rw [stack_noteRead]
    exact h.stack

theorem vouched_noteRead (hm : m.Tracked fun _ => False) (hstocked : m.Stocked issue) {n : Node}
    (hn : Issued issue n.key.handles)
    (hbacks : ∀ z, m.stack.top? = some z → (noteRead n m).BacksRead issue z n) :
    Vouched issue m (noteRead n m) := by
  refine ⟨enriches_noteRead hm n, hstocked.noteRead hn, fun a b hab => ?_⟩
  exact (edges_noteRead hab).imp_right fun ⟨z, hz, hza, hnb⟩ => (hbacks z hz).congr hza hnb

/-- The node under evaluation has an edge to what it was noted to have read. -/
theorem hasEdge_noteRead {n z : Node} (hz : m.stack.top? = some z)
    (hn : m.stack.nodes.contains n = false) : (noteRead n m).graph.hasEdge z n = true := by
  have hne : (z == n) = false := Bool.eq_false_iff.2 fun heq => by
    rw [← contains_congr_right heq, contains_head hz] at hn
    contradiction
  unfold noteRead
  rw [hz]
  dsimp only
  rw [Graph.hasEdge_record, BEq.rfl, BEq.rfl, hne]
  rfl

/-- A read is noted, and the rest goes on. -/
theorem leads_note_bind {α : Type} {n : Node} {f : Unit → Action α} {post : α → Model → Prop}
    (hm : m.Trusted issue) (hlive : m.isLive n = true) (hn : Issued issue n.key.handles)
    (hbacks : ∀ z, m.stack.top? = some z → (noteRead n m).BacksRead issue z n)
    (next : (noteRead n m).Trusted issue → Leads issue (f ()) (noteRead n m) post) :
    Leads issue (modify (noteRead n) >>= f) m post := by
  intro r m' h hissuing
  have hvouched := vouched_noteRead hm.running.tracked hm.stocked hn hbacks
  have hrunning := (evaluationFrame_adds.note m n hlive hm.running).1
  have htrusted := hvouched.trusted hm hrunning ((alike_noteRead m n).issuing.2 hm.issuing)
  obtain ⟨hrest, hend⟩ := next htrusted r m' h hissuing
  exact ⟨hvouched.trans hrest, hend⟩

/-! ## New replicas -/

theorem handles_of_get? {contents : Contents} {k : Key} {v : Value}
    (hv : contents.get? k = some v) : v.handles ⊆ contents.handles := by
  intro h hh
  rcases Option.or_eq_some_iff.1 hv with hv | ⟨-, hv⟩
  · obtain ⟨j, hj, -⟩ := Table.mem_entries_of_get? hv
    exact List.mem_flatMap.2 ⟨(j, v), List.mem_append_right _ hj, List.mem_append_right _ hh⟩
  · obtain ⟨j, hj, -⟩ := Table.mem_entries_of_get? hv
    exact List.mem_flatMap.2 ⟨(j, v), List.mem_append_left _ hj, List.mem_append_right _ hh⟩

/-- Evaluation only copies formulas. -/
theorem Stocked.formula (h : m.Stocked issue) (henriches : Enriches m m') {id : CellId}
    {c' : Cells} (hc' : m'.cells.get? id = some c') (hcontents : Issued issue c'.contents.handles) :
    Issued issue c'.handles := by
  obtain ⟨d, c, hc, heq⟩ : ∃ d c, m.cells.get? d = some c ∧ c'.formula = c.formula := by
    cases hc : m.cells.get? id with
    | none => exact (henriches.copies id c' hc' hc).2
    | some c =>
      obtain ⟨c₁, hc₁, hext⟩ := henriches.cells id c hc
      cases hc'.symm.trans hc₁
      exact ⟨id, c, hc, hext.formula⟩
  unfold Cells.handles
  rw [heq]
  exact ((h.cells d c hc).subset (List.subset_append_left _ _)).append hcontents

/-- In a new replica and around it, spaces change their cells at most. -/
theorem spaces_of_addReplica {s u' : Space} {c id x : SpaceId} (ht : m.Tidy)
    (hadd : m.addReplica s c = (id, m₁)) (hu' : m₁.spaces.get? x = some u') :
    ∃ u, (u = s ∨ m.spaces.get? x = some u) ∧ u' = { u with cells := u'.cells } := by
  obtain ⟨rfl, rfl⟩ : (m.addSpace s).1 = id ∧ (m.addSpace s).2.copyCells (m.addSpace s).1 c = m₁ :=
    Prod.mk.inj hadd
  have hcells : ∀ m' : Model, (∀ u', m'.spaces.get? x = some u' →
        ∃ u, (u = s ∨ m.spaces.get? x = some u) ∧ u' = { u with cells := u'.cells }) →
      ∀ (d : Cells) u', (m'.addCells d).2.spaces.get? x = some u' →
        ∃ u, (u = s ∨ m.spaces.get? x = some u) ∧ u' = { u with cells := u'.cells } := by
    intro m' h d u' hu'
    unfold addCells at hu'
    have hget := Pool.get?_modify m'.spaces d.space x fun s =>
      { s with cells := s.cells.insert d.name (m'.cells.insert d).1 }
    replace hu' := hget.symm.trans hu'
    split at hu'
    next heq =>
      obtain ⟨t, ht, rfl⟩ := Option.map_eq_some_iff.1 hu'
      subst heq
      obtain ⟨u, hu, heq⟩ := h t ht
      exact ⟨u, hu, by rw [heq]⟩
    next => exact h u' hu'
  have hnew : ∀ u', (m.addSpace s).2.spaces.get? x = some u' →
      ∃ u, (u = s ∨ m.spaces.get? x = some u) ∧ u' = { u with cells := u'.cells } := by
    intro u' hu'
    rcases Pool.insert_cases ht.spaces s with hfresh | hsame
    · replace hu' := (hfresh.2 x).symm.trans hu'
      split at hu'
      next =>
        cases hu'
        exact ⟨_, .inl rfl, rfl⟩
      next => exact ⟨u', .inr hu', rfl⟩
    · exact ⟨u', .inr ((hsame x).symm.trans hu'), rfl⟩
  unfold copyCells at hu'
  split at hu'
  next => exact hnew u' hu'
  next =>
    exact foldl_keeps (P := fun m' : Model => ∀ u', m'.spaces.get? x = some u' →
      ∃ u, (u = s ∨ m.spaces.get? x = some u) ∧ u' = { u with cells := u'.cells })
      (fun m' d h => hcells m' h _) _ hnew u' hu'

/-- A new replica of a stocked model is empty, so what it was made with is all it keeps. -/
theorem stocked_replica {s : Space} {c id p : SpaceId} {f : Space → Space} (hm : m.Tidy)
    (hstocked : m.Stocked issue) (hadd : m.addReplica s c = (id, m₁))
    (hs : Issued issue s.handles)
    (hlist : ∀ u : Space, Issued issue u.handles → Issued issue (f u).handles)
    (henriches : Enriches m m') (hcells : m'.cells = m₁.cells) (hrefs : m'.refs = m₁.refs) :
    (m₁.modifySpace p f).Stocked issue := by
  have hwidens := widens_addReplica hadd
  refine ⟨fun x d hd => ?_, fun x r hr => ?_, fun x u hu => ?_, ?_, ?_⟩
  · refine hstocked.formula henriches (by rw [hcells]; exact hd) ?_
    rcases hwidens.fresh hm x d hd with hempty | ⟨e, he, heq⟩
    · rw [hempty]
      exact issued_nil
    · rw [heq]
      exact (hstocked.cells x e he).subset (List.subset_append_right _ _)
  · refine hstocked.refs x r ?_
    rw [← henriches.refs, hrefs]
    exact hr
  · have hold : ∀ v, m₁.spaces.get? x = some v → Issued issue v.handles := by
      intro v hv
      obtain ⟨w, hw, heq⟩ := spaces_of_addReplica hm hadd hv
      rw [heq]
      rcases hw with rfl | hw
      · exact hs
      · exact hstocked.spaces x w hw
    replace hu := (Pool.get?_modify m₁.spaces p x f).symm.trans hu
    split at hu
    next heq =>
      obtain ⟨v, hv, rfl⟩ := Option.map_eq_some_iff.1 hu
      subst heq
      exact hlist v (hold v hv)
    next => exact hold u hu
  · show m₁.graph.Keyed _
    rw [hwidens.graph]
    exact hstocked.graph
  · show ∀ n ∈ m₁.stack.nodes, _
    rw [hwidens.stack]
    exact hstocked.stack

theorem keys_empty : (Table.empty : Table Key SpaceId).keys = [] := by
  refine List.eq_nil_iff_forall_not_mem.2 fun k hk => ?_
  obtain ⟨i, hi⟩ := Table.mem_keys_iff.1 hk
  have hnone := (Table.get?_of_mem_entries hi).symm.trans (Table.get?_empty k)
  contradiction

theorem handles_childRecord (p : SpaceId) (name : String) (c root : SpaceId) :
    (childRecord p name c root).handles = [] := by
  simp only [childRecord, Space.handles, keys_empty]
  rfl

theorem handles_itemRecord (m : Model) (s : Space) (p c : SpaceId) (key : Key) :
    (m.itemRecord s p c key).handles = key.handles := by
  simp only [itemRecord, Space.handles, keys_empty]
  rfl

theorem leads_ensureChild {p : SpaceId} {name : String} (hm : m.Trusted issue)
    (hnear : m.Near issue p) :
    Leads issue (ensureChild p name) m fun child m' => m'.Near issue child := by
  intro r m' h hissuing
  have hrunning := (evaluationFrame_adds.child p name m r m' h hm.running).1
  have henriches := enriches_ensureChild hm.running h hissuing.room
  rcases ensureChild_cases h with ⟨rfl, hfound⟩ |
      ⟨s, root, c, source, counterpart, child, m₁, hs, -, -, -, -, -, hadd, rfl, rfl⟩
  · refine ⟨.refl hm.stocked, fun child hr => ?_⟩
    obtain ⟨s, hs, hchild⟩ := hfound child hr
    exact hnear.child hm hs hchild
  have hstocked : (m₁.listChild p name child).Stocked issue :=
    stocked_replica (f := fun q => { q with spaces := q.spaces.insert name child })
      hm.running.orderly.tidy hm.stocked hadd (by rw [handles_childRecord]; exact issued_nil)
      (fun _ hu => hu) henriches rfl rfl
  have hgraph : (m₁.listChild p name child).graph = m.graph := (widens_addReplica hadd).graph
  have hstack : (m₁.listChild p name child).stack = m.stack := (widens_addReplica hadd).stack
  have hvouched : Vouched issue m (m₁.listChild p name child) :=
    ⟨henriches, hstocked, fun a b hab => .inl (by rwa [hgraph] at hab)⟩
  have hm' := hvouched.trusted hm hrunning hissuing
  refine ⟨hvouched, fun found hr => ?_⟩
  cases hr
  -- the child is listed, so it lies where its parent does
  obtain ⟨s', hs', -⟩ := henriches.spaces p s hs
  have hlisted : s'.spaces.get? name = some child := by
    have hget := Pool.get?_modify m₁.spaces p p fun q =>
      { q with spaces := q.spaces.insert name child }
    obtain ⟨q, -, rfl⟩ := Option.map_eq_some_iff.1 ((hget.trans (if_pos rfl)).symm.trans hs')
    rw [NameMap.get?_insert, if_pos rfl]
  exact (hnear.mono henriches (by rw [hstack])).child hm' hs' hlisted

/-- Nothing but cells needs backing when it is read. -/
theorem backsRead_item (m : Model) (z : Node) (p : SpaceId) (key : Key) :
    m.BacksRead issue z (.item p key) :=
  fun _ he => nomatch he

theorem backsRead_ref (m : Model) (z : Node) (r : RefId) : m.BacksRead issue z (.ref r) :=
  fun _ he => nomatch he

theorem Tracked.item_off_stack {loose : Node → Prop} (h : m.Tracked loose) (p : SpaceId) (key : Key) :
    m.stack.nodes.contains (.item p key) = false := by
  refine Bool.eq_false_iff.2 fun hn => ?_
  obtain ⟨id, he⟩ := h.entity_of_stack hn
  cases he

theorem handleTo_eq_ok {id : SpaceId} {h : Handle} :
    m.handleTo id = .ok h ↔ ∃ s, m.spaces.get? id = some s ∧ h = ⟨id, m.pinsOf id⟩ := by
  unfold handleTo
  rw [except_bind_eq_ok]
  refine ⟨fun ⟨s, hs, heq⟩ => ⟨s, space_eq_ok.1 hs, (Except.ok.inj heq).symm⟩, ?_⟩
  rintro ⟨s, hs, rfl⟩
  exact ⟨s, space_eq_ok.2 hs, rfl⟩

/-- Who has noted to have read an instance may have a handle to it. -/
theorem known_item {p item : SpaceId} {key : Key} {s : Space} {h : Handle}
    (hm : (noteRead (.item p key) m).Trusted issue)
    (hstack : m.stack.nodes.contains (.item p key) = false) (hs : m.spaces.get? p = some s)
    (hitem : s.instances.get? key = some item)
    (hh : (noteRead (.item p key) m).handleTo item = .ok h) :
    (noteRead (.item p key) m).Known issue h := by
  obtain ⟨t, ht, rfl⟩ := handleTo_eq_ok.1 hh
  refine ⟨hm.issuing.pins item t ht, fun z hz i hi => ?_⟩
  have hs' : (noteRead (.item p key) m).spaces.get? p = some s := by
    rw [(pools_noteRead _ m).2.2, hs]
  obtain ⟨t', c, args, around, ht', hk, -⟩ := hm.faithful.owned.item_of_listed hs' hitem
  have hbacked : (noteRead (.item p key) m).Backed issue z item := by
    refine .item (hasEdge_noteRead ?_ hstack) hs' hitem
    rwa [stack_noteRead] at hz
  rw [← hm.issuing.pins item t ht, pinsOf_of_enclosing ht' hk] at hi
  rcases List.mem_cons.1 hi with rfl | hi
  · exact hbacked
  · exact .around hbacked ht' hk hi

theorem leads_ensureItem {p : SpaceId} {key : Key} (hm : m.Trusted issue) (hfits : m.KeyFits p key)
    (hkey : Issued issue key.handles) :
    Leads issue (ensureItem p key) m fun h m' => m'.Known issue h := by
  intro r m' h hissuing
  have hrunning := (evaluationFrame_adds.item p key m r m' hfits h hm.running).1
  have henriches := enriches_ensureItem hm.running hfits h hissuing.room
  rcases ensureItem_cases h with ⟨rfl, e, rfl⟩ | ⟨s, hs, ⟨item, hitem, rfl, rfl⟩ |
      ⟨c, item, m₁, -, -, hadd, rfl, rfl⟩⟩
  · exact ⟨.refl hm.stocked, fun _ hr => nomatch hr⟩
  · have hvouched := vouched_noteRead hm.running.tracked hm.stocked hkey
      fun z _ => backsRead_item _ z p key
    exact ⟨hvouched, fun a ha => known_item (hvouched.trusted hm hrunning hissuing)
      (hm.running.tracked.item_off_stack p key) hs hitem ha⟩
  obtain ⟨hcells, hrefs, hspaces⟩ := pools_noteRead (.item p key) (m₁.listItem p key item)
  have hstocked : (m₁.listItem p key item).Stocked issue := by
    refine stocked_replica (f := fun q => { q with instances := q.instances.insert key item })
      hm.running.orderly.tidy hm.stocked hadd (by rw [handles_itemRecord]; exact hkey)
      (fun u hu => ?_) henriches hcells hrefs
    refine ((hu.subset ?_).append ?_).append (hu.subset (List.subset_append_right _ _))
    · exact List.subset_append_of_subset_left _ (List.subset_append_left _ _)
    · intro a ha
      obtain ⟨k, hk, hak⟩ := List.mem_flatMap.1 ha
      obtain ⟨i, hi⟩ := Table.mem_keys_iff.1 hk
      have hold : k ∈ u.instances.keys → a.pins = issue a.id := fun hk =>
        hu a (List.mem_append_left _ (List.mem_append_right _ (List.mem_flatMap.2 ⟨k, hk, hak⟩)))
      rcases Table.mem_entries_of_insert hi with hi | ⟨-, hk | ⟨rfl, -⟩⟩
      · exact hold (Table.mem_keys_iff.2 ⟨i, hi⟩)
      · exact hold hk
      · exact hkey a hak
  have hwidens := widens_addReplica hadd
  have hvouched : Vouched issue m (noteRead (.item p key) (m₁.listItem p key item)) := by
    refine ⟨henriches, hstocked.noteRead hkey, fun a b hab => ?_⟩
    rcases edges_noteRead hab with hab | ⟨z, -, hza, hnb⟩
    · exact .inl (by rwa [← hwidens.graph])
    · exact .inr ((backsRead_item _ z p key).congr hza hnb)
  obtain ⟨s', hs', -⟩ := henriches.spaces p s hs
  rw [hspaces] at hs'
  have hitem : s'.instances.get? key = some item := by
    have hget := Pool.get?_modify m₁.spaces p p fun q =>
      { q with instances := q.instances.insert key item }
    obtain ⟨q, -, rfl⟩ := Option.map_eq_some_iff.1 ((hget.trans (if_pos rfl)).symm.trans hs')
    rw [Table.get?_insert, if_pos BEq.rfl]
  have hstack := (congrArg (fun stack : Stack => stack.nodes.contains (.item p key))
    hwidens.stack).trans (hm.running.tracked.item_off_stack p key)
  exact ⟨hvouched, fun a ha =>
    known_item (hvouched.trusted hm hrunning hissuing) hstack hs' hitem ha⟩

/-! ## Nodes -/

def RunsKnown (issue : SpaceId → List SpaceId) (run : RunFormula) : Prop :=
  ∀ id f args m, m.Trusted issue → m.Near issue id → f.Discreet →
    m.Knows issue (f.handles ++ Value.itemHandles args) →
    Leads issue (run id f args) m fun v m' => m'.Knows issue v.handles

theorem Trusted.pushed (hm : m.Trusted issue) {id : CellId} {c : Cells} {key : Key} {stack : Stack}
    (hpush : m.stack.push? (.cells id key) = some stack) (hc : m.cells.get? id = some c)
    (hnone : c.contents.get? key = none) (hkey : Issued issue key.handles) :
    ({ m with stack } : Model).Trusted issue := by
  refine ⟨hm.running.pushed hpush hc hnone, (alike_stack m _).issuing.2 hm.issuing,
    hm.stocked.of_records rfl rfl rfl hm.stocked.graph fun n hn => ?_,
    ⟨hm.discreet.cells, hm.discreet.binders⟩⟩
  rw [Stack.nodes_of_push? hpush] at hn
  rcases List.mem_cons.1 hn with rfl | hn
  · exact hkey
  · exact hm.stocked.stack n hn

theorem outcome_eq_ok {id : CellId} {n : Node} {r : Except Failure Value} {v : Value}
    (h : outcome id n r m = .ok v) : r = .ok v := by
  unfold outcome at h
  split at h
  next => cases h
  next =>
    split at h
    next => cases h
    next => exact h

/-- A formula of cells starts with what its node keeps alive. -/
theorem leads_runCells {run : RunFormula} (hknown : RunsKnown issue run) {id : CellId} {c : Cells}
    {key : Key} {q : Except Failure Value} (hm : m.Trusted issue)
    (htop : m.stack.top? = some (.cells id key)) (hc : m.cells.get? id = some c)
    (hkey : Issued issue key.handles)
    (h : runCells run id c key m = some (.ok q, m₁)) (hissuing : m₁.Issuing issue) :
    Vouched issue m m₁ ∧ ∀ v, q = .ok v → m₁.Knows issue v.handles := by
  have hentity : ∀ z, m.stack.top? = some z → z = .cells id key := fun z hz =>
    Option.some.inj (hz.symm.trans htop)
  rcases runCells_cases h with ⟨-, rfl, rfl⟩ | ⟨f, r, hf, hrun, rfl⟩
  · refine ⟨.refl hm.stocked, fun v hv => ?_⟩
    cases outcome_eq_ok hv
    exact knows_nil
  have hnear : m.Near issue c.space := fun z hz i hi => by
    rw [hentity z hz]
    exact .home rfl hc hi
  have hformula : m.Knows issue f.handles := fun a ha => by
    have hstored : a ∈ c.handles := by
      unfold Cells.handles
      rw [hf]
      exact List.mem_append_left _ ha
    refine ⟨hm.stocked.cells id c hc a hstored, fun z hz i hi => ?_⟩
    rw [hentity z hz]
    exact .formula rfl hc hf ha hi
  have hargs : m.Knows issue key.handles := fun a ha => ⟨hkey a ha, fun z hz i hi => by
    rw [hentity z hz]
    exact .key ha hi⟩
  obtain ⟨hvouched, hend⟩ := hknown c.space f key.values m hm hnear (hm.discreet.cells id c f hc hf)
    (hformula.append hargs) r m₁ hrun hissuing
  exact ⟨hvouched, fun v hv => hend v (outcome_eq_ok hv)⟩

/-- What is stored with its key was issued. -/
theorem handles_of_store {contents contents' : Contents} {key : Key} {v : Value}
    (hstore : contents.store? key v = some contents') {a : Handle} (ha : a ∈ contents'.handles) :
    a ∈ contents.handles ∨ a ∈ key.handles ∨ a ∈ v.handles := by
  obtain ⟨-, rfl⟩ := Contents.store?_eq_some.1 hstore
  obtain ⟨⟨k, w⟩, he, hin⟩ := List.mem_flatMap.1 ha
  have hold : ∀ {w}, (k, w) ∈ contents.values.entries ++ contents.inputs.entries →
      a ∈ k.handles ++ w.handles → a ∈ contents.handles := fun he ha =>
    List.mem_flatMap.2 ⟨_, he, ha⟩
  rcases List.mem_append.1 he with he | he
  · rcases Table.mem_entries_of_insert he with he | ⟨rfl, hk⟩
    · exact .inl (hold (List.mem_append_left _ he) hin)
    · rcases List.mem_append.1 hin with hin | hin
      · rcases hk with hk | ⟨rfl, -⟩
        · obtain ⟨u, hu⟩ := Table.mem_keys_iff.1 hk
          exact .inl (hold (List.mem_append_left _ hu) (List.mem_append_left _ hin))
        · exact .inr (.inl hin)
      · exact .inr (.inr hin)
  · exact .inl (hold (List.mem_append_right _ he) hin)

theorem adds_runCells {run : RunFormula}
    (hruns : ∀ id f args, Obeys (Under Running Adds) (run id f args)) {id : CellId} {c : Cells}
    {key : Key} {q : Except Failure Value} (h : runCells run id c key m = some (.ok q, m₁)) :
    Under Running Adds m m₁ := by
  rcases runCells_cases h with ⟨-, rfl, -⟩ | ⟨f, r, -, hrun, -⟩
  · exact Frame.refl _
  · exact hruns _ _ _ _ _ _ hrun

/-- Contents as they were issued are put in their place. -/
theorem Stocked.filled (h : m.Stocked issue) {id : CellId} {contents : Contents}
    (hissued : Issued issue contents.handles) :
    (m.modifyCell id fun c => { c with contents }).Stocked issue := by
  refine ⟨fun x d hd => ?_, h.refs, h.spaces, h.graph, h.stack⟩
  rw [get?_modifyContents m id fun _ => contents] at hd
  obtain ⟨e, he, heq⟩ := Option.map_eq_some_iff.1 hd
  split at heq
  next =>
    cases heq
    exact ((h.cells x e he).subset (List.subset_append_left _ _)).append hissued
  next =>
    cases heq
    exact h.cells x d he

/-- Who may have a handle to cells may have those in the value it read there. -/
theorem knows_read {id : CellId} {c : Cells} {key : Key} {v : Value} (hc : m.cells.get? id = some c)
    (hv : c.contents.get? key = some v) (hstocked : m.Stocked issue)
    (hedge : ∀ z, m.stack.top? = some z → m.graph.hasEdge z (.cells id key) = true) :
    m.Knows issue v.handles := by
  intro a ha
  refine ⟨hstocked.cells id c hc a (List.mem_append_right _ (handles_of_get? hv ha)),
    fun z hz i hi => .value (hedge z hz) hc hv ha hi⟩

/-- A value is stored and read by the node below. -/
theorem vouched_store {id : CellId} {c : Cells} {key : Key} {v : Value} {contents : Contents}
    (hm : m.Stocked issue) (hc : m.cells.get? id = some c) (hnone : c.contents.get? key = none)
    (hstore : c.contents.store? key v = some contents) (hkey : Issued issue key.handles)
    (hv : Issued issue v.handles) (hoff : m.stack.nodes.contains (.cells id key) = false)
    (htracked : (m.modifyCell id fun c => { c with contents }).Tracked fun _ => False)
    (hm' : m' = noteRead (.cells id key) (m.modifyCell id fun c => { c with contents }))
    (hback : ∀ z, m.stack.top? = some z → m'.BacksRead issue z (.cells id key)) :
    Vouched issue m m' ∧ m'.Knows issue v.handles := by
  have hissued : Issued issue contents.handles := fun a ha => by
    rcases handles_of_store hstore ha with ha | ha | ha
    · exact hm.cells id c hc a (List.mem_append_right _ ha)
    · exact hkey a ha
    · exact hv a ha
  have hstocked : m'.Stocked issue := by
    rw [hm']
    exact (hm.filled hissued).noteRead hkey
  have hgot : m'.cells.get? id = some { c with contents } := by
    rw [hm', (pools_noteRead _ _).1, get?_modifyContents m id fun _ => contents, hc,
      Option.map_some, if_pos rfl]
  have henriches : Enriches m m' := by
    rw [hm']
    exact (enriches_store hc hnone hstore).trans (enriches_noteRead htracked _)
  refine ⟨⟨henriches, hstocked, fun a b hab => ?_⟩, ?_⟩
  · rw [hm'] at hab
    exact (edges_noteRead hab).imp_right fun ⟨z, hz, hza, hnb⟩ => (hback z hz).congr hza hnb
  · have hgets : contents.get? key = some v := by
      rw [Contents.get?_store hstore, if_pos BEq.rfl]
    refine knows_read hgot hgets hstocked fun z hz => ?_
    rw [hm'] at hz ⊢
    rw [stack_noteRead] at hz
    exact hasEdge_noteRead hz hoff

theorem leads_compute {run : RunFormula}
    (hruns : ∀ id f args, Obeys (Under Running Adds) (run id f args))
    (hknown : RunsKnown issue run) {id : CellId} {c : Cells} {key : Key} (hm : m.Trusted issue)
    (hc : m.cells.get? id = some c) (hnone : c.contents.get? key = none)
    (hnear : m.Near issue c.space) (hkey : Issued issue key.handles) :
    Leads issue (compute run id c key) m fun v m' => m'.Knows issue v.handles := by
  intro r m' h hissuing
  obtain ⟨hrunning, hadds⟩ := adds_compute hruns hc hnone h hm.running
  have henriches := hadds.enriches hissuing.room
  rcases compute_cases h with ⟨rfl, e, -, rfl⟩ | ⟨stack, q, m₁, hpush, -, hcells, hfinish⟩
  · exact ⟨.refl hm.stocked, fun _ hr => nomatch hr⟩
  have hpushed := hm.pushed hpush hc hnone hkey
  obtain ⟨hrunning₁, hadds₁⟩ := adds_runCells hruns hcells hpushed.running
  have hissuing₁ : m₁.Issuing issue :=
    (Frame.trans (alike_stack m₁ m₁.stack.pop) (alike_finish hfinish).1).issuing.1 hissuing
  have htop : stack.top? = some (.cells id key) := by
    unfold Stack.top?
    rw [Stack.nodes_of_push? hpush]
    rfl
  obtain ⟨hinner, hend⟩ := leads_runCells hknown hpushed htop hc hkey hcells hissuing₁
  have hnodes : m₁.stack.nodes = .cells id key :: m.stack.nodes :=
    hadds₁.grows.retains.stack.trans (Stack.nodes_of_push? hpush)
  have hpop : m₁.stack.pop.nodes = m.stack.nodes := by
    rw [Stack.nodes_pop, hnodes, List.tail_cons]
  -- the node goes off the stack, and nothing else changes
  obtain ⟨p, hp⟩ : ∃ p, p = ({ m₁ with stack := m₁.stack.pop } : Model) := ⟨_, rfl⟩
  have hpopped : p.Stocked issue := by
    rw [hp]
    refine hinner.stocked.of_records rfl rfl rfl hinner.stocked.graph fun n hn => ?_
    exact hm.stocked.stack n (by rw [← hpop]; exact hn)
  cases q with
  | error e =>
    rw [← hp] at hfinish
    cases hfinish
    obtain ⟨-, hedge⟩ := Graph.dropReads_spec hrunning₁.tracked.indexed (.cells id key)
    refine ⟨⟨henriches, hpopped.of_records rfl rfl rfl (hpopped.graph.dropReads _) hpopped.stack,
      fun a b hab => ?_⟩, fun _ hr => nomatch hr⟩
    -- the reads of the node itself are gone, so what is left was recorded by others
    rw [hp] at hab ⊢
    rw [show _ = _ from hedge a b, Bool.and_eq_true, Bool.not_eq_true'] at hab
    refine (hinner.edges a b hab.2).imp_right fun hbacks => ?_
    refine hbacks.mono (carries_beside m₁ _ _ m₁.runs) fun d had => ?_
    rw [show _ = _ from hedge a d, hab.1, had]
    rfl
  | ok v =>
    obtain ⟨other, c₁, he, hc₁, hnone₁⟩ :=
      hrunning₁.tracked.waiting (.cells id key) (by rw [hnodes]; exact List.mem_cons_self)
    cases he
    have hfree := Contents.inputs_eq_none_iff.1 (Option.or_eq_none_iff.1 hnone₁).1
    obtain ⟨contents, hstore⟩ : ∃ contents, c₁.contents.store? key v = some contents :=
      ⟨_, Contents.store?_eq_some.2 ⟨hfree, rfl⟩⟩
    have htracked := (tracked_store hrunning₁.tracked hnodes hc₁ hstore).1
    rw [← hp] at hfinish htracked
    have hcp : p.cells.get? id = some c₁ := by rw [hp]; exact hc₁
    rw [finish_of_store hcp hstore] at hfinish
    obtain ⟨rfl, hm'⟩ := Prod.mk.inj (Option.some.inj hfinish)
    have hnodesp : p.stack.nodes = m.stack.nodes := by rw [hp]; exact hpop
    obtain ⟨hvouched, hknows⟩ := vouched_store hpopped hcp hnone₁ hstore hkey (hend v rfl).issued
      (by rw [hnodesp]; exact not_contains_of_push? hpush) htracked hm'.symm fun z hz other he => by
        cases he
        obtain ⟨c', hc', hext⟩ := henriches.cells id c hc
        refine ⟨c', hc', fun i hi => ?_⟩
        rw [hext.space] at hi
        refine hnear.mono henriches hadds.grows.retains.stack z ?_ i hi
        unfold Stack.top? at hz ⊢
        rw [hadds.grows.retains.stack, ← hnodesp, hz]
    have hcarries : Carries m₁ p := by
      rw [hp]
      exact carries_beside m₁ m₁.graph m₁.stack.pop m₁.runs
    refine ⟨⟨henriches, hvouched.stocked, fun a b hab => ?_⟩, fun w hw => ?_⟩
    · refine (hvouched.edges a b hab).elim (fun hab => ?_) .inr
      rw [hp] at hab
      refine (hinner.edges a b hab).imp_right fun hbacks => ?_
      refine hbacks.mono (hcarries.trans hvouched.enriches.carries) fun d had => ?_
      exact hvouched.enriches.edges a d (by rw [hp]; exact had)
    · cases hw
      exact hknows

end Recalc.Model
