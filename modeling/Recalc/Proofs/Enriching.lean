import Recalc.Proofs.MirroredRequests

set_option autoImplicit false

/-!
# Evaluation only adds

Whatever formulas do, an evaluation changes no definition and takes nothing away. It stores values
where none was, records reads of nodes that were not stored before, and makes replicas.
-/

namespace Recalc

structure Cells.Extends (c c' : Cells) : Prop where
  bare : c'.bare = c.bare
  inputs : c'.contents.inputs = c.contents.inputs
  values : ∀ k v, c.contents.values.get? k = some v → c'.contents.values.get? k = some v

/-- Instances came and, in a replica, children. -/
structure Space.Extends (s s' : Space) : Prop where
  same : s' = { s with instances := s'.instances, spaces := s'.spaces }
  children : s.isStatic = true → s'.spaces = s.spaces
  spaces : ∀ name c, s.spaces.get? name = some c → s'.spaces.get? name = some c
  instances : ∀ k i, s.instances.get? k = some i → s'.instances.get? k = some i

theorem Cells.Extends.refl (c : Cells) : c.Extends c := ⟨rfl, rfl, fun _ _ h => h⟩

theorem Cells.Extends.trans {c₁ c₂ c₃ : Cells} (h : c₁.Extends c₂) (h' : c₂.Extends c₃) :
    c₁.Extends c₃ :=
  ⟨h'.bare.trans h.bare, h'.inputs.trans h.inputs, fun k v hv => h'.values k v (h.values k v hv)⟩

theorem Space.Extends.refl (s : Space) : s.Extends s :=
  ⟨rfl, fun _ => rfl, fun _ _ h => h, fun _ _ h => h⟩

theorem Space.Extends.kind {s s' : Space} (h : s.Extends s') : s'.kind = s.kind := by rw [h.same]

theorem Space.Extends.isStatic {s s' : Space} (h : s.Extends s') : s'.isStatic = s.isStatic := by
  unfold Space.isStatic
  rw [h.kind]

theorem Space.Extends.trans {s₁ s₂ s₃ : Space} (h : s₁.Extends s₂) (h' : s₂.Extends s₃) :
    s₁.Extends s₃ := by
  refine ⟨?_, fun hs => ?_, fun n c hc => h'.spaces n c (h.spaces n c hc),
    fun k i hi => h'.instances k i (h.instances k i hi)⟩
  · rw [h'.same, h.same]
  · rw [h'.children (h.isStatic.trans hs), h.children hs]

namespace Model

open Recalc.Action

/-- No definition changes, nothing goes, and nothing is added to what a stored value read. -/
structure Enriches (m m' : Model) : Prop where
  name : m'.name = m.name
  config : m'.config = m.config
  roots : m'.roots = m.roots
  globals : m'.globals = m.globals
  refs : m'.refs = m.refs
  spaces : ∀ id s, m.spaces.get? id = some s → ∃ s', m'.spaces.get? id = some s' ∧ s.Extends s'
  replicas : ∀ id s', m'.spaces.get? id = some s' → m.spaces.get? id = none → s'.isStatic = false
  cells : ∀ id c, m.cells.get? id = some c → ∃ c', m'.cells.get? id = some c' ∧ c.Extends c'
  copies : ∀ id c', m'.cells.get? id = some c' → m.cells.get? id = none →
    c'.contents.inputs = .empty ∧ ∃ d c, m.cells.get? d = some c ∧ c'.formula = c.formula
  edges : ∀ a b, m.graph.hasEdge a b = true → m'.graph.hasEdge a b = true
  reads : ∀ a b, m.isComputed a = true → m'.graph.hasEdge a b = true → m.graph.hasEdge a b = true

section Laws

variable {m m' m'' : Model}

theorem Enriches.isComputed (h : Enriches m m') {n : Node} (hn : m.isComputed n = true) :
    m'.isComputed n = true := by
  obtain ⟨id, c, he, hc, hk⟩ := isComputed_iff.1 hn
  obtain ⟨c', hc', hext⟩ := h.cells id c hc
  refine isComputed_iff.2 ⟨id, c', he, hc', ?_⟩
  rw [Contents.hasComputed, Table.contains_eq_isSome, Option.isSome_iff_exists] at hk ⊢
  obtain ⟨v, hv⟩ := hk
  exact ⟨v, hext.values _ v hv⟩

theorem Enriches.refl (m : Model) : Enriches m m where
  name := rfl
  config := rfl
  roots := rfl
  globals := rfl
  refs := rfl
  spaces _ s hs := ⟨s, hs, .refl s⟩
  replicas id s' hs' hs := by
    rw [hs] at hs'
    contradiction
  cells _ c hc := ⟨c, hc, .refl c⟩
  copies id c' hc' hc := by
    rw [hc] at hc'
    contradiction
  edges _ _ h := h
  reads _ _ _ h := h

theorem Enriches.trans (h : Enriches m m') (h' : Enriches m' m'') : Enriches m m'' where
  name := h'.name.trans h.name
  config := h'.config.trans h.config
  roots := h'.roots.trans h.roots
  globals := h'.globals.trans h.globals
  refs := h'.refs.trans h.refs
  spaces id s hs := by
    obtain ⟨s₁, hs₁, hext₁⟩ := h.spaces id s hs
    obtain ⟨s₂, hs₂, hext₂⟩ := h'.spaces id s₁ hs₁
    exact ⟨s₂, hs₂, hext₁.trans hext₂⟩
  replicas id s₂ hs₂ hs := by
    cases hs₁ : m'.spaces.get? id with
    | none => exact h'.replicas id s₂ hs₂ hs₁
    | some s₁ =>
      obtain ⟨t, ht, hext⟩ := h'.spaces id s₁ hs₁
      cases hs₂.symm.trans ht
      exact hext.isStatic.trans (h.replicas id s₁ hs₁ hs)
  cells id c hc := by
    obtain ⟨c₁, hc₁, hext₁⟩ := h.cells id c hc
    obtain ⟨c₂, hc₂, hext₂⟩ := h'.cells id c₁ hc₁
    exact ⟨c₂, hc₂, hext₁.trans hext₂⟩
  copies id c₂ hc₂ hc := by
    cases hc₁ : m'.cells.get? id with
    | none =>
      obtain ⟨hinputs, x, d, hd, hformula⟩ := h'.copies id c₂ hc₂ hc₁
      refine ⟨hinputs, ?_⟩
      cases hx : m.cells.get? x with
      | none =>
        obtain ⟨-, y, e, he, heq⟩ := h.copies x d hd hx
        exact ⟨y, e, he, hformula.trans heq⟩
      | some e =>
        obtain ⟨d', hd', hext⟩ := h.cells x e hx
        cases hd.symm.trans hd'
        exact ⟨x, e, hx, hformula.trans (formula_of_bare hext.bare.symm).1⟩
    | some c₁ =>
      obtain ⟨t, ht, hext⟩ := h'.cells id c₁ hc₁
      cases hc₂.symm.trans ht
      obtain ⟨hinputs, x, d, hd, hformula⟩ := h.copies id c₁ hc₁ hc
      exact ⟨hext.inputs.trans hinputs, x, d, hd,
        (formula_of_bare hext.bare.symm).1.trans hformula⟩
  edges a b hab := h'.edges a b (h.edges a b hab)
  reads a b ha hab := h.reads a b ha (h'.reads a b (h.isComputed ha) hab)

instance : Frame Enriches := ⟨Enriches.refl, Enriches.trans⟩

/-- A change of the graph and of nothing else. -/
theorem enriches_graph {g : Graph} (edges : ∀ a b, m.graph.hasEdge a b = true → g.hasEdge a b = true)
    (reads : ∀ a b, m.isComputed a = true → g.hasEdge a b = true → m.graph.hasEdge a b = true) :
    Enriches m { m with graph := g } where
  name := rfl
  config := rfl
  roots := rfl
  globals := rfl
  refs := rfl
  spaces _ s hs := ⟨s, hs, .refl s⟩
  replicas id s' hs' hs := by
    rw [show m.spaces.get? id = some s' from hs'] at hs
    contradiction
  cells _ c hc := ⟨c, hc, .refl c⟩
  copies id c' hc' hc := by
    rw [show m.cells.get? id = some c' from hc'] at hc
    contradiction
  edges := edges
  reads := reads

end Laws

section Parts

variable {loose : Node → Prop} {m m' : Model}

theorem isComputed_congr (m : Model) {n n' : Node} (h : (n == n') = true) :
    m.isComputed n = m.isComputed n' := by
  rw [Graph.node_beq_iff, Bool.and_eq_true, beq_iff_eq] at h
  unfold isComputed
  rw [h.1]
  split
  · simp only [Contents.hasComputed, Table.contains_congr _ h.2]
  · rfl

/-- A node for which nothing is stored is not computed. -/
theorem not_isComputed {n : Node} {id : CellId} {c : Cells} (he : n.entity = .cells id)
    (hc : m.cells.get? id = some c) (hnone : c.contents.get? n.key = none) :
    m.isComputed n = false := by
  refine Bool.eq_false_iff.2 fun hcomputed => ?_
  obtain ⟨id', c', he', hc', hk⟩ := isComputed_iff.1 hcomputed
  cases he.symm.trans he'
  cases hc.symm.trans hc'
  rw [Contents.hasComputed, Table.contains_eq_isSome, (Option.or_eq_none_iff.1 hnone).2] at hk
  contradiction

/-- A node under evaluation is not stored as computed. -/
theorem Tracked.not_computed (h : m.Tracked loose) {n : Node}
    (hn : m.stack.nodes.contains n = true) : m.isComputed n = false := by
  obtain ⟨top, htop, heq⟩ := List.contains_iff_exists_mem_beq.1 hn
  rw [isComputed_congr m heq]
  obtain ⟨id, c, he, hc, hnone⟩ := h.waiting top htop
  exact not_isComputed he hc hnone

/-- A node that was pushed was not on the stack before. -/
theorem not_contains_of_push? {n : Node} {stack : Stack} (h : m.stack.push? n = some stack) :
    m.stack.nodes.contains n = false := by
  refine Bool.eq_false_iff.2 fun hn => ?_
  rw [(Stack.push?_eq_none_iff _ n).2 hn] at h
  contradiction

theorem enriches_noteRead (h : m.Tracked loose) (n : Node) : Enriches m (noteRead n m) := by
  unfold noteRead
  split
  next top htop =>
    refine enriches_graph (fun a b hab => ?_) fun a b ha hab => ?_
    · rw [Graph.hasEdge_record, hab, Bool.or_true]
    · rw [Graph.hasEdge_record, Bool.or_eq_true, Bool.and_eq_true, Bool.and_eq_true] at hab
      rcases hab with ⟨⟨htop', -⟩, -⟩ | hab
      · have hmem : m.stack.nodes.contains a = true :=
          List.contains_iff_exists_mem_beq.2 ⟨top, List.mem_of_mem_head? htop, BEq.symm htop'⟩
        rw [h.not_computed hmem] at ha
        contradiction
      · exact hab
  next => exact .refl m

/-! ## Replicas -/

theorem copyEach_eq (replica : SpaceId) (l : List Cells) (m : Model) :
    ∃ spaces cells, m.copyEach replica l = { m with spaces, cells } := by
  refine foldl_keeps (P := fun m' : Model => ∃ spaces cells, m' = { m with spaces, cells })
    (fun m' c h => ?_) l ⟨m.spaces, m.cells, rfl⟩
  obtain ⟨spaces, cells, rfl⟩ := h
  exact ⟨_, _, rfl⟩

/-- Making a replica touches the pools of spaces and of cells only. -/
theorem addReplica_eq {s : Space} {c id : SpaceId} (h : m.addReplica s c = (id, m')) :
    ∃ spaces cells, m' = { m with spaces, cells } := by
  cases h
  unfold copyCells
  split
  · exact ⟨_, _, rfl⟩
  · obtain ⟨spaces, cells, heq⟩ := copyEach_eq (m.addSpace s).1 (cellsOf (m.addSpace s).2 _) (m.addSpace s).2
    exact ⟨spaces, cells, heq⟩

/-- Cells that were copied are empty and have a formula of the originals. -/
theorem new_of_copyEach {replica : SpaceId} {l : List Cells} (ht : m.Tidy) {id : CellId}
    {c : Cells} (hc : (m.copyEach replica l).cells.get? id = some c)
    (hnone : m.cells.get? id = none) :
    c.contents = .empty ∧ ∃ d ∈ l, c.formula = d.formula := by
  induction l generalizing m with
  | nil =>
    rw [show m.cells.get? id = some c from hc] at hnone
    contradiction
  | cons d l ih =>
    cases hfirst : (m.addCells (copyOf replica d)).2.cells.get? id with
    | none =>
      obtain ⟨hempty, e, he, hformula⟩ := ih (tidy_addCells ht _) hc hfirst
      exact ⟨hempty, e, List.mem_cons_of_mem _ he, hformula⟩
    | some c₁ =>
      -- the cells came first, and copying the rest leaves them alone
      have hkeep : ∀ (l : List Cells) (m : Model), m.Tidy → m.cells.get? id = some c₁ →
          (m.copyEach replica l).cells.get? id = some c₁ := by
        intro l
        induction l with
        | nil => exact fun _ _ h => h
        | cons e l ih =>
          intro m ht h
          refine ih _ (tidy_addCells ht (copyOf replica e)) ?_
          rcases Pool.insert_cases ht.cells (copyOf replica e) with hfresh | hsame
          · refine (hfresh.2 id).trans ?_
            rw [if_neg, h]
            rintro rfl
            rw [hfresh.1] at h
            contradiction
          · exact (hsame id).trans h
      cases hc.symm.trans (hkeep l _ (tidy_addCells ht _) hfirst)
      rcases Pool.insert_cases ht.cells (copyOf replica d) with hfresh | hsame
      · have hget := (hfresh.2 id).symm.trans hfirst
        split at hget
        next =>
          cases hget
          exact ⟨rfl, d, List.mem_cons_self, rfl⟩
        next =>
          rw [hnone] at hget
          contradiction
      · rw [(hsame id).symm.trans hfirst] at hnone
        contradiction

theorem new_of_addReplica (ht : m.Tidy) {s source : Space} {c id : SpaceId}
    (h : m.addReplica s c = (id, m')) (hsource : (m.addSpace s).2.spaces.get? c = some source)
    {x : CellId} {d : Cells} (hd : m'.cells.get? x = some d) (hnone : m.cells.get? x = none) :
    d.contents = .empty ∧ ∃ y e, m.cells.get? y = some e ∧ d.formula = e.formula := by
  obtain ⟨-, rfl⟩ :
      (m.addSpace s).1 = id ∧ (m.addSpace s).2.copyCells (m.addSpace s).1 c = m' := Prod.mk.inj h
  rw [copyCells_eq hsource] at hd
  obtain ⟨hempty, e, he, hformula⟩ :=
    new_of_copyEach ((widens_addSpace m s).tidy ht) hd hnone
  obtain ⟨y, -, hy⟩ := List.mem_filterMap.1 he
  exact ⟨hempty, y, e, hy, hformula⟩

/-- A replica was made and listed in the space where it is at home. -/
theorem Unlisted.enriches {s s' source q : Space} {c id p : SpaceId} (hnew : Unlisted m m' id s s' source)
    (ht : m.Tidy) (hadd : m.addReplica s c = (id, m')) (hreplica : s.isStatic = false)
    (hsource : m.spaces.get? c = some source) (hq : m.spaces.get? p = some q) {f : Space → Space}
    (hf : q.Extends (f q)) : Enriches m (m'.modifySpace p f) := by
  have hspaces : ∀ other, (m'.modifySpace p f).spaces.get? other =
      if p = other then some (f q) else if id = other then some s' else m.spaces.get? other := by
    intro other
    rw [get?_modifySpace (hnew.old hq), hnew.spaces]
  have hsource' : (m.addSpace s).2.spaces.get? c = some source := by
    rcases Pool.insert_cases ht.spaces s with hfresh | hsame
    · refine (hfresh.2 c).trans ?_
      rw [if_neg, hsource]
      rintro rfl
      rw [hfresh.1] at hsource
      contradiction
    · exact (hsame c).trans hsource
  have hcopies := fun x d hd => new_of_addReplica ht hadd hsource' (x := x) (d := d) hd
  obtain ⟨spaces, cells, rfl⟩ := addReplica_eq hadd
  refine ⟨rfl, rfl, rfl, rfl, rfl, fun x u hu => ?_, fun x u' hu' hu => ?_,
    fun x d hd => ⟨d, hnew.cells x d hd, .refl d⟩, fun x d hd hnone => ?_, fun _ _ h => h,
    fun a b ha hab => hab⟩
  · rw [hspaces]
    split
    next heq =>
      subst heq
      cases hq.symm.trans hu
      exact ⟨f q, rfl, hf⟩
    next =>
      rw [if_neg, hu]
      · exact ⟨u, rfl, .refl u⟩
      · rintro rfl
        rw [hnew.fresh] at hu
        contradiction
  · rw [hspaces] at hu'
    split at hu'
    next heq =>
      rw [← heq, hq] at hu
      contradiction
    next =>
      split at hu'
      next =>
        cases hu'
        unfold Space.isStatic
        rw [hnew.kind]
        exact hreplica
      next =>
        rw [hu] at hu'
        contradiction
  · obtain ⟨hempty, hformula⟩ := hcopies x d hd hnone
    exact ⟨by rw [hempty]; rfl, hformula⟩

/-- A model whose graph tells the truth and whose replicas are mirrors, between two parts of an
evaluation. -/
structure Running (m : Model) : Prop where
  tracked : m.Tracked fun _ => False
  orderly : m.Orderly

theorem Running.faithful (h : m.Running) (room : m.Addressable) : m.Faithful fun _ => False :=
  h.orderly.proper room

theorem enriches_ensureChild {p : SpaceId} {name : String} {r : Except Failure SpaceId}
    (hm : m.Running) (h : ensureChild p name m = some (r, m')) (room : m'.Addressable) :
    Enriches m m' := by
  have hf := hm.faithful ((fits_ensureChild h).addressable room)
  rcases ensureChild_cases h with ⟨rfl, -⟩ |
      ⟨q, root, pc, outer, c, id, m₁, hq, hfree, hroot, hpc, houter, hlist, hadd, rfl, -⟩
  · exact .refl _
  obtain ⟨outer', houter', hstatic⟩ := hf.counterpart hq hpc
  cases houter.symm.trans houter'
  obtain ⟨source, hsource, -⟩ := hf.owned.static_of_listed houter hstatic hlist
  obtain ⟨s', hnew⟩ := unlisted_addReplica hf.owned hadd ((addressable_modifySpace p _).1 room)
    hsource (lists_of_empty rfl rfl rfl rfl) rfl
  have hreplica : q.isStatic = false := by
    refine Bool.eq_false_iff.2 fun hstatic => ?_
    rw [instanceRoot?_of_static hq hstatic] at hroot
    contradiction
  refine hnew.enriches hf.owned.tidy hadd rfl hsource hq ⟨rfl, fun hs => ?_, fun n i hi => ?_,
    fun _ _ hi => hi⟩
  · rw [hreplica] at hs
    contradiction
  · rw [NameMap.get?_insert, if_neg, hi]
    rintro rfl
    rw [hfree] at hi
    contradiction

theorem enriches_ensureItem {p : SpaceId} {key : Key} {r : Except Failure Handle}
    (hm : m.Running) (hkey : m.KeyFits p key) (h : ensureItem p key m = some (r, m'))
    (room : m'.Addressable) : Enriches m m' := by
  have hf := hm.faithful ((fits_ensureItem h).addressable room)
  rcases ensureItem_cases h with ⟨rfl, -⟩ | ⟨q, hq, ⟨item, -, rfl, -⟩ |
      ⟨c, id, m₁, hc, hdead, hadd, rfl, -⟩⟩
  · exact .refl _
  · exact enriches_noteRead hm.tracked _
  have halike := alike_noteRead (m₁.listItem p key id) (.item p key)
  have room := halike.addressable.1 room
  obtain ⟨source, hsource, -⟩ := hf.counterpart hq hc
  obtain ⟨s', hnew⟩ := unlisted_addReplica hf.owned hadd ((addressable_modifySpace p _).1 room)
    hsource (lists_of_empty rfl rfl rfl rfl) rfl
  have hlist : Enriches m (m₁.listItem p key id) := by
    refine hnew.enriches hf.owned.tidy hadd rfl hsource hq
      ⟨rfl, fun _ => rfl, fun _ _ hi => hi, fun k i hi => ?_⟩
    show (q.instances.insert key id).get? k = some i
    rw [Table.get?_insert, if_neg, hi]
    intro hk
    -- what was listed under the key would be there
    obtain ⟨u, -, -, -, hu, -⟩ := hf.owned.item_of_listed hq hi
    have hgone := hdead i ((Table.get?_congr _ hk).trans hi)
    rw [Pool.contains_iff.2 ⟨u, hu⟩] at hgone
    contradiction
  have htracked : (m₁.listItem p key id).Tracked fun _ => False :=
    (widens_modifySpace m₁ p (fun s => { s with instances := s.instances.insert key id })
      fun _ _ k hk => by rw [Table.contains_insert, hk, Bool.or_true]).tracked
      ((widens_addReplica hadd).tracked hm.tracked)
  exact hlist.trans (enriches_noteRead htracked _)

/-! ## Nodes -/

/-- A value is stored where none was. -/
theorem enriches_store {id : CellId} {c : Cells} {key : Key} {v : Value} {contents : Contents}
    (hc : m.cells.get? id = some c) (hnone : c.contents.get? key = none)
    (hstore : c.contents.store? key v = some contents) :
    Enriches m (m.modifyCell id fun c => { c with contents }) := by
  have hget := get?_modifyContents m id fun _ => contents
  refine ⟨rfl, rfl, rfl, rfl, rfl, fun _ s hs => ⟨s, hs, .refl s⟩, fun x s' hs' hs => ?_,
    fun x d hd => ?_, fun x d' hd' hd => ?_, fun _ _ h => h, fun _ _ _ h => h⟩
  · rw [show m.spaces.get? x = some s' from hs'] at hs
    contradiction
  · refine ⟨_, (hget x).trans (by rw [hd, Option.map_some]), ?_⟩
    split
    next heq =>
      subst heq
      cases hc.symm.trans hd
      obtain ⟨-, rfl⟩ := Contents.store?_eq_some.1 hstore
      refine ⟨rfl, rfl, fun k w hw => ?_⟩
      show (c.contents.values.insert key v).get? k = some w
      rw [Table.get?_insert, if_neg, hw]
      intro hk
      rw [← Table.get?_congr _ hk, (Option.or_eq_none_iff.1 hnone).2] at hw
      contradiction
    next => exact .refl d
  · rw [show (m.modifyCell id _).cells.get? x = _ from hget x, hd] at hd'
    cases hd'

/-- What evaluation does to models: it enriches them, as long as there is room. -/
structure Adds (m m' : Model) : Prop where
  grows : Grows m m'
  enriches : m'.Addressable → Enriches m m'

instance : Frame Adds where
  refl m := ⟨Frame.refl m, fun _ => .refl m⟩
  trans h h' := ⟨Frame.trans h.grows h'.grows, fun room =>
    (h.enriches (h'.grows.fits.addressable room)).trans (h'.enriches room)⟩

/-- The stack and the count of formulas that ran are not part of what is added to. -/
theorem Enriches.beside {stack stack' : Stack} {runs runs' : Nat}
    (h : Enriches { m with stack, runs } m') :
    Enriches m { m' with stack := stack', runs := runs' } :=
  ⟨h.name, h.config, h.roots, h.globals, h.refs, h.spaces, h.replicas, h.cells, h.copies, h.edges,
    h.reads⟩

/-- A failed node had recorded nothing before it was pushed, so what it recorded since may go. -/
theorem enriches_dropReads (h : m.Tracked loose) {n : Node} (hnone : m.isComputed n = false)
    (hstack : m.stack.nodes.contains n = false) (hindexed : m'.graph.Indexed) (he : Enriches m m') :
    Enriches m { m' with graph := m'.graph.dropReads n } := by
  obtain ⟨-, hedge⟩ := Graph.dropReads_spec hindexed n
  refine ⟨he.name, he.config, he.roots, he.globals, he.refs, he.spaces, he.replicas, he.cells,
    he.copies, fun a b hab => ?_, fun a b ha hab => ?_⟩
  · rw [hedge, he.edges a b hab, Bool.and_true, Bool.not_eq_true']
    refine Bool.eq_false_iff.2 fun hna => ?_
    rcases h.reader a b hab with hl | hs
    · rw [← isComputed_congr m hna, hnone] at hl
      contradiction
    · rw [contains_congr_right hna, hs] at hstack
      contradiction
  · rw [hedge, Bool.and_eq_true] at hab
    exact he.reads a b ha hab.2

/-- A node that is not stored can be pushed. -/
theorem Running.pushed (h : m.Running) {id : CellId} {c : Cells} {key : Key} {stack : Stack}
    (hpush : m.stack.push? (.cells id key) = some stack) (hc : m.cells.get? id = some c)
    (hnone : c.contents.get? key = none) : ({ m with stack } : Model).Running :=
  ⟨tracked_push h.tracked hpush hc hnone,
    ⟨h.orderly.tidy.spaces, h.orderly.tidy.cells, h.orderly.tidy.refs⟩,
    (proper_alike (alike_stack m _) h.orderly.proper).1⟩

theorem adds_compute {run : RunFormula} {id : CellId} {c : Cells} {key : Key}
    {r : Except Failure Value}
    (hrun : ∀ id f args, Obeys (Under Running Adds) (run id f args))
    (hc : m.cells.get? id = some c) (hnone : c.contents.get? key = none)
    (h : compute run id c key m = some (r, m')) : Under Running Adds m m' := by
  intro hm
  have hpushed : ∀ {stack}, m.stack.push? (.cells id key) = some stack →
      ({ m with stack } : Model).Running := fun hpush => hm.pushed hpush hc hnone
  obtain ⟨htracked, -⟩ : m'.Tracked (fun _ => False) ∧ Retains m m' :=
    under_compute (fun stack f q m₁ hpush hf _ =>
      ⟨(hrun _ _ _ _ _ _ hf (hpushed hpush)).1.tracked, (hrun _ _ _ _ _ _ hf (hpushed hpush)).2.grows.retains⟩)
      hc hnone h hm.tracked
  obtain ⟨horderly, hgrows⟩ : m'.Orderly ∧ Grows m m' :=
    orderly_compute (fun stack f q m₁ hpush hf _ =>
      ⟨(hrun _ _ _ _ _ _ hf (hpushed hpush)).1.orderly, (hrun _ _ _ _ _ _ hf (hpushed hpush)).2.grows⟩)
      h hm.orderly
  refine ⟨⟨htracked, horderly⟩, hgrows, fun room => ?_⟩
  rcases compute_cases h with ⟨rfl, -⟩ | ⟨stack, q, m₁, hpush, -, hcells, hfinish⟩
  · exact .refl _
  have room₁ : m₁.Addressable :=
    (Frame.trans (alike_stack m₁ m₁.stack.pop) (alike_finish hfinish).1).addressable.1 room
  obtain ⟨hm₁, hretains, hinner⟩ :
      m₁.Running ∧ Retains { m with stack } m₁ ∧ Enriches { m with stack } m₁ := by
    rcases runCells_cases hcells with ⟨-, rfl, -⟩ | ⟨f, r, -, hf, -⟩
    · exact ⟨hpushed hpush, Frame.refl _, .refl _⟩
    · obtain ⟨hm₁, hadds⟩ := hrun _ _ _ _ _ _ hf (hpushed hpush)
      exact ⟨hm₁, hadds.grows.retains, hadds.enriches room₁⟩
  have hran : Enriches m { m₁ with stack := m₁.stack.pop } := hinner.beside
  have hnodes : m₁.stack.nodes = .cells id key :: m.stack.nodes :=
    hretains.stack.trans (Stack.nodes_of_push? hpush)
  cases q with
  | error e =>
    cases hfinish
    exact enriches_dropReads hm.tracked (not_isComputed rfl hc hnone)
      (not_contains_of_push? hpush) hm₁.tracked.indexed hran
  | ok v =>
    obtain ⟨other, c₁, he, hc₁, hnone₁⟩ :=
      hm₁.tracked.waiting (.cells id key) (by rw [hnodes]; exact List.mem_cons_self)
    cases he
    have hfree := Contents.inputs_eq_none_iff.1 (Option.or_eq_none_iff.1 hnone₁).1
    obtain ⟨contents, hstore⟩ : ∃ contents, c₁.contents.store? key v = some contents :=
      ⟨_, Contents.store?_eq_some.2 ⟨hfree, rfl⟩⟩
    rw [finish_of_store (m := { m₁ with stack := m₁.stack.pop }) hc₁ hstore] at hfinish
    cases hfinish
    have hstored := enriches_store (m := { m₁ with stack := m₁.stack.pop }) hc₁ hnone₁ hstore
    exact hran.trans (hstored.trans
      (enriches_noteRead (tracked_store hm₁.tracked hnodes hc₁ hstore).1 _))

/-- Evaluation enriches models. -/
theorem evaluationFrame_adds : EvaluationFrame Running Adds where
  frame := inferInstance
  start m hm := by
    obtain ⟨ht, hr⟩ := evaluationFrame_tracked.start m hm.tracked
    obtain ⟨ho, hg⟩ := evaluationFrame_orderly.start m hm.orderly
    exact ⟨⟨ht, ho⟩, hg, fun _ => (Enriches.refl m).beside⟩
  note m n hn hm := by
    obtain ⟨ht, hr⟩ := evaluationFrame_tracked.note m n hn hm.tracked
    obtain ⟨ho, hg⟩ := evaluationFrame_orderly.note m n hn hm.orderly
    exact ⟨⟨ht, ho⟩, hg, fun _ => enriches_noteRead hm.tracked n⟩
  child p name m r m' h hm := by
    obtain ⟨ht, hr⟩ := evaluationFrame_tracked.child p name m r m' h hm.tracked
    obtain ⟨ho, hg⟩ := evaluationFrame_orderly.child p name m r m' h hm.orderly
    exact ⟨⟨ht, ho⟩, hg, fun room => enriches_ensureChild hm h room⟩
  signature _ _ h _ _ hspec := h.grows.retains.signature hspec
  item id key m r m' hkey h hm := by
    obtain ⟨ht, hr⟩ := evaluationFrame_tracked.item id key m r m' hkey h hm.tracked
    obtain ⟨ho, hg⟩ := evaluationFrame_orderly.item id key m r m' hkey h hm.orderly
    exact ⟨⟨ht, ho⟩, hg, fun room => enriches_ensureItem hm hkey h room⟩
  node _ hrun _ _ _ _ _ _ hc hnone h := adds_compute hrun (cell_eq_ok.1 hc) hnone h

end Parts

end Model

end Recalc
