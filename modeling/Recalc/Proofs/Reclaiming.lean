import Recalc.Proofs.Alteration
import Recalc.Proofs.MirroredRequests
import Recalc.Proofs.Upholding

set_option autoImplicit false

/-!
# What reclamation takes along

Reclamation destroys instances, and every value that rested on one of them is forgotten, wherever
it is stored. Nothing else is lost: what a space that stays is made of stays with it, and a value
stays unless something goes that it was computed from.
-/

namespace Recalc.Model

open Recalc.Action

/-- What the node is about is not there: its cells, its reference or its instance. -/
def Gone (m : Model) (n : Node) : Prop :=
  match n.entity with
  | .cells id => m.cells.get? id = none
  | .space id => ∀ s, m.spaces.get? id = some s → s.instances.get? n.key = none
  | .ref id => m.refs.get? id = none

theorem gone_of_space {m : Model} {id : SpaceId} {n : Node} (h : m.spaces.get? id = none)
    (hn : n.entity = .space id) : m.Gone n := by
  unfold Gone
  rw [hn]
  intro s hs
  cases h.symm.trans hs

variable {m m' : Model}

/-- No read is recorded, and the values and recorded reads that are lost rested on nodes of `P`. -/
structure Costs (P : Node → Prop) (m m' : Model) : Prop where
  edges : ∀ a b, m'.graph.hasEdge a b = true → m.graph.hasEdge a b = true
  values : ∀ a, m.isComputed a = true → m'.isComputed a = true ∨ ∃ b, m.RestsOn a b ∧ P b
  reads : ∀ a b, m.graph.hasEdge a b = true →
    m'.graph.hasEdge a b = true ∨ ∃ c, m.RestsOn a c ∧ P c

instance (P : Node → Prop) : Frame (Costs P) where
  refl _ := ⟨fun _ _ h => h, fun _ h => .inl h, fun _ _ h => .inl h⟩
  trans {m₁ m₂ m₃} h h' := by
    refine ⟨fun a b hab => h.edges a b (h'.edges a b hab), fun a ha => ?_, fun a b hab => ?_⟩
    · rcases h.values a ha with ha | hlost
      · exact (h'.values a ha).imp_right fun ⟨b, hab, hb⟩ => ⟨b, hab.mono h.edges, hb⟩
      · exact .inr hlost
    · rcases h.reads a b hab with hab | hlost
      · exact (h'.reads a b hab).imp_right fun ⟨c, hac, hc⟩ => ⟨c, hac.mono h.edges, hc⟩
      · exact .inr hlost

theorem Costs.mono {P Q : Node → Prop} (h : Costs P m m') (hpq : ∀ n, P n → Q n) : Costs Q m m' :=
  ⟨h.edges, fun a ha => (h.values a ha).imp_right fun ⟨b, hab, hb⟩ => ⟨b, hab, hpq b hb⟩,
    fun a b hab => (h.reads a b hab).imp_right fun ⟨c, hac, hc⟩ => ⟨c, hac, hpq c hc⟩⟩

/-! ## Forgetting -/

/-- What is forgotten with a node rested on it. -/
theorem costs_invalidate (hg : m.graph.Indexed) (n : Node) :
    Costs (· = n) m (m.invalidate n).2 := by
  obtain ⟨gone, hforgets, hrests⟩ := forgets_invalidate m n
  obtain ⟨-, hedge⟩ := hforgets.graph hg
  refine ⟨fun a b hab => ?_, fun a ha => ?_, fun a b hab => ?_⟩
  · rw [hedge, Bool.and_eq_true] at hab
    exact hab.2
  · rw [hforgets.isComputed, ha, Bool.and_true]
    cases hgone : gone a with
    | true => exact .inr ⟨n, (hrests hg a).1 hgone, rfl⟩
    | false => exact .inl rfl
  · rw [hedge, hab, Bool.and_true]
    cases hgone : gone a with
    | true => exact .inr ⟨n, (hrests hg a).1 hgone, rfl⟩
    | false => exact .inl rfl

theorem ForgetsSome.indexed (h : ForgetsSome m m') (hg : m.graph.Indexed) : m'.graph.Indexed :=
  (h.choose_spec.graph hg).1

theorem costs_invalidateCells (hg : m.graph.Indexed) (id : CellId) :
    Costs (·.entity = .cells id) m (m.invalidateCells id).2 := by
  have key : ∀ (nodes : List Node) (r : Nat × Model), (∀ n ∈ nodes, n.entity = .cells id) →
      r.2.graph.Indexed → Costs (·.entity = .cells id) r.2 (nodes.foldl
        (fun r n => (r.1 + (r.2.invalidate n).1, (r.2.invalidate n).2)) r).2 := by
    intro nodes
    induction nodes with
    | nil => exact fun r _ _ => Frame.refl r.2
    | cons n nodes ih =>
      intro r hnodes hr
      have hfirst := (costs_invalidate hr n).mono fun b hb => hb ▸ hnodes n List.mem_cons_self
      have hindexed := (forgetsAll_invalidate r.2 n).forgetsSome.indexed hr
      exact Frame.trans hfirst
        (ih (r.1 + (r.2.invalidate n).1, _) (fun b hb => hnodes b (List.mem_cons_of_mem _ hb)) hindexed)
  refine key _ (0, m) (fun n hn => ?_) hg
  have habout : ∀ b ∈ m.graph.nodesAbout (.cells id), b.entity = .cells id := by
    intro b hb
    have hcontains := Graph.contains_nodesAbout m.graph (.cells id) b
    rw [contains_of_mem hb, eq_comm, Bool.and_eq_true, beq_iff_eq] at hcontains
    exact hcontains.1
  unfold nodesOfCells at hn
  split at hn
  next =>
    rcases List.mem_append.1 hn with hn | hn
    · exact habout n hn
    · obtain ⟨k, -, rfl⟩ := List.mem_map.1 (List.mem_filter.1 hn).1
      rfl
  next => exact habout n hn

theorem costs_prune (hg : m.graph.Indexed) (e : Entity) : Costs (·.entity = e) m (m.prune e) := by
  have hedge : ∀ a b, (m.prune e).graph.hasEdge a b = _ := (Graph.prune_spec hg e).2
  refine ⟨fun a b hab => ?_, fun a ha => .inl ha, fun a b hab => ?_⟩
  · rw [hedge, Bool.and_eq_true, Bool.and_eq_true] at hab
    exact hab.1.1
  · by_cases ha : a.entity = e
    · exact .inr ⟨a, .self BEq.rfl, ha⟩
    by_cases hb : b.entity = e
    · exact .inr ⟨b, .read hab (.self BEq.rfl), hb⟩
    rw [hedge, hab, beq_eq_false_iff_ne.2 ha, beq_eq_false_iff_ne.2 hb]
    exact .inl rfl

/-! ## Destruction -/

/-- What goes stays away, and only what rested on something that is gone is lost. -/
structure Bereaves (m m' : Model) : Prop where
  gone : ∀ n, m.Gone n → m'.Gone n
  costs : Costs m'.Gone m m'

instance : Frame Bereaves where
  refl _ := ⟨fun _ h => h, Frame.refl _⟩
  trans h h' := ⟨fun n hn => h'.gone n (h.gone n hn), Frame.trans (h.costs.mono h'.gone) h'.costs⟩

theorem Sheds.gone {W : Entity → Prop} (h : Sheds W m m') {n : Node} (hn : m.Gone n) :
    m'.Gone n := by
  unfold Gone at hn ⊢
  split
  next id he =>
    simp only [he] at hn
    rcases h.record (.cells id) with heq | ⟨-, hnone⟩
    · simpa [record?, hn] using heq
    · simpa [record?] using hnone
  next id he =>
    simp only [he] at hn
    exact fun s hs => hn s (h.space hs)
  next id he =>
    simp only [he] at hn
    rcases h.record (.ref id) with heq | ⟨-, hnone⟩
    · simpa [record?, hn] using heq
    · simpa [record?] using hnone

theorem bereaves_invalidate {n : Node} (hg : m.graph.Indexed) (hn : m.Gone n) :
    Bereaves m (m.invalidate n).2 := by
  have hgone : ∀ b, m.Gone b → (m.invalidate n).2.Gone b := fun _ =>
    ((forgetsAll_invalidate m n).forgetsSome.alike.sheds fun _ => False).gone
  exact ⟨hgone, (costs_invalidate hg n).mono fun b hb => hb ▸ hgone n hn⟩

/-- A change that leaves the graph and all cells alone costs nothing. -/
theorem bereaves_of_graph (hcells : m'.cells = m.cells) (hgraph : m'.graph = m.graph)
    (hgone : ∀ n, m.Gone n → m'.Gone n) : Bereaves m m' := by
  refine ⟨hgone, fun a b hab => ?_, fun a ha => .inl ?_, fun a b hab => .inl ?_⟩
  · rwa [hgraph] at hab
  · unfold isComputed at ha ⊢
    rwa [hcells]
  · rwa [hgraph]

theorem bereaves_destroyCells (m : Model) (id : CellId) :
    Under (·.graph.Indexed) Bereaves m (m.destroyCells id) := by
  intro hg
  have hindexed := (forgetsAll_invalidateCells m id).forgetsSome.indexed hg
  have hsheds := sheds_destroyCells (W := fun _ => True) m id trivial
  have hcells := Pool.get?_erase (m.invalidateCells id).2.cells id
  refine ⟨(Graph.prune_spec hindexed _).1, fun _ => hsheds.gone,
    Costs.mono (P := (·.entity = .cells id)) ?_ fun n hn => ?_⟩
  · refine Frame.trans (costs_invalidateCells hg id) (Frame.trans (costs_prune hindexed _) ?_)
    refine ⟨fun _ _ h => h, fun a ha => ?_, fun _ _ h => .inl h⟩
    obtain ⟨other, c, he, hc, hk⟩ := isComputed_iff.1 ha
    by_cases h : id = other
    · exact .inr ⟨a, .self BEq.rfl, by rw [he, h]⟩
    · exact .inl (isComputed_iff.2 ⟨other, c, he, ((hcells other).trans (if_neg h)).trans hc, hk⟩)
  · unfold Gone
    rw [hn]
    exact (hcells id).trans (if_pos rfl)

theorem bereaves_destroyReference (m : Model) (id : RefId) :
    Under (·.graph.Indexed) Bereaves m (m.destroyReference id) := by
  intro hg
  have hindexed := (forgetsAll_invalidate m (.ref id)).forgetsSome.indexed hg
  have hsheds := sheds_destroyReference (W := fun _ => True) m id trivial
  have hrefs := Pool.get?_erase (m.invalidate (.ref id)).2.refs id
  refine ⟨(Graph.prune_spec hindexed _).1, fun _ => hsheds.gone,
    Costs.mono (P := (·.entity = .ref id)) ?_ fun n hn => ?_⟩
  · have hforget := (costs_invalidate hg (.ref id)).mono (Q := (·.entity = .ref id)) fun _ hb =>
      congrArg Node.entity hb
    exact Frame.trans hforget (Frame.trans (costs_prune hindexed _)
      ⟨fun _ _ h => h, fun _ ha => .inl ha, fun _ _ h => .inl h⟩)
  · unfold Gone
    rw [hn]
    exact (hrefs id).trans (if_pos rfl)

theorem bereaves_prune {e : Entity} (hg : m.graph.Indexed)
    (hgone : ∀ n, n.entity = e → m.Gone n) : Bereaves m (m.prune e) :=
  ⟨fun _ h => h, (costs_prune hg e).mono hgone⟩

theorem bereaves_destroyTree (fuel : Nat) (m : Model) (id : SpaceId) :
    Under (·.graph.Indexed) Bereaves m (destroyTree fuel m id) := by
  induction fuel generalizing m id with
  | zero => exact Frame.refl m
  | succ fuel ih =>
    intro hg
    unfold destroyTree
    split
    next => exact ⟨hg, Frame.refl m⟩
    next s spaces hremove =>
      obtain ⟨hs, rfl⟩ := (Pool.remove?_eq_some _ _).1 hremove
      have hcut : Bereaves m { m with spaces := m.spaces.erase id } :=
        bereaves_of_graph rfl rfl fun _ =>
          (sheds_eraseSpace (W := fun _ => True) hs trivial).gone
      have hown : ∀ n, n.entity = .space id → Gone { m with spaces := m.spaces.erase id } n :=
        fun _ => gone_of_space ((Pool.get?_erase m.spaces id id).trans (if_pos rfl))
      -- the space went first, so its instances are gone when what read them is forgotten
      obtain ⟨hindexed, hinstances, hgone⟩ := foldl_keeps
        (P := fun m₁ : Model => m₁.graph.Indexed ∧ Bereaves m m₁ ∧
          ∀ n, n.entity = .space id → m₁.Gone n)
        (f := fun m (e : Key × SpaceId) => destroyTree fuel (m.invalidate (.item id e.1)).2 e.2)
        (fun m₁ e h => by
          obtain ⟨hg₁, hm₁, hown₁⟩ := h
          have hforget := (forgetsAll_invalidate m₁ (.item id e.1)).forgetsSome.indexed hg₁
          obtain ⟨hg₂, htree⟩ := ih _ e.2 hforget
          have hstep := Frame.trans (bereaves_invalidate hg₁ (hown₁ (.item id e.1) rfl)) htree
          exact ⟨hg₂, Frame.trans hm₁ hstep, fun n hn => hstep.gone n (hown₁ n hn)⟩)
        s.instances.entries (b := { m with spaces := m.spaces.erase id }) ⟨hg, hcut, hown⟩
      have hprune := bereaves_prune hindexed hgone
      have hmembers : ∀ m₁, Under (·.graph.Indexed) Bereaves m₁ (s.spaces.values.foldl
          (destroyTree fuel) (s.refs.values.foldl destroyReference
            (s.cells.values.foldl destroyCells m₁))) := fun m₁ =>
        Frame.trans (foldl_obeys bereaves_destroyCells s.cells.values m₁)
          (Frame.trans (foldl_obeys bereaves_destroyReference s.refs.values _)
            (foldl_obeys ih s.spaces.values _))
      have hpruned : (prune _ (.space id)).graph.Indexed := (Graph.prune_spec hindexed _).1
      obtain ⟨hg', hrest⟩ := hmembers _ hpruned
      exact ⟨hg', Frame.trans hinstances (Frame.trans hprune hrest)⟩

theorem bereaves_removeInstance (m : Model) (owner : SpaceId) (key : Key) :
    Under (·.graph.Indexed) Bereaves m (m.removeInstance owner key).2 := by
  intro hg
  unfold removeInstance
  split
  next => exact ⟨hg, Frame.refl m⟩
  next item _ =>
    have hcut : Bereaves m (m.modifySpace owner fun s =>
        { s with instances := s.instances.erase key }) := by
      refine bereaves_of_graph rfl rfl fun n hn => ?_
      cases he : n.entity with
      | space id =>
        simp only [Gone, he] at hn ⊢
        intro t' ht'
        obtain ⟨t, ht, -, hsub⟩ := (drops_eraseInstance m owner key).space id t' ht'
        cases hi : t'.instances.get? n.key with
        | none => rfl
        | some i => exact absurd (hsub _ i hi) (by simp [hn t ht])
      | cells id =>
        simp only [Gone, he] at hn ⊢
        exact hn
      | ref id =>
        simp only [Gone, he] at hn ⊢
        exact hn
    have hgone : Gone (m.modifySpace owner fun s => { s with instances := s.instances.erase key })
        (.item owner key) := by
      intro t' ht'
      obtain ⟨t, -, rfl⟩ := Option.map_eq_some_iff.1
        (((Pool.get?_modify m.spaces owner owner _).trans (if_pos rfl)).symm.trans ht')
      exact (Table.get?_erase t.instances key key).trans (if_pos BEq.rfl)
    have hindexed := (forgetsAll_invalidate (m.modifySpace owner fun s =>
      { s with instances := s.instances.erase key }) (.item owner key)).forgetsSome.indexed hg
    obtain ⟨hg', htree⟩ := bereaves_destroyTree _ _ item hindexed
    exact ⟨hg', Frame.trans hcut (Frame.trans (bereaves_invalidate hg hgone) htree)⟩

/-- What is at home in a space that stays, or in the model, stays. -/
theorem Drops.stays (h : Drops m m') (hm : m.Owned) (hm' : m'.Owned) {e : Entity} {a : Address}
    (ha : m.home? e = some a) (hitem : ∀ p k, a ≠ .item p k)
    (hspace : ∀ p, a.space? = some p → m'.spaces.contains p = true) :
    ∃ b, m'.home? e = some b := by
  have hlisted := hm.listed ha
  refine (hm'.linked.sound a e ?_).imp fun _ h => h.1
  cases hp : a.space? with
  | none =>
    unfold listed at hlisted ⊢
    rw [hp] at hlisted ⊢
    unfold listsTop at hlisted ⊢
    rwa [h.roots, h.globals]
  | some p =>
    obtain ⟨s', hs'⟩ := Pool.contains_iff.1 (hspace p hp)
    obtain ⟨s, hs, heq, -⟩ := h.space p s' hs'
    rw [listed_of_space hp hs] at hlisted
    rw [listed_of_space hp hs', heq]
    cases a with
    | item p k => exact absurd rfl (hitem p k)
    | _ => exact hlisted

/-- Cells stay with their space. -/
theorem Drops.keepsCells (h : Drops m m') (hm : m.Owned) (hm' : m'.Owned) {id : CellId} {c : Cells}
    (hc : m.cells.get? id = some c) (hspace : m'.spaces.contains c.space = true) :
    ∃ c', m'.cells.get? id = some c' ∧ c'.bare = c.bare := by
  obtain ⟨b, hb⟩ := h.stays hm hm' (home?_cells hc) (fun _ _ => by simp [Cells.home])
    fun p hp => by
      cases hp
      exact hspace
  obtain ⟨c', hc', -⟩ := cells_of_home? hb
  obtain ⟨d, hd, hbare⟩ := h.cells id c' hc'
  cases hc.symm.trans hd
  exact ⟨c', hc', hbare⟩

theorem Drops.keepsRefs (h : Drops m m') (hm : m.Owned) (hm' : m'.Owned) (id : RefId) :
    m'.refs.get? id = m.refs.get? id := by
  cases hr : m.refs.get? id with
  | none =>
    refine Option.eq_none_iff_forall_ne_some.2 fun r' hr' => ?_
    cases hr.symm.trans (h.refs id r' hr')
  | some r =>
    -- only static spaces hold references, and those stay
    have hholder : ∀ p, r.home.space? = some p → m'.spaces.contains p = true := by
      intro p hp
      obtain ⟨s, hs, hlists⟩ := hm.holder (home?_ref hr) hp
      refine Pool.contains_iff.2 (h.static p s hs ?_)
      by_contra hstatic
      have hempty := (hm.placed p s hs).refs (Bool.eq_false_iff.2 hstatic)
      unfold Reference.home at hp hlists
      split at hlists
      next => simp [Space.lists, hempty, NameMap.get?_empty] at hlists
      next howner => simp [howner, Address.space?] at hp
    obtain ⟨b, hb⟩ := h.stays hm hm' (home?_ref hr)
      (fun _ _ => by unfold Reference.home; split <;> simp) hholder
    obtain ⟨r', hr', -⟩ := ref_of_home? hb
    cases hr.symm.trans (h.refs id r' hr')
    exact hr'

theorem bereaves_reclaim (hg : m.graph.Indexed) (held : List Handle) :
    Bereaves m (m.reclaim held).2 :=
  (reclaim_obeys bereaves_removeInstance held m hg).2

end Recalc.Model

namespace Recalc

open Recalc.Model Recalc.Action

/-- What reclamation leaves of a model. -/
structure Reclaimed (m m' : Model) : Prop where
  roots : m'.roots = m.roots
  globals : m'.globals = m.globals
  /-- A space that stays is as it was, but for instances that went. -/
  space : ∀ id s', m'.spaces.get? id = some s' → ∃ s, m.spaces.get? id = some s ∧
    s' = { s with instances := s'.instances } ∧
    ∀ k i, s'.instances.get? k = some i → s.instances.get? k = some i
  static : ∀ id s, m.spaces.get? id = some s → s.isStatic = true →
    ∃ s', m'.spaces.get? id = some s'
  /-- Cells go with their space; the others keep their definition and their inputs. -/
  cells : ∀ id c, m.cells.get? id = some c → if m'.spaces.contains c.space then
    ∃ c', m'.cells.get? id = some c' ∧ c'.bare = c.bare ∧ c'.contents.inputs = c.contents.inputs
    else m'.cells.get? id = none
  refs : ∀ id, m'.refs.get? id = m.refs.get? id
  /-- A value that stays is the one that was there, and so is what it was computed from. -/
  upheld : Upheld m m'
  /-- A value that is lost rested on something that is gone. -/
  lost : ∀ a, m.isComputed a = true → m'.isComputed a = false → ∃ b, m.RestsOn a b ∧ m'.Gone b

theorem Model.Orderly.reclaims {m : Model} (h : m.Orderly) (hcalm : m.Calm)
    (room : m.Addressable) (held : List Handle) : Reclaimed m (m.reclaim held).2 := by
  have hm := (h.proper room).owned
  obtain ⟨howned, hdrops⟩ := reclaim_obeys under_removeInstance held m hm
  have hinputs : KeepsInputs m (m.reclaim held).2 :=
    reclaim_obeys (fun m owner key => (trimsCells_removeInstance m owner key).keepsInputs) held m
  obtain ⟨hcalm', hupholds⟩ : (m.reclaim held).2.Calm ∧ Upholds m (m.reclaim held).2 :=
    reclaim_obeys editFrame_upholds.removeInstance held m hcalm
  have hbereaves := bereaves_reclaim hcalm.indexed held
  refine ⟨hdrops.roots, hdrops.globals, hdrops.space, hdrops.static, fun id c hc => ?_,
    hdrops.keepsRefs hm howned, hupholds.upheld hcalm', fun a ha ha' => ?_⟩
  · split
    next hspace =>
      obtain ⟨c', hc', hbare⟩ := hdrops.keepsCells hm howned hc hspace
      obtain ⟨d, hd, hsame⟩ := hinputs id c' hc'
      cases hc.symm.trans hd
      exact ⟨c', hc', hbare, hsame⟩
    next hspace =>
      refine Option.eq_none_iff_forall_ne_some.2 fun c' hc' => hspace ?_
      obtain ⟨d, hd, hbare⟩ := hdrops.cells id c' hc'
      cases hc.symm.trans hd
      obtain ⟨s, hs, -⟩ := howned.holder (home?_cells hc') rfl
      rw [← (Cells.mk.inj hbare).2.1]
      exact Pool.contains_iff.2 ⟨s, hs⟩
  · exact (hbereaves.costs.values a ha).resolve_left (by simp [ha'])

end Recalc
