import Recalc.Proofs.EditLaws
import Recalc.Proofs.ListingLaws
import Recalc.Proofs.OwnedRemoval
import Recalc.Proofs.TrackedRequests

set_option autoImplicit false

/-!
# What edits leave stored

An edit of the definitions forgets values and computes none. A value that it leaves stored was
stored before, by cells whose formula and setting are the same, and whatever it is recorded to have
read is still recorded and stands for what it stood for.
-/

namespace Recalc

inductive Standing where
  | value (v : Value)
  | space (id : SpaceId)
  | binding (value : Value) (mode : RefMode) (relative : Bool) (origin : Option SpaceId)

def Node.Regular (n : Node) : Prop := ∀ id, n.entity = .ref id → (Node.ref id == n) = true

namespace Model

open Recalc.Action

/-- The value stored at a node, its instance, or what its reference is bound to. -/
def standing? (m : Model) (n : Node) : Option Standing :=
  match n.entity with
  | .cells id => ((m.cells.get? id).bind (·.contents.get? n.key)).map .value
  | .space id => ((m.spaces.get? id).bind (·.instances.get? n.key)).map .space
  | .ref id => (m.refs.get? id).map fun r => .binding r.value r.mode r.relative r.origin

def HasRead (m : Model) (a b : Node) : Prop := m.graph.hasEdge a b = true ∧ b.Regular

/-- What is stored afterwards was stored before under the same definition in the same space, its
reads are recorded still, and no more are recorded; what they stand for, they stood for before. -/
structure Upholds (m m' : Model) : Prop where
  stored : ∀ id c' k v, m'.cells.get? id = some c' → c'.contents.values.get? k = some v →
    ∃ c, m.cells.get? id = some c ∧ c.contents.values.get? k = some v ∧
      c'.formula = c.formula ∧ c'.allowNone = c.allowNone ∧ c'.space = c.space
  reads : ∀ a b, m'.isComputed a = true → m.HasRead a b → m'.HasRead a b
  edges : ∀ a b, m'.graph.hasEdge a b = true → m.graph.hasEdge a b = true
  standing : ∀ a b x, m'.HasRead a b → m'.standing? b = some x → m.standing? b = some x

variable {m m' : Model}

theorem isLive_eq (m : Model) (n : Node) : m.isLive n = (m.standing? n).isSome := by
  cases he : n.entity with
  | cells id =>
    simp only [isLive, standing?, he]
    cases m.cells.get? id <;> simp
  | space id =>
    simp only [isLive, standing?, he]
    cases m.spaces.get? id <;> simp [Table.contains_eq_isSome]
  | ref id =>
    simp only [isLive, standing?, he, Pool.contains]
    cases m.refs.get? id <;> rfl

/-- What a node stands for is found again where the pools have it. -/
theorem standing?_of_pools {n : Node} {x : Standing} (hx : m'.standing? n = some x)
    (hcells : ∀ id c' v, n.entity = .cells id → m'.cells.get? id = some c' →
      c'.contents.get? n.key = some v → ∃ c, m.cells.get? id = some c ∧
        c.contents.get? n.key = some v)
    (hspaces : ∀ id s' i, n.entity = .space id → m'.spaces.get? id = some s' →
      s'.instances.get? n.key = some i → ∃ s, m.spaces.get? id = some s ∧
        s.instances.get? n.key = some i)
    (hrefs : ∀ id r, n.entity = .ref id → m'.refs.get? id = some r → m.refs.get? id = some r) :
    m.standing? n = some x := by
  cases he : n.entity with
  | cells id =>
    simp only [standing?, he] at hx ⊢
    obtain ⟨v, hv, rfl⟩ := Option.map_eq_some_iff.1 hx
    obtain ⟨c', hc', hv⟩ := Option.bind_eq_some_iff.1 hv
    obtain ⟨c, hc, hv⟩ := hcells id c' v he hc' hv
    rw [hc, Option.bind_some, hv, Option.map_some]
  | space id =>
    simp only [standing?, he] at hx ⊢
    obtain ⟨i, hi, rfl⟩ := Option.map_eq_some_iff.1 hx
    obtain ⟨s', hs', hi⟩ := Option.bind_eq_some_iff.1 hi
    obtain ⟨s, hs, hi⟩ := hspaces id s' i he hs' hi
    rw [hs, Option.bind_some, hi, Option.map_some]
  | ref id =>
    simp only [standing?, he] at hx ⊢
    obtain ⟨r, hr, rfl⟩ := Option.map_eq_some_iff.1 hx
    rw [hrefs id r he hr, Option.map_some]

theorem Upholds.isComputed (h : Upholds m m') {n : Node} (hn : m'.isComputed n = true) :
    m.isComputed n = true := by
  obtain ⟨id, c', he, hc', hk⟩ := isComputed_iff.1 hn
  rw [Contents.hasComputed, Table.contains_eq_isSome] at hk
  obtain ⟨v, hv⟩ := Option.isSome_iff_exists.1 hk
  obtain ⟨c, hc, hv, -⟩ := h.stored id c' n.key v hc' hv
  refine isComputed_iff.2 ⟨id, c, he, hc, ?_⟩
  rw [Contents.hasComputed, Table.contains_eq_isSome, hv]
  rfl

instance : Frame Upholds where
  refl m := ⟨fun _ c _ _ hc hv => ⟨c, hc, hv, rfl, rfl, rfl⟩, fun _ _ _ h => h, fun _ _ h => h,
    fun _ _ _ _ h => h⟩
  trans {m₁ m₂ m₃} h h' := by
    refine ⟨fun id c₃ k v hc₃ hv₃ => ?_, fun a b ha hab => ?_, fun a b hab => ?_,
      fun a b x hab hx => ?_⟩
    · obtain ⟨c₂, hc₂, hv₂, hf₂, ha₂, hs₂⟩ := h'.stored id c₃ k v hc₃ hv₃
      obtain ⟨c₁, hc₁, hv₁, hf₁, ha₁, hs₁⟩ := h.stored id c₂ k v hc₂ hv₂
      exact ⟨c₁, hc₁, hv₁, hf₂.trans hf₁, ha₂.trans ha₁, hs₂.trans hs₁⟩
    · exact h'.reads a b ha (h.reads a b (h'.isComputed ha) hab)
    · exact h.edges a b (h'.edges a b hab)
    · exact h.standing a b x ⟨h'.edges a b hab.1, hab.2⟩ (h'.standing a b x hab hx)

/-! ## Changes that leave the graph alone -/

/-- Cells that hold something are as they were, no instance comes, and no reference that was read
is another one. -/
theorem upholds_of_graph (hgraph : m'.graph = m.graph)
    (hcells : ∀ id c', m'.cells.get? id = some c' → c'.contents = .empty ∨
      ∃ c, m.cells.get? id = some c ∧ c'.contents = c.contents ∧ c'.formula = c.formula ∧
        c'.allowNone = c.allowNone ∧ c'.space = c.space)
    (hinstances : ∀ id s' k i, m'.spaces.get? id = some s' → s'.instances.get? k = some i →
      ∃ s, m.spaces.get? id = some s ∧ s.instances.get? k = some i)
    (hrefs : ∀ a b id r, m.HasRead a b → b.entity = .ref id → m'.refs.get? id = some r →
      m.refs.get? id = some r) : Upholds m m' := by
  refine ⟨fun id c' k v hc' hv => ?_, fun a b _ hab => ⟨by rw [hgraph]; exact hab.1, hab.2⟩,
    fun a b hab => by rwa [hgraph] at hab, fun a b x hab hx => ?_⟩
  · rcases hcells id c' hc' with hnew | ⟨c, hc, hsame, hdefinition⟩
    · rw [hnew, Contents.empty, Table.get?_empty] at hv
      contradiction
    · exact ⟨c, hc, by rw [← hsame]; exact hv, hdefinition⟩
  · have hab : m.HasRead a b := ⟨by rw [← hgraph]; exact hab.1, hab.2⟩
    refine standing?_of_pools hx (fun id c' v _ hc' hv => ?_)
      (fun id s' i _ hs' hi => hinstances id s' b.key i hs' hi)
      fun id r hb hr => hrefs a b id r hab hb hr
    rcases hcells id c' hc' with hnew | ⟨c, hc, hsame, -⟩
    · rw [hnew, Contents.get?, Contents.empty, Table.get?_empty] at hv
      contradiction
    · exact ⟨c, hc, by rw [← hsame, hv]⟩

section Definitions

variable (m)

theorem upholds_listings (roots : NameMap SpaceId) (globals : NameMap RefId) :
    Upholds m { m with roots, globals } :=
  upholds_of_graph rfl (fun _ c hc => .inr ⟨c, hc, rfl, rfl, rfl, rfl⟩)
    (fun _ s _ _ hs hi => ⟨s, hs, hi⟩) fun _ _ _ _ _ _ hr => hr

theorem upholds_modifySpace (id : SpaceId) (f : Space → Space)
    (hf : ∀ s k i, (f s).instances.get? k = some i → s.instances.get? k = some i) :
    Upholds m (m.modifySpace id f) := by
  refine upholds_of_graph rfl (fun _ c hc => .inr ⟨c, hc, rfl, rfl, rfl, rfl⟩)
    (fun other s' k i hs' hi => ?_) fun _ _ _ _ _ _ hr => hr
  replace hs' := (Pool.get?_modify m.spaces id other f).symm.trans hs'
  split at hs'
  next heq =>
    obtain ⟨s, hs, rfl⟩ := Option.map_eq_some_iff.1 hs'
    exact ⟨s, by rw [← heq, hs], hf s k i hi⟩
  next => exact ⟨s', hs', hi⟩

theorem upholds_recast (id : CellId) (flag : Bool) :
    Upholds m (m.modifyCell id fun c => { c with derived := flag }) := by
  refine upholds_of_graph rfl (fun other c' hc' => ?_) (fun _ s _ _ hs hi => ⟨s, hs, hi⟩)
    fun _ _ _ _ _ _ hr => hr
  replace hc' := (Pool.get?_modify m.cells id other _).symm.trans hc'
  split at hc'
  next heq =>
    obtain ⟨c, hc, rfl⟩ := Option.map_eq_some_iff.1 hc'
    exact .inr ⟨c, by rw [← heq, hc], rfl, rfl, rfl, rfl⟩
  next => exact .inr ⟨c', hc', rfl, rfl, rfl, rfl⟩

theorem upholds_eraseCells (id : CellId) : Upholds m { m with cells := m.cells.erase id } := by
  refine upholds_of_graph rfl (fun other c' hc' => ?_) (fun _ s _ _ hs hi => ⟨s, hs, hi⟩)
    fun _ _ _ _ _ _ hr => hr
  replace hc' := (Pool.get?_erase m.cells id other).symm.trans hc'
  split at hc'
  next => contradiction
  next => exact .inr ⟨c', hc', rfl, rfl, rfl, rfl⟩

theorem upholds_eraseRef (id : RefId) : Upholds m { m with refs := m.refs.erase id } := by
  refine upholds_of_graph rfl (fun _ c hc => .inr ⟨c, hc, rfl, rfl, rfl, rfl⟩)
    (fun _ s _ _ hs hi => ⟨s, hs, hi⟩) fun _ _ other r _ _ hr => ?_
  replace hr := (Pool.get?_erase m.refs id other).symm.trans hr
  split at hr
  next => contradiction
  next => exact hr

theorem upholds_eraseSpace (id : SpaceId) :
    Upholds m { m with spaces := m.spaces.erase id } := by
  refine upholds_of_graph rfl (fun _ c hc => .inr ⟨c, hc, rfl, rfl, rfl, rfl⟩)
    (fun other s' k i hs' hi => ?_) fun _ _ _ _ _ _ hr => hr
  replace hs' := (Pool.get?_erase m.spaces id other).symm.trans hs'
  split at hs'
  next => contradiction
  next => exact ⟨s', hs', hi⟩

variable {m} (ht : m.Tidy)
include ht

theorem upholds_addSpace (s : Space) (hs : s.instances = .empty) :
    Upholds m (m.addSpace s).2 := by
  refine upholds_of_graph rfl (fun _ c hc => .inr ⟨c, hc, rfl, rfl, rfl, rfl⟩)
    (fun other t k i hother hi => ?_) fun _ _ _ _ _ _ hr => hr
  change (m.spaces.insert s).2.get? other = some t at hother
  rcases Pool.insert_cases ht.spaces s with ⟨-, hfresh⟩ | hsame
  · rw [hfresh] at hother
    split at hother
    next =>
      cases hother
      rw [hs, Table.get?_empty] at hi
      contradiction
    next => exact ⟨t, hother, hi⟩
  · rw [hsame] at hother
    exact ⟨t, hother, hi⟩

theorem upholds_addCells (c : Cells) (hc : c.contents = .empty) :
    Upholds m (m.addCells c).2 := by
  have hinsert : Upholds m { m with cells := (m.cells.insert c).2 } := by
    refine upholds_of_graph rfl (fun other d hother => ?_) (fun _ s _ _ hs hi => ⟨s, hs, hi⟩)
      fun _ _ _ _ _ _ hr => hr
    change (m.cells.insert c).2.get? other = some d at hother
    rcases Pool.insert_cases ht.cells c with ⟨-, hfresh⟩ | hsame
    · rw [hfresh] at hother
      split at hother
      next =>
        cases hother
        exact .inl hc
      next => exact .inr ⟨d, hother, rfl, rfl, rfl, rfl⟩
    · rw [hsame] at hother
      exact .inr ⟨d, hother, rfl, rfl, rfl, rfl⟩
  exact Frame.trans hinsert (upholds_modifySpace _ _ _ fun _ _ _ hi => hi)

end Definitions

/-- A reference that is new has not been read, because what was read is there. -/
theorem upholds_addRef (hm : m.Calm) (r : Reference) : Upholds m (m.addRef r).2 := by
  have hinsert : Upholds m { m with refs := (m.refs.insert r).2 } := by
    refine upholds_of_graph rfl (fun _ c hc => .inr ⟨c, hc, rfl, rfl, rfl, rfl⟩)
      (fun _ s _ _ hs hi => ⟨s, hs, hi⟩) fun a b id q hab hb hq => ?_
    change (m.refs.insert r).2.get? id = some q at hq
    rcases Pool.insert_cases hm.tidy.refs r with ⟨hnone, hfresh⟩ | hsame
    · rw [hfresh] at hq
      split at hq
      next hnew =>
        have hlive := (hm.read a b hab.1).resolve_right fun hf => hf
        rw [isLive_eq, standing?, hb] at hlive
        simp only [← hnew, hnone, Option.map_none] at hlive
        contradiction
      next => exact hq
    · rwa [hsame] at hq
  cases h : r.owner with
  | some owner =>
    rw [addRef_of_owner m h]
    exact Frame.trans hinsert (upholds_modifySpace _ _ _ fun _ _ _ hi => hi)
  | none =>
    rw [addRef_of_global m h]
    exact Frame.trans hinsert (upholds_listings _ m.roots _)

/-! ## Forgetting -/

theorem ForgetsSome.upholds (h : ForgetsSome m m') (hg : m.graph.Indexed) : Upholds m m' := by
  obtain ⟨gone, hf⟩ := h
  obtain ⟨-, hedge⟩ := hf.graph hg
  refine ⟨fun id c' k v hc' hv => ?_, fun a b ha hab => ⟨?_, hab.2⟩, fun a b hab => ?_,
    fun a b x _ hx => ?_⟩
  · obtain ⟨c, hc, hbare, -, hvalues⟩ := hf.cells_of_some hc'
    rw [hvalues] at hv
    split at hv
    next => contradiction
    next =>
      exact ⟨c, hc, hv, (Cells.mk.inj hbare).2.2.1, (Cells.mk.inj hbare).2.2.2.2.1,
        (Cells.mk.inj hbare).2.1⟩
  · have hkeep : gone a = false := by
      obtain ⟨id, c', he, hc', hk⟩ := isComputed_iff.1 ha
      obtain ⟨c, -, -, -, hvalues⟩ := hf.cells_of_some hc'
      have hnode : Node.cells id a.key = a := by rw [Node.cells, ← he]
      rw [Contents.hasComputed, Table.contains_eq_isSome, hvalues, hnode] at hk
      cases hgone : gone a with
      | false => rfl
      | true =>
        rw [hgone] at hk
        contradiction
    rw [hedge, hkeep, hab.1]
    rfl
  · rw [hedge, Bool.and_eq_true] at hab
    exact hab.2
  · refine standing?_of_pools hx (fun id c' v _ hc' hv => ?_) (fun _ s _ _ hs hi => ?_)
      fun _ _ _ hr => ?_
    · obtain ⟨c, hc, -, hinputs, hvalues⟩ := hf.cells_of_some hc'
      refine ⟨c, hc, ?_⟩
      rw [Contents.get?, hinputs, hvalues] at hv
      rw [Contents.get?]
      split at hv
      next =>
        rw [Option.or_none] at hv
        rw [hv, Option.some_or]
      next => exact hv
    · rw [hf.spaces] at hs
      exact ⟨s, hs, hi⟩
    · rwa [hf.refs] at hr

theorem upholds_prune (hg : m.graph.Indexed) (e : Entity)
    (free : ∀ a b, m.HasRead a b → a.entity ≠ e ∧ b.entity ≠ e) : Upholds m (m.prune e) := by
  have hedge : ∀ a b, (m.prune e).graph.hasEdge a b = _ := (Graph.prune_spec hg e).2
  refine ⟨fun _ c _ _ hc hv => ⟨c, hc, hv, rfl, rfl, rfl⟩, fun a b _ hab => ⟨?_, hab.2⟩,
    fun a b hab => ?_, fun _ _ _ _ h => h⟩
  · obtain ⟨ha, hb⟩ := free a b hab
    rw [hedge, hab.1, beq_eq_false_iff_ne.2 ha, beq_eq_false_iff_ne.2 hb]
    rfl
  · rw [hedge, Bool.and_eq_true, Bool.and_eq_true] at hab
    exact hab.1.1

theorem upholds_redefine (hm : m.Calm) (id : CellId) (f : Cells → Cells)
    (hf : ∀ c, (f c).contents = c.contents) :
    Upholds m ((m.modifyCell id f).invalidateCells id).2 := by
  have hmodified := (widens_modifyCell m id f hf).calm hm
  have hforget := forgetsAll_invalidateCells (m.modifyCell id f) id
  have h := hforget.forgetsSome.upholds hmodified.indexed
  have hget := fun other => Pool.get?_modify m.cells id other f
  have hback : ∀ other c₁, (m.modifyCell id f).cells.get? other = some c₁ →
      ∃ c, m.cells.get? other = some c ∧ c₁.contents = c.contents := by
    intro other c₁ hc₁
    obtain hnew | ⟨c, hc, hsame⟩ := (widens_modifyCell m id f hf).fresh hm.tidy other c₁ hc₁
    · replace hc₁ := (hget other).symm.trans hc₁
      split at hc₁
      next heq =>
        obtain ⟨c, hc, rfl⟩ := Option.map_eq_some_iff.1 hc₁
        exact ⟨c, by rw [← heq, hc], hf c⟩
      next => exact ⟨c₁, hc₁, rfl⟩
    · exact ⟨c, hc, hsame⟩
  refine ⟨fun other c' k v hc' hv => ?_, h.reads, h.edges, fun a b x hab hx => ?_⟩
  · obtain ⟨c₁, hc₁, hv₁, hdefinition⟩ := h.stored other c' k v hc' hv
    by_cases heq : id = other
    · -- Nothing is left stored for the cells that were changed.
      subst heq
      have hcomputed : ((m.modifyCell id f).invalidateCells id).2.isComputed (.cells id k) = true :=
        isComputed_iff.2 ⟨id, c', rfl, hc', Table.contains_of_get? hv⟩
      have hnone := hforget.not_computed hmodified.indexed (n := .cells id k)
        ⟨rfl, .inr ⟨c₁, hc₁, .inl (Table.contains_of_get? hv₁)⟩⟩
      rw [hnone] at hcomputed
      contradiction
    · replace hc₁ := (hget other).symm.trans hc₁
      rw [if_neg heq] at hc₁
      exact ⟨c₁, hc₁, hv₁, hdefinition⟩
  · refine standing?_of_pools (h.standing a b x hab hx) (fun other c₁ v _ hc₁ hv => ?_)
      (fun _ s _ _ hs hi => ⟨s, hs, hi⟩) fun _ _ _ hr => hr
    obtain ⟨c, hc, hsame⟩ := hback other c₁ hc₁
    exact ⟨c, hc, by rw [← hsame, hv]⟩

theorem upholds_rebind (hg : m.graph.Indexed) (id : RefId) (f : Reference → Reference) :
    Upholds m ((m.modifyRef id f).invalidate (.ref id)).2 := by
  have hforget := forgetsAll_invalidate (m.modifyRef id f) (.ref id)
  have h := hforget.forgetsSome.upholds (m := m.modifyRef id f) hg
  refine ⟨h.stored, h.reads, h.edges, fun a b x hab hx => ?_⟩
  refine standing?_of_pools (h.standing a b x hab hx) (fun _ c _ _ hc hv => ⟨c, hc, hv⟩)
    (fun _ s _ _ hs hi => ⟨s, hs, hi⟩) fun other r hother hr => ?_
  have hne : ¬ id = other := by
    rintro rfl
    have hread := hab.1
    rw [(hforget.untouched (m := m.modifyRef id f) hg (hab.2 id hother) a).1] at hread
    contradiction
  replace hr := (Pool.get?_modify m.refs id other f).symm.trans hr
  rwa [if_neg hne] at hr

/-! ## Destruction -/

section Destruction

variable {loose : Node → Prop}

/-- Only cells read anything. -/
theorem Resting.reader_cells (h : m.Resting loose) {a b : Node} (hab : m.graph.hasEdge a b = true) :
    ∃ id, a.entity = .cells id := by
  obtain ⟨id, -, he, -⟩ := isComputed_iff.1 (h.computed hab)
  exact ⟨id, he⟩

theorem upholds_destroyCells (h : m.Resting loose) (id : CellId) :
    Upholds m (m.destroyCells id) := by
  have hforget := forgetsAll_invalidateCells m id
  have hupholds := hforget.forgetsSome.upholds h.indexed
  have hrest := hforget.forgetsSome.resting h
  have free : ∀ n, n.entity = .cells id → (m.invalidateCells id).2.Untouched n := by
    intro n hn
    by_cases hmentions : m.graph.mentions n = true
    · exact hforget.untouched h.indexed ⟨hn, .inl hmentions⟩
    · refine fun a => ⟨Bool.eq_false_iff.2 fun hab => ?_, Bool.eq_false_iff.2 fun hab => ?_⟩
      · exact hmentions (h.indexed.mentions_of_edge (hupholds.edges a n hab)).2
      · exact hmentions (h.indexed.mentions_of_edge (hupholds.edges n a hab)).1
  refine Frame.trans hupholds (Frame.trans (upholds_prune hrest.indexed _ fun a b hab => ?_)
    (upholds_eraseCells _ id))
  constructor
  · intro ha
    have hedge := hab.1
    rw [(free a ha b).2] at hedge
    contradiction
  · intro hb
    have hedge := hab.1
    rw [(free b hb a).1] at hedge
    contradiction

theorem upholds_destroyReference (h : m.Resting loose) (id : RefId) :
    Upholds m (m.destroyReference id) := by
  have hforget := forgetsAll_invalidate m (.ref id)
  have hrest := hforget.forgetsSome.resting h
  refine Frame.trans (hforget.forgetsSome.upholds h.indexed)
    (Frame.trans (upholds_prune hrest.indexed _ fun a b hab => ?_) (upholds_eraseRef _ id))
  constructor
  · intro ha
    obtain ⟨other, hother⟩ := hrest.reader_cells hab.1
    cases ha.symm.trans hother
  · intro hb
    have hedge := hab.1
    rw [(hforget.untouched h.indexed (hab.2 id hb) a).1] at hedge
    contradiction

/-- A model from which spaces are being taken: the nodes that are let go of are instances of spaces
that are gone. -/
structure Parting (loose : Node → Prop) (m : Model) : Prop extends Resting loose m where
  adrift : ∀ n, loose n → ∃ id, n.entity = .space id ∧ m.spaces.get? id = none

theorem Parting.of_sheds {W : Entity → Prop} (h : Parting loose m) (hr : m'.Resting loose)
    (hs : Sheds W m m') : Parting loose m' := by
  refine ⟨hr, fun n hn => ?_⟩
  obtain ⟨id, he, hnone⟩ := h.adrift n hn
  refine ⟨id, he, Option.eq_none_iff_forall_ne_some.2 fun s hs' => ?_⟩
  cases hnone.symm.trans (hs.space hs')

theorem Parting.eraseSpace (h : Parting loose m) (id : SpaceId) :
    Parting (fun n => loose n ∨ n.entity = .space id) { m with spaces := m.spaces.erase id } := by
  have hget := Pool.get?_erase m.spaces id
  refine ⟨resting_eraseSpace h.toResting id, fun n hn => ?_⟩
  rcases hn with hn | hn
  · obtain ⟨other, he, hnone⟩ := h.adrift n hn
    refine ⟨other, he, (hget other).trans ?_⟩
    rw [hnone, ite_self]
  · exact ⟨id, hn, (hget id).trans (if_pos rfl)⟩

theorem Parting.destroyTree (h : Parting loose m) (fuel : Nat) (id : SpaceId) :
    Parting loose (destroyTree fuel m id) :=
  h.of_sheds (resting_destroyTree fuel h.toResting id)
    (sheds_destroyTree (W := fun _ => True) fuel m id trivial (closed_univ m))

/-- What was read of a space that is there is one of its instances. -/
theorem Parting.exists_instance (h : Parting loose m) {a b : Node} {id : SpaceId} {s : Space}
    (hab : m.graph.hasEdge a b = true) (hs : m.spaces.get? id = some s)
    (hb : b.entity = .space id) :
    ∃ key item, (key, item) ∈ s.instances.entries ∧ (b == Node.item id key) = true := by
  rcases h.read a b hab with hlive | hloose
  · simp only [isLive, hb, hs, Option.any_some, Table.contains_eq_isSome] at hlive
    obtain ⟨item, hitem⟩ := Option.isSome_iff_exists.1 hlive
    obtain ⟨key, hmem, hkey⟩ := Table.mem_entries_of_get? hitem
    refine ⟨key, item, hmem, ?_⟩
    rw [Graph.node_beq_iff, hb, BEq.comm (a := b.key)]
    show (Entity.space id == Entity.space id && key == b.key) = true
    rw [hkey, BEq.rfl, Bool.and_true]
  · obtain ⟨other, he, hnone⟩ := h.adrift b hloose
    cases he.symm.trans hb
    cases hs.symm.trans hnone

/-- Steps that take the readers of one node each, one after the other. -/
theorem upholds_foldl {α : Type} {P : Model → Prop} (node : α → Node) {f : Model → α → Model}
    (step : ∀ m a, P m → P (f m a) ∧ Upholds m (f m a) ∧
      ∀ b, (f m a).isComputed b = true → ¬ m.HasRead b (node a)) (l : List α) (h : P m) :
    P (l.foldl f m) ∧ Upholds m (l.foldl f m) ∧
      ∀ a ∈ l, ∀ b, (l.foldl f m).isComputed b = true → ¬ m.HasRead b (node a) := by
  induction l generalizing m with
  | nil => exact ⟨h, Frame.refl m, by simp⟩
  | cons a l ih =>
    obtain ⟨hp, hfirst, hreaders⟩ := step m a h
    obtain ⟨hend, hrest, hothers⟩ := ih hp
    refine ⟨hend, Frame.trans hfirst hrest, fun c hc b hb hread => ?_⟩
    have hb' := hrest.isComputed hb
    rcases List.mem_cons.1 hc with rfl | hc
    · exact hreaders b hb' hread
    · exact hothers c hc b hb (hfirst.reads b _ hb' hread)

/-- The instances of a space that is gone are destroyed, and everything that read them forgotten. -/
theorem upholds_destroyInstances {fuel : Nat}
    (ih : ∀ {loose : Node → Prop} {m : Model}, Parting loose m → ∀ id,
      Upholds m (destroyTree fuel m id)) (h : Parting loose m) (id : SpaceId)
    (l : List (Key × SpaceId)) :
    Parting loose (l.foldl (fun m e => destroyTree fuel (m.invalidate (.item id e.1)).2 e.2) m) ∧
      Upholds m (l.foldl (fun m e => destroyTree fuel (m.invalidate (.item id e.1)).2 e.2) m) ∧
        ∀ e ∈ l, ∀ b, (l.foldl (fun m e => destroyTree fuel (m.invalidate (.item id e.1)).2 e.2)
          m).isComputed b = true → ¬ m.HasRead b (.item id e.1) := by
  refine upholds_foldl (fun e => .item id e.1) (fun m e hm => ?_) l h
  have hforget := forgetsAll_invalidate m (.item id e.1)
  have hupholds := hforget.forgetsSome.upholds hm.indexed
  have hm₁ := hm.of_sheds (hforget.forgetsSome.resting hm.toResting)
    (hforget.forgetsSome.alike.sheds fun _ => False)
  have htree := ih hm₁ e.2
  refine ⟨hm₁.destroyTree fuel e.2, Frame.trans hupholds htree, fun b hb hread => ?_⟩
  have hedge := (hupholds.reads b _ (htree.isComputed hb) hread).1
  rw [(hforget.untouched hm.indexed BEq.rfl b).1] at hedge
  contradiction

theorem upholds_destroyMembers {fuel : Nat}
    (ih : ∀ {loose : Node → Prop} {m : Model}, Parting loose m → ∀ id,
      Upholds m (destroyTree fuel m id)) (h : Parting loose m) (s : Space) :
    Upholds m (s.spaces.values.foldl (destroyTree fuel)
      (s.refs.values.foldl destroyReference (s.cells.values.foldl destroyCells m))) := by
  have cells : ∀ m c, Under (Parting loose) Upholds m (m.destroyCells c) := fun m c hm =>
    ⟨hm.of_sheds (resting_destroyCells hm.toResting c)
      (sheds_destroyCells (W := fun _ => True) m c trivial), upholds_destroyCells hm.toResting c⟩
  have refs : ∀ m r, Under (Parting loose) Upholds m (m.destroyReference r) := fun m r hm =>
    ⟨hm.of_sheds (resting_destroyReference hm.toResting r)
      (sheds_destroyReference (W := fun _ => True) m r trivial),
      upholds_destroyReference hm.toResting r⟩
  have spaces : ∀ m c, Under (Parting loose) Upholds m (destroyTree fuel m c) := fun m c hm =>
    ⟨hm.destroyTree fuel c, ih hm c⟩
  exact (Frame.trans (Frame.trans (foldl_obeys cells _ m) (foldl_obeys refs _ _))
    (foldl_obeys spaces _ _) h).2

theorem upholds_destroyTree (fuel : Nat) (h : Parting loose m) (id : SpaceId) :
    Upholds m (destroyTree fuel m id) := by
  induction fuel generalizing loose m id with
  | zero => exact Frame.refl m
  | succ fuel ih =>
    unfold destroyTree
    split
    next => exact Frame.refl m
    next s spaces hremove =>
      obtain ⟨hs, rfl⟩ := (Pool.remove?_eq_some _ _).1 hremove
      obtain ⟨hparting, hinstances, hpurged⟩ :=
        upholds_destroyInstances ih (h.eraseSpace id) id s.instances.entries
      have hcut := Frame.trans (upholds_eraseSpace m id) hinstances
      have hprune := upholds_prune hparting.indexed (.space id) fun a b hab => by
        refine ⟨fun ha => ?_, fun hb => ?_⟩
        · obtain ⟨other, hother⟩ := hparting.reader_cells hab.1
          cases ha.symm.trans hother
        · -- What was read of the space was one of its instances, and the reader is forgotten.
          obtain ⟨key, item, hmem, hnode⟩ := h.exists_instance (hcut.edges a b hab.1) hs hb
          refine hpurged (key, item) hmem a (hparting.computed hab.1) ⟨?_, fun r hr => ?_⟩
          · exact (Graph.hasEdge_congr _ BEq.rfl hnode).symm.trans (hcut.edges a b hab.1)
          · cases hr
      have hpruned : Parting loose _ :=
        ⟨(resting_prune hparting.toResting (.space id)).1.mono fun n hn => hn.1.resolve_right hn.2,
          fun n hn => hparting.adrift n (.inl hn)⟩
      exact Frame.trans (Frame.trans hcut hprune) (upholds_destroyMembers ih hpruned s)

theorem upholds_destroySpace (hm : m.Calm) (id : SpaceId) : Upholds m (m.destroySpace id) :=
  upholds_destroyTree _ ⟨hm, fun _ hn => hn.elim⟩ id

theorem upholds_removeInstance (hm : m.Calm) (owner : SpaceId) (key : Key) :
    Upholds m (m.removeInstance owner key).2 := by
  unfold removeInstance
  split
  next => exact Frame.refl m
  next item _ =>
    have hcut := resting_eraseInstance hm owner key
    have hforget := forgetsAll_invalidate (m.modifySpace owner fun s =>
      { s with instances := s.instances.erase key }) (.item owner key)
    have hrest := (hforget.resting hcut).mono fun n hn => hn.1.resolve_right hn.2
    refine Frame.trans (upholds_modifySpace m owner _ fun s k i hi => ?_)
      (Frame.trans (hforget.forgetsSome.upholds hcut.indexed) (upholds_destroySpace hrest item))
    rw [Table.get?_erase] at hi
    split at hi
    next => contradiction
    next => exact hi

end Destruction

/-! ## Edits -/

theorem editFrame_upholds : EditFrame (Under Calm Upholds) where
  frame := inferInstance
  forget h hm := ⟨editFrame_calm.forget h hm, h.upholds hm.indexed⟩
  addSpace m s hs hsig hm := ⟨editFrame_calm.addSpace m s hs hsig hm,
    upholds_addSpace hm.tidy s hs⟩
  addCells m c hc hm := ⟨editFrame_calm.addCells m c hc hm, upholds_addCells hm.tidy c hc⟩
  addRef m r hm := ⟨editFrame_calm.addRef m r hm, upholds_addRef hm r⟩
  modifySpace m id f hf hm := ⟨editFrame_calm.modifySpace m id f hf hm,
    upholds_modifySpace m id f fun s k i hi => by rwa [(hf s).instances] at hi⟩
  declare m id f hf hm := ⟨editFrame_calm.declare m id f hf hm,
    upholds_modifySpace m id f fun s k i hi => by rwa [(hf s).1] at hi⟩
  permit m id allow hm := ⟨editFrame_calm.permit m id allow hm,
    upholds_modifySpace m id _ fun _ _ _ hi => hi⟩
  listings m roots globals hm := ⟨editFrame_calm.listings m roots globals hm,
    upholds_listings m roots globals⟩
  recast m id flag hm := ⟨editFrame_calm.recast m id flag hm, upholds_recast m id flag⟩
  redefine m id f hf hm := ⟨editFrame_calm.redefine m id f hf hm, upholds_redefine hm id f hf⟩
  rebind m id f hm := ⟨editFrame_calm.rebind m id f hm, upholds_rebind hm.indexed id f⟩
  destroyCells m id hm := ⟨editFrame_calm.destroyCells m id hm, upholds_destroyCells hm id⟩
  destroyReference m id hm := ⟨editFrame_calm.destroyReference m id hm,
    upholds_destroyReference hm id⟩
  destroySpace m id hm := ⟨editFrame_calm.destroySpace m id hm, upholds_destroySpace hm id⟩
  removeInstance m owner key hm := ⟨editFrame_calm.removeInstance m owner key hm,
    upholds_removeInstance hm owner key⟩

/-- Every value that is stored afterwards was stored before, for cells of the same definition. It
is recorded to have read the same nodes, and each of them stands for what it stood for. -/
def Upheld (m m' : Model) : Prop :=
  ∀ id c' k v, m'.cells.get? id = some c' → c'.contents.values.get? k = some v →
    (∃ c, m.cells.get? id = some c ∧ c.contents.values.get? k = some v ∧
      c'.formula = c.formula ∧ c'.allowNone = c.allowNone) ∧
    ∀ n, (m'.HasRead (.cells id k) n ↔ m.HasRead (.cells id k) n) ∧
      (m'.HasRead (.cells id k) n → ∃ x, m.standing? n = some x ∧ m'.standing? n = some x)

theorem Upholds.upheld (h : Upholds m m') (hm' : m'.Calm) : Upheld m m' := by
  intro id c' k v hc' hv
  have hcomputed : m'.isComputed (.cells id k) = true :=
    isComputed_iff.2 ⟨id, c', rfl, hc', Table.contains_of_get? hv⟩
  obtain ⟨c, hc, hstored, hformula, hallow, -⟩ := h.stored id c' k v hc' hv
  refine ⟨⟨c, hc, hstored, hformula, hallow⟩, fun n => ⟨⟨fun hn => ⟨h.edges _ n hn.1, hn.2⟩, fun hn =>
    h.reads _ n hcomputed hn⟩, fun hn => ?_⟩⟩
  have hlive := (hm'.read _ n hn.1).resolve_right fun hf => hf
  rw [isLive_eq] at hlive
  obtain ⟨x, hx⟩ := Option.isSome_iff_exists.1 hlive
  exact ⟨x, h.standing _ n x hn hx, hx⟩

def computesAfresh (m : Model) (fuel : Nat) (id : CellId) : Bool :=
  ((do
    forgetAll
    call fuel [] id {} : Action Value) m).any (·.1.toOption.isSome)

end Model

open Recalc.Model Recalc.Action

/-- An edit leaves a value stored only when what it was computed from, as far as that is recorded,
is as it was. -/
theorem Reachable.edit_upheld {m m' : Model} (h : Reachable m) {fuel : Nat} {held : List Handle}
    {q : Request} (hedit : q.isEdit = true) {r : Except Failure Reply}
    (hrun : q.run fuel held m = some (r, m')) : Upheld m m' := by
  obtain ⟨hm', hupholds⟩ := editFrame_upholds.request fuel held hedit m r m' hrun h.calm
  exact hupholds.upheld hm'

def childFormula : Formula where
  ident := 0
  params := []
  rule := .computed (fun _ => do
    match ← Body.query (.lookup none "d" none) with
    | .space h => Body.query (.lookup (some h) "n" none)
    | v => return v) []

/-- `T.x` reads the child `n` of `D`, and is called. -/
def childRequests : List Request :=
  [.createSpace none "D", .createSpace (some ⟨0, 0⟩) "n", .createSpace none "T",
    .bindName ⟨2, 0⟩ "d" (.space { id := ⟨0, 0⟩ }) .auto,
    .defineCells ⟨2, 0⟩ "x" (some childFormula), .call ⟨0, 0⟩ {}]

theorem child_upheld : ∃ m r m', Request.runAll 9 [] childRequests Shop.start = some m ∧
    (Request.removeSpace ⟨1, 0⟩).run 9 [] m = some (r, m') ∧
      m'.isComputed (.cells ⟨0, 0⟩ .empty) = true ∧ Upheld m m' := by
  have hrun : ((Request.runAll 9 [] childRequests Shop.start).any fun m =>
      ((Request.removeSpace ⟨1, 0⟩).run 9 [] m).any fun o =>
        o.2.isComputed (.cells ⟨0, 0⟩ .empty)) = true := by decide +kernel
  obtain ⟨m, hm, hrun⟩ := (Option.any_eq_true _ _).1 hrun
  obtain ⟨⟨r, m'⟩, hremove, hcomputed⟩ := (Option.any_eq_true _ _).1 hrun
  exact ⟨m, r, m', hm, hremove, hcomputed, Reachable.edit_upheld
    ⟨_, .new "doc" {}, Request.becomes_of_runAll childRequests hm⟩ rfl hremove⟩

/-- A read of a child of another space is not recorded: `T.x` stays stored when the child is gone,
although it cannot be computed any more. -/
theorem child_outlived : ∃ m summary m', Reachable m ∧
    removeSpace 9 ⟨1, 0⟩ m = some (.ok summary, m') ∧ m.computesAfresh 9 ⟨0, 0⟩ = true ∧
      m'.isComputed (.cells ⟨0, 0⟩ .empty) = true ∧ m'.computesAfresh 9 ⟨0, 0⟩ = false := by
  have hrun : ((Request.runAll 9 [] childRequests Shop.start).any fun m =>
      (removeSpace 9 ⟨1, 0⟩ m).any fun o => decide (o.1.toOption.isSome = true ∧
        m.computesAfresh 9 ⟨0, 0⟩ = true ∧ o.2.isComputed (.cells ⟨0, 0⟩ .empty) = true ∧
          o.2.computesAfresh 9 ⟨0, 0⟩ = false)) = true := by decide +kernel
  obtain ⟨m, hm, hrun⟩ := (Option.any_eq_true _ _).1 hrun
  obtain ⟨⟨r, m'⟩, hremove, hfacts⟩ := (Option.any_eq_true _ _).1 hrun
  obtain ⟨hok, hfacts⟩ := of_decide_eq_true hfacts
  cases r with
  | error e => cases hok
  | ok summary =>
    exact ⟨m, summary, m', ⟨_, .new "doc" {}, Request.becomes_of_runAll childRequests hm⟩, hremove,
      hfacts⟩

end Recalc
