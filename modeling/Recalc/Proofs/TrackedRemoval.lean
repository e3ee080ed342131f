import Recalc.Proofs.Tracking

set_option autoImplicit false

/-!
# Tracked models stay tracked when things go

Forgetting nodes with their readers keeps a model tracked. Destroying an entity first forgets its
nodes and drops every edge at them, so that no edge is left when the entity goes. While nothing is
under evaluation, the same holds of whole trees of spaces.
-/

namespace Recalc.Model

def Untouched (m : Model) (n : Node) : Prop :=
  ∀ a, m.graph.hasEdge a n = false ∧ m.graph.hasEdge n a = false

namespace Loses

variable {gone : Node → Bool} {m m' : Model}

theorem isLive (h : Loses gone m m') {n : Node} (hn : m.isLive n = true)
    (hkeep : gone n = false) : m'.isLive n = true := by
  unfold Model.isLive at hn ⊢
  split
  next id hid =>
    simp only [hid] at hn
    obtain ⟨c, hc, hk⟩ := Option.any_eq_true _ _ |>.1 hn
    obtain ⟨c', hc', -, hinputs, hvalues⟩ := h.cells id c hc
    have hnode : Node.cells id n.key = n := by rw [Node.cells, ← hid]
    have hget : c'.contents.get? n.key = c.contents.get? n.key := by
      rw [Contents.get?, hinputs, hvalues, hnode, hkeep]
      rfl
    rw [hc', Option.any_some, hget, hk]
  next id hid =>
    simp only [hid] at hn
    rw [h.spaces, hn]
  next id hid =>
    simp only [hid] at hn
    rw [h.refs, hn]

theorem cells_of_some (h : Loses gone m m') {id : CellId} {c' : Cells}
    (hc' : m'.cells.get? id = some c') : ∃ c, m.cells.get? id = some c ∧ c'.bare = c.bare ∧
      c'.contents.inputs = c.contents.inputs ∧ ∀ k, c'.contents.values.get? k =
        if gone (.cells id k) then none else c.contents.values.get? k := by
  cases hc : m.cells.get? id with
  | none => rw [h.absent id hc] at hc'; contradiction
  | some c =>
    obtain ⟨d, hd, hrest⟩ := h.cells id c hc
    rw [hc'] at hd
    cases hd
    exact ⟨c, rfl, hrest⟩

end Loses

theorem tidy_of_loses {gone : Node → Bool} {m m' : Model} (h : Loses gone m m') (ht : m.Tidy) :
    m'.Tidy := by
  refine ⟨by rw [h.spaces]; exact ht.spaces, ⟨fun i hi => ?_, ?_⟩, by rw [h.refs]; exact ht.refs⟩
  · rw [h.free] at hi
    rw [h.slots]
    obtain ⟨hlt, hnone⟩ := ht.cells.vacant i hi
    exact ⟨hlt, fun g => h.absent _ (hnone g)⟩
  · rw [h.free]
    exact ht.cells.nodup

theorem ForgetsAll.tracked {P loose : Node → Prop} {m m' : Model} (h : ForgetsAll P m m')
    (ht : m.Tracked loose) : m'.Tracked fun n => loose n ∧ ¬ P n := by
  obtain ⟨gone, hf, hp⟩ := h
  obtain ⟨hindexed, hedge⟩ := hf.graph ht.indexed
  have old : ∀ a b, m'.graph.hasEdge a b = true → m.graph.hasEdge a b = true ∧ gone a = false ∧
      gone b = false := by
    intro a b hab
    rw [hedge, Bool.and_eq_true, Bool.not_eq_true'] at hab
    refine ⟨hab.2, hab.1, ?_⟩
    cases hb : gone b with
    | false => rfl
    | true => rw [hf.closed ht.indexed a b hab.2 hb] at hab; exact absurd hab.1 (by simp)
  refine ⟨tidy_of_loses hf.toLoses ht.tidy, hindexed, ?_, ?_, ?_, ?_⟩
  · intro id c' k hc' hk
    obtain ⟨c, hc, -, hinputs, hvalues⟩ := hf.cells_of_some hc'
    rw [Contents.hasInput, hinputs] at hk
    have hnone := ht.exclusive id c k hc hk
    rw [Contents.hasComputed, Table.contains_eq_isSome] at hnone ⊢
    rw [hvalues]
    split
    · rfl
    · exact hnone
  · intro a b hab
    obtain ⟨hold, ha, -⟩ := old a b hab
    rw [hf.stack]
    refine (ht.reader a b hold).imp_left fun hc => ?_
    rw [hf.isComputed, ha, hc]
    rfl
  · intro a b hab
    obtain ⟨hold, -, hb⟩ := old a b hab
    refine (ht.read a b hold).imp (fun hl => hf.isLive hl hb) fun hl => ⟨hl, fun hpb => ?_⟩
    rw [hp ht.indexed b hpb] at hb
    contradiction
  · intro n hn
    rw [hf.stack] at hn
    obtain ⟨id, c, he, hc, hk⟩ := ht.waiting n hn
    obtain ⟨c', hc', -, hinputs, hvalues⟩ := hf.cells id c hc
    refine ⟨id, c', he, hc', ?_⟩
    rw [Contents.get?, Option.or_eq_none_iff] at hk ⊢
    refine ⟨by rw [hinputs, hk.1], ?_⟩
    rw [hvalues]
    split
    · rfl
    · exact hk.2

theorem ForgetsSome.tracked {loose : Node → Prop} {m m' : Model} (h : ForgetsSome m m')
    (ht : m.Tracked loose) : m'.Tracked loose := by
  obtain ⟨gone, hf⟩ := h
  have hall : ForgetsAll (fun _ => False) m m' := ⟨gone, hf, by simp⟩
  exact (hall.tracked ht).mono fun _ hn => hn.1

theorem ForgetsAll.untouched {P : Node → Prop} {m m' : Model} (h : ForgetsAll P m m')
    (hg : m.graph.Indexed) {n : Node} (hn : P n) : m'.Untouched n := by
  obtain ⟨gone, hf, hp⟩ := h
  obtain ⟨-, hedge⟩ := hf.graph hg
  have hgone := hp hg n hn
  refine fun a => ⟨?_, by rw [hedge, hgone]; rfl⟩
  rw [hedge]
  cases han : m.graph.hasEdge a n with
  | false => exact Bool.and_false _
  | true => rw [hf.closed hg a n han hgone]; rfl

theorem ForgetsAll.not_computed {P : Node → Prop} {m m' : Model} (h : ForgetsAll P m m')
    (hg : m.graph.Indexed) {n : Node} (hn : P n) : m'.isComputed n = false := by
  obtain ⟨gone, hf, hp⟩ := h
  refine Bool.eq_false_iff.2 fun hc => ?_
  obtain ⟨id, c', he, hc', hk⟩ := isComputed_iff.1 hc
  obtain ⟨c, -, -, -, hvalues⟩ := hf.cells_of_some hc'
  have hnode : Node.cells id n.key = n := by rw [Node.cells, ← he]
  rw [Contents.hasComputed, Table.contains_eq_isSome, hvalues, hnode, hp hg n hn] at hk
  contradiction

theorem ForgetsSome.stack {m m' : Model} (h : ForgetsSome m m') : m'.stack = m.stack :=
  h.choose_spec.stack

theorem ForgetsAll.stack {P : Node → Prop} {m m' : Model} (h : ForgetsAll P m m') :
    m'.stack = m.stack := h.choose_spec.1.stack

/-! ## Destruction -/

structure Resting (loose : Node → Prop) (m : Model) : Prop extends Tracked loose m where
  idle : m.stack.nodes = []

theorem Resting.mono {loose loose' : Node → Prop} {m : Model} (h : m.Resting loose)
    (hl : ∀ n, loose n → loose' n) : m.Resting loose' := ⟨h.toTracked.mono hl, h.idle⟩

theorem Widens.resting {loose : Node → Prop} {m m' : Model} (h : Widens m m')
    (ht : m.Resting loose) : m'.Resting loose :=
  ⟨h.tracked ht.toTracked, by rw [h.stack, ht.idle]⟩

theorem ForgetsSome.resting {loose : Node → Prop} {m m' : Model} (h : ForgetsSome m m')
    (ht : m.Resting loose) : m'.Resting loose :=
  ⟨h.tracked ht.toTracked, by rw [h.stack, ht.idle]⟩

theorem ForgetsAll.resting {P loose : Node → Prop} {m m' : Model} (h : ForgetsAll P m m')
    (ht : m.Resting loose) : m'.Resting fun n => loose n ∧ ¬ P n :=
  ⟨h.tracked ht.toTracked, by rw [h.stack, ht.idle]⟩

/-- With nothing under evaluation, every reader is stored as computed. -/
theorem Resting.computed {loose : Node → Prop} {m : Model} (h : m.Resting loose) {a b : Node}
    (hab : m.graph.hasEdge a b = true) : m.isComputed a = true :=
  (h.reader a b hab).resolve_right (by rw [h.idle]; simp)

theorem resting_prune {loose : Node → Prop} {m : Model} (h : m.Resting loose) (e : Entity) :
    (m.prune e).Resting (fun n => loose n ∧ n.entity ≠ e) ∧
      ∀ n, n.entity = e → (m.prune e).Untouched n := by
  obtain ⟨hindexed, hedge⟩ := Graph.prune_spec h.indexed e
  have old : ∀ a b, (m.prune e).graph.hasEdge a b = true → m.graph.hasEdge a b = true ∧
      a.entity ≠ e ∧ b.entity ≠ e := by
    intro a b hab
    have hab := (hedge a b).symm.trans hab
    simpa [and_assoc] using hab
  refine ⟨⟨⟨⟨h.tidy.spaces, h.tidy.cells, h.tidy.refs⟩, hindexed, h.exclusive, ?_, ?_, ?_⟩,
    h.idle⟩, ?_⟩
  · exact fun a b hab => .inl (h.computed (old a b hab).1)
  · exact fun a b hab => (h.read a b (old a b hab).1).imp_right fun hl => ⟨hl, (old a b hab).2.2⟩
  · exact h.waiting
  · intro n hn a
    constructor
    · exact (hedge a n).trans (by rw [hn]; simp)
    · exact (hedge n a).trans (by rw [hn]; simp)

theorem resting_eraseCells {loose : Node → Prop} {m : Model} (h : m.Resting loose) (id : CellId)
    (free : ∀ n, n.entity = .cells id → m.Untouched n) :
    { m with cells := m.cells.erase id }.Resting loose := by
  have hget := Pool.get?_erase m.cells id
  have apart : ∀ a b, m.graph.hasEdge a b = true → a.entity ≠ .cells id ∧ b.entity ≠ .cells id := by
    intro a b hab
    constructor
    · intro ha
      rw [(free a ha b).2] at hab
      contradiction
    · intro hb
      rw [(free b hb a).1] at hab
      contradiction
  refine ⟨⟨⟨h.tidy.spaces, Pool.tidy_erase _ _ h.tidy.cells, h.tidy.refs⟩, h.indexed, ?_, ?_, ?_,
    ?_⟩, h.idle⟩
  · intro other c k hc
    change (m.cells.erase id).get? other = some c at hc
    rw [hget] at hc
    split at hc
    next => contradiction
    next => exact h.exclusive other c k hc
  · intro a b hab
    obtain ⟨other, c, he, hc, hk⟩ := isComputed_iff.1 (h.computed hab)
    refine .inl (isComputed_iff.2 ⟨other, c, he, ?_, hk⟩)
    refine (hget other).trans ?_
    rw [if_neg, hc]
    rintro rfl
    exact (apart a b hab).1 he
  · intro a b hab
    refine (h.read a b hab).imp_left fun hl => ?_
    unfold isLive at hl ⊢
    split
    next other hother =>
      simp only [hother] at hl
      have hne : ¬ id = other := by
        rintro rfl
        exact (apart a b hab).2 hother
      change ((m.cells.erase id).get? other).any _ = true
      rw [hget, if_neg hne, hl]
    next other hother =>
      simp only [hother] at hl
      exact hl
    next other hother =>
      simp only [hother] at hl
      exact hl
  · intro n hn
    rw [show m.stack.nodes = [] from h.idle] at hn
    contradiction

theorem resting_eraseRef {loose : Node → Prop} {m : Model} (h : m.Resting loose) (id : RefId)
    (free : ∀ n, n.entity = .ref id → m.Untouched n) :
    { m with refs := m.refs.erase id }.Resting loose := by
  refine ⟨⟨⟨h.tidy.spaces, h.tidy.cells, Pool.tidy_erase _ _ h.tidy.refs⟩, h.indexed, h.exclusive,
    h.reader, ?_, h.waiting⟩, h.idle⟩
  intro a b hab
  refine (h.read a b hab).imp_left fun hl => ?_
  unfold isLive at hl ⊢
  split
  next other hother =>
    simp only [hother] at hl
    exact hl
  next other hother =>
    simp only [hother] at hl
    exact hl
  next other hother =>
    simp only [hother] at hl
    have hne : ¬ id = other := by
      rintro rfl
      rw [(free b hother a).1] at hab
      contradiction
    change (m.refs.erase id).contains other = true
    rw [Pool.contains, Pool.get?_erase, if_neg hne]
    exact hl

/-- The instances of a space that goes are let go of. -/
theorem resting_eraseSpace {loose : Node → Prop} {m : Model} (h : m.Resting loose)
    (id : SpaceId) : { m with spaces := m.spaces.erase id }.Resting
      fun n => loose n ∨ n.entity = Entity.space id := by
  refine ⟨⟨⟨Pool.tidy_erase _ _ h.tidy.spaces, h.tidy.cells, h.tidy.refs⟩, h.indexed, h.exclusive,
    h.reader, ?_, h.waiting⟩, h.idle⟩
  intro a b hab
  rcases h.read a b hab with hl | hl
  · by_cases hb : b.entity = .space id
    · exact .inr (.inr hb)
    · refine .inl ?_
      unfold isLive at hl ⊢
      split
      next other hother =>
        simp only [hother] at hl
        exact hl
      next other hother =>
        simp only [hother] at hl
        have hne : ¬ id = other := by
          rintro rfl
          exact hb hother
        change ((m.spaces.erase id).get? other).any _ = true
        rw [Pool.get?_erase, if_neg hne, hl]
      next other hother =>
        simp only [hother] at hl
        exact hl
  · exact .inr (.inl hl)

theorem resting_destroyCells {loose : Node → Prop} {m : Model} (h : m.Resting loose)
    (id : CellId) : (m.destroyCells id).Resting loose := by
  have hf := (forgetsAll_invalidateCells m id).forgetsSome.resting h
  obtain ⟨hprune, hfree⟩ := resting_prune hf (.cells id)
  exact resting_eraseCells (hprune.mono fun _ hn => hn.1) id hfree

theorem resting_destroyReference {loose : Node → Prop} {m : Model} (h : m.Resting loose)
    (id : RefId) : (m.destroyReference id).Resting loose := by
  have hf := (forgetsAll_invalidate m (.ref id)).forgetsSome.resting h
  obtain ⟨hprune, hfree⟩ := resting_prune hf (.ref id)
  exact resting_eraseRef (hprune.mono fun _ hn => hn.1) id hfree

theorem foldl_keeps {α β : Type} {P : β → Prop} {f : β → α → β} (h : ∀ b a, P b → P (f b a))
    (l : List α) {b : β} (hb : P b) : P (l.foldl f b) := by
  induction l generalizing b with
  | nil => exact hb
  | cons a l ih => exact ih (h b a hb)

theorem resting_destroyTree (fuel : Nat) {loose : Node → Prop} {m : Model} (h : m.Resting loose)
    (id : SpaceId) : (destroyTree fuel m id).Resting loose := by
  induction fuel generalizing loose m id with
  | zero => exact h
  | succ fuel ih =>
    unfold destroyTree
    split
    next => exact h
    next s spaces hs =>
      obtain ⟨hget, rfl⟩ := (Pool.remove?_eq_some _ _).1 hs
      have hcut := resting_eraseSpace h id
      have hinstances := foldl_keeps
        (P := fun m : Model => m.Resting fun n => loose n ∨ n.entity = Entity.space id)
        (f := fun m (e : Key × SpaceId) => destroyTree fuel (m.invalidate (.item id e.1)).2 e.2)
        (fun m e hm => ih ((forgetsAll_invalidate m _).forgetsSome.resting hm) e.2)
        s.instances.entries hcut
      have hpruned : Resting loose _ :=
        (resting_prune hinstances (.space id)).1.mono fun n hn => hn.1.resolve_right hn.2
      have hcells := foldl_keeps (P := Resting loose) (f := destroyCells)
        (fun m c hm => resting_destroyCells hm c) s.cells.values hpruned
      have hrefs := foldl_keeps (P := Resting loose) (f := destroyReference)
        (fun m r hm => resting_destroyReference hm r) s.refs.values hcells
      exact foldl_keeps (P := Resting loose) (f := destroyTree fuel) (fun m c hm => ih hm c)
        s.spaces.values hrefs

theorem resting_destroySpace {loose : Node → Prop} {m : Model} (h : m.Resting loose)
    (id : SpaceId) : (m.destroySpace id).Resting loose := resting_destroyTree _ h id

/-- The instance for a key is let go of. -/
theorem resting_eraseInstance {loose : Node → Prop} {m : Model} (h : m.Resting loose)
    (owner : SpaceId) (key : Key) : (m.modifySpace owner fun s =>
      { s with instances := s.instances.erase key }).Resting
      fun n => loose n ∨ (Node.item owner key == n) = true := by
  refine ⟨⟨⟨Pool.tidy_modify _ _ _ h.tidy.spaces, h.tidy.cells, h.tidy.refs⟩, h.indexed,
    h.exclusive, h.reader, ?_, h.waiting⟩, h.idle⟩
  intro a b hab
  rcases h.read a b hab with hl | hl
  · by_cases hb : (Node.item owner key == b) = true
    · exact .inr (.inr hb)
    · refine .inl ?_
      unfold isLive at hl ⊢
      split
      next other hother =>
        simp only [hother] at hl
        exact hl
      next other hother =>
        simp only [hother] at hl
        change ((m.spaces.modify owner _).get? other).any _ = true
        rw [Pool.get?_modify]
        split
        next heq =>
          obtain ⟨s, hs, hk⟩ := Option.any_eq_true _ _ |>.1 hl
          rw [heq, hs, Option.map_some, Option.any_some, Table.contains_erase, hk, Bool.and_true,
            Bool.not_eq_true']
          refine Bool.eq_false_iff.2 fun hkey => hb ?_
          rw [Graph.node_beq_iff, hother, heq]
          show (Entity.space other == Entity.space other && key == b.key) = true
          rw [hkey, BEq.rfl, Bool.and_true]
        next => exact hl
      next other hother =>
        simp only [hother] at hl
        exact hl
  · exact .inr (.inl hl)

theorem resting_removeInstance {loose : Node → Prop} {m : Model} (h : m.Resting loose)
    (owner : SpaceId) (key : Key) : (m.removeInstance owner key).2.Resting loose := by
  unfold removeInstance
  split
  next => exact h
  next item _ =>
    have hcut := resting_eraseInstance h owner key
    have hforget := (forgetsAll_invalidate _ (.item owner key)).resting hcut
    exact resting_destroySpace (hforget.mono fun n hn => hn.1.resolve_right hn.2) item

end Recalc.Model
