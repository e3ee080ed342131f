import Recalc.Proofs.ActionLaws
import Recalc.Proofs.ForgettingLaws

set_option autoImplicit false

/-!
# Tracked models

A model is tracked when its dependency graph tells the truth: who has recorded reads is either
stored as computed or still under evaluation, and what was read is still there. The nodes of `loose`
are excused: an operation that takes something away lets go of it first and of the edges to it
later.
-/

namespace Recalc.Model

structure Tidy (m : Model) : Prop where
  spaces : m.spaces.Tidy
  cells : m.cells.Tidy
  refs : m.refs.Tidy

/-- What the node stands for is there: a stored value, a reference or an instance. -/
def isLive (m : Model) (n : Node) : Bool :=
  match n.entity with
  | .cells id => (m.cells.get? id).any fun c => (c.contents.get? n.key).isSome
  | .space id => (m.spaces.get? id).any fun s => s.instances.contains n.key
  | .ref id => m.refs.contains id

structure Tracked (loose : Node → Prop) (m : Model) : Prop where
  tidy : m.Tidy
  indexed : m.graph.Indexed
  exclusive : ∀ id c k, m.cells.get? id = some c → c.contents.hasInput k = true →
    c.contents.hasComputed k = false
  reader : ∀ a b, m.graph.hasEdge a b = true →
    m.isComputed a = true ∨ m.stack.nodes.contains a = true
  read : ∀ a b, m.graph.hasEdge a b = true → m.isLive b = true ∨ loose b
  waiting : ∀ n ∈ m.stack.nodes, ∃ id c, n.entity = .cells id ∧ m.cells.get? id = some c ∧
    c.contents.get? n.key = none

theorem Tracked.mono {loose loose' : Node → Prop} {m : Model} (h : m.Tracked loose)
    (hl : ∀ n, loose n → loose' n) : m.Tracked loose' :=
  { h with read := fun a b hab => (h.read a b hab).imp_right (hl b) }

theorem isComputed_iff {m : Model} {n : Node} : m.isComputed n = true ↔
    ∃ id c, n.entity = .cells id ∧ m.cells.get? id = some c ∧
      c.contents.hasComputed n.key = true := by
  unfold isComputed
  split
  next id hid => simp [hid, Option.any_eq_true]
  next h =>
    refine ⟨fun hf => absurd hf (by simp), ?_⟩
    rintro ⟨id, c, he, -⟩
    exact absurd he (h id)

/-! ## Changes that take nothing away -/

/-- The graph is the same, no content of cells changes, and whatever is there stays. -/
structure Widens (m m' : Model) : Prop where
  tidy : m.Tidy → m'.Tidy
  graph : m'.graph = m.graph
  stack : m'.stack = m.stack
  cells : m.Tidy → ∀ id c, m.cells.get? id = some c →
    ∃ c', m'.cells.get? id = some c' ∧ c'.contents = c.contents
  fresh : m.Tidy → ∀ id c', m'.cells.get? id = some c' →
    c'.contents = .empty ∨ ∃ c, m.cells.get? id = some c ∧ c'.contents = c.contents
  spaces : m.Tidy → ∀ id s, m.spaces.get? id = some s → ∃ s', m'.spaces.get? id = some s' ∧
    ∀ k, s.instances.contains k = true → s'.instances.contains k = true
  refs : m.Tidy → ∀ id, m.refs.contains id = true → m'.refs.contains id = true

instance : Action.Frame Widens where
  refl m := ⟨fun h => h, rfl, rfl, fun _ _ c h => ⟨c, h, rfl⟩, fun _ _ c h => .inr ⟨c, h, rfl⟩,
    fun _ _ s h => ⟨s, h, fun _ hk => hk⟩, fun _ _ h => h⟩
  trans {m₁ m₂ m₃} h h' := by
    refine ⟨fun ht => h'.tidy (h.tidy ht), h'.graph.trans h.graph, h'.stack.trans h.stack, ?_, ?_,
      ?_, fun ht id hid => h'.refs (h.tidy ht) id (h.refs ht id hid)⟩
    · intro ht id c hc
      obtain ⟨c₁, hc₁, heq₁⟩ := h.cells ht id c hc
      obtain ⟨c₂, hc₂, heq₂⟩ := h'.cells (h.tidy ht) id c₁ hc₁
      exact ⟨c₂, hc₂, heq₂.trans heq₁⟩
    · intro ht id c₂ hc₂
      rcases h'.fresh (h.tidy ht) id c₂ hc₂ with hnew | ⟨c₁, hc₁, heq₁⟩
      · exact .inl hnew
      · rw [heq₁]
        exact h.fresh ht id c₁ hc₁
    · intro ht id s hs
      obtain ⟨s₁, hs₁, hk₁⟩ := h.spaces ht id s hs
      obtain ⟨s₂, hs₂, hk₂⟩ := h'.spaces (h.tidy ht) id s₁ hs₁
      exact ⟨s₂, hs₂, fun k hk => hk₂ k (hk₁ k hk)⟩

theorem Widens.isComputed {m m' : Model} (h : Widens m m') (ht : m.Tidy) {n : Node}
    (hn : m.isComputed n = true) : m'.isComputed n = true := by
  obtain ⟨id, c, he, hc, hk⟩ := isComputed_iff.1 hn
  obtain ⟨c', hc', heq⟩ := h.cells ht id c hc
  exact isComputed_iff.2 ⟨id, c', he, hc', by rw [heq, hk]⟩

theorem Widens.isLive {m m' : Model} (h : Widens m m') (ht : m.Tidy) {n : Node}
    (hn : m.isLive n = true) : m'.isLive n = true := by
  unfold Model.isLive at hn ⊢
  split
  next id hid =>
    simp only [hid] at hn
    obtain ⟨c, hc, hk⟩ := Option.any_eq_true _ _ |>.1 hn
    obtain ⟨c', hc', heq⟩ := h.cells ht id c hc
    rw [hc', Option.any_some, heq, hk]
  next id hid =>
    simp only [hid] at hn
    obtain ⟨s, hs, hk⟩ := Option.any_eq_true _ _ |>.1 hn
    obtain ⟨s', hs', hkeep⟩ := h.spaces ht id s hs
    rw [hs', Option.any_some, hkeep _ hk]
  next id hid =>
    simp only [hid] at hn
    exact h.refs ht id hn

theorem Widens.tracked {loose : Node → Prop} {m m' : Model} (h : Widens m m')
    (ht : m.Tracked loose) : m'.Tracked loose where
  tidy := h.tidy ht.tidy
  indexed := by rw [h.graph]; exact ht.indexed
  exclusive id c' k hc' hk := by
    rcases h.fresh ht.tidy id c' hc' with hnew | ⟨c, hc, heq⟩
    · rw [hnew]
      exact (Table.contains_eq_isSome _ _).trans (by rw [Contents.empty, Table.get?_empty]; rfl)
    · rw [heq] at hk ⊢
      exact ht.exclusive id c k hc hk
  reader a b hab := by
    rw [h.graph] at hab
    rw [h.stack]
    exact (ht.reader a b hab).imp_left (h.isComputed ht.tidy)
  read a b hab := by
    rw [h.graph] at hab
    exact (ht.read a b hab).imp_left (h.isLive ht.tidy)
  waiting n hn := by
    rw [h.stack] at hn
    obtain ⟨id, c, he, hc, hk⟩ := ht.waiting n hn
    obtain ⟨c', hc', heq⟩ := h.cells ht.tidy id c hc
    exact ⟨id, c', he, hc', by rw [heq, hk]⟩

theorem widens_modifySpace (m : Model) (id : SpaceId) (f : Space → Space)
    (keep : ∀ s, m.spaces.get? id = some s → ∀ k, s.instances.contains k = true →
      (f s).instances.contains k = true) : Widens m (m.modifySpace id f) where
  tidy h := ⟨Pool.tidy_modify _ _ _ h.spaces, h.cells, h.refs⟩
  graph := rfl
  stack := rfl
  cells _ _ c hc := ⟨c, hc, rfl⟩
  fresh _ _ c hc := .inr ⟨c, hc, rfl⟩
  spaces _ other s hs := by
    by_cases h : id = other
    · subst h
      refine ⟨f s, ?_, keep s hs⟩
      exact (Pool.get?_modify _ _ _ _).trans (by rw [if_pos rfl, hs, Option.map_some])
    · refine ⟨s, ?_, fun _ hk => hk⟩
      exact (Pool.get?_modify _ _ _ _).trans (by rw [if_neg h, hs])
  refs _ _ h := h

theorem widens_modifyCell (m : Model) (id : CellId) (f : Cells → Cells)
    (keep : ∀ c, (f c).contents = c.contents) : Widens m (m.modifyCell id f) where
  tidy h := ⟨h.spaces, Pool.tidy_modify _ _ _ h.cells, h.refs⟩
  graph := rfl
  stack := rfl
  cells _ other c hc := by
    by_cases h : id = other
    · subst h
      refine ⟨f c, ?_, keep c⟩
      exact (Pool.get?_modify _ _ _ _).trans (by rw [if_pos rfl, hc, Option.map_some])
    · refine ⟨c, ?_, rfl⟩
      exact (Pool.get?_modify _ _ _ _).trans (by rw [if_neg h, hc])
  fresh _ other c' hc' := by
    have hget := Pool.get?_modify m.cells id other f
    change (m.cells.modify id f).get? other = some c' at hc'
    rw [hget] at hc'
    split at hc'
    next h =>
      obtain ⟨c, hc, rfl⟩ := Option.map_eq_some_iff.1 hc'
      exact .inr ⟨c, h ▸ hc, keep c⟩
    next => exact .inr ⟨c', hc', rfl⟩
  spaces _ _ s hs := ⟨s, hs, fun _ hk => hk⟩
  refs _ _ h := h

theorem widens_modifyRef (m : Model) (id : RefId) (f : Reference → Reference) :
    Widens m (m.modifyRef id f) where
  tidy h := ⟨h.spaces, h.cells, Pool.tidy_modify _ _ _ h.refs⟩
  graph := rfl
  stack := rfl
  cells _ _ c hc := ⟨c, hc, rfl⟩
  fresh _ _ c hc := .inr ⟨c, hc, rfl⟩
  spaces _ _ s hs := ⟨s, hs, fun _ hk => hk⟩
  refs _ _ h := (Pool.contains_modify _ _ _ _).trans h

theorem widens_addSpace (m : Model) (s : Space) : Widens m (m.addSpace s).2 where
  tidy h := ⟨Pool.tidy_insert h.spaces s, h.cells, h.refs⟩
  graph := rfl
  stack := rfl
  cells _ _ c hc := ⟨c, hc, rfl⟩
  fresh _ _ c hc := .inr ⟨c, hc, rfl⟩
  spaces ht other t hother := by
    refine ⟨t, ?_, fun _ hk => hk⟩
    rcases Pool.insert_cases ht.spaces s with hfresh | hsame
    · refine (hfresh.2 other).trans ?_
      split
      next h => rw [← h, hfresh.1] at hother; contradiction
      next => exact hother
    · exact (hsame other).trans hother
  refs _ _ h := h

theorem widens_insertCells (m : Model) (c : Cells) (hc : c.contents = .empty) :
    Widens m { m with cells := (m.cells.insert c).2 } where
  tidy h := ⟨h.spaces, Pool.tidy_insert h.cells c, h.refs⟩
  graph := rfl
  stack := rfl
  cells ht other d hother := by
    refine ⟨d, ?_, rfl⟩
    rcases Pool.insert_cases ht.cells c with hfresh | hsame
    · refine (hfresh.2 other).trans ?_
      split
      next h => rw [← h, hfresh.1] at hother; contradiction
      next => exact hother
    · exact (hsame other).trans hother
  fresh ht other d hd := by
    change (m.cells.insert c).2.get? other = some d at hd
    rcases Pool.insert_cases ht.cells c with hfresh | hsame
    · rw [hfresh.2] at hd
      split at hd
      next =>
        cases hd
        exact .inl hc
      next => exact .inr ⟨d, hd, rfl⟩
    · rw [hsame] at hd
      exact .inr ⟨d, hd, rfl⟩
  spaces _ _ s hs := ⟨s, hs, fun _ hk => hk⟩
  refs _ _ h := h

theorem widens_insertRef (m : Model) (r : Reference) :
    Widens m { m with refs := (m.refs.insert r).2 } where
  tidy h := ⟨h.spaces, h.cells, Pool.tidy_insert h.refs r⟩
  graph := rfl
  stack := rfl
  cells _ _ c hc := ⟨c, hc, rfl⟩
  fresh _ _ c hc := .inr ⟨c, hc, rfl⟩
  spaces _ _ s hs := ⟨s, hs, fun _ hk => hk⟩
  refs ht other h := by
    obtain ⟨v, hv⟩ := Pool.contains_iff.1 h
    refine Pool.contains_iff.2 ?_
    rcases Pool.insert_cases ht.refs r with hfresh | hsame
    · rw [hfresh.2]
      split
      · exact ⟨r, rfl⟩
      · exact ⟨v, hv⟩
    · exact ⟨v, (hsame other).trans hv⟩

/-- A change of the listings at the level of the model. -/
theorem widens_listings (m : Model) (roots : NameMap SpaceId) (globals : NameMap RefId) :
    Widens m { m with roots, globals } where
  tidy h := ⟨h.spaces, h.cells, h.refs⟩
  graph := rfl
  stack := rfl
  cells _ _ c hc := ⟨c, hc, rfl⟩
  fresh _ _ c hc := .inr ⟨c, hc, rfl⟩
  spaces _ _ s hs := ⟨s, hs, fun _ hk => hk⟩
  refs _ _ h := h

theorem widens_addCells (m : Model) (c : Cells) (hc : c.contents = .empty) :
    Widens m (m.addCells c).2 :=
  Action.Frame.trans (widens_insertCells m c hc)
    (widens_modifySpace _ _ _ fun _ _ _ hk => hk)

theorem addRef_of_owner (m : Model) {r : Reference} {owner : SpaceId} (h : r.owner = some owner) :
    m.addRef r = ((m.refs.insert r).1, { m with refs := (m.refs.insert r).2 }.modifySpace owner
      fun s => { s with refs := s.refs.insert r.name (m.refs.insert r).1 }) := by
  unfold addRef
  rw [h]

theorem addRef_of_global (m : Model) {r : Reference} (h : r.owner = none) :
    m.addRef r = ((m.refs.insert r).1,
      { m with
        refs := (m.refs.insert r).2
        globals := m.globals.insert r.name (m.refs.insert r).1 }) := by
  unfold addRef
  rw [h]

theorem widens_addRef (m : Model) (r : Reference) : Widens m (m.addRef r).2 := by
  cases h : r.owner with
  | some owner =>
    rw [addRef_of_owner m h]
    exact Action.Frame.trans (widens_insertRef m r) (widens_modifySpace _ _ _ fun _ _ _ hk => hk)
  | none =>
    rw [addRef_of_global m h]
    exact Action.Frame.trans (widens_insertRef m r) (widens_listings _ m.roots _)

theorem widens_addChild (m : Model) (parent : SpaceId) (s : Space) :
    Widens m (m.addChild parent s).2 :=
  Action.Frame.trans (widens_addSpace m s) (widens_modifySpace _ _ _ fun _ _ _ hk => hk)

theorem widens_copyCells (m : Model) (replica counterpart : SpaceId) :
    Widens m (m.copyCells replica counterpart) := by
  unfold copyCells
  split
  · exact Action.Frame.refl m
  · have key : ∀ (l : List Cells) (m : Model), Widens m (l.foldl (fun m c =>
        (m.addCells { name := c.name, space := replica, formula := c.formula, derived := true,
                      allowNone := c.allowNone }).2) m) := by
      intro l
      induction l with
      | nil => exact fun m => Action.Frame.refl m
      | cons c l ih => exact fun m => Action.Frame.trans (widens_addCells m _ rfl) (ih _)
    exact key _ m

end Recalc.Model
