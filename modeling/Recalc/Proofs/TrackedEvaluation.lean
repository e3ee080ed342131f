import Recalc.Proofs.ReplicaLaws
import Recalc.Proofs.Storing
import Recalc.Proofs.TrackedRemoval

set_option autoImplicit false

/-!
# Evaluation keeps models tracked

The node under evaluation may have recorded reads before its value is stored. When it is done its
value is stored, or else its reads are dropped, and the stack is as it was.
-/

namespace Recalc.Model

open Recalc.Action

/-- The stack is as it was, and spaces keep their kinds and parameters. -/
structure Retains (m m' : Model) : Prop where
  stack : m'.stack.nodes = m.stack.nodes
  spaces : ∀ id s, m.spaces.get? id = some s →
    ∃ s', m'.spaces.get? id = some s' ∧ s'.kind = s.kind ∧ s'.signature = s.signature

instance : Frame Retains where
  refl _ := ⟨rfl, fun _ s h => ⟨s, h, rfl, rfl⟩⟩
  trans h h' := by
    refine ⟨h'.stack.trans h.stack, fun id s hs => ?_⟩
    obtain ⟨s₁, hs₁, hk₁, hsig₁⟩ := h.spaces id s hs
    obtain ⟨s₂, hs₂, hk₂, hsig₂⟩ := h'.spaces id s₁ hs₁
    exact ⟨s₂, hs₂, hk₂.trans hk₁, hsig₂.trans hsig₁⟩

namespace Retains

theorem counterpart {m m' : Model} (h : Retains m m') {id c : SpaceId}
    (hc : m.counterpart id = .ok c) : m'.counterpart id = .ok c := by
  obtain ⟨s, hs, hc⟩ := except_bind_eq_ok.1 hc
  obtain ⟨s', hs', hkind, -⟩ := h.spaces id s (space_eq_ok.1 hs)
  refine except_bind_eq_ok.2 ⟨s', space_eq_ok.2 hs', ?_⟩
  rw [hkind]
  exact hc

theorem signature {m m' : Model} (h : Retains m m') {id : SpaceId} {spec : Signature}
    (hspec : m.signature id = .ok spec) : m'.signature id = .ok spec := by
  obtain ⟨c, hc, hspec⟩ := except_bind_eq_ok.1 hspec
  obtain ⟨source, hs, hspec⟩ := except_bind_eq_ok.1 hspec
  obtain ⟨source', hs', -, hsig⟩ := h.spaces c source (space_eq_ok.1 hs)
  refine except_bind_eq_ok.2 ⟨c, h.counterpart hc,
    except_bind_eq_ok.2 ⟨source', space_eq_ok.2 hs', ?_⟩⟩
  rw [hsig]
  cases hsource : source.signature with
  | none => rw [hsource] at hspec; cases hspec
  | some spec' =>
    rw [hsource] at hspec
    exact hspec

end Retains

theorem retains_of_spaces {m m' : Model} (hstack : m'.stack.nodes = m.stack.nodes)
    (hspaces : m'.spaces = m.spaces) : Retains m m' :=
  ⟨hstack, fun _ s hs => ⟨s, by rw [hspaces, hs], rfl, rfl⟩⟩

/-- A noted read shows in the graph only. -/
theorem noteRead_eq (n : Node) (m : Model) : ∃ g, noteRead n m = { m with graph := g } := by
  unfold noteRead
  split
  · exact ⟨_, rfl⟩
  · exact ⟨m.graph, rfl⟩

theorem spaces_noteRead (n : Node) (m : Model) : (noteRead n m).spaces = m.spaces := by
  obtain ⟨g, hg⟩ := noteRead_eq n m
  rw [hg]

theorem cells_noteRead (n : Node) (m : Model) : (noteRead n m).cells = m.cells := by
  obtain ⟨g, hg⟩ := noteRead_eq n m
  rw [hg]

theorem stack_noteRead (n : Node) (m : Model) : (noteRead n m).stack = m.stack := by
  obtain ⟨g, hg⟩ := noteRead_eq n m
  rw [hg]

theorem retains_modifySpace (m : Model) (id : SpaceId) (f : Space → Space)
    (hf : ∀ s, (f s).kind = s.kind ∧ (f s).signature = s.signature) :
    Retains m (m.modifySpace id f) := by
  refine ⟨rfl, fun other s hs => ?_⟩
  have hget := Pool.get?_modify m.spaces id other f
  by_cases h : id = other
  · subst h
    refine ⟨f s, hget.trans ?_, hf s⟩
    rw [if_pos rfl, hs, Option.map_some]
  · refine ⟨s, hget.trans ?_, rfl, rfl⟩
    rw [if_neg h, hs]

theorem retains_addSpace {m : Model} (ht : m.Tidy) (s : Space) : Retains m (m.addSpace s).2 := by
  refine ⟨rfl, fun other t hother => ⟨t, ?_, rfl, rfl⟩⟩
  rcases Pool.insert_cases ht.spaces s with hfresh | hsame
  · refine (hfresh.2 other).trans ?_
    rw [if_neg, hother]
    rintro rfl
    rw [hfresh.1] at hother
    contradiction
  · exact (hsame other).trans hother

theorem retains_addCells (m : Model) (c : Cells) : Retains m (m.addCells c).2 := by
  have hinsert : Retains m { m with cells := (m.cells.insert c).2 } := retains_of_spaces rfl rfl
  exact Frame.trans hinsert (retains_modifySpace _ c.space _ fun s => ⟨rfl, rfl⟩)

theorem retains_copyCells (m : Model) (replica counterpart : SpaceId) :
    Retains m (m.copyCells replica counterpart) := by
  unfold copyCells
  split
  · exact Frame.refl m
  · have key : ∀ (l : List Cells) (m : Model), Retains m (l.foldl (fun m c =>
        (m.addCells { name := c.name, space := replica, formula := c.formula, derived := true,
                      allowNone := c.allowNone }).2) m) := by
      intro l
      induction l with
      | nil => exact fun m => Frame.refl m
      | cons c l ih => exact fun m => Frame.trans (retains_addCells m _) (ih _)
    exact key _ m

theorem retains_addReplica {m m₁ : Model} (ht : m.Tidy) {s : Space} {counterpart id : SpaceId}
    (h : m.addReplica s counterpart = (id, m₁)) : Retains m m₁ := by
  cases h
  exact Frame.trans (retains_addSpace ht s) (retains_copyCells _ _ _)

theorem widens_addReplica {m m₁ : Model} {s : Space} {counterpart id : SpaceId}
    (h : m.addReplica s counterpart = (id, m₁)) : Widens m m₁ := by
  cases h
  exact Frame.trans (widens_addSpace m s) (widens_copyCells _ _ _)

variable {loose : Node → Prop}

theorem isLive_congr (m : Model) {n n' : Node} (h : (n == n') = true) :
    m.isLive n = m.isLive n' := by
  rw [Graph.node_beq_iff, Bool.and_eq_true, beq_iff_eq] at h
  obtain ⟨he, hk⟩ := h
  unfold isLive
  rw [he]
  split
  next id _ =>
    have hget : ∀ c : Cells, c.contents.get? n.key = c.contents.get? n'.key := by
      intro c
      rw [Contents.get?, Contents.get?, Table.get?_congr _ hk, Table.get?_congr _ hk]
    simp only [hget]
  next id _ =>
    have hcontains : ∀ s : Space, s.instances.contains n.key = s.instances.contains n'.key :=
      fun s => Table.contains_congr _ hk
    simp only [hcontains]
  next => rfl

/-- Noting a read of what is there keeps a model tracked. -/
theorem tracked_noteRead {m : Model} (h : m.Tracked loose) {n : Node} (hn : m.isLive n = true) :
    (noteRead n m).Tracked loose := by
  unfold noteRead
  split
  next top htop =>
    have hmem : top ∈ m.stack.nodes := List.mem_of_mem_head? htop
    have old : ∀ a b, (m.graph.record top n).hasEdge a b = true →
        m.graph.hasEdge a b = true ∨ (top == a) = true ∧ (n == b) = true := by
      intro a b hab
      rw [Graph.hasEdge_record, Bool.or_eq_true, Bool.and_eq_true, Bool.and_eq_true] at hab
      exact hab.symm.imp_right fun h => h.1
    refine ⟨⟨h.tidy.spaces, h.tidy.cells, h.tidy.refs⟩, h.indexed.record top n, h.exclusive,
      fun a b hab => ?_, fun a b hab => ?_, h.waiting⟩
    · rcases old a b hab with hab | ⟨ha, -⟩
      · exact h.reader a b hab
      · exact .inr (List.contains_iff_exists_mem_beq.2 ⟨top, hmem, BEq.symm ha⟩)
    · rcases old a b hab with hab | ⟨-, hb⟩
      · exact h.read a b hab
      · exact .inl ((isLive_congr m hb).symm.trans hn)
  next => exact h

theorem under_noteRead (m : Model) (n : Node) (hn : m.isLive n = true) :
    Under (Tracked loose) Retains m (noteRead n m) :=
  fun h => ⟨tracked_noteRead h hn, retains_of_spaces (by rw [stack_noteRead]) (spaces_noteRead n m)⟩

theorem retains_ensureChild {m m' : Model} {parent : SpaceId} {name : String}
    {r : Except Failure SpaceId} (ht : m.Tidy) (h : ensureChild parent name m = some (r, m')) :
    Retains m m' := by
  rcases ensureChild_cases h with ⟨rfl, -⟩ |
      ⟨s, root, c, source, counterpart, child, m₁, -, -, -, -, -, -, hadd, rfl, -⟩
  · exact Frame.refl _
  · exact Frame.trans (retains_addReplica ht hadd)
      (retains_modifySpace m₁ parent _ fun _ => ⟨rfl, rfl⟩)

theorem retains_ensureItem {m m' : Model} {id : SpaceId} {key : Key} {r : Except Failure Handle}
    (ht : m.Tidy) (h : ensureItem id key m = some (r, m')) : Retains m m' := by
  have hnote : ∀ m : Model, Retains m (noteRead (.item id key) m) := fun m =>
    retains_of_spaces (by rw [stack_noteRead]) (spaces_noteRead _ m)
  rcases ensureItem_cases h with ⟨rfl, -⟩ | ⟨s, hs, ⟨item, hitem, rfl, -⟩ |
      ⟨c, item, m₁, -, -, hadd, rfl, -⟩⟩
  · exact Frame.refl _
  · exact hnote m
  · have hlist : Retains m₁ (m₁.listItem id key item) :=
      retains_modifySpace m₁ id _ fun _ => ⟨rfl, rfl⟩
    exact Frame.trans (retains_addReplica ht hadd) (Frame.trans hlist (hnote _))

theorem under_ensureChild (parent : SpaceId) (name : String) :
    Obeys (Under (Tracked loose) Retains) (ensureChild parent name) := by
  intro m r m' h ht
  refine ⟨?_, retains_ensureChild ht.tidy h⟩
  rcases ensureChild_cases h with ⟨rfl, -⟩ |
      ⟨s, root, c, source, counterpart, child, m₁, -, -, -, -, -, -, hadd, rfl, -⟩
  · exact ht
  · have hlist := widens_modifySpace m₁ parent
      (fun p => { p with spaces := p.spaces.insert name child }) fun _ _ _ hk => hk
    exact hlist.tracked ((widens_addReplica hadd).tracked ht)

theorem under_ensureItem {id : SpaceId} {key : Key} {m m' : Model} {r : Except Failure Handle}
    (h : ensureItem id key m = some (r, m')) : Under (Tracked loose) Retains m m' := by
  intro ht
  refine ⟨?_, retains_ensureItem ht.tidy h⟩
  rcases ensureItem_cases h with ⟨rfl, -⟩ | ⟨s, hs, ⟨item, hitem, rfl, -⟩ |
      ⟨c, item, m₁, -, -, hadd, rfl, -⟩⟩
  · exact ht
  · refine tracked_noteRead ht ?_
    show (m.spaces.get? id).any _ = true
    rw [hs, Option.any_some]
    exact Table.contains_of_get? hitem
  · have hadded := widens_addReplica hadd
    have hlist := widens_modifySpace m₁ id
      (fun s => { s with instances := s.instances.insert key item })
      fun s _ k hk => by rw [Table.contains_insert, hk, Bool.or_true]
    have htracked : (m₁.listItem id key item).Tracked loose :=
      hlist.tracked (hadded.tracked ht)
    refine tracked_noteRead htracked ?_
    obtain ⟨s₁, hs₁, -⟩ := hadded.spaces ht.tidy id s hs
    have hget := Pool.get?_modify m₁.spaces id id
      fun s => { s with instances := s.instances.insert key item }
    rw [if_pos rfl, hs₁, Option.map_some] at hget
    show ((m₁.spaces.modify id _).get? id).any _ = true
    rw [hget, Option.any_some, Table.contains_insert]
    exact Bool.or_eq_true_iff.2 (.inl BEq.rfl)

/-! ## A node under evaluation -/

theorem enter_cases {n : Node} {m m' : Model} {r : Except Failure Unit}
    (h : enter n m = some (r, m')) :
    (m' = m ∧ ∃ e, r = .error e) ∨ ∃ stack, m.stack.push? n = some stack ∧ r = .ok () ∧
      m' = { m with stack } := by
  unfold enter at h
  rw [get_bind] at h
  split at h
  next =>
    cases h
    exact .inl ⟨rfl, _, rfl⟩
  next =>
    cases hpush : m.stack.push? n with
    | none =>
      rw [hpush] at h
      cases h
      exact .inl ⟨rfl, _, rfl⟩
    | some stack =>
      rw [hpush] at h
      cases h
      exact .inr ⟨stack, rfl, rfl, rfl⟩

/-- What happens when a node is computed: it cannot be entered, or its formula runs with the node
on the stack and the outcome is put away with the node off the stack. -/
theorem compute_cases {run : RunFormula} {id : CellId} {c : Cells} {key : Key} {m m' : Model}
    {r : Except Failure Value} (h : compute run id c key m = some (r, m')) :
    (m' = m ∧ ∃ e, enter (.cells id key) m = some (.error e, m) ∧ r = .error e) ∨
      ∃ stack q m₁, m.stack.push? (.cells id key) = some stack ∧
        enter (.cells id key) m = some (.ok (), { m with stack }) ∧
        runCells run id c key { m with stack } = some (.ok q, m₁) ∧
        finish id key q { m₁ with stack := m₁.stack.pop } = some (r, m') := by
  unfold compute at h
  rcases (bind_eq_some m).1 h with ⟨u, m₀, henter, h⟩ | ⟨e, henter, rfl⟩
  · rcases enter_cases henter with ⟨-, e, he⟩ | ⟨stack, hpush, -, rfl⟩
    · cases he
    · rcases (bind_eq_some _).1 h with ⟨q, m₁, hrun, h⟩ | ⟨e, hrun, rfl⟩
      · exact .inr ⟨stack, q, m₁, hpush, henter, hrun, h⟩
      · exfalso
        unfold runCells at hrun
        rw [attempt_bind] at hrun
        split at hrun
        · cases hrun
        · contradiction
  · rcases enter_cases henter with ⟨rfl, e, he⟩ | ⟨stack, -, he, -⟩
    · cases he
      exact .inl ⟨rfl, e, henter, rfl⟩
    · cases he

/-- A result that can be stored is stored, and its node is noted as read. -/
theorem finish_of_store {id : CellId} {key : Key} {v : Value} {m : Model} {c : Cells}
    {contents : Contents} (hc : m.cells.get? id = some c)
    (hstore : c.contents.store? key v = some contents) :
    finish id key (.ok v) m =
      some (.ok v, noteRead (.cells id key) (m.modifyCell id fun c => { c with contents })) := by
  have hcell : m.cell id = .ok c := cell_eq_ok.2 hc
  simp only [finish, read_bind, hcell, hstore]
  rfl

/-- Running the formula of a node gives its outcome and changes what the formula changes. -/
theorem runCells_cases {run : RunFormula} {id : CellId} {c : Cells} {key : Key} {m m' : Model}
    {q : Except Failure Value} (h : runCells run id c key m = some (.ok q, m')) :
    (c.formula = none ∧ m' = m ∧ q = outcome id (.cells id key) (.ok .empty) m) ∨
      ∃ f r, c.formula = some f ∧ run c.space f key.values m = some (r, m') ∧
        q = outcome id (.cells id key) r m' := by
  unfold runCells at h
  rw [attempt_bind] at h
  cases hf : c.formula with
  | none =>
    rw [hf] at h
    cases h
    exact .inl ⟨rfl, rfl, rfl⟩
  | some f =>
    rw [hf] at h
    simp only at h
    cases hrun : run c.space f key.values m with
    | none => rw [hrun] at h; cases h
    | some p =>
      obtain ⟨r, m₁⟩ := p
      rw [hrun] at h
      cases h
      exact .inr ⟨f, r, rfl, hrun, rfl⟩

theorem tracked_push {m : Model} (h : m.Tracked loose) {id : CellId} {c : Cells} {key : Key}
    {stack : Stack} (hpush : m.stack.push? (.cells id key) = some stack)
    (hc : m.cells.get? id = some c) (hnone : c.contents.get? key = none) :
    { m with stack }.Tracked loose := by
  have hnodes := Stack.nodes_of_push? hpush
  refine ⟨⟨h.tidy.spaces, h.tidy.cells, h.tidy.refs⟩, h.indexed, h.exclusive, fun a b hab => ?_,
    h.read, fun n hn => ?_⟩
  · refine (h.reader a b hab).imp_right fun hs => ?_
    show stack.nodes.contains a = true
    rw [hnodes, List.contains_cons, hs, Bool.or_true]
  · rw [hnodes] at hn
    rcases List.mem_cons.1 hn with rfl | hn
    · exact ⟨id, c, rfl, hc, hnone⟩
    · exact h.waiting n hn

section Top

variable {m : Model} {n : Node} {rest : List Node}

/-- A node that failed leaves the stack, and its reads are dropped. -/
theorem tracked_dropTop (h : m.Tracked loose) (hnodes : m.stack.nodes = n :: rest) :
    { m with stack := m.stack.pop, graph := m.graph.dropReads n }.Tracked loose := by
  obtain ⟨hindexed, hedge⟩ := Graph.dropReads_spec h.indexed n
  have hpop : m.stack.pop.nodes = rest := by rw [Stack.nodes_pop, hnodes, List.tail_cons]
  have old : ∀ a b, (m.graph.dropReads n).hasEdge a b = true →
      (n == a) = false ∧ m.graph.hasEdge a b = true := by
    intro a b hab
    rw [hedge, Bool.and_eq_true, Bool.not_eq_true'] at hab
    exact hab
  refine ⟨⟨h.tidy.spaces, h.tidy.cells, h.tidy.refs⟩, hindexed, h.exclusive, fun a b hab => ?_,
    fun a b hab => h.read a b (old a b hab).2, fun a ha => ?_⟩
  · obtain ⟨hna, hab⟩ := old a b hab
    refine (h.reader a b hab).imp_right fun hs => ?_
    show m.stack.pop.nodes.contains a = true
    rw [hnodes, List.contains_cons, BEq.comm, hna, Bool.false_or] at hs
    rw [hpop, hs]
  · rw [hpop] at ha
    refine h.waiting a ?_
    rw [hnodes]
    exact List.mem_cons_of_mem _ ha

/-- The value of a node is stored, and the node leaves the stack. -/
theorem tracked_store {id : CellId} {c : Cells} {key : Key} {v : Value} {contents : Contents}
    (h : m.Tracked loose) (hnodes : m.stack.nodes = .cells id key :: rest)
    (hc : m.cells.get? id = some c) (hstore : c.contents.store? key v = some contents) :
    ({ m with stack := m.stack.pop }.modifyCell id fun c => { c with contents }).Tracked loose ∧
      ({ m with stack := m.stack.pop }.modifyCell id fun c =>
        { c with contents }).isLive (.cells id key) = true := by
  have hpop : m.stack.pop.nodes = rest := by rw [Stack.nodes_pop, hnodes, List.tail_cons]
  have hcell : ∀ d, m.cells.get? id = some d → d = c := fun d hd =>
    Option.some.inj (hd.symm.trans hc)
  have hself : (m.cells.modify id fun c => { c with contents }).get? id =
      some { c with contents } := by
    rw [Pool.get?_modify, if_pos rfl, hc, Option.map_some]
  have hlive : ({ m with stack := m.stack.pop }.modifyCell id fun c =>
      { c with contents }).isLive (.cells id key) = true := by
    show ((m.cells.modify id _).get? id).any (fun c => (c.contents.get? key).isSome) = true
    rw [hself, Option.any_some, Contents.get?_store hstore, BEq.rfl]
    rfl
  -- what was computed stays, and the node itself is computed now
  have computed : ∀ a, m.isComputed a = true ∨ (Node.cells id key == a) = true →
      ({ m with stack := m.stack.pop }.modifyCell id fun c => { c with contents }).isComputed a =
        true := by
    rintro a (ha | ha)
    · refine isComputed_modifyContents (m := { m with stack := m.stack.pop })
        (fun _ => contents) (fun d hd he hk => ?_) ha
      cases hcell d hd
      rw [Contents.hasComputed_store hstore, hk, Bool.or_true]
    · rw [Graph.node_beq_iff, Bool.and_eq_true, beq_iff_eq] at ha
      refine isComputed_iff.2 ⟨id, _, ha.1.symm, hself, ?_⟩
      rw [Contents.hasComputed_store hstore, Bool.or_eq_true]
      exact .inl ha.2
  refine ⟨⟨⟨h.tidy.spaces, Pool.tidy_modify _ _ _ h.tidy.cells, h.tidy.refs⟩, h.indexed, ?_,
    fun a b hab => ?_, fun a b hab => ?_, fun a ha => ?_⟩, hlive⟩
  · intro other d k hd
    refine exclusive_modifyContents (m := { m with stack := m.stack.pop }) (fun _ => contents)
      (fun o d hd k => h.exclusive o d k hd) (fun d hd hd' => ?_) other d hd k
    cases hcell d hd
    exact hd'.store hstore
  · rcases h.reader a b hab with ha | ha
    · exact .inl (computed a (.inl ha))
    · rw [hnodes, List.contains_cons, Bool.or_eq_true] at ha
      rcases ha with ha | ha
      · exact .inl (computed a (.inr (BEq.symm ha)))
      · refine .inr ?_
        show m.stack.pop.nodes.contains a = true
        rw [hpop, ha]
  · refine (h.read a b hab).imp_left fun hl => ?_
    refine isLive_modifyContents (m := { m with stack := m.stack.pop })
      (fun _ => contents) (fun d hd _ hk => ?_) hl
    cases hcell d hd
    rw [Contents.get?_store hstore]
    split
    · rfl
    · exact hk
  · change a ∈ m.stack.pop.nodes at ha
    rw [hpop] at ha
    -- the nodes under evaluation are all different
    have hdistinct := m.stack.distinct
    rw [hnodes] at hdistinct
    have hne := (List.pairwise_cons.1 hdistinct).1 a ha
    obtain ⟨other, d, he, hd, hk⟩ := h.waiting a (by rw [hnodes]; exact List.mem_cons_of_mem _ ha)
    refine ⟨other, _, he, by rw [get?_modifyContents _ _ fun _ => contents, hd]; rfl, ?_⟩
    split
    next heq =>
      subst heq
      cases hcell d hd
      rw [node_beq_of_entity key he] at hne
      show contents.get? a.key = none
      rw [Contents.get?_store hstore, hne, hk]
      rfl
    next => exact hk

end Top

theorem under_compute {run : RunFormula} {id : CellId} {c : Cells} {key : Key} {m m' : Model}
    {r : Except Failure Value}
    (hrun : ∀ stack f q m₁, m.stack.push? (.cells id key) = some stack →
      run c.space f key.values { m with stack } = some (q, m₁) →
      Under (Tracked loose) Retains { m with stack } m₁)
    (hc : m.cells.get? id = some c) (hnone : c.contents.get? key = none)
    (h : compute run id c key m = some (r, m')) : Under (Tracked loose) Retains m m' := by
  intro ht
  rcases compute_cases h with ⟨rfl, -⟩ | ⟨stack, q, m₁, hpush, -, hcells, hfinish⟩
  · exact ⟨ht, Frame.refl _⟩
  have hnodes := Stack.nodes_of_push? hpush
  have hpushed : { m with stack }.Tracked loose := tracked_push ht hpush hc hnone
  have hran : m₁.Tracked loose ∧ Retains { m with stack } m₁ := by
    rcases runCells_cases hcells with ⟨-, rfl, -⟩ | ⟨f, r, -, hf, -⟩
    · exact ⟨hpushed, Frame.refl _⟩
    · exact hrun stack f r m₁ hpush hf hpushed
  obtain ⟨ht₁, hretains⟩ := hran
  have hnodes₁ : m₁.stack.nodes = .cells id key :: m.stack.nodes := hretains.stack.trans hnodes
  have hpop : m₁.stack.pop.nodes = m.stack.nodes := by
    rw [Stack.nodes_pop, hnodes₁, List.tail_cons]
  obtain ⟨other, c₁, he, hc₁, hnone₁⟩ := ht₁.waiting (.cells id key) (by rw [hnodes₁]; simp)
  cases he
  cases q with
  | error e =>
    unfold finish at hfinish
    cases hfinish
    exact ⟨tracked_dropTop ht₁ hnodes₁, hpop, hretains.spaces⟩
  | ok v =>
    obtain ⟨contents, hstore⟩ : ∃ contents, c₁.contents.store? key v = some contents :=
      ⟨_, Contents.store?_eq_some.2
        ⟨Contents.inputs_eq_none_iff.1 (Option.or_eq_none_iff.1 hnone₁).1, rfl⟩⟩
    have hpopped : { m₁ with stack := m₁.stack.pop }.cells.get? id = some c₁ := hc₁
    rw [finish_of_store hpopped hstore] at hfinish
    cases hfinish
    obtain ⟨hstored, hlive⟩ := tracked_store ht₁ hnodes₁ hc₁ hstore
    refine ⟨tracked_noteRead hstored hlive, ?_, ?_⟩
    · rw [stack_noteRead]
      exact hpop
    · rw [spaces_noteRead]
      exact hretains.spaces

/-- Evaluation keeps models tracked and the stack as it was. -/
theorem evaluationFrame_tracked : EvaluationFrame (Tracked loose) Retains where
  frame := inferInstance
  start _ h := ⟨⟨⟨h.tidy.spaces, h.tidy.cells, h.tidy.refs⟩, h.indexed, h.exclusive, h.reader,
    h.read, h.waiting⟩, retains_of_spaces rfl rfl⟩
  note := under_noteRead
  child := under_ensureChild
  signature _ _ h _ _ hspec := h.signature hspec
  item _ _ _ _ _ _ h := under_ensureItem h
  node _ hrun _ _ _ _ _ _ hc hnone h :=
    under_compute (fun _ _ _ _ _ hf => hrun _ _ _ _ _ _ hf) (cell_eq_ok.1 hc) hnone h

end Recalc.Model
