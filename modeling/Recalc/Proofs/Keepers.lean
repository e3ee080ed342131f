import Recalc.Proofs.ReclamationOrder

set_option autoImplicit false

/-!
# What keeps an instance

A reclamation asks whether there is a handle or a read, and not where it stands. So each instance
that is left is kept by one. It may be a handle to an instance further inside, and the way inwards
comes to an end because no space has more spaces around it than the model has. Where the handle or
the read stands is another matter. A formula that gives the space back in which it runs leaves a
value that pins the instance that the value is stored in, and from then on the instance keeps
itself.
-/

namespace Recalc.Graph

def nodes (g : Graph) : List Node :=
  let ofSets (t : Table Node (KeySet Node)) := t.entries.flatMap fun e => e.1 :: e.2.keys
  ofSets g.readers ++ ofSets g.reads ++ g.keys.entries.flatMap fun e => e.2.keys.map (⟨e.1, ·⟩)

theorem handles_eq (g : Graph) : g.handles = g.nodes.flatMap (·.key.handles) := by
  simp only [handles, nodes, List.flatMap_append, List.flatMap_assoc, List.flatMap_cons,
    List.flatMap_map]

theorem exists_node_of_edge {g : Graph} {a b : Node} (h : g.hasEdge a b = true) :
    ∃ n ∈ g.nodes, (n == a) = true := by
  unfold hasEdge setAt at h
  cases hs : g.reads.get? a with
  | none =>
    rw [hs, Option.getD_none, KeySet.contains_empty] at h
    contradiction
  | some s =>
    obtain ⟨n, hentry, hn⟩ := Table.mem_entries_of_get? hs
    have hmem : n ∈ g.reads.entries.flatMap fun e => e.1 :: e.2.keys :=
      List.mem_flatMap.2 ⟨(n, s), hentry, List.mem_cons_self⟩
    exact ⟨n, List.mem_append_left _ (List.mem_append_right _ hmem), hn⟩

end Recalc.Graph

namespace Recalc

theorem Cells.mem_handles {c : Cells} {h : Handle} : h ∈ c.handles ↔
    (∃ f, c.formula = some f ∧ h ∈ f.handles) ∨ h ∈ c.contents.handles := by
  rw [Cells.handles, List.mem_append]
  cases c.formula <;> simp

theorem Space.mem_handles {s : Space} {h : Handle} : h ∈ s.handles ↔
    (∃ sig, s.signature = some sig ∧ h ∈ sig.handles) ∨
      (∃ key ∈ s.instances.keys, h ∈ key.handles) ∨
        ∃ owner c key enclosing, s.kind = .item owner c key enclosing ∧ h ∈ key.handles := by
  rw [Space.handles, List.mem_append, List.mem_append, List.mem_flatMap, or_assoc]
  refine or_congr ?_ (or_congr .rfl ?_)
  · cases s.signature <;> simp
  · cases s.kind <;> simp

end Recalc

namespace Recalc.Model

variable {m : Model} {held : List Handle} {i : SpaceId}

/-! ## Keepers -/

/-- Where a handle stands, or a value that read something. -/
inductive Keeper where
  | host
  | definition
  /-- A key or a value that is stored with an entity. -/
  | stored (e : Entity)

inductive HeldAt (m : Model) (held : List Handle) (h : Handle) : Keeper → Prop
  | host : h ∈ held → HeldAt m held h .host
  | formula {id : CellId} {c : Cells} {f : Formula} : m.cells.get? id = some c →
      c.formula = some f → h ∈ f.handles → HeldAt m held h .definition
  | signature {id : SpaceId} {s : Space} {sig : Signature} : m.spaces.get? id = some s →
      s.signature = some sig → h ∈ sig.handles → HeldAt m held h .definition
  | ref {id : RefId} {r : Reference} : m.refs.get? id = some r → h ∈ r.value.handles →
      HeldAt m held h .definition
  /-- In an input or a stored value, or in the key of one. -/
  | content {id : CellId} {c : Cells} : m.cells.get? id = some c → h ∈ c.contents.handles →
      HeldAt m held h (.stored (.cells id))
  /-- In the key under which a space lists an instance. -/
  | listed {id : SpaceId} {s : Space} {key : Key} : m.spaces.get? id = some s →
      key ∈ s.instances.keys → h ∈ key.handles → HeldAt m held h (.stored (.space id))
  /-- In the arguments that an instance records. -/
  | args {id owner c : SpaceId} {s : Space} {key : Key} {enclosing : List SpaceId} :
      m.spaces.get? id = some s → s.kind = .item owner c key enclosing → h ∈ key.handles →
      HeldAt m held h (.stored (.space id))
  /-- In the key of a node with a recorded read. -/
  | node {n : Node} : n ∈ m.graph.nodes → h ∈ n.key.handles → HeldAt m held h (.stored n.entity)

/-- A handle that pins the instance stands there, or a stored value that read it. -/
inductive Keeps (m : Model) (held : List Handle) (i : SpaceId) : Keeper → Prop
  | handle {h : Handle} {k : Keeper} : m.HeldAt held h k → i ∈ h.pins → Keeps m held i k
  | read {owner : SpaceId} {key : Key} {n : Node} :
      (m.spaces.get? owner).bind (·.instances.get? key) = some i → m.isComputed n = true →
      m.graph.hasEdge n (.item owner key) = true → Keeps m held i (.stored n.entity)

def Keeper.Outside (m : Model) (i : SpaceId) : Keeper → Prop
  | .host | .definition => True
  | .stored e => ¬ m.Inside i e

/-- The instance, or one in its tree, is kept from outside the tree. -/
def KeptOutside (m : Model) (held : List Handle) (i : SpaceId) : Prop :=
  ∃ j k, m.IsItem j ∧ m.Inside i (.space j) ∧ m.Keeps held j k ∧ k.Outside m i

def KeepsItself (m : Model) (held : List Handle) (i : SpaceId) : Prop :=
  ∃ j e, m.IsItem j ∧ m.Inside i (.space j) ∧ m.Keeps held j (.stored e) ∧ m.Inside i e

/-! ## The way inwards -/

/-- Further inside is on a higher level. -/
theorem Level.le_of_inside {x y : SpaceId} {n k : Nat} (hx : m.Level x n) (hy : m.Level y k)
    (h : m.Inside x (.space y)) : n ≤ k := by
  generalize he : Entity.space y = e at h
  induction h generalizing y k with
  | self =>
    cases he
    exact (hx.unique hy).le
  | @member e a p hhome hp _ ih =>
    subst he
    obtain ⟨s, hs, rfl⟩ := space_of_home? hhome
    cases hy with
    | top ht htop =>
      cases hs.symm.trans ht
      rw [htop] at hp
      contradiction
    | inside ht hq hlevel =>
      cases hs.symm.trans ht
      cases hp.symm.trans hq
      exact (ih hlevel rfl).trans (Nat.le_succ _)

/-- What pins an instance stands somewhere, unless it is an instance inside. -/
theorem Pins.keeps (hcalm : m.Calm) (h : m.Pins held i) :
    (∃ k, m.Keeps held i k) ∨ ∃ j s, m.spaces.get? j = some s ∧ i ∈ s.enclosing := by
  cases h with
  | held hh hi => exact .inl ⟨_, .handle (.host hh) hi⟩
  | cells hc hh hi =>
    rcases Cells.mem_handles.1 hh with ⟨f, hf, hh⟩ | hh
    · exact .inl ⟨_, .handle (.formula hc hf hh) hi⟩
    · exact .inl ⟨_, .handle (.content hc hh) hi⟩
  | ref hr hh hi => exact .inl ⟨_, .handle (.ref hr hh) hi⟩
  | space hs hh hi =>
    rcases Space.mem_handles.1 hh with ⟨sig, hsig, hh⟩ | ⟨key, hkey, hh⟩ |
      ⟨owner, c, key, enclosing, hk, hh⟩
    · exact .inl ⟨_, .handle (.signature hs hsig hh) hi⟩
    · exact .inl ⟨_, .handle (.listed hs hkey hh) hi⟩
    · exact .inl ⟨_, .handle (.args hs hk hh) hi⟩
  | graph hh hi =>
    rw [Graph.handles_eq] at hh
    obtain ⟨n, hn, hmem⟩ := List.mem_flatMap.1 hh
    exact .inl ⟨_, .handle (.node hn hmem) hi⟩
  | stack hn =>
    rw [hcalm.idle] at hn
    cases hn
  | inside hs hi => exact .inr ⟨_, _, hs, hi⟩

section Inwards

variable {sites : SpaceId → Prop} (hm : m.Tame) (hfaithful : m.Faithful sites)
include hfaithful

/-- An instance that lies in another one is on a higher level. -/
theorem Faithful.inside_of_enclosing {j : SpaceId} {s : Space} {n : Nat}
    (hs : m.spaces.get? j = some s) (hi : i ∈ s.enclosing) (hlevel : m.Level i n) :
    m.IsItem j ∧ m.Inside i (.space j) ∧ ∃ k, n < k ∧ m.Level j k := by
  unfold Space.enclosing at hi
  split at hi
  next owner c args enclosing hk =>
    have howner : s.home.space? = some owner := by rw [home_of_item hk]; rfl
    obtain ⟨q, hq, -⟩ := hfaithful.owned.item_holder hs hk
    have hmem : i ∈ m.pinsOf owner := by
      rw [← (hfaithful.around hq).1
        (hfaithful.arranged.beside.enclosing j s owner c args enclosing q hs hk hq)]
      exact hi
    have hinside := hfaithful.inside_of_mem_pinsOf hq hmem
    obtain ⟨k, hk'⟩ := (hfaithful.owned.grounded owner q hq).level
    exact ⟨⟨s, owner, c, args, enclosing, hs, hk⟩, .member (home?_space hs) howner hinside,
      k + 1, Nat.lt_succ_of_le (hlevel.le_of_inside hk' hinside), .inside hs howner hk'⟩
  next => cases hi

include hm

/-- Where nothing is free, each instance is kept by what stands somewhere. -/
theorem Tame.keeps (hnil : m.freeInstances held = []) (hi : m.IsItem i) :
    ∃ j k, m.IsItem j ∧ m.Inside i (.space j) ∧ m.Keeps held j k := by
  have key : ∀ rest i n, m.IsItem i → m.Level i n → m.spaces.capacity ≤ n + rest →
      ∃ j k, m.IsItem j ∧ m.Inside i (.space j) ∧ m.Keeps held j k := by
    -- the further inside, the fewer levels are left
    intro rest
    induction rest with
    | zero =>
      intro i n _ hlevel hbound
      have := hlevel.lt_capacity
      omega
    | succ rest ih =>
      intro i n hi hlevel hbound
      obtain ⟨s, owner, c, args, enclosing, hs, hk⟩ := id hi
      obtain ⟨q, hq, hlisted⟩ := hm.owned.item_holder hs hk
      rcases kept_of_freeInstances_nil hm.room hm.calm.indexed hnil hq hlisted hs hk with
        hpins | ⟨a, ha⟩
      · rcases hpins.keeps hm.calm with ⟨k, hkeeps⟩ | ⟨j, t, ht, hj⟩
        · exact ⟨i, k, hi, .self, hkeeps⟩
        · obtain ⟨hitem, hinside, level, hless, hlevel'⟩ :=
            hfaithful.inside_of_enclosing ht hj hlevel
          obtain ⟨x, k, hx, hinside', hkeeps⟩ := ih j level hitem hlevel' (by omega)
          exact ⟨x, k, hx, hinside.trans hinside', hkeeps⟩
      · have hfound : (m.spaces.get? owner).bind (·.instances.get? args) = some i := by
          rw [hq, Option.bind_some, hlisted]
        exact ⟨i, _, hi, .self, .read hfound (hm.calm.computed ha) ha⟩
  obtain ⟨s, -, -, -, -, hs, -⟩ := id hi
  obtain ⟨n, hlevel⟩ := (hm.owned.grounded i s hs).level
  exact key m.spaces.capacity i n hi hlevel (Nat.le_add_left _ _)

end Inwards

/-- No read is recorded, and the handles stand in what the cells of one space have stored. -/
structure Secluded (m : Model) (i : SpaceId) : Prop where
  nodes : m.graph.nodes = []
  cells : ∀ e ∈ m.cells.entries, (e.2.formula.map Formula.handles).getD [] = [] ∧
    (e.2.space = i ∨ e.2.contents.handles = [])
  refs : ∀ e ∈ m.refs.entries, e.2.value.handles = []
  spaces : ∀ e ∈ m.spaces.entries, e.2.handles = []

theorem Secluded.not_keptOutside (h : m.Secluded i) (room : m.Addressable) :
    ¬ m.KeptOutside [] i := by
  rintro ⟨j, k, -, -, hkeeps, houtside⟩
  have hspace : ∀ {id s a}, m.spaces.get? id = some s → a ∉ s.handles := fun hs ha => by
    rw [h.spaces _ ((Pool.mem_entries room.1).2 hs)] at ha
    cases ha
  cases hkeeps with
  | handle hheld _ =>
    cases hheld with
    | host hh => cases hh
    | formula hc hf hh =>
      have hnone := (h.cells _ ((Pool.mem_entries room.2).2 hc)).1
      rw [hf, Option.map_some, Option.getD_some] at hnone
      rw [hnone] at hh
      cases hh
    | signature hs hsig hh => exact hspace hs (Space.mem_handles.2 (.inl ⟨_, hsig, hh⟩))
    | ref hr hh =>
      rw [h.refs _ ((Pool.mem_entries room.3).2 hr)] at hh
      cases hh
    | content hc hh =>
      rcases (h.cells _ ((Pool.mem_entries room.2).2 hc)).2 with heq | hnone
      · exact houtside (.member (home?_cells hc) rfl (heq ▸ .self))
      · rw [hnone] at hh
        cases hh
    | listed hs hkey hh => exact hspace hs (Space.mem_handles.2 (.inr (.inl ⟨_, hkey, hh⟩)))
    | args hs hk hh => exact hspace hs (Space.mem_handles.2 (.inr (.inr ⟨_, _, _, _, hk, hh⟩)))
    | node hn =>
      rw [h.nodes] at hn
      cases hn
  | read _ _ hedge =>
    obtain ⟨n, hn, -⟩ := Graph.exists_node_of_edge hedge
    rw [h.nodes] at hn
    cases hn

end Recalc.Model

namespace Recalc

open Recalc.Model

theorem Reachable.reclaim {m : Model} (h : Reachable m) (held : List Handle) :
    Reachable (m.reclaim held).2 := by
  obtain ⟨start, hborn, hbecomes⟩ := h
  exact ⟨start, hborn, .step ⟨m, 0, held, .reclaim, .ok (.count (m.reclaim held).1), _⟩ hbecomes
    rfl trivial⟩

/-- Each instance that a reclamation leaves is kept from outside its tree, or by what is stored in
the tree. -/
theorem Reachable.kept {m : Model} (h : Reachable m) (room : m.Addressable) (held : List Handle)
    {i : SpaceId} (hi : (m.reclaim held).2.IsItem i) :
    (m.reclaim held).2.KeptOutside held i ∨ (m.reclaim held).2.KeepsItself held i := by
  have htame := h.tame room
  have hnil := htame.owned.freeInstances_reclaim room held
  have hroom : (m.reclaim held).2.Addressable :=
    (reclaim_obeys under_removeInstance held m htame.owned).2.addressable.2 room
  have hreach := h.reclaim held
  obtain ⟨j, k, hj, hinside, hkeeps⟩ :=
    (hreach.tame hroom).keeps (hreach.running.faithful hroom) hnil hi
  cases k with
  | host => exact .inl ⟨j, .host, hj, hinside, hkeeps, trivial⟩
  | definition => exact .inl ⟨j, .definition, hj, hinside, hkeeps, trivial⟩
  | stored e =>
    by_cases he : (m.reclaim held).2.Inside i e
    · exact .inr ⟨j, e, hj, hinside, hkeeps, he⟩
    · exact .inl ⟨j, .stored e, hj, hinside, hkeeps, he⟩

/-- `S[1].me` gives the space back in which it runs, and that is `S[1]`. -/
def selfRequests : List Request :=
  [.createSpace none "S", .declareParams ⟨0, 0⟩ [{ name := "n" }] none,
    .defineCells ⟨0, 0⟩ "me" (some ⟨0, [], .computed (fun _ => Body.query .here) [], none⟩),
    .selectInstance ⟨0, 0⟩ { positional := [.int 1] }, .call ⟨1, 0⟩ {}]

/-- The host has dropped its handle, and the value of `S[1].me` alone keeps `S[1]`. -/
theorem self_not_keptOutside : ∃ m, Reachable m ∧ m.Addressable ∧
    (m.reclaim []).2.IsItem ⟨1, 0⟩ ∧ ¬ (m.reclaim []).2.KeptOutside [] ⟨1, 0⟩ := by
  have hrun : ((Request.runAll 9 [{ id := ⟨1, 0⟩, pins := [⟨1, 0⟩] }] selfRequests Shop.start).any
      fun m => decide (m.Addressable ∧ (m.reclaim []).2.Addressable ∧
        (m.reclaim []).2.graph.nodes = [] ∧
        (∀ e ∈ (m.reclaim []).2.cells.entries, (e.2.formula.map Formula.handles).getD [] = [] ∧
          (e.2.space = ⟨1, 0⟩ ∨ e.2.contents.handles = [])) ∧
        (∀ e ∈ (m.reclaim []).2.refs.entries, e.2.value.handles = []) ∧
        (∀ e ∈ (m.reclaim []).2.spaces.entries, e.2.handles = []) ∧
        ((m.reclaim []).2.spaces.get? ⟨0, 0⟩).bind
          (·.instances.get? ⟨[.int 1], rfl⟩) = some ⟨1, 0⟩)) = true := by decide +kernel
  obtain ⟨m, hm, hfacts⟩ := (Option.any_eq_true _ _).1 hrun
  obtain ⟨room, hroom, hnodes, hcells, hrefs, hspaces, hlisted⟩ := of_decide_eq_true hfacts
  have hreach : Reachable m := ⟨_, .new "doc" {}, Request.becomes_of_runAll selfRequests hm⟩
  have hsecluded : (m.reclaim []).2.Secluded ⟨1, 0⟩ := ⟨hnodes, hcells, hrefs, hspaces⟩
  exact ⟨m, hreach, room, ((hreach.reclaim []).tame hroom).owned.isItem_of_listed hlisted,
    hsecluded.not_keptOutside hroom⟩

theorem self_kept : ∃ m, Request.runAll 9 [{ id := ⟨1, 0⟩, pins := [⟨1, 0⟩] }] selfRequests
    Shop.start = some m ∧ m.Addressable ∧ (m.reclaim []).2.IsItem ⟨1, 0⟩ ∧
      ((m.reclaim []).2.KeptOutside [] ⟨1, 0⟩ ∨ (m.reclaim []).2.KeepsItself [] ⟨1, 0⟩) := by
  have hrun : ((Request.runAll 9 [{ id := ⟨1, 0⟩, pins := [⟨1, 0⟩] }] selfRequests Shop.start).any
      fun m => decide (m.Addressable ∧ (m.reclaim []).2.Addressable ∧
        ((m.reclaim []).2.spaces.get? ⟨0, 0⟩).bind
          (·.instances.get? ⟨[.int 1], rfl⟩) = some ⟨1, 0⟩)) = true := by decide +kernel
  obtain ⟨m, hm, hfacts⟩ := (Option.any_eq_true _ _).1 hrun
  obtain ⟨room, hroom, hlisted⟩ := of_decide_eq_true hfacts
  have hreach : Reachable m := ⟨_, .new "doc" {}, Request.becomes_of_runAll selfRequests hm⟩
  have hitem := ((hreach.reclaim []).tame hroom).owned.isItem_of_listed hlisted
  exact ⟨m, hm, room, hitem, Reachable.kept hreach room [] hitem⟩

end Recalc
