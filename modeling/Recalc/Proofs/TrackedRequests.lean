import Recalc.Proofs.HostLaws
import Recalc.Proofs.TrackedEdits
import Recalc.Shop

set_option autoImplicit false

/-!
# The dependency graph tells the truth

Whatever a host asks of a model, and whether it succeeds or fails, nothing is under evaluation
afterwards, what has recorded reads is stored as computed, and what was read is still there.
-/

namespace Recalc.Model

open Recalc.Action

/-! ## Inputs -/

/-- An input is put where nothing was read from and nothing has read. -/
theorem Calm.putInput {m : Model} (h : m.Calm) {id : CellId} {key : Key} (v : Value)
    (hfree : ∀ n, (Node.cells id key == n) = true → m.Untouched n) :
    (m.modifyCell id fun c => { c with contents := c.contents.putInput key v }).Calm := by
  refine ⟨⟨⟨h.tidy.spaces, Pool.tidy_modify _ _ _ h.tidy.cells, h.tidy.refs⟩, h.indexed, ?_,
    fun a b hab => .inl ?_, fun a b hab => ?_, fun n hn => ?_⟩, h.idle⟩
  · exact fun other c k hc => exclusive_modifyContents (·.putInput key v)
      (fun o d hd k => h.exclusive o d k hd) (fun _ _ hd => hd.putInput) other c hc k
  · change m.graph.hasEdge a b = true at hab
    have hne : (Node.cells id key == a) = false := by
      refine Bool.eq_false_iff.2 fun ha => ?_
      rw [(hfree a ha b).2] at hab
      contradiction
    refine isComputed_modifyContents (·.putInput key v) (fun d _ he hk => ?_) (h.computed hab)
    rw [node_beq_of_entity key he] at hne
    show (d.contents.values.erase key).contains a.key = true
    rw [Table.contains_erase, hne]
    exact hk
  · refine (h.read a b hab).imp_left fun hl => ?_
    refine isLive_modifyContents (·.putInput key v) (fun d _ _ hk => ?_) hl
    show ((d.contents.putInput key v).get? b.key).isSome = true
    rw [Contents.get?_putInput]
    split
    · rfl
    · exact hk
  · exact absurd (show n ∈ m.stack.nodes from hn) (by rw [h.idle]; simp)

theorem calm_putInput (id : CellId) (args : List Value) (v : Value) :
    Obeys (Keeps Calm) (putInput id args v) := by
  refine obeys_bind (obeys_read _) fun key => obeys_modify fun m hm => ?_
  have hforget := forgetsAll_invalidate m (.cells id key)
  exact Calm.putInput (hforget.forgetsSome.calm hm) v fun n hn => hforget.untouched hm.indexed hn

/-- Taking an input away lets go of its node. -/
theorem resting_dropInput {m : Model} (h : m.Calm) (id : CellId) (key : Key) :
    (m.modifyCell id fun c => { c with contents := c.contents.dropInput key }).Resting
      fun n => (Node.cells id key == n) = true := by
  refine ⟨⟨⟨h.tidy.spaces, Pool.tidy_modify _ _ _ h.tidy.cells, h.tidy.refs⟩, h.indexed, ?_,
    fun a b hab => .inl ?_, fun a b hab => ?_, fun n hn => ?_⟩, h.idle⟩
  · exact fun other c k hc => exclusive_modifyContents (·.dropInput key)
      (fun o d hd k => h.exclusive o d k hd) (fun _ _ hd => hd.dropInput) other c hc k
  · exact isComputed_modifyContents (·.dropInput key) (fun _ _ _ hk => hk) (h.computed hab)
  · have hl := (h.read a b hab).resolve_right fun hf => hf
    cases hb : Node.cells id key == b with
    | true => exact .inr rfl
    | false =>
      refine .inl (isLive_modifyContents (·.dropInput key) (fun d _ he hk => ?_) hl)
      rw [node_beq_of_entity key he] at hb
      rw [Contents.get?_dropInput hb]
      exact hk
  · exact absurd (show n ∈ m.stack.nodes from hn) (by rw [h.idle]; simp)

theorem calm_takeInput (id : CellId) (args : List Value) :
    Obeys (Keeps Calm) (takeInput id args) := by
  refine obeys_bind (obeys_read _) fun key => obeys_bind (obeys_read _) fun c => ?_
  split
  · refine obeys_bind (obeys_modify fun m hm => ?_) fun _ => obeys_pure _
    exact ((forgetsAll_invalidate _ (.cells id key)).resting (resting_dropInput hm id key)).mono
      fun n hn => hn.2 hn.1
  · exact obeys_pure _

/-! ## Forgetting -/

theorem calm_forgetEach (ids : List SpaceId) : Obeys (Keeps Calm) (forgetEach ids) := by
  induction ids with
  | nil => exact obeys_pure _
  | cons id rest ih => exact obeys_bind (editFrame_calm.forgetWithin id) fun _ => ih

theorem calm_emptyGraph (m : Model) : Keeps Calm m { m with graph := .empty } := by
  intro hm
  have hnone : ∀ a b, Graph.empty.hasEdge a b = false := by
    intro a b
    show (Graph.setAt (.empty : Table Node (KeySet Node)) a).contains b = false
    rw [Graph.setAt, Table.get?_empty]
    exact KeySet.contains_empty b
  refine ⟨⟨⟨hm.tidy.spaces, hm.tidy.cells, hm.tidy.refs⟩, Graph.indexed_empty, hm.exclusive, ?_, ?_,
    hm.waiting⟩, hm.idle⟩
  · intro a b hab
    rw [hnone a b] at hab
    contradiction
  · intro a b hab
    rw [hnone a b] at hab
    contradiction

theorem calm_forgetAll : Obeys (Keeps Calm) forgetAll :=
  obeys_bind obeys_get fun _ => obeys_bind (calm_forgetEach _) fun _ =>
    obeys_modify calm_emptyGraph

/-! ## Calls -/

theorem calm_reclaim (held : List Handle) (m : Model) : Keeps Calm m (reclaim held m).2 :=
  reclaim_obeys (fun _ owner key hm => resting_removeInstance hm owner key) held m

theorem calm_reclaimFirst (held : List Handle) : Obeys (Keeps Calm) (reclaimFirst held) := by
  refine obeys_modify fun m => ?_
  split
  · exact calm_reclaim held m
  · exact Frame.refl m

section Calls

variable (fuel : Nat) (held : List Handle)

theorem runs_tracked (id : SpaceId) (f : Formula) (args : List Value) :
    Obeys (Under (Tracked fun _ => False) Retains) (runFormula fuel id f args) :=
  evaluationFrame_tracked.runFormula fuel id f args

theorem calm_call (id : CellId) (a : Arguments) : Obeys (Keeps Calm) (call fuel held id a) :=
  obeys_bind (calm_reclaimFirst held) fun _ =>
    obeys_calm_of_under (evaluationFrame_tracked.evaluate (runs_tracked fuel) id a)

theorem calm_instantiate (id : SpaceId) (a : Arguments) :
    Obeys (Keeps Calm) (instantiate (runFormula fuel) id a) :=
  obeys_calm_of_under (evaluationFrame_tracked.instantiate (runs_tracked fuel) id a)

theorem calm_selectInstance (id : SpaceId) (a : Arguments) :
    Obeys (Keeps Calm) (selectInstance fuel held id a) :=
  obeys_bind (calm_reclaimFirst held) fun _ => calm_instantiate fuel id a

theorem calm_readFrom (id : SpaceId) (name : String) :
    Obeys (Keeps Calm) (readFrom fuel held id name) :=
  obeys_bind (calm_reclaimFirst held) fun _ =>
    obeys_calm_of_under (evaluationFrame_tracked.readName (runs_tracked fuel) id name none)

theorem calm_itemKey (id : SpaceId) (a : Arguments) :
    Obeys (Keeps Calm) (itemKey (runFormula fuel) id a) := by
  intro m r m' h hm
  obtain ⟨⟨ht, hretains⟩, -⟩ :=
    evaluationFrame_tracked.itemKey (runs_tracked fuel) id a hm.toTracked h
  exact ⟨ht, hretains.stack.trans hm.idle⟩

theorem calm_discardInstance (id : SpaceId) (args : List Value) :
    Obeys (Keeps Calm) (discardInstance fuel id args) :=
  obeys_bind (calm_itemKey fuel id _) fun key => obeys_bind (obeys_read _) fun _ =>
    obeys_update fun _ hm => resting_removeInstance hm id key

end Calls

theorem calm_discardInstances (id : SpaceId) : Obeys (Keeps Calm) (discardInstances id) :=
  obeys_bind (obeys_read _) fun _ => obeys_update fun m => editFrame_calm.removeEveryInstance m id

theorem calm_childNamed (id : SpaceId) (name : String) :
    Obeys (Keeps Calm) (childNamed id name) := by
  refine obeys_bind (obeys_read _) fun s => ?_
  split
  · exact obeys_pure _
  · split
    · exact obeys_bind obeys_get fun _ => obeys_fail _
    · exact obeys_calm_of_under (under_ensureChild id name)

theorem calm_restoreFlag (e : SpaceId × StoredSpace) : Obeys (Keeps Calm) (restoreFlag e) := by
  unfold restoreFlag
  split
  · exact obeys_bind (obeys_read _) fun _ =>
      obeys_modify fun m =>
        (widens_record m e.1 _ fun s => (preserves_setDerived true s).instances).calm
  · exact obeys_pure _

end Recalc.Model

namespace Recalc

open Recalc.Action Recalc.Model

theorem calm_new (name : String) (config : Config) (order : WalkOrder) :
    ({ name, config, order } : Model).Calm := by
  have hnone : ∀ a b, Graph.empty.hasEdge a b = false := by
    intro a b
    show (Graph.setAt (.empty : Table Node (KeySet Node)) a).contains b = false
    rw [Graph.setAt, Table.get?_empty]
    exact KeySet.contains_empty b
  refine ⟨⟨⟨Pool.tidy_empty, Pool.tidy_empty, Pool.tidy_empty⟩, Graph.indexed_empty, ?_, ?_, ?_,
    ?_⟩, rfl⟩
  · intro id c k hc
    exact absurd (hc.symm.trans (Pool.get?_empty id)) (by simp)
  · intro a b hab
    exact absurd ((hnone a b).symm.trans hab) (by simp)
  · intro a b hab
    exact absurd ((hnone a b).symm.trans hab) (by simp)
  · intro n hn
    exact absurd hn (by simp [Stack.empty])

theorem hostFrame_calm : HostFrame (Keeps Calm) where
  frame := inferInstance
  createSpace := editFrame_calm.rounds.waves.createSpace
  removeSpace := editFrame_calm.rounds.waves.removeSpace
  childNamed := calm_childNamed
  letSpaceBeEmpty := editFrame_calm.letSpaceBeEmpty
  document := editFrame_calm.document
  defineCells := editFrame_calm.rounds.defineCells
  redefine := editFrame_calm.rounds.redefineCells
  removeCells := editFrame_calm.rounds.waves.removeCells
  letCellsBeEmpty := editFrame_calm.rounds.letCellsBeEmpty
  dropOverride := editFrame_calm.rounds.waves.dropOverride
  bindName := editFrame_calm.rounds.waves.bindName
  rebind := editFrame_calm.rounds.waves.rebindRef
  unbind := editFrame_calm.rounds.waves.unbind
  bindGlobal := editFrame_calm.bindGlobal
  linkBase := editFrame_calm.rounds.waves.linkBase
  unlinkBase := editFrame_calm.rounds.waves.unlinkBase
  declareParams := editFrame_calm.rounds.declareParams
  call := calm_call
  selectInstance := calm_selectInstance
  readFrom := calm_readFrom
  putInput := calm_putInput
  takeInput := calm_takeInput
  forgetCells _ := obeys_bind (obeys_read _) fun _ => obeys_update fun m =>
    (forgetsAll_invalidateCells m _).forgetsSome.calm
  forgetAt _ _ := obeys_bind (obeys_read _) fun key => obeys_update fun m =>
    (forgetsAll_invalidate m (.cells _ key)).forgetsSome.calm
  forgetWithin := editFrame_calm.forgetWithin
  forgetAll := calm_forgetAll
  discardInstance := calm_discardInstance
  discardInstances := calm_discardInstances
  reclaim := calm_reclaim
  flag := calm_restoreFlag

theorem Reachable.calm {m : Model} (h : Reachable m) : m.Calm :=
  hostFrame_calm.reachable (fun hkeep => hkeep) calm_new h

/-- The edge from `d` to `p` is in one of the two tables of edges. -/
def Graph.Recorded (g : Graph) (d p : Node) : Prop := d ∈ g.readersOf p ∨ p ∈ g.readsOf d

/-- What holds of the dependency graph between two requests. -/
structure GraphSound (m : Model) : Prop where
  idle : m.stack.nodes = []
  exclusive : ∀ id c k, m.cells.get? id = some c →
    ¬ (c.contents.hasInput k = true ∧ c.contents.hasComputed k = true)
  reader : ∀ d p, m.graph.Recorded d p → ∃ id c, d.entity = .cells id ∧
    m.cells.get? id = some c ∧ c.contents.hasComputed d.key = true ∧
    c.contents.hasInput d.key = false
  read : ∀ d p, m.graph.Recorded d p → m.isLive p = true
  forgotten : ∀ d, m.isComputed d = false → m.graph.readsOf d = []

theorem Graph.hasEdge_of_recorded {g : Graph} (h : g.Indexed) {d p : Node} (hr : g.Recorded d p) :
    g.hasEdge d p = true := by
  rcases hr with hr | hr
  · rw [← Graph.mem_readersOf h]
    exact contains_of_mem hr
  · have hmem : (Graph.setAt g.reads d).keys.contains p = true := contains_of_mem hr
    rwa [Table.contains_keys] at hmem

/-- The dependency graph of every reachable model tells the truth. -/
theorem Reachable.graphSound {m : Model} (h : Reachable m) : GraphSound m := by
  have hm := h.calm
  have hreader : ∀ d p, m.graph.Recorded d p → m.isComputed d = true := fun d p hr =>
    hm.computed (Graph.hasEdge_of_recorded hm.indexed hr)
  refine ⟨hm.idle, fun id c k hc hk => ?_, fun d p hr => ?_, fun d p hr => ?_, fun d hd => ?_⟩
  · rw [hm.exclusive id c k hc hk.1] at hk
    exact absurd hk.2 (by simp)
  · obtain ⟨id, c, he, hc, hk⟩ := isComputed_iff.1 (hreader d p hr)
    refine ⟨id, c, he, hc, hk, Bool.eq_false_iff.2 fun hinput => ?_⟩
    rw [hm.exclusive id c d.key hc hinput] at hk
    contradiction
  · have hedge := Graph.hasEdge_of_recorded hm.indexed hr
    exact (hm.read d p hedge).resolve_right fun hf => hf
  · refine List.eq_nil_iff_forall_not_mem.2 fun p hp => ?_
    rw [hreader d p (.inr hp)] at hd
    contradiction

def shopRequests : List Request :=
  [.createSpace none "Shop", .bindName ⟨0, 0⟩ "price" (.int 3) .auto,
    .defineCells ⟨0, 0⟩ "total" (some Shop.totalFormula),
    .call ⟨0, 0⟩ { positional := [.int 4] }]

theorem shop_graphSound : ∃ m, Request.runAll 9 [] shopRequests Shop.start = some m ∧
    m.graph.size = 1 ∧ GraphSound m := by
  have hrun : (Request.runAll 9 [] shopRequests Shop.start).map (·.graph.size) = some 1 := by
    decide +kernel
  obtain ⟨m, hm, hsize⟩ := Option.map_eq_some_iff.1 hrun
  exact ⟨m, hm, hsize,
    Reachable.graphSound ⟨_, .new "doc" {}, Request.becomes_of_runAll shopRequests hm⟩⟩

end Recalc
