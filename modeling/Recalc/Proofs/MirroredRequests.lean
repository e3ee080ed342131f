import Recalc.Proofs.HostLaws
import Recalc.Proofs.MirroredEdits
import Recalc.Proofs.MirroredReplicas
import Recalc.Proofs.TrackedEvaluation
import Recalc.Shop

set_option autoImplicit false

/-!
# Every replica is a mirror

Between two requests every replica is what its counterpart makes of it now, whatever was edited and
wherever the edit came from.
-/

namespace Recalc.Model

open Recalc.Action

/-! ## Evaluation -/

section Evaluation

variable {m m' : Model}

/-- Pools do not shrink, and neither the stack nor the kinds of spaces change. -/
structure Grows (m m' : Model) : Prop where
  fits : Fits m m'
  retains : Retains m m'

instance : Frame Grows where
  refl m := ⟨Frame.refl m, Frame.refl m⟩
  trans h h' := ⟨Frame.trans h.fits h'.fits, Frame.trans h.retains h'.retains⟩

structure Orderly (m : Model) : Prop where
  tidy : m.Tidy
  proper : Proper m

theorem orderly_alike (h : Alike m m') (retains : Retains m m') : Under Orderly Grows m m' :=
  fun hm => ⟨⟨h.tidy' hm.tidy, (proper_alike h hm.proper).1⟩, h.fits, retains⟩

theorem fits_copyCells (m : Model) (replica c : SpaceId) : Fits m (m.copyCells replica c) := by
  unfold copyCells
  split
  next => exact Frame.refl m
  next =>
    exact foldl_keeps (P := Fits m) (fun m' c h => Frame.trans h (fits_addCells m' (copyOf replica c)))
      _ (Frame.refl m)

theorem fits_addReplica {m₁ : Model} {s : Space} {c id : SpaceId}
    (h : m.addReplica s c = (id, m₁)) : Fits m m₁ := by
  cases h
  exact Frame.trans (fits_addSpace m s) (fits_copyCells _ _ c)

theorem fits_ensureChild {p : SpaceId} {name : String} {r : Except Failure SpaceId}
    (h : ensureChild p name m = some (r, m')) : Fits m m' := by
  rcases ensureChild_cases h with ⟨rfl, -⟩ |
      ⟨s, root, c, source, counterpart, child, m₁, -, -, -, -, -, -, hadd, rfl, -⟩
  · exact Frame.refl _
  · exact Frame.trans (fits_addReplica hadd) (fits_modifySpace m₁ p _)

theorem fits_ensureItem {p : SpaceId} {key : Key} {r : Except Failure Handle}
    (h : ensureItem p key m = some (r, m')) : Fits m m' := by
  rcases ensureItem_cases h with ⟨rfl, -⟩ | ⟨s, hs, ⟨item, hitem, rfl, -⟩ |
      ⟨c, item, m₁, -, -, hadd, rfl, -⟩⟩
  · exact Frame.refl _
  · exact (alike_noteRead m _).fits
  · exact Frame.trans (fits_addReplica hadd)
      (Frame.trans (fits_modifySpace m₁ p _) (alike_noteRead _ _).fits)

theorem orderly_ensureChild (p : SpaceId) (name : String) :
    Obeys (Under Orderly Grows) (ensureChild p name) := by
  intro m r m' h hm
  have hfits := fits_ensureChild h
  refine ⟨⟨hfits.tidy hm.tidy, fun small => ?_⟩, hfits, retains_ensureChild hm.tidy h⟩
  exact faithful_ensureChild h small (hm.proper (hfits.addressable small))

theorem orderly_ensureItem {p : SpaceId} {key : Key} {r : Except Failure Handle}
    (hkey : m.KeyFits p key) (h : ensureItem p key m = some (r, m')) :
    Under Orderly Grows m m' := by
  intro hm
  have hfits := fits_ensureItem h
  refine ⟨⟨hfits.tidy hm.tidy, fun small => ?_⟩, hfits, retains_ensureItem hm.tidy h⟩
  exact faithful_ensureItem hkey h small (hm.proper (hfits.addressable small))

theorem alike_stack (m : Model) (stack : Stack) : Alike m { m with stack } :=
  ⟨rfl, rfl, rfl, rfl, fun _ => rfl, rfl, fun h => h⟩

theorem alike_finish {id : CellId} {key : Key} {q r : Except Failure Value}
    (h : finish id key q m = some (r, m')) : Alike m m' ∧ Retains m m' := by
  unfold finish at h
  cases q with
  | error e =>
    cases h
    exact ⟨⟨rfl, rfl, rfl, rfl, fun _ => rfl, rfl, fun h => h⟩, retains_of_spaces rfl rfl⟩
  | ok v =>
    simp only [read_bind] at h
    cases hc : m.cell id with
    | error e =>
      rw [hc] at h
      cases h
      exact ⟨Frame.refl m, Frame.refl m⟩
    | ok c =>
      cases hstore : c.contents.store? key v with
      | none =>
        simp only [hc, hstore] at h
        cases h
        exact ⟨Frame.refl m, Frame.refl m⟩
      | some contents =>
        simp only [hc, hstore] at h
        cases h
        have hstored := alike_modifyCell m id (fun c => { c with contents }) fun _ => rfl
        refine ⟨Frame.trans hstored (alike_noteRead _ _), retains_of_spaces ?_ ?_⟩
        · rw [stack_noteRead]
          rfl
        · rw [spaces_noteRead]
          rfl

theorem orderly_compute {run : RunFormula} {id : CellId} {c : Cells} {key : Key}
    {r : Except Failure Value}
    (hrun : ∀ stack f q m₁, m.stack.push? (.cells id key) = some stack →
      run c.space f key.values { m with stack } = some (q, m₁) →
      Under Orderly Grows { m with stack } m₁)
    (h : compute run id c key m = some (r, m')) : Under Orderly Grows m m' := by
  intro hm
  rcases compute_cases h with ⟨rfl, -⟩ | ⟨stack, q, m₁, hpush, -, hcells, hfinish⟩
  · exact ⟨hm, Frame.refl _⟩
  have hpushed : { m with stack }.Orderly :=
    ⟨⟨hm.tidy.spaces, hm.tidy.cells, hm.tidy.refs⟩,
      (proper_alike (alike_stack m stack) hm.proper).1⟩
  have hran : m₁.Orderly ∧ Grows { m with stack } m₁ := by
    rcases runCells_cases hcells with ⟨-, rfl, -⟩ | ⟨f, r, -, hf, -⟩
    · exact ⟨hpushed, Frame.refl _⟩
    · exact hrun stack f r m₁ hpush hf hpushed
  obtain ⟨hm₁, hgrows⟩ := hran
  obtain ⟨halike, hretains⟩ := alike_finish hfinish
  have hend : Alike m₁ m' := Frame.trans (alike_stack m₁ m₁.stack.pop) halike
  have hnodes : m₁.stack.pop.nodes = m.stack.nodes := by
    rw [Stack.nodes_pop, hgrows.retains.stack]
    exact congrArg List.tail (Stack.nodes_of_push? hpush)
  refine ⟨⟨hend.tidy' hm₁.tidy, (proper_alike hend hm₁.proper).1⟩, ?_, ?_, fun x s hs => ?_⟩
  · exact Frame.trans (alike_stack m stack).fits (Frame.trans hgrows.fits hend.fits)
  · exact hretains.stack.trans hnodes
  · obtain ⟨s₁, hs₁, hkind, hsig⟩ := hgrows.retains.spaces x s hs
    exact ⟨s₁, by rw [hend.spaces, hs₁], hkind, hsig⟩

theorem evaluationFrame_orderly : EvaluationFrame Orderly Grows where
  frame := inferInstance
  start m := orderly_alike ⟨rfl, rfl, rfl, rfl, fun _ => rfl, rfl, fun h => h⟩
    (retains_of_spaces rfl rfl)
  note m n _ := orderly_alike (alike_noteRead m n)
    (retains_of_spaces (by rw [stack_noteRead]) (spaces_noteRead n m))
  child := orderly_ensureChild
  signature _ _ h _ _ hspec := h.retains.signature hspec
  item _ _ _ _ _ hkey h := orderly_ensureItem hkey h
  node _ hrun _ _ _ _ _ _ _ _ h := orderly_compute (fun _ _ _ _ _ hf => hrun _ _ _ _ _ _ hf) h

end Evaluation

/-! ## Requests -/

section Requests

variable {α : Type} {x : Action α}

theorem orderly_of_proper (h : Obeys (Under Proper Fits) x) : Obeys (Keeps Orderly) x := by
  intro m r m' hx hm
  obtain ⟨hproper, hfits⟩ := h m r m' hx hm.proper
  exact ⟨hfits.tidy hm.tidy, hproper⟩

theorem orderly_of_under (h : Obeys (Under Orderly Grows) x) : Obeys (Keeps Orderly) x :=
  fun m r m' hx hm => (h m r m' hx hm).1

theorem runs_orderly (fuel : Nat) (id : SpaceId) (f : Formula) (args : List Value) :
    Obeys (Under Orderly Grows) (runFormula fuel id f args) :=
  evaluationFrame_orderly.runFormula fuel id f args

theorem orderly_call (fuel : Nat) (held : List Handle) (id : CellId) (a : Arguments) :
    Obeys (Keeps Orderly) (call fuel held id a) :=
  obeys_bind (orderly_of_proper (proper_reclaimFirst held)) fun _ =>
    orderly_of_under (evaluationFrame_orderly.evaluate (runs_orderly fuel) id a)

theorem orderly_selectInstance (fuel : Nat) (held : List Handle) (id : SpaceId) (a : Arguments) :
    Obeys (Keeps Orderly) (selectInstance fuel held id a) :=
  obeys_bind (orderly_of_proper (proper_reclaimFirst held)) fun _ =>
    orderly_of_under (evaluationFrame_orderly.instantiate (runs_orderly fuel) id a)

theorem orderly_readFrom (fuel : Nat) (held : List Handle) (id : SpaceId) (name : String) :
    Obeys (Keeps Orderly) (readFrom fuel held id name) :=
  obeys_bind (orderly_of_proper (proper_reclaimFirst held)) fun _ =>
    orderly_of_under (evaluationFrame_orderly.readName (runs_orderly fuel) id name none)

theorem orderly_discardInstance (fuel : Nat) (id : SpaceId) (args : List Value) :
    Obeys (Keeps Orderly) (discardInstance fuel id args) := by
  have hkey : Obeys (Keeps Orderly) (itemKey (runFormula fuel) id { positional := args }) :=
    fun m r m' h hm => (evaluationFrame_orderly.itemKey (runs_orderly fuel) id _ hm h).1.1
  have hremove : ∀ key, Obeys (Keeps Orderly) (update (·.removeInstance id key)) := fun key =>
    orderly_of_proper (obeys_update fun m => proper_removeInstance m id key)
  exact obeys_bind hkey fun key => obeys_bind (obeys_read _) fun _ => hremove key

theorem orderly_childNamed (id : SpaceId) (name : String) :
    Obeys (Keeps Orderly) (childNamed id name) := by
  refine obeys_bind (obeys_read _) fun s => ?_
  split
  · exact obeys_pure _
  · split
    · exact obeys_bind obeys_get fun _ => obeys_fail _
    · exact orderly_of_under (orderly_ensureChild id name)

theorem proper_restoreFlag (e : SpaceId × StoredSpace) :
    Obeys (Under Proper Fits) (restoreFlag e) := by
  refine obeys_of_ends fun m hm => ?_
  have stay : Follows Proper m m := .start hm
  unfold restoreFlag
  split
  · refine ends_read stay fun s _ => ends_modify (ends_pure (stay.change ?_ fun _ hf => ?_))
    · exact fits_modifySpace m e.1 _
    · exact hf.rebase (Space.retouches_setDerived · true) (Space.signature_setDerived · true)
        (Space.setDerived_of_replica · true)
  · exact ends_pure stay

theorem hostFrame_orderly : HostFrame (Keeps Orderly) where
  frame := inferInstance
  createSpace fuel parent name := orderly_of_proper (proper_createSpace fuel parent name)
  removeSpace fuel id := orderly_of_proper (proper_removeSpace fuel id)
  childNamed := orderly_childNamed
  letSpaceBeEmpty id allow := orderly_of_proper (proper_letSpaceBeEmpty id allow)
  document id doc := orderly_of_proper (proper_document id doc)
  defineCells fuel id name formula := orderly_of_proper (proper_defineCells fuel id name formula)
  redefine fuel id formula := orderly_of_proper (proper_redefine fuel id formula)
  removeCells fuel id := orderly_of_proper (proper_removeCells fuel id)
  letCellsBeEmpty fuel id allow := orderly_of_proper (proper_letCellsBeEmpty fuel id allow)
  dropOverride fuel id := orderly_of_proper (proper_dropOverride fuel id)
  bindName fuel id name value mode := orderly_of_proper (proper_bindName fuel id name value mode)
  rebind fuel id value := orderly_of_proper (proper_rebind fuel id value)
  unbind fuel id := orderly_of_proper (proper_unbind fuel id)
  bindGlobal name value := orderly_of_proper (proper_bindGlobal name value)
  linkBase fuel id base := orderly_of_proper (proper_linkBase fuel id base)
  unlinkBase fuel id base := orderly_of_proper (proper_unlinkBase fuel id base)
  declareParams fuel id params binder :=
    orderly_of_proper (proper_declareParams fuel id params binder)
  call := orderly_call
  selectInstance := orderly_selectInstance
  readFrom := orderly_readFrom
  putInput id args v := orderly_of_proper (proper_putInput id args v)
  takeInput id args := orderly_of_proper (proper_takeInput id args)
  forgetCells id := orderly_of_proper (proper_forgetCells id)
  forgetAt id args := orderly_of_proper (proper_forgetAt id args)
  forgetWithin id := orderly_of_proper (proper_forgetWithin id)
  forgetAll := orderly_of_proper proper_forgetAll
  discardInstance := orderly_discardInstance
  discardInstances id := orderly_of_proper (proper_discardInstances id)
  reclaim held m hm := by
    obtain ⟨hproper, hfits⟩ := proper_reclaim held m hm.proper
    exact ⟨hfits.tidy hm.tidy, hproper⟩
  flag e := orderly_of_proper (proper_restoreFlag e)

theorem orderly_new (name : String) (config : Config) (order : WalkOrder) :
    ({ name, config, order } : Model).Orderly := by
  have hspaces : ∀ id s, ({ name, config, order } : Model).spaces.get? id ≠ some s := by
    intro id s hs
    exact absurd (hs.symm.trans (Pool.get?_empty id)) (by simp)
  have hhome : ∀ e a, ({ name, config, order } : Model).home? e ≠ some a := by
    intro e a ha
    cases e with
    | space id =>
      obtain ⟨s, hs, -⟩ := space_of_home? ha
      exact hspaces id s hs
    | cells id =>
      obtain ⟨c, hc, -⟩ := cells_of_home? ha
      exact absurd (hc.symm.trans (Pool.get?_empty id)) (by simp)
    | ref id =>
      obtain ⟨r, hr, -⟩ := ref_of_home? ha
      exact absurd (hr.symm.trans (Pool.get?_empty id)) (by simp)
  have htidy : ({ name, config, order } : Model).Tidy := ⟨Pool.tidy_empty, Pool.tidy_empty, Pool.tidy_empty⟩
  refine ⟨htidy, fun _ => ⟨⟨htidy, ⟨fun a e ha => ?_, fun e a ha _ => ?_⟩, ?_, ?_⟩,
    ⟨fun p name e e' he _ => ?_, ⟨fun i t _ _ _ _ _ ht => absurd ht (hspaces i t),
      fun i t _ _ _ _ _ ht => absurd ht (hspaces i t)⟩⟩, ?_, ?_⟩⟩
  · unfold listed at ha
    split at ha
    next id _ =>
      obtain ⟨s, hs, -⟩ := Option.bind_eq_some_iff.1 ha
      exact absurd hs (hspaces id s)
    next =>
      cases a with
      | root n => cases ha
      | global n => cases ha
      | _ => contradiction
  · exact absurd ha (hhome e a)
  · exact fun id s hs => absurd hs (hspaces id s)
  · exact fun id s hs => absurd hs (hspaces id s)
  · exact absurd he.home (hhome e _)
  · exact fun id s _ hs => absurd hs (hspaces id s)
  · exact fun _ hf => hf.elim

end Requests

end Recalc.Model

namespace Recalc

open Recalc.Model

theorem Reachable.orderly {m : Model} (h : Reachable m) : m.Orderly :=
  hostFrame_orderly.reachable (fun hkeep => hkeep) orderly_new h

structure SameCells (m : Model) (s t : Space) : Prop where
  cells : ∀ name c, s.cells.get? name = some c → ∃ d x y, t.cells.get? name = some d ∧
    m.cells.get? c = some x ∧ m.cells.get? d = some y ∧ x.formula = y.formula ∧
    x.allowNone = y.allowNone
  others : ∀ name, s.cells.get? name = none → t.cells.get? name = none

/-- What holds of the instances of a model between two requests. -/
structure MirrorSound (m : Model) : Prop where
  entry : ∀ owner s k i, m.spaces.get? owner = some s → s.instances.get? k = some i →
    ∃ t c args enclosing, m.spaces.get? i = some t ∧ t.kind = .item owner c args enclosing ∧
      (args == k) = true
  listed : ∀ i t owner c args enclosing, m.spaces.get? i = some t →
    t.kind = .item owner c args enclosing →
    ∃ s, m.spaces.get? owner = some s ∧ s.instances.get? args = some i
  keys : ∀ owner s k k' i i', m.spaces.get? owner = some s → s.instances.get? k = some i →
    s.instances.get? k' = some i' → ((k == k') = true ↔ i = i')
  item : ∀ i t owner c args enclosing, m.spaces.get? i = some t →
    t.kind = .item owner c args enclosing →
    ∃ source spec, m.counterpart owner = .ok c ∧ m.spaces.get? c = some source ∧
      source.isStatic = true ∧ SameCells m t source ∧ t.refs = .empty ∧
      source.signature = some spec ∧ args.values.length = spec.params.length
  dynamic : ∀ id t c root, m.spaces.get? id = some t → t.kind = .dynamic c root →
    ∃ p pc outer source, t.parent = some p ∧ m.instanceRoot? p = some root ∧
      m.counterpart p = .ok pc ∧ m.spaces.get? pc = some outer ∧
      outer.spaces.get? t.name = some c ∧ m.spaces.get? c = some source ∧
      source.isStatic = true ∧ SameCells m t source ∧ t.refs = .empty

section Sound

variable {m : Model}

theorem Model.Copies.sameCells (hm : m.Owned) {id c : SpaceId} {s source : Space}
    (hs : m.spaces.get? id = some s) (h : m.Copies s c source) : SameCells m s source := by
  have hsetting : ∀ {id u name}, m.spaces.get? id = some u → ∀ d, u.cells.get? name = some d →
      ∃ x, m.cells.get? d = some x ∧ m.setting u name = some (x.formula, x.allowNone) := by
    intro id u name hu d hd
    obtain ⟨x, hx, -⟩ := hm.cells_of_listed hu hd
    refine ⟨x, hx, ?_⟩
    unfold setting
    rw [hd, Option.bind_some, hx, Option.map_some]
  refine ⟨fun name d hd => ?_, fun name hnone => ?_⟩
  · obtain ⟨x, hx, hset⟩ := hsetting hs d hd
    cases he : source.cells.get? name with
    | none =>
      have hcells := h.cells name
      rw [hset] at hcells
      unfold setting at hcells
      rw [he] at hcells
      cases hcells
    | some e =>
      obtain ⟨y, hy, hset'⟩ := hsetting h.live e he
      have hcells := h.cells name
      rw [hset, hset', Option.some.injEq, Prod.mk.injEq] at hcells
      exact ⟨e, x, y, rfl, hx, hy, hcells.1, hcells.2⟩
  · cases he : source.cells.get? name with
    | none => rfl
    | some e =>
      obtain ⟨y, -, hset'⟩ := hsetting h.live e he
      have hcells := h.cells name
      rw [hset'] at hcells
      unfold setting at hcells
      rw [hnone] at hcells
      cases hcells

/-- In every reachable model with room for its identities the replicas are mirrors. -/
theorem Reachable.mirrorSound (h : Reachable m) (room : m.Addressable) : MirrorSound m := by
  have hfaithful := h.orderly.proper room
  have hm := hfaithful.owned
  refine ⟨fun owner s k i hs hi => hm.item_of_listed hs hi,
    fun i t owner c args enclosing ht hk => hm.item_holder ht hk,
    fun owner s k k' i i' hs hi hi' => ⟨fun hkeys => ?_, fun heq => ?_⟩,
    fun i t owner c args enclosing ht hk => ?_, fun id t c root ht hk => ?_⟩
  · rw [Table.get?_congr _ hkeys, hi'] at hi
    exact (Option.some.inj hi).symm
  · subst heq
    obtain ⟨t, c, args, enclosing, ht, hk, hargs⟩ := hm.item_of_listed hs hi
    obtain ⟨t', c', args', enclosing', ht', hk', hargs'⟩ := hm.item_of_listed hs hi'
    cases ht.symm.trans ht'
    cases hk.symm.trans hk'
    exact BEq.trans (BEq.symm hargs) hargs'
  · have hrefs := (hm.placed i t ht).refs (isStatic_of_item hk)
    cases hfaithful.reflects ht with
    | static hstatic =>
      rw [isStatic_of_item hk] at hstatic
      contradiction
    | item hk' howner hcopies hspec hlen =>
      cases hk.symm.trans hk'
      exact ⟨_, _, howner, hcopies.live, hcopies.isStatic, hcopies.sameCells hm ht, hrefs, hspec, hlen⟩
    | dynamic hk' => cases hk.symm.trans hk'
  · have hrefs := (hm.placed id t ht).refs (isStatic_of_dynamic hk)
    cases hfaithful.reflects ht with
    | static hstatic =>
      rw [isStatic_of_dynamic hk] at hstatic
      contradiction
    | item hk' => cases hk.symm.trans hk'
    | dynamic hk' hp hroot hpc houter hlist hcopies =>
      cases hk.symm.trans hk'
      exact ⟨_, _, _, _, hp, hroot, hpc, houter, hlist, hcopies.live, hcopies.isStatic,
        hcopies.sameCells hm ht, hrefs⟩

/-- A shop for each quantity, with a till inside. -/
def shopsRequests : List Request :=
  [.createSpace none "Shop", .declareParams ⟨0, 0⟩ [{ name := "quantity" }] none,
    .defineCells ⟨0, 0⟩ "total" (some Shop.totalFormula), .createSpace (some ⟨0, 0⟩) "Till",
    .selectInstance ⟨0, 0⟩ { positional := [.int 4] }, .childNamed ⟨2, 0⟩ "Till"]

theorem shops_mirrorSound : ∃ m, Request.runAll 9 [] shopsRequests Shop.start = some m ∧
    (m.spaces.entries.filter (!·.2.isStatic)).length = 2 ∧ m.Addressable ∧ MirrorSound m := by
  have hrun : (Request.runAll 9 [] shopsRequests Shop.start).map (fun m =>
      ((m.spaces.entries.filter (!·.2.isStatic)).length, m.spaces.slots.size, m.cells.slots.size,
        m.refs.slots.size)) = some (2, 4, 2, 0) := by decide +kernel
  obtain ⟨m, hm, hsizes⟩ := Option.map_eq_some_iff.1 hrun
  obtain ⟨hreplicas, hspaces, hcells, hrefs⟩ := by simpa only [Prod.mk.injEq] using hsizes
  have room : m.Addressable := by
    refine ⟨?_, ?_, ?_⟩
    · rw [Pool.Addressable, hspaces]
      decide
    · rw [Pool.Addressable, hcells]
      decide
    · rw [Pool.Addressable, hrefs]
      decide
  exact ⟨m, hm, hreplicas, room,
    Reachable.mirrorSound ⟨_, .new "doc" {}, Request.becomes_of_runAll shopsRequests hm⟩ room⟩

end Sound

end Recalc
