import Recalc.Proofs.Forwarding
import Recalc.Proofs.TrackedRequests

set_option autoImplicit false

/-!
# Where formulas come from

Formulas come with requests. Spaces inherit them and replicas get copies, but nothing in a model
makes one: a property of all the formulas that requests bring is one of all the formulas that cells
and binders have.
-/

namespace Recalc

open Recalc.Action Recalc.Model

/-- The formulas that come with a request. -/
def Request.formulas : Request → List Formula
  | .defineCells _ _ formula => formula.toList
  | .redefine _ formula => [formula]
  | .declareParams _ _ binder => binder.toList
  | _ => []

namespace Model

variable {P : Formula → Prop} {m m' : Model}

/-! ## Steps -/

theorem uses_of_spaces (hm : m.Uses P) (hspaces : m'.spaces = m.spaces)
    (hcells : ∀ id c f, m'.cells.get? id = some c → c.formula = some f → P f) : m'.Uses P := by
  refine ⟨hcells, ?_⟩
  rw [hspaces]
  exact hm.binders

theorem uses_modifySpace (hm : m.Uses P) (id : SpaceId) {f : Space → Space}
    (hf : ∀ s spec g, m.spaces.get? id = some s → (f s).signature = some spec →
      spec.binder = some g → P g) : (m.modifySpace id f).Uses P := by
  refine ⟨hm.cells, fun other s spec g hs => ?_⟩
  replace hs := (Pool.get?_modify m.spaces id other f).symm.trans hs
  split at hs
  next heq =>
    obtain ⟨t, ht, rfl⟩ := Option.map_eq_some_iff.1 hs
    exact hf t spec g (heq ▸ ht)
  next => exact hm.binders other s spec g hs

theorem uses_modifyCell (hm : m.Uses P) (id : CellId) {f : Cells → Cells}
    (hf : ∀ c g, m.cells.get? id = some c → (f c).formula = some g → P g) :
    (m.modifyCell id f).Uses P := by
  refine uses_of_spaces hm rfl fun other c g hc => ?_
  replace hc := (Pool.get?_modify m.cells id other f).symm.trans hc
  split at hc
  next heq =>
    obtain ⟨d, hd, rfl⟩ := Option.map_eq_some_iff.1 hc
    exact hf d g (heq ▸ hd)
  next => exact hm.cells other c g hc

theorem ForgetsSome.uses (h : ForgetsSome m m') (hm : m.Uses P) : m'.Uses P := by
  refine uses_of_spaces hm h.alike.spaces fun id c f hc hf => ?_
  have hbare := h.alike.cells id
  rw [hc, Option.map_some] at hbare
  obtain ⟨d, hd, hsame⟩ := Option.map_eq_some_iff.1 hbare.symm
  exact hm.cells id d f hd ((formula_of_bare hsame).1.symm.trans hf)

theorem uses_addRef (hm : m.Uses P) (r : Reference) : (m.addRef r).2.Uses P := by
  cases howner : r.owner with
  | some owner =>
    rw [addRef_of_owner m howner]
    have hrefs : ({ m with refs := (m.refs.insert r).2 } : Model).Uses P := ⟨hm.cells, hm.binders⟩
    exact uses_modifySpace hrefs owner fun s spec g => hm.binders owner s spec g
  | none =>
    rw [addRef_of_global m howner]
    exact ⟨hm.cells, hm.binders⟩

theorem uses_addSpace (ht : m.Tidy) (hm : m.Uses P) {s : Space} (hs : s.signature = none) :
    (m.addSpace s).2.Uses P := by
  refine ⟨hm.cells, fun id t spec g hget hspec => ?_⟩
  rcases Pool.insert_cases ht.spaces s with hfresh | hsame
  · replace hget := (hfresh.2 id).symm.trans hget
    split at hget
    next =>
      cases hget
      rw [hs] at hspec
      contradiction
    next => exact hm.binders id t spec g hget hspec
  · exact hm.binders id t spec g ((hsame id).symm.trans hget) hspec

theorem uses_addCells (ht : m.Tidy) (hm : m.Uses P) {c : Cells}
    (hc : ∀ f, c.formula = some f → P f) : (m.addCells c).2.Uses P := by
  have hspaces : (m.modifySpace c.space fun s =>
      { s with cells := s.cells.insert c.name (m.cells.insert c).1 }).Uses P :=
    uses_modifySpace hm c.space fun s spec g => hm.binders c.space s spec g
  refine ⟨fun id d f hd => ?_, hspaces.binders⟩
  rcases formula_of_addCells ht hd with rfl | hd
  · exact hc f
  · exact hm.cells id d f hd

/-- Between requests, formulas keep a property that all of them have. -/
abbrev Supplies (P : Formula → Prop) : Model → Model → Prop := Under Calm (Keeps (Uses P))

theorem Culls.supplies (h : Culls m m') (hcalm : Keeps Calm m m') : Supplies P m m' :=
  fun hm => ⟨hcalm hm, h.uses⟩

/-- The definition of cells changes, and the formula is as it was or has the property. -/
theorem supplies_redefine (m : Model) (id : CellId) {f : Cells → Cells}
    (hcontents : ∀ c, (f c).contents = c.contents)
    (hf : ∀ c g, (f c).formula = some g → c.formula = some g ∨ P g) :
    Supplies P m ((m.modifyCell id f).invalidateCells id).2 := by
  refine fun hcalm => ⟨editFrame_calm.redefine m id f hcontents hcalm, fun hm => ?_⟩
  refine (forgetsAll_invalidateCells _ id).forgetsSome.uses (uses_modifyCell hm id ?_)
  exact fun c g hc hg => (hf c g hg).elim (hm.cells id c g hc) fun hg => hg

theorem trimFrame_supplies : TrimFrame (Supplies P) where
  frame := inferInstance
  forget h hcalm := ⟨h.calm hcalm, h.uses⟩
  addRef m r hcalm := ⟨editFrame_calm.addRef m r hcalm, fun hm => uses_addRef hm r⟩
  modifySpace m id f hf hcalm := ⟨editFrame_calm.modifySpace m id f hf hcalm, fun hm =>
    uses_modifySpace hm id fun s spec g hs hspec =>
      hm.binders id s spec g hs ((hf s).signature.symm.trans hspec)⟩
  listings m roots globals hcalm :=
    ⟨editFrame_calm.listings m roots globals hcalm, fun hm => ⟨hm.cells, hm.binders⟩⟩
  recast m id flag hcalm := ⟨editFrame_calm.recast m id flag hcalm, fun hm =>
    uses_modifyCell hm id fun c g hc hg => hm.cells id c g hc hg⟩
  rebind m id f hcalm := ⟨editFrame_calm.rebind m id f hcalm, fun hm =>
    have hrefs : (m.modifyRef id f).Uses P := ⟨hm.cells, hm.binders⟩
    (forgetsAll_invalidate _ (.ref id)).forgetsSome.uses hrefs⟩
  destroyCells m id :=
    (removalFrame_culls.destroyCells m id).supplies (editFrame_calm.destroyCells m id)
  destroyReference m id :=
    (removalFrame_culls.destroyReference m id).supplies (editFrame_calm.destroyReference m id)
  destroySpace m id :=
    (removalFrame_culls.destroyTree _ m id).supplies (editFrame_calm.destroySpace m id)
  removeInstance m owner key :=
    (culls_removeInstance m owner key).supplies (editFrame_calm.removeInstance m owner key)
  addSpace m s hs hsig hcalm :=
    ⟨editFrame_calm.addSpace m s hs hsig hcalm, fun hm => uses_addSpace hcalm.tidy hm hsig⟩
  permit m id allow hcalm := ⟨editFrame_calm.permit m id allow hcalm, fun hm =>
    uses_modifySpace hm id fun s spec g => hm.binders id s spec g⟩

/-! ## Derivation -/

/-- Derived cells get the formula of their source. -/
theorem supplies_deriveCells (id : SpaceId) (name : String) (source : CellId) :
    Obeys (Supplies P) (deriveCells id name source) := by
  intro m r m' h hcalm
  refine ⟨editFrame_calm.rounds.deriveCells id name source m r m' h hcalm, fun hm => ?_⟩
  revert h
  refine ends_read hm (fun src hsrc => ends_read hm fun s _ => ?_) r m'
  have hsource : ∀ f, src.formula = some f → P f := fun f =>
    hm.cells source src f (cell_eq_ok.1 hsrc)
  split
  next =>
    refine ends_modify (ends_pure ((forgetsSome_hideGlobal _ name).uses ?_))
    exact uses_addCells hcalm.tidy hm hsource
  next own _ =>
    refine ends_read hm fun current _ => ?_
    split
    next =>
      have hstep := supplies_redefine (P := P) m own (f := fun c =>
        { c with formula := src.formula, allowNone := src.allowNone }) (fun _ => rfl)
        fun _ g hg => .inr (hsource g hg)
      exact ends_modify (ends_pure ((hstep hcalm).2 hm))
    next => exact ends_pure hm

/-- The parameters that a space inherits are those of a base. -/
theorem Uses.heritage (hm : m.Uses P) {id : SpaceId} {heritage : Heritage}
    (hh : m.heritage id = .ok heritage) {spec : Signature} {f : Formula}
    (hspec : heritage.signature = some spec) (hf : spec.binder = some f) : P f := by
  obtain ⟨ss, hss, rfl⟩ := heritage_eq_ok hh
  rw [Heritage.signature_foldl] at hspec
  obtain ⟨b, -, s, hs, hspec⟩ :=
    exists_base_of_findSome? hss ((Option.none_or).symm.trans hspec)
  exact hm.binders b s spec f hs hspec hf

theorem supplies_deriveSignature (id : SpaceId) {heritage : Heritage}
    (hf : ∀ spec f, heritage.signature = some spec → spec.binder = some f → P f) :
    Obeys (Supplies P) (deriveSignature id heritage) := by
  refine obeys_bind (obeys_read _) fun s => ?_
  split
  · refine obeys_bind (obeys_modify fun m hcalm => ?_) fun _ => obeys_pure _
    exact ⟨editFrame_calm.declare m id _ (fun _ => ⟨rfl, rfl⟩) hcalm, fun hm =>
      uses_modifySpace hm id fun _ spec g _ => hf spec g⟩
  · exact obeys_pure _

theorem supplies_derive (id : SpaceId) : Obeys (Supplies P) (derive id) := by
  intro m r m' h hcalm
  refine ⟨editFrame_calm.rounds.waves.derive id m r m' h hcalm, fun hm => ?_⟩
  revert h
  refine ends_read hm (fun s _ => ?_) r m'
  split
  next => exact ends_pure hm
  next =>
    refine ends_read hm fun heritage hh r m' h => ?_
    exact (trimFrame_supplies.deriveMembers (S := fun _ => Supplies P) (fun h => h)
      (fun e => supplies_deriveCells id e.1 e.2)
      (supplies_deriveSignature id fun _ _ => hm.heritage hh) m r m' h hcalm).2 hm

theorem waveFrame_supplies : WaveFrame (Supplies P) fun _ => Supplies P where
  toTrimFrame := trimFrame_supplies
  graded := inferInstance
  round h := h
  derive := supplies_derive

/-! ## Edits -/

theorem supplies_defineCells (fuel : Nat) (id : SpaceId) (name : String) {formula : Option Formula}
    (hf : ∀ f, formula = some f → P f) : Obeys (Supplies P) (defineCells fuel id name formula) := by
  refine obeys_bind (obeys_admitName name) fun _ => obeys_bind (obeys_read _) fun s => ?_
  refine obeys_bind obeys_get fun m => ?_
  split
  · refine obeys_bind (obeys_read _) fun c => ?_
    split
    · exact obeys_fail _
    · refine obeys_bind (obeys_modify fun m => ?_) fun _ =>
        obeys_bind (waveFrame_supplies.settleChange fuel id) fun _ => obeys_pure _
      exact supplies_redefine m _ (fun _ => by rfl) fun _ g hg => .inr (hf g hg)
  · split
    · exact obeys_fail _
    · refine obeys_bind (obeys_update fun m hcalm => ?_) fun _ =>
        obeys_bind (waveFrame_supplies.settleAddition fuel id name _) fun _ => obeys_pure _
      exact ⟨editFrame_calm.addCells m _ rfl hcalm, fun hm => uses_addCells hcalm.tidy hm hf⟩

theorem supplies_redefineCells (fuel : Nat) (id : CellId) {formula : Formula} (hf : P formula) :
    Obeys (Supplies P) (redefine fuel id formula) := by
  refine obeys_bind (obeys_read _) fun c => obeys_bind (obeys_read _) fun _ => ?_
  refine obeys_bind (obeys_modify fun m => ?_) fun _ => waveFrame_supplies.deriveFrom fuel _
  refine Frame.trans (supplies_redefine m id (fun _ => by rfl) fun _ g hg => .inr ?_)
    (trimFrame_supplies.dropStaleInstances _ _)
  cases hg
  exact hf

theorem supplies_letCellsBeEmpty (fuel : Nat) (id : CellId) (allow : Option Bool) :
    Obeys (Supplies P) (letCellsBeEmpty fuel id allow) := by
  refine obeys_bind (obeys_read _) fun c => obeys_bind (obeys_read _) fun _ => ?_
  refine obeys_bind (obeys_modify fun m => ?_) fun _ =>
    obeys_bind (waveFrame_supplies.deriveFrom fuel _) fun _ => obeys_pure _
  have hstep := supplies_redefine (P := P) m id (f := fun c => { c with allowNone := allow })
    (fun _ => rfl) fun _ _ hg => .inl hg
  exact Frame.trans hstep (trimFrame_supplies.dropStaleInstances _ _)

theorem supplies_declareParams (fuel : Nat) (id : SpaceId) (params : List Param)
    {binder : Option Formula} (hf : ∀ f, binder = some f → P f) :
    Obeys (Supplies P) (declareParams fuel id params binder) := by
  refine obeys_bind (obeys_read _) fun _ => obeys_bind (obeys_modify fun m => ?_) fun _ =>
    obeys_bind (waveFrame_supplies.deriveFrom fuel [id]) fun _ => obeys_pure _
  have hstep : Supplies P m (m.modifySpace id fun s =>
      { s with signature := some ⟨params, binder⟩, ownSignature := true }) := fun hcalm => by
    refine ⟨editFrame_calm.declare m id _ (fun _ => ⟨rfl, rfl⟩) hcalm, fun hm => ?_⟩
    refine uses_modifySpace hm id fun _ spec g _ hspec hg => ?_
    cases hspec
    exact hf g hg
  exact Frame.trans hstep (trimFrame_supplies.dropStaleInstances _ id)

/-! ## Requests -/

theorem supplies_of_reuses {α : Type} {x : Action α}
    (h : Obeys (Under (Tracked fun _ => False) Reuses) x) : Obeys (Supplies P) x := by
  intro m r m' hx hcalm
  obtain ⟨ht, hreuses⟩ := h m r m' hx hcalm.toTracked
  exact ⟨⟨ht, hreuses.steadies.retains.stack.trans hcalm.idle⟩, hreuses.uses⟩

theorem supplies_of_keeps {α : Type} {x : Action α} (hcalm : Obeys (Keeps Calm) x)
    (h : Obeys (Keeps (Uses P)) x) : Obeys (Supplies P) x :=
  fun m r m' hx hm => ⟨hcalm m r m' hx hm, h m r m' hx⟩

section Requests

variable (fuel : Nat) (held : List Handle)

theorem supplies_evaluation {α : Type} {x : Action α}
    (h : Obeys (Under (Tracked fun _ => False) Reuses) x) : Obeys (Supplies P) (do
      reclaimFirst held
      x) := by
  refine obeys_bind (obeys_modify fun m => ?_) fun _ => supplies_of_reuses h
  split
  · exact (culls_reclaim held m).supplies (calm_reclaim held m)
  · exact Frame.refl m

theorem supplies_discardInstance (id : SpaceId) (args : List Value) :
    Obeys (Supplies P) (discardInstance fuel id args) := by
  have hkey : Obeys (Supplies P) (itemKey (runFormula fuel) id { positional := args }) :=
    supplies_of_reuses fun m r m' h hm =>
      (evaluationFrame_reuses.itemKey (evaluationFrame_reuses.runFormula fuel) id _ hm h).1
  exact obeys_bind hkey fun key => obeys_bind (obeys_read _) fun _ =>
    obeys_update fun m => trimFrame_supplies.removeInstance m id key

theorem supplies_forgetEach (ids : List SpaceId) : Obeys (Supplies P) (forgetEach ids) := by
  induction ids with
  | nil => exact obeys_pure _
  | cons id rest ih => exact obeys_bind (trimFrame_supplies.forgetWithin id) fun _ => ih

/-- What a cell holds changes. -/
theorem uses_modifyContents (hm : m.Uses P) (id : CellId) (f : Contents → Contents) :
    (m.modifyCell id fun c => { c with contents := f c.contents }).Uses P :=
  uses_modifyCell hm id fun c g hc hg => hm.cells id c g hc hg

theorem supplies_putInput (id : CellId) (args : List Value) (v : Value) :
    Obeys (Supplies P) (putInput id args v) := by
  refine supplies_of_keeps (calm_putInput id args v) (obeys_bind (obeys_read _) fun key =>
    obeys_modify fun m hm => ?_)
  exact uses_modifyContents ((forgetsAll_invalidate m _).forgetsSome.uses hm) id (·.putInput key v)

theorem supplies_takeInput (id : CellId) (args : List Value) :
    Obeys (Supplies P) (takeInput id args) := by
  refine supplies_of_keeps (calm_takeInput id args) (obeys_bind (obeys_read _) fun key =>
    obeys_bind (obeys_read _) fun c => ?_)
  split
  · refine obeys_bind (obeys_modify fun m hm => ?_) fun _ => obeys_pure _
    exact (forgetsAll_invalidate _ _).forgetsSome.uses
      (uses_modifyContents hm id (·.dropInput key))
  · exact obeys_pure _

/-- Formulas come with requests only. -/
theorem supplies_request (q : Request) (hq : ∀ f ∈ q.formulas, P f) :
    Obeys (Supplies P) (q.run fuel held) := by
  have W := waveFrame_supplies (P := P)
  have F := evaluationFrame_reuses
  have hruns := F.runFormula fuel
  cases q with
  | createSpace parent name => exact obeys_map _ (W.createSpace fuel parent name)
  | removeSpace id => exact obeys_map _ (W.removeSpace fuel id)
  | childNamed id name =>
    refine obeys_map _ (obeys_bind (obeys_read _) fun s => ?_)
    split
    · exact obeys_pure _
    · split
      · exact obeys_bind obeys_get fun _ => obeys_fail _
      · exact supplies_of_reuses (F.child id name)
  | letSpaceBeEmpty id allow => exact obeys_map _ (W.letSpaceBeEmpty id allow)
  | document id doc => exact obeys_map _ (W.document id doc)
  | defineCells id name formula =>
    exact obeys_map _ (supplies_defineCells fuel id name fun f hf => hq f (Option.mem_toList.2 hf))
  | redefine id formula =>
    exact obeys_map _ (supplies_redefineCells fuel id (hq formula List.mem_cons_self))
  | removeCells id => exact obeys_map _ (W.removeCells fuel id)
  | letCellsBeEmpty id allow => exact obeys_map _ (supplies_letCellsBeEmpty fuel id allow)
  | dropOverride id => exact obeys_map _ (W.dropOverride fuel id)
  | bindName id name value mode => exact obeys_map _ (W.bindName fuel id name value mode)
  | rebind id value => exact obeys_map _ (W.rebindRef fuel id value)
  | unbind id => exact obeys_map _ (W.unbind fuel id)
  | bindGlobal name value => exact obeys_map _ (W.bindGlobal name value)
  | rebindGlobal name value => exact obeys_map _ (W.rebindGlobal fuel name value)
  | unbindGlobal name => exact obeys_map _ (W.unbindGlobal fuel name)
  | linkBase id base => exact obeys_map _ (W.linkBase fuel id base)
  | unlinkBase id base => exact obeys_map _ (W.unlinkBase fuel id base)
  | declareParams id params binder =>
    exact obeys_map _ (supplies_declareParams fuel id params fun f hf =>
      hq f (Option.mem_toList.2 hf))
  | call id a => exact obeys_map _ (supplies_evaluation held (F.evaluate hruns id a))
  | selectInstance id a => exact obeys_map _ (supplies_evaluation held (F.instantiate hruns id a))
  | readFrom id name => exact obeys_map _ (supplies_evaluation held (F.readName hruns id name none))
  | putInput id args v => exact obeys_map _ (supplies_putInput id args v)
  | takeInput id args => exact obeys_map _ (supplies_takeInput id args)
  | forgetCells id =>
    exact obeys_map _ (obeys_bind (obeys_read _) fun _ => obeys_update fun m =>
      W.forget (forgetsAll_invalidateCells m id).forgetsSome)
  | forgetAt id args =>
    exact obeys_map _ (obeys_bind (obeys_read _) fun key => obeys_update fun m =>
      W.forget (forgetsAll_invalidate m (.cells id key)).forgetsSome)
  | forgetWithin id => exact obeys_map _ (W.forgetWithin id)
  | forgetAll =>
    refine obeys_map _ (obeys_bind obeys_get fun m => ?_)
    refine obeys_bind (supplies_forgetEach _) fun _ => ?_
    exact obeys_modify fun m hcalm => ⟨calm_emptyGraph m hcalm, fun hm => ⟨hm.cells, hm.binders⟩⟩
  | discardInstance id args => exact obeys_map _ (supplies_discardInstance fuel id args)
  | discardInstances id =>
    exact obeys_map _ (obeys_bind (obeys_read _) fun _ => obeys_update fun m =>
      W.removeEveryInstance m id)
  | reclaim =>
    exact obeys_map _ (obeys_update fun m => (culls_reclaim held m).supplies (calm_reclaim held m))

end Requests

theorem uses_new (name : String) (config : Config) (order : WalkOrder) :
    ({ name, config, order } : Model).Uses P := by
  refine ⟨fun id c f hc => ?_, fun id s spec f hs => ?_⟩
  · rw [show _ = none from Pool.get?_empty id] at hc
    contradiction
  · rw [show _ = none from Pool.get?_empty id] at hs
    contradiction

/-- Where no two formulas that came have one identity, that tells which one cells have. -/
theorem Uses.eq_of_ident {l : List Formula} (h : m.Uses (· ∈ l)) (hl : (l.map (·.ident)).Nodup)
    {id : CellId} {c : Cells} {f g : Formula} (hc : m.cells.get? id = some c)
    (hf : c.formula = some f) (hg : g ∈ l) (hident : f.ident = g.ident) : f = g :=
  List.inj_on_of_nodup_map hl (h.cells id c f hc hf) hg hident

end Model

/-- What holds of the formulas that a model starts with and of those that requests bring holds of
the formulas that it has after any run of requests, whether they succeed or fail. -/
theorem Becomes.uses {P : Formula → Prop} {start m : Model} {allowed : Step → Prop}
    (h : Becomes allowed start m) (hallowed : ∀ s, allowed s → ∀ f ∈ s.request.formulas, P f)
    (hcalm : start.Calm) (hstart : start.Uses P) : m.Calm ∧ m.Uses P := by
  induction h with
  | refl => exact ⟨hcalm, hstart⟩
  | step s _ hsound hs ih =>
    obtain ⟨hcalm, huses⟩ := ih
    obtain ⟨hcalm', hkeeps⟩ := supplies_request s.fuel s.held s.request (hallowed s hs) _ _ _ hsound
      hcalm
    exact ⟨hcalm', hkeeps huses⟩

/-- Every formula of a model that a host made came with one of its requests. -/
theorem Request.uses_of_runAll {P : Formula → Prop} {fuel : Nat} {held : List Handle}
    {l : List Request} {name : String} {config : Config} {order : WalkOrder} {m : Model}
    (h : runAll fuel held l { name, config, order } = some m)
    (hl : ∀ f ∈ l.flatMap formulas, P f) : m.Uses P :=
  ((steps_of_runAll l h).uses (fun _ hs f hf => hl f (List.mem_flatMap.2 ⟨_, hs, hf⟩))
    (calm_new name config order) (uses_new name config order)).2

end Recalc
