import Recalc.Proofs.RejectedEdits
import Recalc.Proofs.Settings
import Recalc.Proofs.Upholding

set_option autoImplicit false

/-!
# Edits leave no forbidden value

A computed value may be empty only where the setting in force allows it. Edits compute nothing, and
what they leave stored was stored before by cells of the same setting in the same space. Where one
changes a setting, whatever was computed under it goes, wherever it was stored.
-/

namespace Recalc.Model

open Recalc.Action

/-- No computed value is empty where it must not be. -/
def Abides (m : Model) : Prop :=
  ∀ id c k, m.cells.get? id = some c → c.contents.values.get? k = some .empty →
    m.mayBeEmpty id = true

/-- What is stored was stored before, by cells of the same setting in the same space. -/
def CarriesOver (m m' : Model) : Prop :=
  ∀ id c' k v, m'.cells.get? id = some c' → c'.contents.values.get? k = some v →
    ∃ c, m.cells.get? id = some c ∧ c.contents.values.get? k = some v ∧
      c'.allowNone = c.allowNone ∧ c'.space = c.space

structure Expands (m m' : Model) : Prop where
  carries : CarriesOver m m'
  houses : m'.Houses m

structure Subsides (m m' : Model) : Prop where
  carries : CarriesOver m m'
  houses : m.Houses m'

instance : Frame CarriesOver where
  refl _ _ c _ _ hc hv := ⟨c, hc, hv, rfl, rfl⟩
  trans h h' id c₃ k v hc₃ hv₃ := by
    obtain ⟨c₂, hc₂, hv₂, hallow₂, hspace₂⟩ := h' id c₃ k v hc₃ hv₃
    obtain ⟨c₁, hc₁, hv₁, hallow₁, hspace₁⟩ := h id c₂ k v hc₂ hv₂
    exact ⟨c₁, hc₁, hv₁, hallow₂.trans hallow₁, hspace₂.trans hspace₁⟩

instance : Frame Expands where
  refl m := ⟨Frame.refl m, Frame.refl m⟩
  trans h h' := ⟨Frame.trans h.carries h'.carries, Frame.trans h'.houses h.houses⟩

instance : Frame Subsides where
  refl m := ⟨Frame.refl m, Frame.refl m⟩
  trans h h' := ⟨Frame.trans h.carries h'.carries, Frame.trans h.houses h'.houses⟩

theorem Upholds.carries {m m' : Model} (h : Upholds m m') : CarriesOver m m' := by
  intro id c' k v hc' hv
  obtain ⟨c, hc, hold, -, hsame⟩ := h.stored id c' k v hc' hv
  exact ⟨c, hc, hold, hsame⟩

theorem definitionFrame_upholds : DefinitionFrame fun m m' =>
    Under Calm Upholds m m' ∧ SameBearings m m' :=
  editFrame_upholds.toDefinitionFrame.and definitionFrame_sameBearings

theorem growFrame_expands : GrowFrame (Under Calm Expands) where
  toDefinitionFrame := definitionFrame_upholds.mono fun h hm =>
    ⟨(h.1 hm).1, (h.1 hm).2.carries, h.2.symm.houses⟩
  addSpace m s hs hsig hm :=
    have hupholds := editFrame_upholds.addSpace m s hs hsig hm
    ⟨hupholds.1, hupholds.2.carries, houses_addSpace m hm.tidy s⟩
  addCells m c hc hm :=
    have hupholds := editFrame_upholds.addCells m c hc hm
    ⟨hupholds.1, hupholds.2.carries, (sameBearings_addCells m c).symm.houses⟩

theorem shrinkFrame_subsides : ShrinkFrame (Under Calm Subsides) where
  toDefinitionFrame := definitionFrame_upholds.mono fun h hm =>
    ⟨(h.1 hm).1, (h.1 hm).2.carries, h.2.houses⟩
  destroySpace m id hm :=
    have hupholds := editFrame_upholds.destroySpace m id hm
    ⟨hupholds.1, hupholds.2.carries, removalFrame_houses.destroyTree _ m id⟩
  removeInstance m owner key hm :=
    have hupholds := editFrame_upholds.removeInstance m owner key hm
    ⟨hupholds.1, hupholds.2.carries, removalFrame_houses.removeInstance m owner key⟩

/-- Something came, and something went then; nothing was computed. -/
abbrev Turns (m m' : Model) : Prop := Phased (Under Calm Expands) (Under Calm Subsides) m m'

/-- Nothing is under evaluation, and no value is empty where it must not be. -/
structure Heeds (m : Model) : Prop where
  calm : m.Calm
  abides : m.Abides

section Turning

variable {m m' : Model} {sites sites' : SpaceId → Prop}

/-- What is carried over is under the same setting in both models, when a third one has the spaces
of both. -/
theorem Abides.carry {m₁ : Model} (h : m.Abides) (hm : m.Faithful sites)
    (hm' : m'.Faithful sites') (hcarries : CarriesOver m m') (houses : m₁.Houses m)
    (houses' : m₁.Houses m') : m'.Abides := by
  intro id c' k hc' hk
  obtain ⟨c, hc, hv, hallow, hspace⟩ := hcarries id c' k _ hc' hk
  rw [hm.same_setting hm' houses houses' hc hc' hallow hspace]
  exact h id c k hc hv

theorem Heeds.turns (h : m.Heeds) (hm : m.Faithful sites) (hm' : m'.Faithful sites')
    (hturns : Turns m m') : m'.Heeds := by
  obtain ⟨m₁, hgrow, hshrink⟩ := hturns
  obtain ⟨hcalm₁, hexpands⟩ := hgrow h.calm
  obtain ⟨hcalm', hsubsides⟩ := hshrink hcalm₁
  exact ⟨hcalm', h.abides.carry hm hm' (Frame.trans hexpands.carries hsubsides.carries)
    hexpands.houses hsubsides.houses⟩

theorem Heeds.steady (h : m.Heeds) (hm : m.Faithful sites) (hturns : Turns m m')
    (hm' : Upright sites' m') : Steady sites' Heeds m' :=
  fun small => ⟨hm' small, h.turns hm (hm' small) hturns⟩

theorem heeds_derive (id : SpaceId) : Obeys (Keeps (Steady sites Heeds)) (derive id) := by
  intro m r m' hrun hm small
  have hstart : Steady sites (fun _ => True) m := fun small => ⟨(hm small).1, trivial⟩
  obtain ⟨hsteady, hfits⟩ := steady_derive lasting_true id m r m' hrun hstart
  obtain ⟨hfaithful, hheeds⟩ := hm (hfits.addressable small)
  exact hheeds.steady hfaithful (derive_phased growFrame_expands shrinkFrame_subsides id m r m' hrun)
    (fun small => (hsteady small).1) small

theorem ends_heeding (fuel : Nat) (starts : List SpaceId) (h : Steady sites Heeds m) :
    Ends (Steady sites Heeds) (deriveFrom fuel starts) m :=
  fun r m' hrun => obeys_deriveFrom heeds_derive fuel starts m r m' hrun h

theorem Turns.shrink {m₁ : Model} (h : Turns m m₁) (hs : Under Calm Subsides m₁ m') : Turns m m' :=
  Phased.shrink h hs

theorem turns_of_shrink (h : Under Calm Subsides m m') : Turns m m' := phased_of_shrink h

/-- Where a wave begins after a change of a faithful model, and where it ends. -/
theorem Heeds.leaves_wave (h : m.Heeds) (hm : m.Faithful sites) (hturns : Turns m m')
    (hm' : Upright sites' m') (fuel : Nat) (starts : List SpaceId) :
    Leaves Heeds (deriveFrom fuel starts) m' := fun r m'' hrun small =>
  (ends_heeding fuel starts (h.steady hm hturns hm') r m'' hrun small).2

end Turning

/-! ## Members come and go -/

section Members

variable {m₀ m : Model} {id : SpaceId} (hm₀ : m₀.Faithful fun _ => False) (h : m₀.Heeds)

theorem heeds_takeBack (fuel : Nat) (name : String) (h : Steady (· = id) Heeds m) :
    Leaves Heeds (takeBack fuel id name) m := by
  have H := shrinkFrame_subsides
  have hstart : Steady (· = id) Heeds (withdraw id name m).unlinkDeadBases.2 := fun room => by
    obtain ⟨hfaithful, hheeds⟩ := h ((fits_withdraw m id name).addressable
      ((fits_unlinkDeadBases _).addressable room))
    have hend := (faithful_withdraw hfaithful name).unlinkDeadBases
    exact ⟨hend, hheeds.turns hfaithful hend
      ((turns_of_shrink (H.withdraw id name m)).shrink (H.unlinkDeadBases _))⟩
  exact ends_modify (ends_update fun r m' hrun small =>
    (ends_heeding fuel _ hstart r m' hrun small).2)

include hm₀ h

theorem heeds_settleChange (fuel : Nat) (hedited : Follows (Edited id) m₀ m)
    (hturns : Turns m₀ m) : Leaves Heeds (settleChange fuel id) m := by
  have H := shrinkFrame_subsides
  have hdropped := (hedited.alike (forgetsSome_invalidateSpace m id).alike).dropped
  refine ends_modify (h.leaves_wave hm₀ ?_ hdropped.holds fuel _)
  exact (hturns.shrink (H.invalidateSpace m id)).shrink (H.dropStaleInstances _ id)

theorem heeds_settleAddition (fuel : Nat) (name : String) (starts : List SpaceId)
    (hedited : Follows (Edited id) m₀ m) (hturns : Turns m₀ m) :
    Leaves Heeds (settleAddition fuel id name starts) m := by
  have H := shrinkFrame_subsides
  have hdropped := ((hedited.alike (forgetsSome_invalidateSpace m id).alike).alike
    (forgetsSome_hideGlobal _ name).alike).dropped
  have hstart := h.steady hm₀ (((hturns.shrink (H.invalidateSpace m id)).shrink
    (H.hideGlobal _ name)).shrink (H.dropStaleInstances _ id)) hdropped.holds
  refine ends_modify (ends_attempt (ends_heeding fuel starts hstart) fun r m' hm' => ?_)
  cases r with
  | ok => exact ends_pure fun small => (hm' small).2
  | error e =>
    exact ends_bind (heeds_takeBack fuel name hm') (fun _ _ h => ends_fail h) fun _ h => h

end Members

/-! ## Requests -/

section Requests

variable {m : Model} (fuel : Nat) (hm : m.Faithful fun _ => False) (h : m.Heeds)
include hm h

theorem heeds_defineCells (id : SpaceId) (name : String) (formula : Option Formula) :
    Leaves Heeds (defineCells fuel id name formula) m := by
  have H := shrinkFrame_subsides
  have stay : m.Addressable → m.Heeds := fun _ => h
  refine ends_admitName stay (ends_read stay fun s hs => ends_get ?_)
  obtain ⟨hs, hstatic⟩ := editable_eq_ok hs
  split
  next existing hexisting =>
    refine ends_read stay fun c _ => ?_
    split
    next => exact ends_fail stay
    next =>
      refine ends_modify (ends_then (heeds_settleChange hm h fuel
        (follows_takeover (fun _ => hm) hs hstatic hexisting) ?_) fun _ _ h => ends_pure h)
      exact turns_of_shrink (H.redefine m existing _ fun _ => rfl)
  next =>
    split
    next => exact ends_fail stay
    next hfree =>
      have hedited := follows_addCells (c := { name, space := id, formula, derived := false })
        (fun _ => hm) hs hstatic rfl hfree
      refine ends_update (ends_then (heeds_settleAddition hm h fuel name [id] hedited ?_)
        fun _ _ h => ends_pure h)
      exact phased_of_grow (growFrame_expands.addCells m _ rfl)

/-- Cells change, and a wave follows. -/
theorem heeds_redefinition {id : CellId} {c : Cells} {s : Space} {f : Cells → Cells}
    (hf : ∀ c, (f c).home = c.home ∧ (f c).contents = c.contents) (hc : m.cell id = .ok c)
    (hs : m.editable c.space = .ok s) :
    Leaves Heeds (deriveFrom fuel [c.space])
      (((m.modifyCell id f).invalidateCells id).2.dropStaleInstances c.space) := by
  have H := shrinkFrame_subsides
  refine h.leaves_wave hm ?_ (follows_redefinition (fun c => (hf c).1) (fun _ => hm) hc hs).holds
    fuel _
  exact (turns_of_shrink (H.redefine m id f fun c => (hf c).2)).shrink (H.dropStaleInstances _ _)

theorem heeds_redefine (id : CellId) (formula : Formula) :
    Leaves Heeds (redefine fuel id formula) m := by
  have stay : m.Addressable → m.Heeds := fun _ => h
  refine ends_read stay fun c hc => ends_read stay fun s hs => ends_modify ?_
  exact heeds_redefinition fuel hm h (fun _ => ⟨rfl, rfl⟩) hc hs

theorem heeds_letCellsBeEmpty (id : CellId) (allow : Option Bool) :
    Leaves Heeds (letCellsBeEmpty fuel id allow) m := by
  have stay : m.Addressable → m.Heeds := fun _ => h
  refine ends_read stay fun c hc => ends_read stay fun s hs => ends_modify ?_
  exact ends_then (heeds_redefinition fuel hm h (fun _ => ⟨rfl, rfl⟩) hc hs)
    fun _ _ h => ends_pure h

theorem heeds_removeCells (id : CellId) : Leaves Heeds (removeCells fuel id) m := by
  have H := shrinkFrame_subsides
  have stay : m.Addressable → m.Heeds := fun _ => h
  refine ends_read stay fun c hc => ends_read stay fun s hs => ?_
  obtain ⟨hs, hstatic⟩ := editable_eq_ok hs
  split
  next => exact ends_get (ends_fail stay)
  next =>
    refine ends_modify (heeds_settleChange hm h fuel
      (follows_dropCells (fun _ => hm) (cell_eq_ok.1 hc) hs hstatic) ?_)
    exact (turns_of_shrink (H.modifySpace m c.space _ fun _ => by exact ⟨rfl, rfl, rfl⟩)).shrink
      (H.destroyCells _ id)

theorem heeds_dropOverride (id : CellId) : Leaves Heeds (dropOverride fuel id) m := by
  have H := shrinkFrame_subsides
  have stay : m.Addressable → m.Heeds := fun _ => h
  refine ends_read stay fun c hc => ends_read stay fun s hs => ?_
  split
  next => exact ends_pure stay
  next =>
    refine ends_read stay fun heritage _ => ?_
    split
    next =>
      have hend := hm.reflag (c := id) (f := fun c => { c with derived := true }) (fun _ => rfl)
        fun _ => ⟨rfl, rfl⟩
      exact ends_modify (h.leaves_wave hm (turns_of_shrink (H.recast m id true)) (fun _ => hend)
        fuel _)
    next => exact ends_get (ends_fail stay)

theorem heeds_bindName (id : SpaceId) (name : String) (value : Value) (mode : RefMode) :
    Leaves Heeds (bindName fuel id name value mode) m := by
  have H := shrinkFrame_subsides
  have stay : m.Addressable → m.Heeds := fun _ => h
  refine ends_admitName stay (ends_get (ends_read stay fun s hs => ends_get ?_))
  obtain ⟨hs, hstatic⟩ := editable_eq_ok hs
  split
  next existing hexisting =>
    refine ends_read stay fun r hr => ?_
    split
    next => exact ends_fail stay
    next =>
      exact ends_modify (ends_then (h.leaves_wave hm (turns_of_shrink (H.rebind m existing _))
        (follows_rebinding (fun _ => hm) existing fun _ => by rfl).holds fuel _)
        fun _ _ h => ends_pure h)
  next =>
    split
    next => exact ends_fail stay
    next hfree =>
      refine ends_update (ends_then (heeds_settleAddition hm h fuel name [id]
        (follows_addRef (fun _ => hm) hs hstatic rfl hfree) (turns_of_shrink (H.addRef m _)))
        fun _ _ h => ends_pure h)

theorem heeds_rebind (id : RefId) (value : Value) : Leaves Heeds (rebind fuel id value) m := by
  have H := shrinkFrame_subsides
  have stay : m.Addressable → m.Heeds := fun _ => h
  refine ends_read stay fun r hr => ?_
  split
  next =>
    refine ends_modify (ends_pure fun small => ?_)
    exact h.turns hm ((follows_rebinding (fun _ => hm) id fun _ => by rfl).holds small)
      (turns_of_shrink (H.rebind m id _))
  next space _ =>
    refine ends_read stay fun s hs => ends_modify ?_
    exact h.leaves_wave hm (turns_of_shrink (H.rebind m id _))
      (follows_rebinding (fun _ => hm) id fun _ => by rfl).holds fuel _

theorem heeds_unbind (id : RefId) : Leaves Heeds (unbind fuel id) m := by
  have H := shrinkFrame_subsides
  have stay : m.Addressable → m.Heeds := fun _ => h
  refine ends_read stay fun r hr => ?_
  split
  next howner =>
    have hr := reference_eq_ok.1 hr
    have hend := hm.sever (severs_global hm.owned (hm.owned.global_listed hr howner))
      (not_homeIn_global hr howner)
    exact ends_modify (ends_pure fun _ => h.turns hm hend
      ((turns_of_shrink (H.listings m m.roots _)).shrink (H.destroyReference _ id)))
  next space howner =>
    refine ends_read stay fun s hs => ?_
    obtain ⟨hs, hstatic⟩ := editable_eq_ok hs
    split
    next => exact ends_get (ends_fail stay)
    next =>
      refine ends_modify (heeds_settleChange hm h fuel
        (follows_dropRef (fun _ => hm) (reference_eq_ok.1 hr) howner hs hstatic) ?_)
      exact (turns_of_shrink (H.modifySpace m space _ fun _ => by exact ⟨rfl, rfl, rfl⟩)).shrink
        (H.destroyReference _ id)

omit fuel in
theorem heeds_bindGlobal (name : String) (value : Value) :
    Leaves Heeds (bindGlobal name value) m := by
  intro r m' hrun small
  have hproper := (proper_bindGlobal name value m r m' hrun fun _ => hm).1
  exact h.turns hm (hproper small)
    (turns_of_shrink (shrinkFrame_subsides.bindGlobal name value m r m' hrun))

omit fuel in
theorem heeds_document (id : SpaceId) (doc : Option String) : Leaves Heeds (document id doc) m := by
  intro r m' hrun small
  have hproper := (proper_document id doc m r m' hrun fun _ => hm).1
  exact h.turns hm (hproper small)
    (turns_of_shrink (shrinkFrame_subsides.document id doc m r m' hrun))

/-! ## Spaces -/

theorem heeds_createSpace (parent : Option SpaceId) (name : String) :
    Leaves Heeds (createSpace fuel parent name) m := by
  have H := shrinkFrame_subsides
  have G := growFrame_expands
  have stay : m.Addressable → m.Heeds := fun _ => h
  cases parent with
  | none =>
    intro r m' hrun small
    refine h.turns hm ((proper_createSpace fuel none name m r m' hrun fun _ => hm).1 small) ?_
    refine obeys_grow (obeys_admitName name) (fun _ => ?_) m r m' hrun
    refine obeys_grow obeys_get fun m => ?_
    split
    · exact obeys_shrink (obeys_fail _)
    · refine obeys_update fun m => ?_
      exact (phased_of_grow (G.addSpace m _ rfl rfl)).shrink (H.listings _ _ m.globals)
  | some parent =>
    refine ends_admitName stay (ends_read stay fun s hs => ends_get ?_)
    obtain ⟨hs, hstatic⟩ := editable_eq_ok hs
    split
    next existing _ =>
      refine ends_read stay fun t _ => ?_
      split
      next =>
        have hend : (m.modifySpace existing (Space.setDerived false)).Faithful fun _ => False :=
          hm.rebase (Space.retouches_setDerived · false) (Space.signature_setDerived · false)
            (Space.setDerived_of_replica · false)
        exact ends_modify (ends_pure fun _ => h.turns hm hend
          (turns_of_shrink (H.modifySpace m existing _ (preserves_setDerived false))))
      next => exact ends_fail stay
    next =>
      split
      next => exact ends_fail stay
      next hfree =>
        exact ends_update (ends_then (heeds_settleAddition hm h fuel name _
          (follows_addChild (fun _ => hm) hs hstatic hfree)
          (phased_of_grow (G.addChild G.addSpace m parent rfl rfl))) fun _ _ h => ends_pure h)

theorem heeds_removeSpace (id : SpaceId) : Leaves Heeds (removeSpace fuel id) m := by
  have H := shrinkFrame_subsides
  have stay : m.Addressable → m.Heeds := fun _ => h
  refine ends_read stay fun s hs => ?_
  obtain ⟨hs, hstatic⟩ := editable_eq_ok hs
  split
  next => exact ends_get (ends_fail stay)
  next =>
    cases hparent : s.parent with
    | some p =>
      have hdropped := turns_of_shrink (H.dropStaleInstances m p)
      have hcut := (hdropped.shrink (H.modifySpace _ p
        (fun q => { q with spaces := q.spaces.erase s.name }) fun _ => ⟨rfl, rfl, rfl⟩)).shrink
        (H.destroySpace _ id)
      have hend := (follows_dropChild (fun _ => hm) hs hstatic hparent).holds
      refine ends_modify (ends_read (fun _ => ?_) fun q hq => ?_)
      · obtain ⟨howned, hdrops⟩ := under_dropStaleInstances m p hm.owned
        exact h.turns hm (hm.drops howned hdrops) hdropped
      · exact ends_modify (ends_modify (ends_update (ends_modify (h.leaves_wave hm
          ((hcut.shrink (H.unlinkDeadBases _)).shrink (H.invalidateSpace _ p)) hend fuel _))))
    | none =>
      have hcut := (turns_of_shrink (H.listings m (m.roots.erase s.name) m.globals)).shrink
        (H.destroySpace _ id)
      exact ends_modify (ends_modify (ends_update (h.leaves_wave hm
        (hcut.shrink (H.unlinkDeadBases _))
        (follows_dropRoot (fun _ => hm) hs hstatic hparent).holds fuel _)))

/-! ## Bases and parameters -/

omit h in
theorem upright_setBases (id : SpaceId) (f : List SpaceId → List SpaceId) :
    Proper (m.modifySpace id (Space.setBases f)) :=
  ((Follows.start fun _ => hm).setBases id f).holds

theorem heeds_linkBase (id base : SpaceId) : Leaves Heeds (linkBase fuel id base) m := by
  have H := shrinkFrame_subsides
  have stay : m.Addressable → m.Heeds := fun _ => h
  refine ends_read stay fun s _ => ends_read stay fun b _ => ends_get ?_
  split
  next => exact ends_fail stay
  next =>
    split
    next => exact ends_pure stay
    next =>
      split
      next => exact ends_fail stay
      next =>
        have hbases := fun m f => turns_of_shrink (H.modifySpace m id _ (preserves_setBases f))
        have hstart := h.steady hm (hbases m _) (upright_setBases hm id (· ++ [base]))
        refine ends_modify (ends_attempt (ends_heeding fuel [id] hstart) fun r m' hm' => ?_)
        cases r with
        | ok summary => exact ends_pure fun small => (hm' small).2
        | error e =>
          have hback : Steady (fun _ => False) Heeds
              (m'.modifySpace id (Space.setBases (·.filter (· != base)))) := fun small => by
            obtain ⟨hfaithful, hheeds⟩ := hm' ((fits_modifySpace m' id _).addressable small)
            exact hheeds.steady hfaithful (hbases m' _) (upright_setBases hfaithful id _) small
          exact ends_modify (ends_then (fun r m'' hrun small =>
            (ends_heeding fuel [id] hback r m'' hrun small).2) fun _ _ h => ends_fail h)

theorem heeds_unlinkBase (id base : SpaceId) : Leaves Heeds (unlinkBase fuel id base) m := by
  have H := shrinkFrame_subsides
  have stay : m.Addressable → m.Heeds := fun _ => h
  refine ends_read stay fun s _ => ends_get ?_
  split
  next => exact ends_fail stay
  next =>
    exact ends_modify (h.leaves_wave hm
      (turns_of_shrink (H.modifySpace m id _ (preserves_setBases _)))
      (upright_setBases hm id _) fuel _)

theorem heeds_declareParams (id : SpaceId) (params : List Param) (binder : Option Formula) :
    Leaves Heeds (declareParams fuel id params binder) m := by
  have H := shrinkFrame_subsides
  have stay : m.Addressable → m.Heeds := fun _ => h
  refine ends_read stay fun s hs => ends_modify (ends_then ?_ fun _ _ h => ends_pure h)
  refine h.leaves_wave hm ?_ (follows_retouch (fun _ => hm) hs fun s => ?_).holds fuel _
  · exact (turns_of_shrink (H.declare m id _ fun _ => by exact ⟨rfl, rfl⟩)).shrink
      (H.dropStaleInstances _ id)
  · exact ⟨⟨rfl, rfl, rfl, fun _ => rfl, fun _ => rfl⟩, rfl, rfl, rfl, rfl⟩

end Requests

end Recalc.Model
