import Recalc.Proofs.Alteration

set_option autoImplicit false

/-!
# Conditions that last

A condition lasts when it survives the alterations that derivation makes, the loss of instances and
computed values, and the loss of base links to spaces that are gone. What the heritage of a space
owes to the condition may be used while the members of the space are derived.
-/

namespace Recalc.Model

open Recalc.Action

/-- The condition survives the loss of instances, of computed values and of dead base links. -/
structure Endures (R : Model → Prop) : Prop where
  drops : ∀ m m', m.Owned → m'.Owned → R m → Drops m m' → KeepsInputs m m' → R m'
  unlink : ∀ m, m.Owned → R m → R m.unlinkDeadBases.2

/-- The condition survives the derivation of the members of one space from its heritage. -/
structure Withstands (R : Model → Prop) (id : SpaceId) (h : Heritage) : Prop extends Endures R where
  alters : ∀ m m', m.Owned → m'.Owned → R m → m.Static id → Alters id h m m' → R m'

/-- The condition survives all that a wave does; `owes` holds of a space and its heritage. -/
structure Lasting (R : Model → Prop) (owes : SpaceId → Heritage → Prop) : Prop
    extends Endures R where
  heritage : ∀ m id h, m.Owned → R m → m.Static id → m.heritage id = .ok h → owes id h
  alters : ∀ m m' id h, m.Owned → m'.Owned → R m → m.Static id → owes id h → Alters id h m m' → R m'

theorem lasting_true : Lasting (fun _ => True) fun _ _ => True :=
  ⟨⟨fun _ _ _ _ _ _ _ => trivial, fun _ _ _ => trivial⟩, fun _ _ _ _ _ _ _ => trivial,
    fun _ _ _ _ _ _ _ _ _ _ => trivial⟩

section

variable {R R' : Model → Prop} {owes owes' : SpaceId → Heritage → Prop}

theorem Lasting.withstands (h : Lasting R owes) {id : SpaceId} {heritage : Heritage}
    (ho : owes id heritage) : Withstands R id heritage :=
  ⟨h.toEndures, fun m m' hm hm' hr hself => h.alters m m' id heritage hm hm' hr hself ho⟩

theorem Endures.and (h : Endures R) (h' : Endures R') : Endures fun m => R m ∧ R' m where
  drops m m' hm hm' hr hdrops hinputs :=
    ⟨h.drops m m' hm hm' hr.1 hdrops hinputs, h'.drops m m' hm hm' hr.2 hdrops hinputs⟩
  unlink m hm hr := ⟨h.unlink m hm hr.1, h'.unlink m hm hr.2⟩

theorem Withstands.and {id : SpaceId} {heritage : Heritage} (h : Withstands R id heritage)
    (h' : Withstands R' id heritage) : Withstands (fun m => R m ∧ R' m) id heritage :=
  ⟨h.toEndures.and h'.toEndures, fun m m' hm hm' hr hself halters =>
    ⟨h.alters m m' hm hm' hr.1 hself halters, h'.alters m m' hm hm' hr.2 hself halters⟩⟩

/-- Two conditions last together. -/
theorem Lasting.and (h : Lasting R owes) (h' : Lasting R' owes') :
    Lasting (fun m => R m ∧ R' m) fun id heritage => owes id heritage ∧ owes' id heritage :=
  ⟨h.toEndures.and h'.toEndures, fun m id heritage hm hr hself hh =>
    ⟨h.heritage m id heritage hm hr.1 hself hh, h'.heritage m id heritage hm hr.2 hself hh⟩,
    fun m m' id heritage hm hm' hr hself ho halters =>
    ⟨h.alters m m' id heritage hm hm' hr.1 hself ho.1 halters,
      h'.alters m m' id heritage hm hm' hr.2 hself ho.2 halters⟩⟩

theorem Endures.forget (h : Endures R) {m m' : Model} (hm : m.Owned) (hr : R m)
    (hforget : ForgetsSome m m') : R m' :=
  h.drops m m' hm (hforget.alike.owned hm) hr hforget.alike.drops hforget.staysCells.trimsCells.keepsInputs

theorem Endures.dropStaleInstances (h : Endures R) {m : Model} (hm : m.Owned) (hr : R m)
    (id : SpaceId) : R (m.dropStaleInstances id) := by
  obtain ⟨hm', hdrops⟩ := under_dropStaleInstances m id hm
  exact h.drops m _ hm hm' hr hdrops (roundFrame_cells.dropStaleInstances m id).keepsInputs

abbrev Leaves (R : Model → Prop) {α : Type} (x : Action α) (m : Model) : Prop :=
  Ends (fun m' => m'.Addressable → R m') x m

/-! ## Members one by one -/

theorem Static.isStatic {m : Model} {id : SpaceId} {s : Space} (h : m.Static id)
    (hs : m.spaces.get? id = some s) : s.isStatic = true := by
  obtain ⟨t, ht, hstatic⟩ := h
  cases hs.symm.trans ht
  exact hstatic

variable {m : Model} {id : SpaceId} {heritage : Heritage} (h : Withstands R id heritage)
  (hm : m.Owned) (hself : m.Static id) (hr : R m)
include h hm hself hr

/-- Derived cells come, and the global reference of their name is hidden. -/
theorem Withstands.addCells {c : Cells} {s : Space} (hs : m.spaces.get? id = some s)
    (hspace : c.space = id) (hderived : c.derived = true) (hfree : s.cells.get? c.name = none)
    (hname : heritage.cells.contains c.name = true)
    (small : ((m.addCells c).2.hideGlobal c.name).Addressable) :
    R ((m.addCells c).2.hideGlobal c.name) := by
  have hforget := forgetsSome_hideGlobal (m.addCells c).2 c.name
  replace small := hforget.alike.addressable.1 small
  have howned := owned_addCells hm small (hspace ▸ hs) hfree
  refine h.forget howned (h.alters m _ hm howned hr hself ?_) hforget
  exact alters_addCells hm small hs hspace hderived hname

/-- A derived reference comes, and the global one of its name is hidden. -/
theorem Withstands.addRef {r : Reference} {s : Space} (hs : m.spaces.get? id = some s)
    (howner : r.owner = some id) (hderived : r.derived = true) (hfree : s.refs.get? r.name = none)
    (hname : heritage.refs.contains r.name = true)
    (small : ((m.addRef r).2.hideGlobal r.name).Addressable) :
    R ((m.addRef r).2.hideGlobal r.name) := by
  have hforget := forgetsSome_hideGlobal (m.addRef r).2 r.name
  replace small := hforget.alike.addressable.1 small
  have howned := owned_addRef hs (hself.isStatic hs) hm small howner hfree
  refine h.forget howned (h.alters m _ hm howned hr hself ?_) hforget
  exact alters_addRef hm small hs howner hderived hname

theorem leaves_deriveCells {name : String} {source : CellId}
    (hname : heritage.cells.get? name = some source) :
    Leaves R (deriveCells id name source) m := by
  unfold deriveCells
  refine ends_read (fun _ => hr) fun src _ => ends_read (fun _ => hr) fun s hs => ?_
  replace hs := space_eq_ok.1 hs
  split
  next hfree =>
    refine ends_modify (ends_pure (h.addCells hm hself hr hs rfl rfl hfree ?_))
    show heritage.cells.contains name = true
    rw [NameMap.contains, hname, Option.isSome_some]
  next own hown =>
    refine ends_read (fun _ => hr) fun current hcurrent => ?_
    replace hcurrent := cell_eq_ok.1 hcurrent
    split
    next hderived =>
      rw [Bool.and_eq_true] at hderived
      refine ends_modify (ends_pure fun _ => ?_)
      have howned : (m.modifyCell own fun c =>
          { c with formula := src.formula, allowNone := src.allowNone }).Owned :=
        owned_modifyCell hm fun _ => rfl
      refine h.forget howned (h.alters m _ hm howned hr hself ?_)
        (forgetsAll_invalidateCells _ own).forgetsSome
      refine alters_modifyCell fun d hd => ⟨rfl, rfl, rfl, rfl, fun hauthored => ?_⟩
      cases hcurrent.symm.trans hd
      rw [hderived.1] at hauthored
      contradiction
    next => exact ends_pure fun _ => hr

theorem leaves_dropCells {e : String × CellId} {s : Space} (hs : m.spaces.get? id = some s)
    (hlisted : s.cells.get? e.1 = some e.2) : Leaves R (dropCells id heritage e) m := by
  unfold dropCells
  split
  next => exact ends_pure fun _ => hr
  next hname =>
    refine ends_read (fun _ => hr) fun c hc => ?_
    replace hc := cell_eq_ok.1 hc
    split
    next hderived =>
      refine ends_modify (ends_pure fun _ => ?_)
      have hstatic := hself.isStatic hs
      obtain ⟨d, hd, hspace, hdname⟩ := hm.cells_of_listed hs hlisted
      cases hc.symm.trans hd
      rw [Bool.not_eq_true] at hname
      refine h.alters m _ hm (severs_cells hm hs hstatic hlisted).owned hr hself ?_
      exact alters_shed (f := fun s => { s with cells := s.cells.erase e.1 })
        (.cells hc hspace hderived (hdname ▸ hname))
        (fun s => ⟨⟨rfl, rfl, rfl, rfl, rfl, fun _ => rfl, rfl, rfl⟩, rfl, .inl rfl, fun _ => rfl⟩)
        (sheds_destroyCells _ e.2 .self) (trimsCells_destroyCells _ e.2).keepsInputs
    next => exact ends_pure fun _ => hr

theorem leaves_deriveRef {name : String} {source : RefId}
    (hname : heritage.refs.get? name = some source) :
    Leaves R (deriveRef id name source) m := by
  unfold deriveRef
  refine ends_read (fun _ => hr) fun src _ => ends_read (fun _ => hr) fun s hs => ?_
  replace hs := space_eq_ok.1 hs
  split
  next hfree =>
    refine ends_modify (ends_pure (h.addRef hm hself hr hs rfl rfl hfree ?_))
    show heritage.refs.contains name = true
    rw [NameMap.contains, hname, Option.isSome_some]
  next own hown =>
    refine ends_read (fun _ => hr) fun current hcurrent => ?_
    replace hcurrent := reference_eq_ok.1 hcurrent
    split
    next hderived =>
      rw [Bool.and_eq_true] at hderived
      refine ends_modify (ends_pure fun _ => ?_)
      have howned : (m.modifyRef own fun r =>
          { r with value := src.value, mode := src.mode, relative := src.relative,
                   origin := src.origin }).Owned := owned_modifyRef hm fun _ => by rfl
      refine h.forget howned (h.alters m _ hm howned hr hself ?_)
        (forgetsAll_invalidate _ (.ref own)).forgetsSome
      refine alters_modifyRef fun q hq => ⟨rfl, rfl, rfl, fun hauthored => ?_⟩
      cases hcurrent.symm.trans hq
      rw [hderived.1] at hauthored
      contradiction
    next => exact ends_pure fun _ => hr

theorem leaves_dropRef {e : String × RefId} {s : Space} (hs : m.spaces.get? id = some s)
    (hlisted : s.refs.get? e.1 = some e.2) : Leaves R (dropRef id heritage e) m := by
  unfold dropRef
  split
  next => exact ends_pure fun _ => hr
  next hname =>
    refine ends_read (fun _ => hr) fun r hr' => ?_
    replace hr' := reference_eq_ok.1 hr'
    split
    next hderived =>
      refine ends_modify (ends_pure fun _ => ?_)
      have hstatic := hself.isStatic hs
      obtain ⟨q, hq, howner, hqname⟩ := hm.ref_of_listed hs hlisted
      cases hr'.symm.trans hq
      rw [Bool.not_eq_true] at hname
      refine h.alters m _ hm (severs_reference hm hs hstatic hlisted).owned hr hself ?_
      exact alters_shed (f := fun s => { s with refs := s.refs.erase e.1 })
        (.ref hr' howner hderived (hqname ▸ hname))
        (fun s => ⟨⟨rfl, rfl, rfl, rfl, rfl, fun _ => rfl, rfl, rfl⟩, rfl, .inl rfl, fun _ => rfl⟩)
        (sheds_destroyReference _ e.2 .self) (trimsCells_destroyReference _ e.2).keepsInputs
    next => exact ends_pure fun _ => hr

theorem leaves_deriveChild {name : String} {sources : List SpaceId}
    (hname : heritage.spaces.get? name = some sources) :
    Leaves R (deriveChild id name sources) m := by
  unfold deriveChild
  refine ends_read (fun _ => hr) fun s hs => ?_
  replace hs := space_eq_ok.1 hs
  have hstatic := hself.isStatic hs
  split
  next hfree =>
    refine ends_update (ends_modify (ends_pure fun small => ?_))
    have hforget := forgetsSome_hideGlobal (m.addChild id
      ((Space.fresh name (some id) true).setImplicitBases fun _ => sources)).2 name
    replace small := hforget.alike.addressable.1 small
    have howned := owned_addChild hm small hs hfree rfl rfl hstatic
      (lists_of_empty rfl rfl rfl rfl)
    refine h.forget howned (h.alters m _ hm howned hr hself ?_) hforget
    refine alters_addChild hm small hs rfl rfl rfl ?_
    show heritage.spaces.contains name = true
    rw [NameMap.contains, hname, Option.isSome_some]
  next child hchild =>
    refine ends_read (fun _ => hr) fun c hc => ?_
    replace hc := space_eq_ok.1 hc
    obtain ⟨t, ht, hparent, htname, -⟩ := hm.child_of_listed hs hchild
    cases hc.symm.trans ht
    split
    next =>
      refine ends_modify (ends_pure fun _ => h.alters m _ hm ?_ hr hself ?_)
      · exact owned_retouch hm (Space.retouches_setImplicitBases _)
      · refine alters_setImplicitBases hc hparent ?_
        rw [htname, hname, Option.getD_some]
    next => exact ends_pure fun _ => hr

theorem leaves_dropChild {e : String × SpaceId} {s : Space} (hs : m.spaces.get? id = some s)
    (hlisted : s.spaces.get? e.1 = some e.2) : Leaves R (dropChild id heritage e) m := by
  unfold dropChild
  split
  next => exact ends_pure fun _ => hr
  next hname =>
    rw [Bool.not_eq_true] at hname
    refine ends_read (fun _ => hr) fun c hc => ?_
    replace hc := space_eq_ok.1 hc
    obtain ⟨t, ht, hparent, htname, -⟩ := hm.child_of_listed hs hlisted
    cases hc.symm.trans ht
    split
    next hderived =>
      refine ends_modify (ends_pure fun _ => ?_)
      have hstatic := hself.isStatic hs
      refine h.alters m _ hm (severs_child hm hs hstatic hlisted).owned hr hself ?_
      exact alters_shed (f := fun s => { s with spaces := s.spaces.erase e.1 })
        (.space hc hderived hparent (htname ▸ hname))
        (fun s => ⟨⟨rfl, rfl, rfl, rfl, rfl, fun _ => rfl, rfl, rfl⟩, rfl, .inl rfl, fun _ => rfl⟩)
        (sheds_destroySpace .self ((unlists_child hm hs hstatic hlisted).closed hm))
        (trimsCells_destroyTree _ _ e.2).keepsInputs
    next =>
      split
      next =>
        refine ends_modify (ends_pure fun _ => h.alters m _ hm ?_ hr hself ?_)
        · exact owned_retouch hm (Space.retouches_setImplicitBases _)
        · refine alters_setImplicitBases hc hparent ?_
          rw [NameMap.contains, Option.isSome_eq_false_iff, Option.isNone_iff_eq_none] at hname
          rw [htname, hname, Option.getD_none]
      next => exact ends_pure fun _ => hr

theorem leaves_deriveSignature : Leaves R (deriveSignature id heritage) m := by
  unfold deriveSignature
  refine ends_read (fun _ => hr) fun s hs => ?_
  replace hs := space_eq_ok.1 hs
  split
  next hown =>
    rw [Bool.and_eq_true, Bool.not_eq_true'] at hown
    refine ends_modify (ends_pure fun _ => ?_)
    have howned : (m.modifySpace id fun s => { s with signature := heritage.signature }).Owned :=
      owned_retouch hm fun s =>
        ⟨⟨rfl, rfl, rfl, fun _ => rfl, fun _ => rfl⟩, rfl, rfl, rfl, rfl⟩
    refine h.alters m _ hm howned hr hself (alters_modifySpace fun t ht => ?_)
    cases hs.symm.trans ht
    refine ⟨⟨rfl, rfl, rfl, rfl, rfl, fun hsig => ?_, rfl, rfl⟩, rfl, .inl rfl, fun _ => rfl⟩
    rw [hown.1] at hsig
    contradiction
  next => exact ends_pure fun _ => hr

end

/-! ## What became stale -/

section

variable {R : Model → Prop} (h : Endures R) {m : Model} (hm : m.Owned) (hr : R m) (id : SpaceId)
include h hm hr

theorem Endures.dropStale (changes : Changes) :
    (dropStale id changes m).Owned ∧ R (dropStale id changes m) := by
  have hinvalidate : ∀ b : Bool, (if b then (m.invalidateSpace id).2 else m).Owned ∧
      R (if b then (m.invalidateSpace id).2 else m) := by
    intro b
    cases b with
    | false => exact ⟨hm, hr⟩
    | true =>
      have hforget := forgetsSome_invalidateSpace m id
      exact ⟨hforget.alike.owned hm, h.forget hm hr hforget⟩
  obtain ⟨howned, hr⟩ := hinvalidate changes.structural
  unfold Model.dropStale
  dsimp only
  split
  next => exact ⟨(under_dropStaleInstances _ id howned).1, h.dropStaleInstances howned hr id⟩
  next => exact ⟨howned, hr⟩

theorem leaves_settle (changes : Changes) : Leaves R (settle id changes) m := by
  unfold settle
  obtain ⟨howned, hr⟩ := h.dropStale hm hr id changes
  refine ends_modify ?_
  split
  next => exact ends_change fun _ => h.unlink _ howned hr
  next => exact ends_pure fun _ => hr

end

/-- What an action leaves joins what it ensures. -/
theorem Ensures.leaves {α : Type} {P R S : Model → Prop} {Q : α → Model → Prop} {x : Action α}
    (hx : Ensures P x Q) (hr : ∀ m, P m → R m → Leaves S x m) :
    Ensures (fun m => P m ∧ R m) x fun a m => Q a m ∧ S m := by
  intro m r m' hrun
  obtain ⟨hfits, hspec⟩ := hx m r m' hrun
  refine ⟨hfits, fun small hm => ?_⟩
  obtain ⟨a, rfl, ha⟩ := hspec small hm.1
  exact ⟨a, rfl, ha, hr m hm.1 hm.2 _ m' hrun small⟩

end Recalc.Model
