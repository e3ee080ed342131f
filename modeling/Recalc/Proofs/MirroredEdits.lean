import Recalc.Proofs.MirroredMembers
import Recalc.Call
import Recalc.Edit.Input

set_option autoImplicit false

/-!
# Every edit keeps mirrors

The edits one by one: what each does to its space before the wave, and the wave after that.
-/

namespace Recalc.Model

open Recalc.Action

section Looking

variable {α : Type} {Q : Model → Prop} {m : Model}

theorem editable_eq_ok {id : SpaceId} {s : Space} (h : m.editable id = .ok s) :
    m.spaces.get? id = some s ∧ s.isStatic = true := by
  unfold editable at h
  obtain ⟨t, ht, h⟩ := except_bind_eq_ok.1 h
  split at h
  next hstatic =>
    cases h
    exact ⟨space_eq_ok.1 ht, hstatic⟩
  next => cases h

theorem ends_admitName {name : String} {k : Unit → Action α} (stay : Q m)
    (h : Ends Q (k ()) m) : Ends Q (admitName name >>= k) m := by
  unfold admitName
  split
  · intro r m' hx
    cases hx
    exact stay
  · exact h

/-- The answer of an action does not matter. -/
theorem ends_then {β : Type} {x : Action α} {k : α → Action β} (hx : Ends Q x m)
    (hk : ∀ a m, Q m → Ends Q (k a) m) : Ends Q (x >>= k) m := ends_bind hx hk fun _ h => h

end Looking

theorem get?_of_not_contains {β : Type} {t : NameMap β} {name : String} (h : ¬ t.contains name = true) :
    t.get? name = none := by
  rw [NameMap.contains, Bool.not_eq_true, Option.isSome_eq_false_iff,
    Option.isNone_iff_eq_none] at h
  exact h

theorem free_of_not_defines {s : Space} {name : String} (h : ¬ s.defines name = true) :
    s.cells.get? name = none ∧ s.refs.get? name = none ∧ s.spaces.get? name = none := by
  rw [Space.defines, Bool.or_eq_true, Bool.or_eq_true, not_or, not_or] at h
  exact ⟨get?_of_not_contains h.1.1, get?_of_not_contains h.2, get?_of_not_contains h.1.2⟩

section Changes

variable {m m' : Model} {id : SpaceId} {sites : SpaceId → Prop}

theorem Faithful.alike (h : m.Faithful sites) (halike : Alike m m') : m'.Faithful sites :=
  h.drops (halike.owned h.owned) halike.drops

/-- Neither a space nor what a space defines changes. -/
theorem Faithful.aside (h : m.Faithful sites) (owned : m'.Owned) (thins : Thins m m')
    (hspaces : m'.spaces = m.spaces) (hsetting : ∀ s name, m'.setting s name = m.setting s name) :
    m'.Faithful sites := by
  refine ⟨owned, thins.arranged h.owned h.arranged,
    h.mirrored.of_sameSettings h.owned hspaces hsetting, fun x hx s hs => ?_⟩
  rw [hspaces] at hs
  exact (h.vacant x hx).rests h.owned owned (rests_of_sameSpaces hspaces) hs s (hspaces ▸ hs)

theorem Faithful.reflag (h : m.Faithful sites) {c : CellId} {f : Cells → Cells}
    (home : ∀ c, (f c).home = c.home)
    (hf : ∀ c, (f c).formula = c.formula ∧ (f c).allowNone = c.allowNone) :
    (m.modifyCell c f).Faithful sites :=
  h.aside (owned_modifyCell h.owned home) (thins_modifyCell home) rfl (setting_modifyCell hf)

theorem Faithful.modifyRef (h : m.Faithful sites) {r : RefId} {f : Reference → Reference}
    (home : ∀ r, (f r).home = r.home) : (m.modifyRef r f).Faithful sites :=
  h.aside (owned_modifyRef h.owned home) (thins_modifyRef home) rfl fun _ _ => rfl

/-- A static space changes in something that replicas do not take from it. -/
theorem Faithful.retouch (h : m.Faithful sites) {s : Space} (hs : m.spaces.get? id = some s)
    (hstatic : s.isStatic = true) {f : Space → Space} (hf : ∀ s, Space.Retouches s (f s))
    (hsig : (f s).signature = s.signature) : (m.modifySpace id f).Faithful sites := by
  have owned : (m.modifySpace id f).Owned := owned_retouch h.owned hf
  refine ⟨owned, (thins_modifySpace fun s => (hf s).toLike).arranged h.owned h.arranged,
    mirrored_retouch hs hstatic h.owned h.mirrored hf hsig, fun x hx t' ht' => ?_⟩
  obtain ⟨t, ht⟩ := live_modifySpace.1 ⟨t', ht'⟩
  exact (h.vacant x hx).rests h.owned owned (rests_retouch hf) ht t' ht'

theorem Faithful.addRoot (h : m.Faithful sites) {s : Space}
    (small : (m.addSpace s).2.Addressable) (hfree : m.roots.get? s.name = none)
    (hparent : s.parent = none) (hstatic : s.isStatic = true) (empty : ∀ a, s.lists a = none) :
    Proper { (m.addSpace s).2 with roots := m.roots.insert s.name (m.addSpace s).1 } :=
  fun _ => ⟨owned_addRoot h.owned small hfree hparent hstatic empty,
    (thins_addRoot h.owned small hparent hstatic _).arranged h.owned h.arranged,
    mirrored_addRoot h.owned h.mirrored small hstatic _, fun _ hf => hf.elim⟩

/-- What is listed by the model itself goes. -/
theorem Faithful.sever (h : m.Faithful sites) {e : Entity} (hsevers : Severs m m' e)
    (hhome : ∀ p, ¬ m.HomeIn e p) : m'.Faithful sites := by
  have rests : m.Rests m' := by
    intro x s s' hs hs'
    obtain ⟨t, ht, hloses⟩ := hsevers.spaces x s' hs'
    cases hs.symm.trans ht
    exact ⟨hloses.toLike, fun k hk => by rw [hloses.instances, hk]⟩
  refine ⟨hsevers.owned, hsevers.thins.arranged h.owned h.arranged,
    h.mirrored.sever h.owned hsevers (fun _ hf => hf) fun p _ hp => ?_, fun x hx s' hs' => ?_⟩
  · exact absurd hp (hhome p)
  · obtain ⟨s, hs, -⟩ := hsevers.spaces x s' hs'
    exact (h.vacant x hx).rests h.owned hsevers.owned rests hs s' hs'

theorem Follows.change {m₀ : Model} (h : Follows Proper m₀ m) (fits : Fits m m')
    (hstep : m'.Addressable → m.Faithful (fun _ => False) → m'.Faithful fun _ => False) :
    Follows Proper m₀ m' := h.step fits hstep

end Changes

/-! ## One space is edited -/

section Editing

variable {m : Model} {id : SpaceId} {s : Space} (hm : Proper m)
include hm

theorem follows_addCells {c : Cells} (hs : m.spaces.get? id = some s)
    (hstatic : s.isStatic = true) (hspace : c.space = id) (hfree : ¬ s.defines c.name = true) :
    Follows (Edited id) m (m.addCells c).2 := by
  subst hspace
  refine Follows.edited (.start hm) (fits_addCells m c) fun small hf => ?_
  have hadds := (hf.begin hs hstatic).addCells small hs rfl (free_of_not_defines hfree).1
  exact ⟨⟨_, _, hadds⟩, arranged_addCells hf.owned hf.arranged small hs hfree⟩

theorem follows_addRef {r : Reference} (hs : m.spaces.get? id = some s)
    (hstatic : s.isStatic = true) (howner : r.owner = some id) (hfree : ¬ s.defines r.name = true) :
    Follows (Edited id) m (m.addRef r).2 := by
  refine Follows.edited (.start hm) (fits_addRef m r) fun small hf => ?_
  have hadds := (hf.begin hs hstatic).addRef small hs howner (free_of_not_defines hfree).2.1
  exact ⟨⟨_, _, hadds⟩, arranged_addRef hf.owned hf.arranged small hs howner hfree⟩

/-- An empty child comes. -/
theorem follows_addChild (hs : m.spaces.get? id = some s) (hstatic : s.isStatic = true)
    {name : String} (hfree : ¬ s.defines name = true) :
    Follows (Edited id) m (m.addChild id (Space.fresh name (some id) false)).2 := by
  refine Follows.edited (.start hm) (fits_addChild m id _) fun small hf => ?_
  have hadds := (hf.begin hs hstatic).addChild small hs (free_of_not_defines hfree).2.2 rfl rfl
    (lists_of_empty rfl rfl rfl rfl) .memberCreated (.inl rfl)
  exact ⟨⟨_, _, hadds⟩, arranged_addChild hf.owned hf.arranged small hs rfl rfl hfree⟩

/-- Cells of the space change, and stay under their name. -/
theorem follows_modifyCell (hs : m.spaces.get? id = some s) (hstatic : s.isStatic = true)
    {c : CellId} (hc : m.Owned → ∃ d, m.cells.get? c = some d ∧ d.space = id) {f : Cells → Cells}
    (hf : ∀ c, (f c).home = c.home) : Follows (Edited id) m (m.modifyCell c f) := by
  refine Follows.edited (.start hm) (fits_modifyCell m c f) fun _ hfaith => ?_
  obtain ⟨d, hd, hspace⟩ := hc hfaith.owned
  refine ⟨⟨_, _, (hfaith.begin hs hstatic).modifyCell hd hspace hf { redefined := true } (.inr rfl)⟩, ?_⟩
  exact (thins_modifyCell hf).arranged hfaith.owned hfaith.arranged

theorem follows_dropCells {c : CellId} {d : Cells} (hd : m.cells.get? c = some d)
    (hs : m.spaces.get? d.space = some s) (hstatic : s.isStatic = true) :
    Follows (Edited d.space) m ((m.modifySpace d.space fun s =>
      { s with cells := s.cells.erase d.name }).destroyCells c) := by
  refine Follows.edited (.start hm) ?_ fun _ hf => ?_
  · exact Frame.trans (fits_modifySpace m d.space _) (fits_destroyCells _ c)
  · have hlisted := hf.owned.cells_listed hd hs
    exact ⟨⟨_, _, (hf.begin hs hstatic).dropCells hs hlisted⟩,
      (severs_cells hf.owned hs hstatic hlisted).thins.arranged hf.owned hf.arranged⟩

theorem follows_dropRef {r : RefId} {q : Reference} (hq : m.refs.get? r = some q)
    (howner : q.owner = some id) (hs : m.spaces.get? id = some s) (hstatic : s.isStatic = true) :
    Follows (Edited id) m ((m.modifySpace id fun s =>
      { s with refs := s.refs.erase q.name }).destroyReference r) := by
  refine Follows.edited (.start hm) ?_ fun _ hf => ?_
  · exact Frame.trans (fits_modifySpace m id _) (fits_destroyReference _ r)
  · have hlisted := hf.owned.ref_listed hq howner hs
    exact ⟨⟨_, _, (hf.begin hs hstatic).dropRef hs hlisted⟩,
      (severs_reference hf.owned hs hstatic hlisted).thins.arranged hf.owned hf.arranged⟩

/-- The space changes in what it is, but not in what it lists. -/
theorem follows_resign (hs : m.spaces.get? id = some s) (hstatic : s.isStatic = true)
    {f : Space → Space} (hf : ∀ s, Space.Retouches s (f s)) :
    Follows (Edited id) m (m.modifySpace id f) := by
  refine Follows.edited (.start hm) (fits_modifySpace m id f) fun _ hfaith => ?_
  exact ⟨⟨_, _, (hfaith.begin hs hstatic).resign hf { structural := true } (.inl rfl)⟩,
    (thins_modifySpace fun s => (hf s).toLike).arranged hfaith.owned hfaith.arranged⟩

end Editing

/-! ## Cells -/

section Cells

variable (fuel : Nat)

/-- Derived cells become authored ones. -/
theorem follows_takeover {m : Model} {id : SpaceId} {s : Space} {name : String} {c : CellId}
    {formula : Option Formula} (hm : Proper m) (hs : m.spaces.get? id = some s)
    (hstatic : s.isStatic = true) (hlisted : s.cells.get? name = some c) :
    Follows (Edited id) m
      ((m.modifyCell c fun c => { c with formula, derived := false }).invalidateCells c).2 := by
  refine Follows.alike (follows_modifyCell hm hs hstatic (fun howned => ?_) fun _ => ?_)
    (forgetsAll_invalidateCells _ c).forgetsSome.alike
  · obtain ⟨d, hd, hspace, -⟩ := howned.cells_of_listed hs hlisted
    exact ⟨d, hd, hspace⟩
  · rfl

theorem proper_defineCells (id : SpaceId) (name : String) (formula : Option Formula) :
    Obeys (Under Proper Fits) (defineCells fuel id name formula) := by
  refine obeys_of_ends fun m hm => ?_
  have stay : Follows Proper m m := .start hm
  refine ends_admitName stay (ends_read stay fun s hs => ends_get ?_)
  obtain ⟨hs, hstatic⟩ := editable_eq_ok hs
  split
  next existing hexisting =>
    refine ends_read stay fun c hc => ?_
    split
    next => exact ends_fail stay
    next =>
      exact ends_modify (ends_then (ends_settleChange fuel (follows_takeover hm hs hstatic hexisting))
        fun _ _ h => ends_pure h)
  next =>
    split
    next => exact ends_fail stay
    next hfree =>
      exact ends_update (ends_then (ends_settleAddition fuel name [id]
        (follows_addCells hm hs hstatic rfl hfree)) fun _ _ h => ends_pure h)

/-- A change of cells, with the instances around them dropped. -/
theorem follows_redefinition {m : Model} {id : CellId} {c : Cells} {s : Space}
    {f : Cells → Cells} (hf : ∀ c, (f c).home = c.home) (hm : Proper m)
    (hc : m.cell id = .ok c) (hs : m.editable c.space = .ok s) :
    Follows Proper m
      (((m.modifyCell id f).invalidateCells id).2.dropStaleInstances c.space) := by
  obtain ⟨hs, hstatic⟩ := editable_eq_ok hs
  have hedited := follows_modifyCell hm hs hstatic (fun _ => ⟨c, cell_eq_ok.1 hc, rfl⟩) hf
  exact ((hedited.alike (forgetsAll_invalidateCells _ id).forgetsSome.alike).dropped).stop
    Upright.proper

theorem proper_redefine (id : CellId) (formula : Formula) :
    Obeys (Under Proper Fits) (redefine fuel id formula) := by
  refine obeys_of_ends fun m hm => ?_
  have stay : Follows Proper m m := .start hm
  refine ends_read stay fun c hc => ends_read stay fun s hs => ends_modify ?_
  exact ends_deriveFrom fuel _ (follows_redefinition (fun _ => rfl) hm hc hs)

theorem proper_letCellsBeEmpty (id : CellId) (allow : Option Bool) :
    Obeys (Under Proper Fits) (letCellsBeEmpty fuel id allow) := by
  refine obeys_of_ends fun m hm => ?_
  have stay : Follows Proper m m := .start hm
  refine ends_read stay fun c hc => ends_read stay fun s hs => ends_modify ?_
  exact ends_then (ends_deriveFrom fuel _ (follows_redefinition (fun _ => rfl) hm hc hs))
    fun _ _ h => ends_pure h

theorem proper_removeCells (id : CellId) : Obeys (Under Proper Fits) (removeCells fuel id) := by
  refine obeys_of_ends fun m hm => ?_
  have stay : Follows Proper m m := .start hm
  refine ends_read stay fun c hc => ends_read stay fun s hs => ?_
  obtain ⟨hs, hstatic⟩ := editable_eq_ok hs
  split
  next => exact ends_get (ends_fail stay)
  next =>
    exact ends_modify (ends_settleChange fuel (follows_dropCells hm (cell_eq_ok.1 hc) hs hstatic))

theorem proper_dropOverride (id : CellId) : Obeys (Under Proper Fits) (dropOverride fuel id) := by
  refine obeys_of_ends fun m hm => ?_
  have stay : Follows Proper m m := .start hm
  refine ends_read stay fun c hc => ends_read stay fun s hs => ?_
  split
  next => exact ends_pure stay
  next =>
    refine ends_read stay fun heritage _ => ?_
    split
    next =>
      refine ends_modify (ends_deriveFrom fuel _ (stay.change (fits_modifyCell m id _) ?_))
      exact fun _ hf => hf.reflag (fun _ => rfl) fun _ => ⟨rfl, rfl⟩
    next => exact ends_get (ends_fail stay)

end Cells

/-! ## References -/

section References

variable (fuel : Nat)

/-- A change of a reference that does not move it. -/
theorem follows_rebinding {m : Model} (hm : Proper m) (id : RefId) {f : Reference → Reference}
    (home : ∀ r, (f r).home = r.home) :
    Follows Proper m ((m.modifyRef id f).invalidate (.ref id)).2 := by
  have halike := (forgetsAll_invalidate (m.modifyRef id f) (.ref id)).forgetsSome.alike
  refine Follows.change (.start hm) (Frame.trans (fits_modifyRef m id f) halike.fits) ?_
  exact fun _ hf => (hf.modifyRef home).alike halike

theorem proper_bindName (id : SpaceId) (name : String) (value : Value) (mode : RefMode) :
    Obeys (Under Proper Fits) (bindName fuel id name value mode) := by
  refine obeys_of_ends fun m hm => ?_
  have stay : Follows Proper m m := .start hm
  refine ends_admitName stay (ends_get (ends_read stay fun s hs => ends_get ?_))
  obtain ⟨hs, hstatic⟩ := editable_eq_ok hs
  split
  next existing hexisting =>
    refine ends_read stay fun r hr => ?_
    split
    next => exact ends_fail stay
    next =>
      refine ends_modify (ends_then (ends_deriveFrom fuel _ ?_) fun _ _ h => ends_pure h)
      exact follows_rebinding hm existing fun _ => by rfl
  next =>
    split
    next => exact ends_fail stay
    next hfree =>
      exact ends_update (ends_then (ends_settleAddition fuel name [id]
        (follows_addRef hm hs hstatic rfl hfree)) fun _ _ h => ends_pure h)

theorem proper_rebind (id : RefId) (value : Value) :
    Obeys (Under Proper Fits) (rebind fuel id value) := by
  refine obeys_of_ends fun m hm => ?_
  have stay : Follows Proper m m := .start hm
  refine ends_read stay fun r hr => ?_
  split
  next => exact ends_modify (ends_pure (follows_rebinding hm id fun _ => by rfl))
  next space _ =>
    refine ends_read stay fun s hs => ends_modify (ends_deriveFrom fuel _ ?_)
    exact follows_rebinding hm id fun _ => by rfl

theorem not_homeIn_global {m : Model} {r : RefId} {q : Reference} (hq : m.refs.get? r = some q)
    (howner : q.owner = none) (p : SpaceId) : ¬ m.HomeIn (.ref r) p := by
  rintro ⟨a, ha, hp⟩
  rw [home?_ref hq, Reference.home, howner] at ha
  cases ha
  contradiction

theorem proper_unbind (id : RefId) : Obeys (Under Proper Fits) (unbind fuel id) := by
  refine obeys_of_ends fun m hm => ?_
  have stay : Follows Proper m m := .start hm
  refine ends_read stay fun r hr => ?_
  split
  next howner =>
    refine ends_modify (ends_pure (stay.change ?_ fun _ hf => ?_))
    · exact Frame.trans (fits_listings m m.roots _) (fits_destroyReference _ id)
    · have hr := reference_eq_ok.1 hr
      exact hf.sever (severs_global hf.owned (hf.owned.global_listed hr howner))
        (not_homeIn_global hr howner)
  next space howner =>
    refine ends_read stay fun s hs => ?_
    obtain ⟨hs, hstatic⟩ := editable_eq_ok hs
    split
    next => exact ends_get (ends_fail stay)
    next =>
      exact ends_modify (ends_settleChange fuel
        (follows_dropRef hm (reference_eq_ok.1 hr) howner hs hstatic))

theorem proper_bindGlobal (name : String) (value : Value) :
    Obeys (Under Proper Fits) (bindGlobal name value) := by
  refine obeys_of_ends fun m hm => ?_
  have stay : Follows Proper m m := .start hm
  refine ends_admitName stay (ends_get ?_)
  split
  next => exact ends_fail stay
  next hfree =>
    have hfree := get?_of_not_contains hfree
    refine ends_change (stay.change (fits_addRef m _) fun small hf => ?_)
    refine hf.aside ?_ (thins_addGlobal hf.owned.tidy small rfl) (spaces_addGlobal rfl)
      fun s n => ?_
    · exact hf.owned.of_sameSpaces (spaces_addGlobal rfl) ((widens_addRef m _).tidy hf.owned.tidy)
        (linked_addGlobal hf.owned.tidy small rfl hfree hf.owned.linked)
    · unfold setting
      rw [cells_addRef]

end References

/-! ## Spaces -/

section Spaces

variable (fuel : Nat)

theorem proper_createSpace (parent : Option SpaceId) (name : String) :
    Obeys (Under Proper Fits) (createSpace fuel parent name) := by
  refine obeys_of_ends fun m hm => ?_
  have stay : Follows Proper m m := .start hm
  refine ends_admitName stay ?_
  cases parent with
  | none =>
    refine ends_get ?_
    split
    next => exact ends_fail stay
    next hfree =>
      refine ends_change ⟨fun small => ?_, ?_⟩
      · have hsmall : (m.addSpace (Space.fresh name none false)).2.Addressable :=
          ⟨small.spaces, small.cells, small.refs⟩
        exact (hm (addressable_of_insertSpace hsmall)).addRoot hsmall (get?_of_not_contains hfree) rfl rfl
          (lists_of_empty rfl rfl rfl rfl) small
      · exact Frame.trans (fits_addSpace m _) (fits_listings _ _ m.globals)
  | some parent =>
    refine ends_read stay fun s hs => ends_get ?_
    obtain ⟨hs, hstatic⟩ := editable_eq_ok hs
    split
    next existing _ =>
      refine ends_read stay fun t _ => ?_
      split
      next =>
        refine ends_modify (ends_pure (stay.change (fits_modifySpace m existing _) ?_))
        exact fun _ hf => hf.rebase (Space.retouches_setDerived · false)
          (Space.signature_setDerived · false) (Space.setDerived_of_replica · false)
      next => exact ends_fail stay
    next =>
      split
      next => exact ends_fail stay
      next hfree =>
        exact ends_update (ends_then (ends_settleAddition fuel name _
          (follows_addChild hm hs hstatic hfree)) fun _ _ h => ends_pure h)

theorem not_homeIn_root {m : Model} {id : SpaceId} {s : Space} (hs : m.spaces.get? id = some s)
    (hstatic : s.isStatic = true) (hparent : s.parent = none) (p : SpaceId) :
    ¬ m.HomeIn (.space id) p := by
  rintro ⟨a, ha, hp⟩
  rw [home?_space hs, Space.home_of_static hstatic, hparent] at ha
  cases ha
  contradiction

/-- A child goes after the instances around its parent. -/
theorem Faithful.dropChild {m : Model} {id p : SpaceId} {s : Space} {sites : SpaceId → Prop}
    (h : m.Faithful sites) (hs : m.spaces.get? id = some s) (hstatic : s.isStatic = true)
    (hparent : s.parent = some p) :
    (((m.dropStaleInstances p).modifySpace p fun q =>
      { q with spaces := q.spaces.erase s.name }).destroySpace id).Faithful fun _ => False := by
  obtain ⟨q, hq, hqstatic, hchild⟩ := h.owned.static_holder hs hstatic hparent
  have hdropped := (h.begin hq hqstatic).dropped h.arranged
  obtain ⟨-, hdrops⟩ := under_dropStaleInstances m p h.owned
  obtain ⟨q', hq', hqeq⟩ := hdrops.static' hq hqstatic
  obtain ⟨s', hs', heq⟩ := hdrops.static' hs hstatic
  have hlisted : q'.spaces.get? s.name = some id := by
    rw [hqeq]
    exact hchild
  have hqstatic' : q'.isStatic = true := by rw [hqeq]; exact hqstatic
  have hbegin := hdropped.begin hq' hqstatic'
  have hstep := (hbegin.dropChild hq' hlisted .memberRemoved (.inl rfl)).1
  have ha := (severs_child hdropped.owned hq' hqstatic' hlisted).thins.arranged hdropped.owned
    hdropped.arranged
  exact (hstep.vacated ha (.inr rfl)).mono fun _ hf => hf.elim

/-- A child is deleted with everything inside it. -/
theorem follows_dropChild {m : Model} {id p : SpaceId} {s : Space} (hm : Proper m)
    (hs : m.spaces.get? id = some s) (hstatic : s.isStatic = true) (hparent : s.parent = some p) :
    Follows Proper m (((((m.dropStaleInstances p).modifySpace p fun q =>
      { q with spaces := q.spaces.erase s.name }).destroySpace id).unlinkDeadBases.2).invalidateSpace
        p).2 := by
  refine Follows.change (.start hm) ?_ fun _ hf => Faithful.alike (Faithful.unlinkDeadBases
    (hf.dropChild hs hstatic hparent)) (forgetsSome_invalidateSpace _ p).alike
  have herase := fits_modifySpace (m.dropStaleInstances p) p
    fun q => { q with spaces := q.spaces.erase s.name }
  refine Frame.trans (fits_dropStaleInstances m p) (Frame.trans herase ?_)
  exact Frame.trans (fits_destroySpace _ id) (Frame.trans (fits_unlinkDeadBases _)
    (forgetsSome_invalidateSpace _ p).alike.fits)

/-- A root is deleted with everything inside it. -/
theorem follows_dropRoot {m : Model} {id : SpaceId} {s : Space} (hm : Proper m)
    (hs : m.spaces.get? id = some s) (hstatic : s.isStatic = true) (hparent : s.parent = none) :
    Follows Proper m
      ({ m with roots := m.roots.erase s.name }.destroySpace id).unlinkDeadBases.2 := by
  refine Follows.change (.start hm) ?_ fun _ hf => Faithful.unlinkDeadBases ?_
  · exact Frame.trans (Frame.trans (fits_listings m _ m.globals) (fits_destroySpace _ id))
      (fits_unlinkDeadBases _)
  · exact hf.sever (severs_root hf.owned (hf.owned.root_listed hs hstatic hparent))
      (not_homeIn_root hs hstatic hparent)

theorem proper_removeSpace (id : SpaceId) : Obeys (Under Proper Fits) (removeSpace fuel id) := by
  refine obeys_of_ends fun m hm => ?_
  have stay : Follows Proper m m := .start hm
  refine ends_read stay fun s hs => ?_
  obtain ⟨hs, hstatic⟩ := editable_eq_ok hs
  split
  next => exact ends_get (ends_fail stay)
  next =>
    cases hparent : s.parent with
    | some p =>
      have hdropped : Follows Proper m (m.dropStaleInstances p) := by
        refine stay.change (fits_dropStaleInstances m p) fun _ hf => ?_
        obtain ⟨howned, hdrops⟩ := under_dropStaleInstances m p hf.owned
        exact hf.drops howned hdrops
      refine ends_modify (ends_read hdropped fun q hq => ?_)
      exact ends_modify (ends_modify (ends_update (ends_modify (ends_deriveFrom fuel _
        (follows_dropChild hm hs hstatic hparent)))))
    | none =>
      exact ends_modify (ends_modify (ends_update (ends_deriveFrom fuel _
        (follows_dropRoot hm hs hstatic hparent))))

theorem proper_document (id : SpaceId) (doc : Option String) :
    Obeys (Under Proper Fits) (document id doc) := by
  refine obeys_of_ends fun m hm => ?_
  have stay : Follows Proper m m := .start hm
  refine ends_read stay fun s hs => ?_
  obtain ⟨hs, hstatic⟩ := editable_eq_ok hs
  refine ends_modify (ends_pure (stay.change (fits_modifySpace m id _) fun _ hf => ?_))
  exact hf.retouch hs hstatic (fun s => ⟨⟨rfl, rfl, rfl, fun _ => rfl, fun _ => rfl⟩,
    rfl, rfl, rfl, rfl⟩) rfl

end Spaces

/-! ## Bases and parameters -/

section Inheritance

variable (fuel : Nat)

theorem Follows.setBases {m₀ m : Model} (h : Follows Proper m₀ m) (id : SpaceId)
    (f : List SpaceId → List SpaceId) :
    Follows Proper m₀ (m.modifySpace id (Space.setBases f)) :=
  h.change (fits_modifySpace m id _) fun _ hf => hf.rebase (Space.retouches_setBases f)
    (Space.signature_setBases f) (Space.setBases_of_replica f)

theorem proper_linkBase (id base : SpaceId) :
    Obeys (Under Proper Fits) (linkBase fuel id base) := by
  refine obeys_of_ends fun m hm => ?_
  have stay : Follows Proper m m := .start hm
  refine ends_read stay fun s _ => ends_read stay fun b _ => ends_get ?_
  split
  next => exact ends_fail stay
  next =>
    split
    next => exact ends_pure stay
    next =>
      split
      next => exact ends_fail stay
      next =>
        refine ends_modify (ends_attempt (ends_deriveFrom fuel [id] (stay.setBases id _))
          fun r m' hm' => ?_)
        cases r with
        | ok summary => exact ends_pure hm'
        | error e =>
          exact ends_modify (ends_then (ends_deriveFrom fuel [id] (hm'.setBases id _))
            fun _ _ h => ends_fail h)

theorem proper_unlinkBase (id base : SpaceId) :
    Obeys (Under Proper Fits) (unlinkBase fuel id base) := by
  refine obeys_of_ends fun m hm => ?_
  have stay : Follows Proper m m := .start hm
  refine ends_read stay fun s _ => ends_get ?_
  split
  next => exact ends_fail stay
  next => exact ends_modify (ends_deriveFrom fuel [id] (stay.setBases id _))

/-- A static space changes in place, and the instances around it are dropped. -/
theorem follows_retouch {m : Model} {id : SpaceId} {s : Space} (hm : Proper m)
    (hs : m.editable id = .ok s) {f : Space → Space} (hf : ∀ s, Space.Retouches s (f s)) :
    Follows Proper m ((m.modifySpace id f).dropStaleInstances id) := by
  obtain ⟨hs, hstatic⟩ := editable_eq_ok hs
  exact (follows_resign hm hs hstatic hf).dropped.stop Upright.proper

theorem proper_declareParams (id : SpaceId) (params : List Param) (binder : Option Formula) :
    Obeys (Under Proper Fits) (declareParams fuel id params binder) := by
  refine obeys_of_ends fun m hm => ?_
  have stay : Follows Proper m m := .start hm
  refine ends_read stay fun s hs => ends_modify ?_
  refine ends_then (ends_deriveFrom fuel [id] (follows_retouch hm hs fun s => ?_))
    fun _ _ h => ends_pure h
  exact ⟨⟨rfl, rfl, rfl, fun _ => rfl, fun _ => rfl⟩, rfl, rfl, rfl, rfl⟩

end Inheritance

/-! ## Inputs, forgetting and instances -/

section Forgetting

theorem proper_alike {m m' : Model} (h : Alike m m') : Under Proper Fits m m' :=
  fun hm => ⟨fun small => (hm (h.fits.addressable small)).alike h, h.fits⟩

theorem proper_drops {m m' : Model} (h : Under Owned Drops m m') (fits : Fits m m') :
    Under Proper Fits m m' := by
  refine fun hm => ⟨fun small => ?_, fits⟩
  have hf := hm (fits.addressable small)
  obtain ⟨howned, hdrops⟩ := h hf.owned
  exact hf.drops howned hdrops

theorem proper_removeInstance (m : Model) (owner : SpaceId) (key : Key) :
    Under Proper Fits m (m.removeInstance owner key).2 :=
  proper_drops (under_removeInstance m owner key) (fits_removeInstance m owner key)

theorem proper_removeEveryInstance (m : Model) (id : SpaceId) :
    Under Proper Fits m (m.removeEveryInstance id).2 :=
  proper_drops (under_removeEveryInstance m id) (fits_removeEveryInstance m id)

theorem alike_invalidate (m : Model) (n : Node) : Alike m (m.invalidate n).2 :=
  (forgetsAll_invalidate m n).forgetsSome.alike

theorem proper_putInput (id : CellId) (args : List Value) (v : Value) :
    Obeys (Under Proper Fits) (putInput id args v) := by
  refine obeys_bind (obeys_read _) fun key => obeys_modify fun m => ?_
  exact proper_alike (Frame.trans (alike_invalidate m _) (alike_modifyCell _ id _ fun _ => rfl))

theorem proper_takeInput (id : CellId) (args : List Value) :
    Obeys (Under Proper Fits) (takeInput id args) := by
  refine obeys_bind (obeys_read _) fun key => obeys_bind (obeys_read _) fun c => ?_
  split
  · refine obeys_bind (obeys_modify fun m => ?_) fun _ => obeys_pure _
    have hdrop := alike_modifyCell m id (fun c =>
      { c with contents := c.contents.dropInput key }) fun _ => rfl
    exact proper_alike (Frame.trans hdrop (alike_invalidate _ _))
  · exact obeys_pure _

theorem proper_forgetCells (id : CellId) : Obeys (Under Proper Fits) (forgetCells id) :=
  obeys_bind (obeys_read _) fun _ => obeys_update fun m =>
    proper_alike (forgetsAll_invalidateCells m id).forgetsSome.alike

theorem proper_forgetAt (id : CellId) (args : List Value) :
    Obeys (Under Proper Fits) (forgetAt id args) :=
  obeys_bind (obeys_read _) fun _ => obeys_update fun m => proper_alike (alike_invalidate m _)

theorem fits_forgetSpaces (fuel : Nat) (queue : List SpaceId) (count : Nat) (m : Model) :
    Fits m (forgetSpaces fuel queue count m).2 := by
  induction fuel generalizing queue count m with
  | zero => exact Frame.refl m
  | succ fuel ih =>
    cases queue with
    | nil => exact Frame.refl m
    | cons id rest =>
      have hforget := (forgetsSome_invalidateSpace m id).alike.fits
      exact Frame.trans hforget (Frame.trans (fits_removeEveryInstance _ id) (ih _ _ _))

theorem under_forgetSpaces (fuel : Nat) (queue : List SpaceId) (count : Nat) (m : Model) :
    Under Owned Drops m (forgetSpaces fuel queue count m).2 := by
  induction fuel generalizing queue count m with
  | zero => exact Frame.refl m
  | succ fuel ih =>
    cases queue with
    | nil => exact Frame.refl m
    | cons id rest =>
      have halike := (forgetsSome_invalidateSpace m id).alike
      have hforget : Under Owned Drops m (m.invalidateSpace id).2 :=
        fun hm => ⟨halike.owned hm, halike.drops⟩
      exact Frame.trans hforget (Frame.trans (under_removeEveryInstance _ id) (ih _ _ _))

theorem proper_forgetSpaces (fuel : Nat) (queue : List SpaceId) (count : Nat) (m : Model) :
    Under Proper Fits m (forgetSpaces fuel queue count m).2 :=
  proper_drops (under_forgetSpaces fuel queue count m) (fits_forgetSpaces fuel queue count m)

theorem proper_forgetWithin (id : SpaceId) : Obeys (Under Proper Fits) (forgetWithin id) :=
  obeys_bind (obeys_read _) fun _ => obeys_update fun m => proper_forgetSpaces _ _ _ m

theorem proper_forgetEach (l : List SpaceId) : Obeys (Under Proper Fits) (forgetEach l) := by
  induction l with
  | nil => exact obeys_pure _
  | cons id rest ih => exact obeys_bind (proper_forgetWithin id) fun _ => ih

theorem proper_forgetAll : Obeys (Under Proper Fits) forgetAll := by
  refine obeys_bind obeys_get fun m => obeys_bind (proper_forgetEach _) fun _ => ?_
  exact obeys_modify fun m => proper_alike
    ⟨rfl, rfl, rfl, rfl, fun _ => rfl, rfl, fun h => h⟩

theorem proper_letSpaceBeEmpty (id : SpaceId) (allow : Option Bool) :
    Obeys (Under Proper Fits) (letSpaceBeEmpty id allow) := by
  refine obeys_of_ends fun m hm => ?_
  have stay : Follows Proper m m := .start hm
  refine ends_read stay fun s hs => ends_modify ?_
  refine ends_then (ends_of_obeys (proper_forgetWithin id) (follows_retouch hm hs fun s => ?_))
    fun _ _ h => ends_pure h
  exact ⟨⟨rfl, rfl, rfl, fun _ => rfl, fun _ => rfl⟩, rfl, rfl, rfl, rfl⟩

theorem proper_discardInstances (id : SpaceId) : Obeys (Under Proper Fits) (discardInstances id) :=
  obeys_bind (obeys_read _) fun _ => obeys_update fun m => proper_removeEveryInstance m id

theorem proper_reclaim (held : List Handle) (m : Model) :
    Under Proper Fits m (m.reclaim held).2 :=
  reclaim_obeys proper_removeInstance held m

theorem proper_reclaimFirst (held : List Handle) :
    Obeys (Under Proper Fits) (reclaimFirst held) := by
  refine obeys_modify fun m => ?_
  split
  · exact proper_reclaim held m
  · exact Frame.refl m

end Forgetting

end Recalc.Model
