import Recalc.Proofs.InStepWaves
import Recalc.Proofs.Overrides
import Recalc.Proofs.RefusedRequests

set_option autoImplicit false

/-!
# Edits leave spaces in step

An edit that is carried out leaves every static space in step with its bases: what it edits, and
what inherits from that, is where its wave begins.
-/

namespace Recalc.Model

open Recalc.Action

abbrev Aligned (m : Model) : Prop := InStepBut (fun _ => False) m

/-- The space is one of those that a wave starts from, or an heir of one. -/
def Downstream (starts : List SpaceId) (m : Model) (x : SpaceId) : Prop :=
  x ∈ starts ∨ ∃ y ∈ starts, ∃ o, m.outline? x = some o ∧ y ∈ o.links

/-- Every static space is in step but those that a wave will derive. -/
def AlignedBut (starts : List SpaceId) (m : Model) : Prop := InStepBut (m.Downstream starts) m

section Aligning

variable {m m' m₁ : Model} {id : SpaceId} {starts : List SpaceId} {sites : SpaceId → Prop}
  {fresh : SpaceId → Outline → Prop}

theorem Aligned.but (h : m.Aligned) : m.AlignedBut starts := h.mono fun _ _ hf => hf.elim

theorem AlignedBut.sameShape (h : m.AlignedBut starts) (hm : m.Owned) (hm' : m'.Owned)
    (hsame : SameShape m m') : m'.AlignedBut starts := by
  refine (InStepBut.sameShape h hm hm' hsame).mono fun x _ hx => hx.imp_right ?_
  rintro ⟨y, hy, o, ho, hlinks⟩
  exact ⟨y, hy, o, (hsame.outline x).trans ho, hlinks⟩

/-- The members of a space change from which the wave starts. -/
theorem Aligned.amend (h : m.Aligned) (hm : m.Owned) (hm' : m'.Owned)
    (hamends : Amends id fresh m m') (live : m'.LiveBases) (sound : m'.SoundRefs)
    (hid : id ∈ starts) (hfresh : ∀ x o, fresh x o → x ∈ starts) : m'.AlignedBut starts := by
  refine (h.reshape hm hm' hamends.reshapes live sound).mono fun x _ hx => ?_
  rcases hx with hf | rfl | ⟨o, hnew⟩ | ⟨o, ho, b, hb, rfl⟩
  · exact hf.elim
  · exact .inl hid
  · exact .inl (hfresh x o hnew)
  · exact .inr ⟨b, hid, o, ho, hb⟩

/-- A wave derives what is out of step. -/
theorem returns_alignFrom (fuel : Nat) (h : Steady sites (AlignedBut starts) m) :
    Returns (fun _ m' => m'.Addressable → m'.Aligned) (deriveFrom fuel starts) m := by
  intro done m' hrun room
  obtain ⟨-, hfits⟩ := upright_deriveFrom fuel starts m _ m' hrun fun small => (h small).1
  obtain ⟨hm, haligned⟩ := h (hfits.addressable room)
  refine InStepBut.deriveFrom fuel hm haligned (fun x hx => hx.imp_right ?_) hrun room
  rintro ⟨y, hy, o, ho, hlinks⟩
  obtain ⟨p, hp⟩ := haligned.live x o ho y hlinks
  exact ⟨y, hy, static_iff_outline?.2 ⟨p, hp⟩, mem_heirs ho hlinks⟩

theorem Follows.steady {R : Model → Prop} (hfollows : Follows (Upright sites) m m₁) (hm : Proper m)
    (hr : m₁.Addressable → m.Addressable → m.Owned → m₁.Owned → R m₁) : Steady sites R m₁ := by
  intro small
  have hbefore := hfollows.fits.addressable small
  exact ⟨hfollows.holds small, hr small hbefore (hm hbefore).owned (hfollows.holds small).owned⟩

/-- Heirs see nothing of the change. -/
theorem Follows.sameShape (hfollows : Follows (Upright sites) m m₁) (hm : Proper m)
    (h : m.Addressable → m.AlignedBut starts) (hsame : m.Owned → SameShape m m₁) :
    Steady sites (AlignedBut starts) m₁ :=
  hfollows.steady hm fun _ hbefore hm hm₁ => (h hbefore).sameShape hm hm₁ (hsame hm)

theorem sameShape_dropStaleInstances (hm : m.Owned) (id : SpaceId) :
    SameShape m (m.dropStaleInstances id) :=
  (under_dropStaleInstances m id hm).2.sameShape

/-- After an edit what the edit made stale is forgotten, and the wave starts. -/
theorem Edited.forget (hedited : Edited id m) (h : m.Addressable → m.AlignedBut starts)
    (halike : Alike m m₁) : Steady (· = id) (AlignedBut starts) (m₁.dropStaleInstances id) := by
  have hfollows : Follows (Edited id) m m₁ := Follows.alike (.start hedited) halike
  have hdropped := hfollows.dropped
  intro small
  have hbefore := hdropped.fits.addressable small
  obtain ⟨⟨around, changes, hd⟩, -⟩ := hedited hbefore
  have hm₁ := halike.owned hd.owned
  have hfaithful := hdropped.holds small
  exact ⟨hfaithful, (h hbefore).sameShape hd.owned hfaithful.owned
    (Frame.trans halike.sameShape (sameShape_dropStaleInstances hm₁ id))⟩

theorem Follows.editedSameShape (hfollows : Follows (Edited id) m m₁) (hm : Proper m)
    (h : m.Addressable → m.Aligned) (hsame : SameShape m m₁) :
    m₁.Addressable → m₁.AlignedBut starts := by
  intro small
  have hbefore := hfollows.fits.addressable small
  obtain ⟨⟨around, changes, hd⟩, -⟩ := hfollows.holds small
  exact (h hbefore).but.sameShape (hm hbefore).owned hd.owned hsame

/-- Members of the edited space come, change or go, and no static space goes. -/
theorem Follows.editedAmends (hfollows : Follows (Edited id) m m₁) (hm : Proper m)
    (h : m.Addressable → m.Aligned) (hid : id ∈ starts)
    (hamends : m₁.Addressable → m.Owned → Amends id fresh m m₁ ∧ Stays m m₁)
    (hsound : m₁.Addressable → m.Owned → m.SoundRefs → m₁.SoundRefs)
    (hfresh : ∀ x o, fresh x o → x ∈ starts ∧ o.links = []) :
    m₁.Addressable → m₁.AlignedBut starts := by
  intro small
  have hbefore := hfollows.fits.addressable small
  obtain ⟨⟨around, changes, hd⟩, -⟩ := hfollows.holds small
  have howned := (hm hbefore).owned
  obtain ⟨hchange, hstays⟩ := hamends small howned
  have hlive : m₁.LiveBases := hchange.live hstays (h hbefore).live fun x o hnew b hb => by
    rw [(hfresh x o hnew).2] at hb
    cases hb
  exact (h hbefore).amend howned hd.owned hchange hlive (hsound small howned (h hbefore).sound) hid
    fun x o hnew => (hfresh x o hnew).1

theorem returns_settleChange (fuel : Nat) (hedited : Edited id m)
    (h : m.Addressable → m.AlignedBut [id]) :
    Returns (fun _ m' => m'.Addressable → m'.Aligned) (settleChange fuel id) m :=
  returns_modify
    (returns_alignFrom fuel (hedited.forget h (forgetsSome_invalidateSpace m id).alike))

theorem returns_settleAddition (fuel : Nat) (name : String) (hedited : Edited id m)
    (h : m.Addressable → m.AlignedBut starts) :
    Returns (fun _ m' => m'.Addressable → m'.Aligned) (settleAddition fuel id name starts) m := by
  have halike := Frame.trans (forgetsSome_invalidateSpace m id).alike
    (forgetsSome_hideGlobal (m.invalidateSpace id).2 name).alike
  exact returns_modify (returns_attempt (returns_alignFrom fuel (hedited.forget h halike))
    (fun _ _ h => returns_pure h) fun _ _ => returns_thenFail)

end Aligning

/-! ## Sound references -/

section Sound

variable {m : Model} {r : Reference}

/-- A reference that the host binds in a space. -/
theorem sound_bound (m : Model) {id : SpaceId} {owner : Option SpaceId} {name : String}
    (value : Value) (mode : RefMode) (hname : SystemName.ofString? name = none)
    (howner : owner = some id) : Reference.Sound
      ⟨name, owner, value, mode, m.bindsRelatively id value mode, some id, false⟩ := by
  refine ⟨hname, fun _ => howner.symm, fun hrelative => ?_, fun hmode => ?_,
    fun hmode h hvalue => ?_⟩
  · unfold bindsRelatively at hrelative
    split at hrelative
    next h => exact ⟨h, rfl⟩
    next h => exact ⟨h, rfl⟩
    next => cases hrelative
  · cases hmode
    rfl
  · cases hmode
    cases hvalue
    rfl

theorem sound_addRef (hm : m.Owned) (small : (m.addRef r).2.Addressable) (hsound : m.SoundRefs)
    (hr : r.Sound) : (m.addRef r).2.SoundRefs := by
  intro b q x hq howner
  rw [(refs_addRef hm.tidy small).2] at hq
  split at hq
  next =>
    cases hq
    exact hr
  next => exact hsound b q x hq howner

theorem sound_modifyRef {id : RefId} {f : Reference → Reference} (hsound : m.SoundRefs)
    (hf : ∀ q, m.refs.get? id = some q → (f q).Sound) : (m.modifyRef id f).SoundRefs := by
  intro b q x hq howner
  have hget := Pool.get?_modify m.refs id b f
  rw [modifyRef, hget] at hq
  split at hq
  next heq =>
    subst heq
    obtain ⟨q₀, hq₀, rfl⟩ := Option.map_eq_some_iff.1 hq
    exact hf q₀ hq₀
  next => exact hsound b q x hq howner

end Sound

/-! ## Cells -/

section Cells

variable {m : Model}

theorem sameShape_redefine (id : CellId) (f : Cells → Cells) :
    SameShape m ((m.modifyCell id f).invalidateCells id).2 :=
  Frame.trans (sameShape_modifyCell id f)
    (forgetsAll_invalidateCells (m.modifyCell id f) id).forgetsSome.alike.sameShape

variable (fuel : Nat) (hm : Proper m) (h : m.Addressable → m.Aligned)
include hm h

theorem returns_defineCells (id : SpaceId) (name : String) (formula : Option Formula) :
    Returns (fun _ m' => m'.Addressable → m'.Aligned) (defineCells fuel id name formula) m := by
  refine returns_admitName fun _ => returns_read fun s hs => returns_get ?_
  obtain ⟨hs, hstatic⟩ := editable_eq_ok hs
  split
  next existing hexisting =>
    refine returns_read fun c _ => ?_
    split
    next => exact returns_fail
    next =>
      have hfollows : Follows (Edited id) m ((m.modifyCell existing fun c =>
          { c with formula, derived := false }).invalidateCells existing).2 :=
        follows_takeover hm hs hstatic hexisting
      exact returns_modify (returns_bind (returns_settleChange fuel hfollows.holds
        (hfollows.editedSameShape hm h (sameShape_redefine existing _)))
        fun _ _ h => returns_pure h)
  next =>
    split
    next => exact returns_fail
    next hfree =>
      have hfollows := follows_addCells (c := { name, space := id, formula, derived := false }) hm
        hs hstatic rfl hfree
      exact returns_update (returns_bind (returns_settleAddition fuel name hfollows.holds
        (hfollows.editedSameShape hm h sameShape_addCells)) fun _ _ h => returns_pure h)

/-- A change of cells, with the instances around them dropped. -/
theorem steady_redefinition {id : CellId} {c : Cells} {s : Space} {f : Cells → Cells}
    (hf : ∀ c, (f c).home = c.home) (hc : m.cell id = .ok c) (hs : m.editable c.space = .ok s) :
    Steady (fun _ => False) (AlignedBut [c.space])
      (((m.modifyCell id f).invalidateCells id).2.dropStaleInstances c.space) := by
  refine (follows_redefinition hf hm hc hs).sameShape hm (fun small => (h small).but)
    fun howned => ?_
  have halike := (forgetsAll_invalidateCells (m.modifyCell id f) id).forgetsSome.alike
  exact Frame.trans (sameShape_redefine id f)
    (sameShape_dropStaleInstances (halike.owned (owned_modifyCell howned hf)) c.space)

theorem returns_redefine (id : CellId) (formula : Formula) :
    Returns (fun _ m' => m'.Addressable → m'.Aligned) (redefine fuel id formula) m := by
  refine returns_read fun c hc => returns_read fun s hs => returns_modify ?_
  exact returns_alignFrom fuel (steady_redefinition hm h (fun _ => rfl) hc hs)

theorem returns_letCellsBeEmpty (id : CellId) (allow : Option Bool) :
    Returns (fun _ m' => m'.Addressable → m'.Aligned) (letCellsBeEmpty fuel id allow) m := by
  refine returns_read fun c hc => returns_read fun s hs => returns_modify ?_
  exact returns_bind (returns_alignFrom fuel (steady_redefinition hm h (fun _ => rfl) hc hs))
    fun _ _ h => returns_pure h

theorem returns_removeCells (id : CellId) :
    Returns (fun _ m' => m'.Addressable → m'.Aligned) (removeCells fuel id) m := by
  refine returns_read fun c hc => returns_read fun s hs => ?_
  obtain ⟨hs, hstatic⟩ := editable_eq_ok hs
  split
  next => exact returns_get returns_fail
  next =>
    have hfollows := follows_dropCells hm (cell_eq_ok.1 hc) hs hstatic
    exact returns_modify (returns_settleChange fuel hfollows.holds
      (hfollows.editedSameShape hm h (sameShape_dropCells c.name id)))

theorem returns_dropOverride (id : CellId) :
    Returns (fun _ m' => m'.Addressable → m'.Aligned) (dropOverride fuel id) m := by
  refine returns_read fun c _ => returns_read fun s _ => ?_
  split
  next => exact returns_pure h
  next =>
    refine returns_read fun heritage _ => ?_
    split
    next =>
      have hfollows : Follows Proper m (m.modifyCell id fun c => { c with derived := true }) :=
        Follows.change (.start hm) (fits_modifyCell m id _) fun _ hf =>
          hf.reflag (fun _ => rfl) fun _ => ⟨rfl, rfl⟩
      exact returns_modify (returns_alignFrom fuel (hfollows.sameShape hm
        (fun small => (h small).but) fun _ => sameShape_modifyCell id _))
    next => exact returns_get returns_fail

end Cells

/-! ## References -/

section References

variable {m : Model} {id : RefId} {space : SpaceId}

/-- A reference of a space is bound to another value. -/
theorem steady_rebinding (hm : Proper m) (h : m.Addressable → m.Aligned) {f : Reference → Reference}
    (home : ∀ q, (f q).home = q.home)
    (hf : ∀ q, m.Owned → m.SoundRefs → m.refs.get? id = some q →
      (f q).owner = some space ∧ (f q).Sound) :
    Steady (fun _ => False) (AlignedBut [space]) ((m.modifyRef id f).invalidate (.ref id)).2 := by
  have halike := (forgetsAll_invalidate (m.modifyRef id f) (.ref id)).forgetsSome.alike
  refine (follows_rebinding hm id home).steady hm fun _ hbefore howned howned' => ?_
  have hamends : Amends space (fun _ _ => False) m (m.modifyRef id f) :=
    amends_modifyRef fun q hq => (hf q howned (h hbefore).sound hq).1
  have hlive : (m.modifyRef id f).LiveBases :=
    hamends.live (stays_modifyRef id f) (h hbefore).live fun _ _ hnew => hnew.elim
  have hsound : (m.modifyRef id f).SoundRefs :=
    sound_modifyRef (h hbefore).sound fun q hq => (hf q howned (h hbefore).sound hq).2
  exact (h hbefore).amend howned howned' (hamends.alike halike) (halike.sameShape.live hlive)
    (halike.dropsRefs.sound hsound) List.mem_cons_self fun _ _ hnew => hnew.elim

variable (fuel : Nat) (hm : Proper m) (h : m.Addressable → m.Aligned)
include hm h

theorem returns_bindName (id : SpaceId) (name : String) (value : Value) (mode : RefMode) :
    Returns (fun _ m' => m'.Addressable → m'.Aligned) (bindName fuel id name value mode) m := by
  refine returns_admitName fun hname => returns_get (returns_read fun s hs => returns_get ?_)
  obtain ⟨hs, hstatic⟩ := editable_eq_ok hs
  split
  next existing hexisting =>
    refine returns_read fun r _ => ?_
    split
    next => exact returns_fail
    next =>
      refine returns_modify (returns_bind (returns_alignFrom fuel (steady_rebinding hm h
        (fun _ => rfl) fun q howned hsound hq => ?_)) fun _ _ h => returns_pure h)
      obtain ⟨q', hq', howner, heq⟩ := howned.ref_of_listed hs hexisting
      cases hq.symm.trans hq'
      exact ⟨howner, sound_bound m value mode (heq ▸ hname) howner⟩
  next =>
    split
    next => exact returns_fail
    next hfree =>
      have hfollows := follows_addRef (r := ⟨name, some id, value, mode,
        m.bindsRelatively id value mode, some id, false⟩) hm hs hstatic rfl hfree
      refine returns_update (returns_bind (returns_settleAddition fuel name hfollows.holds
        (hfollows.editedAmends hm h List.mem_cons_self
          (fun small howned => amends_addRef howned small rfl)
          (fun small howned hsound => sound_addRef howned small hsound
            (sound_bound m value mode hname rfl))
          fun _ _ hnew => hnew.elim)) fun _ _ h => returns_pure h)

/-- A reference of the model is none of any space. -/
theorem aligned_global {q : Reference} (hq : m.refs.get? id = some q) (howner : q.owner = none)
    {f : Reference → Reference} (home : ∀ q, (f q).home = q.home)
    (hf : ∀ q, (f q).owner = q.owner) :
    ((m.modifyRef id f).invalidate (.ref id)).2.Addressable →
      ((m.modifyRef id f).invalidate (.ref id)).2.Aligned := by
  have halike := (forgetsAll_invalidate (m.modifyRef id f) (.ref id)).forgetsSome.alike
  have hfollows := follows_rebinding hm id home
  have hsame : SameShape m (m.modifyRef id f) := by
    refine ⟨fun _ => rfl, fun b q' hq' hspace => ?_⟩
    have hget := Pool.get?_modify m.refs id b f
    rw [modifyRef, hget] at hq'
    split at hq'
    next heq =>
      subst heq
      rw [hq] at hq'
      cases hq'
      obtain ⟨x, hx⟩ := hspace
      rw [hf, howner] at hx
      cases hx
    next => exact hq'
  intro small
  have hbefore := hfollows.fits.addressable small
  exact (h hbefore).sameShape (hm hbefore).owned (hfollows.holds small).owned
    (Frame.trans hsame halike.sameShape)

theorem returns_rebind (id : RefId) (value : Value) :
    Returns (fun _ m' => m'.Addressable → m'.Aligned) (rebind fuel id value) m := by
  refine returns_read fun r hr => ?_
  replace hr := reference_eq_ok.1 hr
  split
  next howner =>
    exact returns_modify (returns_pure (aligned_global hm h hr howner (fun _ => rfl) fun _ => rfl))
  next space howner =>
    refine returns_read fun s _ => returns_modify (returns_alignFrom fuel (steady_rebinding hm h
      (fun _ => rfl) fun q _ hsound hq => ?_))
    cases hr.symm.trans hq
    exact ⟨howner, sound_bound m value r.mode (hsound id r space hr howner).name howner⟩

theorem returns_unbind (id : RefId) :
    Returns (fun _ m' => m'.Addressable → m'.Aligned) (unbind fuel id) m := by
  refine returns_read fun r hr => ?_
  replace hr := reference_eq_ok.1 hr
  split
  next howner =>
    refine returns_modify (returns_pure fun small => ?_)
    have hfits : Fits m ({ m with globals := m.globals.erase r.name }.destroyReference id) :=
      Frame.trans (fits_listings m m.roots _) (fits_destroyReference _ id)
    have hbefore := hfits.addressable small
    have howned := (hm hbefore).owned
    have hsevers := severs_global howned (howned.global_listed hr howner)
    have hsheds := sheds_destroyReference (W := fun _ => True)
      { m with globals := m.globals.erase r.name } id trivial
    exact (h hbefore).sameShape howned hsevers.owned
      ⟨fun x => by rw [outline?, spaces_destroyReference, ← outline?]; rfl,
        fun b q hq _ => hsheds.dropsRefs b q hq⟩
  next space howner =>
    refine returns_read fun s hs => ?_
    obtain ⟨hs, hstatic⟩ := editable_eq_ok hs
    split
    next => exact returns_get returns_fail
    next =>
      have hfollows := follows_dropRef hm hr howner hs hstatic
      exact returns_modify (returns_settleChange fuel hfollows.holds
        (hfollows.editedAmends hm h List.mem_cons_self
          (fun _ _ => ⟨amends_dropRef r.name id, stays_dropRef r.name id⟩)
          (fun _ _ hsound => (dropsRefs_dropRef r.name id).sound hsound) fun _ _ hnew => hnew.elim))

theorem returns_bindGlobal (name : String) (value : Value) :
    Returns (fun _ m' => m'.Addressable → m'.Aligned) (bindGlobal name value) m := by
  refine returns_admitName fun _ => returns_get ?_
  split
  next => exact returns_fail
  next hfree =>
    refine returns_change fun small => ?_
    have hbefore := (fits_addRef m _).addressable small
    have howned := (hm hbefore).owned
    have howned' := howned.of_sameSpaces (spaces_addGlobal rfl)
      ((widens_addRef m _).tidy howned.tidy)
      (linked_addGlobal howned.tidy small rfl (get?_of_not_contains hfree) howned.linked)
    refine (h hbefore).sameShape howned howned' ⟨fun x => ?_, fun b q hq hspace => ?_⟩
    · rw [outline?, outline?, spaces_addGlobal rfl]
    · rw [(refs_addRef howned.tidy small).2] at hq
      split at hq
      next =>
        cases hq
        obtain ⟨x, hx⟩ := hspace
        cases hx
      next => exact hq

theorem returns_rebindGlobal (name : String) (value : Value) :
    Returns (fun _ m' => m'.Addressable → m'.Aligned) (rebindGlobal fuel name value) m :=
  returns_read fun id _ =>
    returns_bind (returns_rebind fuel hm h id value) fun _ _ h => returns_pure h

theorem returns_unbindGlobal (name : String) :
    Returns (fun _ m' => m'.Addressable → m'.Aligned) (unbindGlobal fuel name) m :=
  returns_read fun id _ => returns_bind (returns_unbind fuel hm h id) fun _ _ h => returns_pure h

end References

/-! ## Spaces -/

section Spaces

variable {m m₁ : Model} {p : SpaceId} {sites : SpaceId → Prop}

theorem outline_setDerived (flag : Bool) (s : Space) : (s.setDerived flag).outline = s.outline := by
  unfold Space.setDerived
  split
  next hk => simp [Space.outline, Space.bases, Space.implicitBases, hk]
  next => rfl

theorem sameShape_setDerived (id : SpaceId) (flag : Bool) :
    SameShape m (m.modifySpace id (Space.setDerived flag)) :=
  sameShape_modifySpace (fun s => (Space.retouches_setDerived s flag).isStatic)
    (outline_setDerived flag)

/-- A space without bases and members is in step. -/
theorem inStep_of_bare (hm : m.Owned) {s : Space} (hs : m.spaces.get? p = some s)
    (hlinks : s.outline.links = []) (hrefs : s.refs = .empty) : m.InStep p := by
  have hbases : ∀ b, b ∉ m.allBases p := by
    intro b hb
    obtain ⟨t, ht, hmem, -⟩ := mem_allBases.1 hb
    cases hs.symm.trans ht
    rw [show s.bases ++ s.implicitBases = [] from hlinks] at hmem
    cases hmem
  refine ⟨fun r q hq howner _ => ?_, fun b hb => absurd hb (hbases b)⟩
  have hlisted := hm.ref_listed hq howner hs
  rw [hrefs, NameMap.get?_empty] at hlisted
  cases hlisted

/-- A space comes in which there is nothing; no other inherits from it yet. -/
theorem Aligned.addBare (h : m.Aligned) (hm : m.Owned) (hm' : m₁.Owned) {s : Space}
    (hfresh : m.spaces.get? p = none)
    (hspaces : ∀ x, m₁.spaces.get? x = if p = x then some s else m.spaces.get? x)
    (hrefs : m₁.refs = m.refs) (hstatic : s.isStatic = true) (hlinks : s.outline.links = [])
    (hbare : s.refs = .empty) : m₁.Aligned := by
  have hself : m₁.spaces.get? p = some s := (hspaces p).trans (if_pos rfl)
  have houtline : ∀ x, m₁.outline? x = if p = x then some s.outline else m.outline? x := by
    intro x
    unfold outline?
    rw [hspaces]
    by_cases heq : p = x
    · rw [if_pos heq, if_pos heq]
      simp only [hstatic, if_true]
    · rw [if_neg heq, if_neg heq]
  have hnone : m.outline? p = none := by rw [outline?, hfresh]
  have hamends : Amends p (fun x o => x = p ∧ o.links = []) m m₁ := by
    refine ⟨fun _ _ hq _ => by rwa [hrefs] at hq, fun x o' ho' => ?_⟩
    rw [houtline] at ho'
    split at ho'
    next heq =>
      cases ho'
      exact .inl ⟨heq ▸ hnone, heq.symm, hlinks⟩
    next => exact .inr ⟨o', ho', rfl, fun _ => rfl⟩
  have hstays : Stays m m₁ := by
    refine stays_of_outline fun x o ho => ?_
    rw [houtline, ho]
    split <;> exact ⟨_, rfl⟩
  have hlive := hamends.live hstays h.live fun x o hnew b hb => by
    rw [hnew.2] at hb
    cases hb
  have hsound : m₁.SoundRefs := by
    intro r q x hq howner
    rw [hrefs] at hq
    exact h.sound r q x hq howner
  have hafter := h.reshape hm hm' hamends.reshapes hlive hsound
  refine ⟨hlive, hsound, fun x hx _ => ?_⟩
  by_cases heq : x = p
  · subst heq
    exact inStep_of_bare hm' hself hlinks hbare
  · refine hafter.step x hx ?_
    rintro (hf | hp | ⟨o, hnew, -⟩ | ⟨o, ho, b, hb, rfl⟩)
    · exact hf
    · exact heq hp
    · exact heq hnew
    · rw [houtline, if_neg (Ne.symm heq)] at ho
      obtain ⟨q, hq⟩ := h.live x o ho _ hb
      rw [hnone] at hq
      cases hq

/-- A space goes, and with it the links to what was in it. -/
theorem Aligned.sever (h : m.Aligned) (hm : m.Owned) {id : SpaceId}
    (hsevers : Severs m m₁ (.space id)) (hm' : m₁.unlinkDeadBases.2.Owned)
    (hamends : Amends p (fun _ _ => False) m m₁) (href : DropsRefs m m₁) :
    InStepBut (fun x => x = p ∨ x ∈ m₁.unlinkDeadBases.1 ∨
      ∃ o, m₁.unlinkDeadBases.2.outline? x = some o ∧ p ∈ o.links) m₁.unlinkDeadBases.2 := by
  have hshaped : Shaped p m [] m₁ := Shaped.amend (Shaped.refl h.live h.sound) hamends
    (fun _ _ _ hf => hf.elim) (href.sound h.sound)
  have hwanes : Waning p m { destroyed := true } m₁ := ⟨hshaped, fun hf => by cases hf⟩
  have hunlinks := SameShape.settles_unlink (Frame.refl m₁) (Frame.refl m₁ : DropsRefs m₁ m₁)
  have hstatic : KeepsStatic m m₁ := by
    intro x t ht hx
    obtain ⟨s, hs, hloses⟩ := hsevers.spaces x t ht
    exact hloses.isStatic.trans (hx.isStatic hs)
  have hhere : ∀ b, m₁.spaces.contains b = true →
      ∃ t, m₁.unlinkDeadBases.2.spaces.get? b = some t := fun b hb =>
    foldl_keeps (P := fun m' : Model => ∃ t, m'.spaces.get? b = some t)
      (fun m' x hlive => live_modifySpace.2 hlive) _ (Pool.contains_iff.1 hb)
  have hlive := hunlinks.liveBases hwanes.links hwanes.stays (.inr hhere)
    ((lasting_keepsStatic m).unlink m₁ hsevers.owned hstatic)
  have hafter := h.reshape hm hm' (hunlinks.reshapes hwanes.toShaped) hlive
    (hunlinks.ref.sound hwanes.sound)
  refine hafter.mono fun x _ hx => ?_
  rcases hx with hf | rfl | hmem | ⟨o, ho, b, hb, rfl⟩
  · exact hf.elim
  · exact .inl rfl
  · exact .inr (.inl hmem)
  · exact .inr (.inr ⟨o, ho, hb⟩)

/-- A child goes, after the instances around its parent. -/
theorem Aligned.dropChild (h : m.Aligned) (hm : m.Faithful sites) {id : SpaceId} {s : Space}
    (hs : m.spaces.get? id = some s) (hstatic : s.isStatic = true) (hparent : s.parent = some p) :
    let rest := ((m.dropStaleInstances p).modifySpace p fun q =>
      { q with spaces := q.spaces.erase s.name }).destroySpace id
    AlignedBut (rest.unlinkDeadBases.1 ++ [p]) rest.unlinkDeadBases.2 := by
  obtain ⟨q, hq, hqstatic, hchild⟩ := hm.owned.static_holder hs hstatic hparent
  obtain ⟨hdropped, hdrops⟩ := under_dropStaleInstances m p hm.owned
  obtain ⟨q', hq', hqeq⟩ := hdrops.static' hq hqstatic
  have hlisted : q'.spaces.get? s.name = some id := by
    rw [hqeq]
    exact hchild
  have hqstatic' : q'.isStatic = true := by
    rw [hqeq]
    exact hqstatic
  have hsevered := Aligned.sever (h.sameShape hm.owned hdropped hdrops.sameShape) hdropped
    (severs_child hdropped hq' hqstatic' hlisted)
    (Faithful.unlinkDeadBases (hm.dropChild hs hstatic hparent)).owned
    (amends_dropChild s.name id) (dropsRefs_dropChild s.name id)
  refine hsevered.mono fun x _ hx => ?_
  rcases hx with rfl | hmem | ⟨o, ho, hlinks⟩
  · exact .inl (List.mem_append_right _ List.mem_cons_self)
  · exact .inl (List.mem_append_left _ hmem)
  · exact .inr ⟨p, List.mem_append_right _ List.mem_cons_self, o, ho, hlinks⟩

theorem Aligned.dropRoot (h : m.Aligned) (hm : m.Owned) {id : SpaceId} {name : String}
    (hroot : m.roots.get? name = some id) :
    let rest := { m with roots := m.roots.erase name }.destroySpace id
    rest.unlinkDeadBases.2.Owned → AlignedBut rest.unlinkDeadBases.1 rest.unlinkDeadBases.2 := by
  intro rest hm'
  have hsevers : Severs m rest (.space id) := severs_root hm hroot
  have hsheds : Sheds (fun _ => True) { m with roots := m.roots.erase name } rest :=
    sheds_destroySpace trivial (closed_univ _)
  have href : DropsRefs m rest := fun r q hq => hsheds.dropsRefs r q hq
  have hamends : Amends id (fun _ _ => False) m rest := by
    refine ⟨fun r q hq _ => href r q hq, fun x o' ho' => .inr ⟨o', ?_, rfl, fun _ => rfl⟩⟩
    obtain ⟨u, hu, hstatic, rfl⟩ := outline?_eq_some.1 ho'
    exact outline?_of_static (hsheds.space hu) hstatic
  have hsevered := h.sever hm hsevers hm' hamends href
  -- the root is gone, so it is not pending itself, and nothing has it for a base
  have hgone : ¬ rest.unlinkDeadBases.2.Static id := by
    rintro ⟨s, hs, -⟩
    obtain ⟨t, ht⟩ := Pool.contains_iff.1 (live_unlinkDeadBases hs)
    have hhome := hsevers.gone
    rw [home?_space ht] at hhome
    cases hhome
  refine hsevered.mono fun x hx hp => ?_
  rcases hp with rfl | hmem | ⟨o, ho, hlinks⟩
  · exact absurd hx hgone
  · exact .inl hmem
  · exact absurd (static_iff_outline?.2 (hsevered.live x o ho id hlinks)) hgone

variable (fuel : Nat) (hm : Proper m) (h : m.Addressable → m.Aligned)
include hm h

theorem returns_createSpace (parent : Option SpaceId) (name : String) :
    Returns (fun _ m' => m'.Addressable → m'.Aligned) (createSpace fuel parent name) m := by
  refine returns_admitName fun _ => ?_
  cases parent with
  | none =>
    refine returns_get ?_
    split
    next => exact returns_fail
    next hfree =>
      refine returns_change fun small => ?_
      have hsmall : (m.addSpace (Space.fresh name none false)).2.Addressable :=
        ⟨small.spaces, small.cells, small.refs⟩
      have hbefore := addressable_of_insertSpace hsmall
      have howned := (hm hbefore).owned
      have howned' := ((hm hbefore).addRoot hsmall (get?_of_not_contains hfree) rfl rfl
        (lists_of_empty rfl rfl rfl rfl) small).owned
      exact (h hbefore).addBare howned howned'
        (Pool.insert_fresh howned.tidy.spaces hsmall.spaces).1 (spaces_addRoot howned hsmall)
        rfl rfl rfl rfl
  | some parent =>
    refine returns_read fun s hs => returns_get ?_
    obtain ⟨hs, hstatic⟩ := editable_eq_ok hs
    split
    next existing _ =>
      refine returns_read fun t _ => ?_
      split
      next =>
        have hfollows : Follows Proper m (m.modifySpace existing (Space.setDerived false)) :=
          Follows.change (.start hm) (fits_modifySpace m existing _) fun _ hf =>
            hf.rebase (Space.retouches_setDerived · false) (Space.signature_setDerived · false)
              (Space.setDerived_of_replica · false)
        refine returns_modify (returns_pure fun small => ?_)
        have hbefore := hfollows.fits.addressable small
        exact (h hbefore).sameShape (hm hbefore).owned (hfollows.holds small).owned
          (sameShape_setDerived existing false)
      next => exact returns_fail
    next =>
      split
      next => exact returns_fail
      next hfree =>
        have hfollows := follows_addChild hm hs hstatic hfree
        refine returns_update (returns_bind (returns_settleAddition fuel name hfollows.holds
          (hfollows.editedAmends hm h List.mem_cons_self
            (fun small howned => amends_addChild howned small hs rfl)
            (fun small howned hsound => ?_) fun x o hnew => ?_)) fun _ _ h => returns_pure h)
        · intro r q x hq howner
          rw [(addsChild howned.tidy small hs).refs] at hq
          exact hsound r q x hq howner
        · obtain ⟨rfl, rfl⟩ := hnew
          exact ⟨List.mem_cons_of_mem _ List.mem_cons_self, rfl⟩

theorem returns_removeSpace (id : SpaceId) :
    Returns (fun _ m' => m'.Addressable → m'.Aligned) (removeSpace fuel id) m := by
  refine returns_read fun s hs => ?_
  obtain ⟨hs, hstatic⟩ := editable_eq_ok hs
  split
  next => exact returns_get returns_fail
  next =>
    cases hparent : s.parent with
    | some p =>
      refine returns_modify (returns_read fun q hq => returns_modify (returns_modify (returns_update
        (returns_modify (returns_alignFrom fuel ((follows_dropChild hm hs hstatic hparent).steady hm
          fun _ hbefore _ howned' => ?_))))))
      have hunlinked := Faithful.unlinkDeadBases ((hm hbefore).dropChild hs hstatic hparent)
      exact ((h hbefore).dropChild (hm hbefore) hs hstatic hparent).sameShape hunlinked.owned
        howned' (forgetsSome_invalidateSpace _ p).alike.sameShape
    | none =>
      refine returns_modify (returns_modify (returns_update (returns_alignFrom fuel
        ((follows_dropRoot hm hs hstatic hparent).steady hm
          fun _ hbefore howned howned' => ?_))))
      exact (h hbefore).dropRoot howned (howned.root_listed hs hstatic hparent) howned'

theorem returns_document (id : SpaceId) (doc : Option String) :
    Returns (fun _ m' => m'.Addressable → m'.Aligned) (document id doc) m := by
  refine returns_read fun s hs => returns_modify (returns_pure fun small => ?_)
  have hbefore := (fits_modifySpace m id _).addressable small
  obtain ⟨hs, hstatic⟩ := editable_eq_ok hs
  have hfaithful := (hm hbefore).retouch hs hstatic (f := fun s => { s with doc }) (fun s =>
    ⟨⟨rfl, rfl, rfl, fun _ => rfl, fun _ => rfl⟩, rfl, rfl, rfl, rfl⟩) rfl
  exact (h hbefore).sameShape (hm hbefore).owned hfaithful.owned
    (sameShape_modifySpace (fun _ => rfl) fun _ => rfl)

end Spaces

/-! ## Bases and parameters -/

section Inheritance

variable {m : Model} (hm : Proper m) (h : m.Addressable → m.Aligned)
include hm h

/-- A space takes other bases, all of them static spaces. -/
theorem steady_setBases {id : SpaceId} {f : List SpaceId → List SpaceId}
    (hf : ∀ l, ∀ b ∈ f l, b ∈ l ∨ m.Static b) :
    Steady (fun _ => False) (AlignedBut [id]) (m.modifySpace id (Space.setBases f)) := by
  refine (Follows.setBases (.start hm) id f).steady hm fun _ hbefore howned howned' => ?_
  have houtline := fun x => outline?_setBases m id f x
  have hreshapes : Reshapes (fun _ => False) (· = id) m (m.modifySpace id (Space.setBases f)) := by
    refine ⟨fun _ _ _ hq _ _ => hq, fun x o' ho' => .inr ?_⟩
    rw [houtline] at ho'
    split at ho'
    next heq =>
      obtain ⟨o, ho, rfl⟩ := Option.map_eq_some_iff.1 ho'
      exact ⟨o, ho, rfl, rfl, fun _ => ⟨rfl, rfl⟩, fun hne => absurd heq.symm hne,
        fun _ _ hc _ => hc⟩
    next => exact ⟨o', ho', rfl, rfl, fun _ => ⟨rfl, rfl⟩, fun _ => ⟨rfl, rfl⟩, fun _ _ hc _ => hc⟩
  have hlive : (m.modifySpace id (Space.setBases f)).LiveBases := by
    intro x o' ho' b hb
    have hlinked : ∃ o, m.outline? x = some o ∧ (b ∈ o.links ∨ m.Static b) := by
      rw [houtline] at ho'
      split at ho'
      next =>
        obtain ⟨o, ho, rfl⟩ := Option.map_eq_some_iff.1 ho'
        refine ⟨o, ho, ?_⟩
        rcases List.mem_append.1 hb with hb | hb
        · exact (hf o.bases b hb).imp_left (List.mem_append_left _)
        · exact .inl (List.mem_append_right _ hb)
      next => exact ⟨o', ho', .inl hb⟩
    obtain ⟨o, ho, hlink⟩ := hlinked
    refine static_iff_outline?.1 (stays_setBases id f b ?_)
    rcases hlink with hlink | hstatic
    · exact static_iff_outline?.2 ((h hbefore).live x o ho b hlink)
    · exact hstatic
  refine ((h hbefore).reshape howned howned' hreshapes hlive (h hbefore).sound).mono
    fun x _ hx => ?_
  rcases hx with hf | hf | rfl | ⟨-, -, -, -, hf⟩
  · exact hf.elim
  · exact hf.elim
  · exact .inl List.mem_cons_self
  · exact hf.elim

variable (fuel : Nat)

theorem returns_linkBase (id base : SpaceId) :
    Returns (fun _ m' => m'.Addressable → m'.Aligned) (linkBase fuel id base) m := by
  refine returns_read fun s _ => returns_read fun b hb => returns_get ?_
  replace hb := space_eq_ok.1 hb
  split
  next => exact returns_fail
  next hstatic =>
    split
    next => exact returns_pure h
    next =>
      split
      next => exact returns_fail
      next =>
        have hbase : m.Static base := ⟨b, hb, by simpa using hstatic⟩
        refine returns_modify (returns_attempt
          (returns_alignFrom fuel (steady_setBases hm h fun l b hb => ?_))
          (fun _ _ h => returns_pure h) fun _ _ => returns_modify returns_thenFail)
        rw [List.mem_append, List.mem_singleton] at hb
        rcases hb with hb | rfl
        · exact .inl hb
        · exact .inr hbase

theorem returns_unlinkBase (id base : SpaceId) :
    Returns (fun _ m' => m'.Addressable → m'.Aligned) (unlinkBase fuel id base) m := by
  refine returns_read fun s _ => returns_get ?_
  split
  next => exact returns_fail
  next =>
    exact returns_modify (returns_alignFrom fuel (steady_setBases hm h fun l b hb =>
      .inl (List.mem_of_mem_filter hb)))

/-- A static space changes in place but for its outline, and the instances around it are dropped. -/
theorem steady_retouch {starts : List SpaceId} {id : SpaceId} {s : Space}
    (hs : m.editable id = .ok s) {f : Space → Space} (hf : ∀ s, Space.Retouches s (f s))
    (houtline : ∀ s, (f s).outline = s.outline) :
    Steady (fun _ => False) (AlignedBut starts) ((m.modifySpace id f).dropStaleInstances id) := by
  refine (follows_retouch hm hs hf).sameShape hm (fun small => (h small).but) fun howned => ?_
  exact Frame.trans (sameShape_modifySpace (fun s => (hf s).isStatic) houtline)
    (sameShape_dropStaleInstances (owned_retouch howned hf) id)

theorem returns_declareParams (id : SpaceId) (params : List Param) (binder : Option Formula) :
    Returns (fun _ m' => m'.Addressable → m'.Aligned) (declareParams fuel id params binder) m := by
  refine returns_read fun s hs => returns_modify (returns_bind (returns_alignFrom fuel
    (steady_retouch hm h hs (fun s => ?_) fun _ => rfl)) fun _ _ h => returns_pure h)
  exact ⟨⟨rfl, rfl, rfl, fun _ => rfl, fun _ => rfl⟩, rfl, rfl, rfl, rfl⟩

end Inheritance

/-! ## Inputs, forgetting and instances -/

section Forgetting

variable {α : Type} {m : Model} (hm : Proper m) (h : m.Addressable → m.Aligned)
include hm h

theorem returns_drops {x : Action α} (hproper : Obeys (Under Proper Fits) x)
    (hx : Obeys (Under Owned Drops) x) : Returns (fun _ m' => m'.Addressable → m'.Aligned) x m := by
  intro a m' hrun room
  obtain ⟨-, hfits⟩ := hproper m _ m' hrun hm
  have hbefore := hfits.addressable room
  obtain ⟨howned, hdrops⟩ := hx m _ m' hrun (hm hbefore).owned
  exact (h hbefore).sameShape (hm hbefore).owned howned hdrops.sameShape

theorem returns_letSpaceBeEmpty (id : SpaceId) (allow : Option Bool) :
    Returns (fun _ m' => m'.Addressable → m'.Aligned) (letSpaceBeEmpty id allow) m := by
  refine returns_read fun s hs => returns_modify ?_
  have hsteady : Steady (fun _ => False) (AlignedBut [])
      ((m.modifySpace id fun s => { s with allowNone := allow }).dropStaleInstances id) :=
    steady_retouch hm h hs
      (fun s => ⟨⟨rfl, rfl, rfl, fun _ => rfl, fun _ => rfl⟩, rfl, rfl, rfl, rfl⟩) fun _ => rfl
  refine returns_bind (returns_drops (fun small => (hsteady small).1) (fun small => ?_)
    (proper_forgetWithin id) (drops_forgetWithin id)) fun _ _ h => returns_pure h
  refine (hsteady small).2.mono fun x _ hx => ?_
  rcases hx with hx | ⟨y, hy, -⟩
  · cases hx
  · cases hy

end Forgetting

end Recalc.Model
