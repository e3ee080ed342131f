import Recalc.Proofs.Evaluations
import Recalc.Proofs.RejectedEdits
import Recalc.Proofs.Safety

set_option autoImplicit false

/-!
# Overrides last

Every request leaves what is protected from it as it was, whether it succeeds or fails: an edit
changes no more than the member that it names, and the waves after it, also those of an edit that is
taken back, only touch what is derived. An override in a derived space is lost with the space.
-/

namespace Recalc.Model

open Recalc.Action

/-! ## Waves -/

section Waves

variable {q : Request} {m₀ m : Model} {id : SpaceId} {name : String}

theorem leaves_deriveFrom (sites : SpaceId → Prop) (fuel : Nat) (starts : List SpaceId)
    (hm₀ : m₀.Owned) (h : Steady sites (Safeguards q m₀) m) :
    Leaves (Safeguards q m₀) (deriveFrom fuel starts) m := fun r m' hrun small =>
  (ends_steady (lasting_safeguards q hm₀) fuel starts h r m' hrun small).2

/-- What is taken back was not there, so nothing protected goes with it. -/
theorem Safeguards.withdraw (hguards : Safeguards q m₀ m) (hm₀ : m₀.Owned) (hm : m.Owned)
    (hstatic : ∀ s, m.spaces.get? id = some s → s.isStatic = true)
    (hfree : ∀ s, m₀.spaces.get? id = some s → ¬ s.defines name = true) :
    Safeguards q m₀ (withdraw id name m) := by
  cases hs : m.spaces.get? id with
  | none =>
    have hsame : Model.withdraw id name m = m := by simp only [Model.withdraw, hs]
    rwa [hsame]
  | some s =>
    rcases withdraw_cases hm hs (hstatic s hs) with ⟨hsame, -⟩ | ⟨e, he, f, hf, hsheds, -⟩
    · rwa [hsame]
    · have hcut : Safeguards q m₀ (m.modifySpace id f) :=
        hguards.retouch id (fun t ht => (hf t).1.lasts ht) (fun t => Space.bases_congr (hf t).2)
          fun t => Space.implicitBases_congr (hf t).2
      refine hcut.sheds hsheds fun e' hprot hw => ?_
      have htop := hguards.protected_of_within hw hprot
      have hplace : (e.kind.place id name).space? = some id := by cases e <;> rfl
      have hhome := (hguards.home htop).symm.trans he.home
      obtain ⟨t, ht, htstatic⟩ := (htop.holder hhome hplace).static
      obtain ⟨t', ht', hlists⟩ := hm₀.holder hhome hplace
      cases ht.symm.trans ht'
      exact hfree t ht ((memberAt_of_lists hm₀ ht htstatic hlists).defines hm₀ ht)

theorem leaves_takeBack (fuel : Nat) (hm₀ : m₀.Owned)
    (hfree : ∀ s, m₀.spaces.get? id = some s → ¬ s.defines name = true)
    (h : Steady (· = id) (Safeguards q m₀) m) :
    Leaves (Safeguards q m₀) (takeBack fuel id name) m := by
  refine ends_modify (ends_update (leaves_deriveFrom (fun _ => False) fuel _ hm₀
    fun small => ?_))
  obtain ⟨hm, hguards⟩ := h ((fits_withdraw m id name).addressable
    ((fits_unlinkDeadBases _).addressable small))
  refine ⟨(faithful_withdraw hm name).unlinkDeadBases.mono fun _ hf => hf.elim, ?_⟩
  exact (hguards.withdraw hm₀ hm.owned (fun s hs => (hm.vacant id rfl s hs).1) hfree).unlink

theorem leaves_settleChange (fuel : Nat) (hm₀ : m₀.Owned) {m₁ : Model}
    (hedited : Follows (Edited id) m₁ m) (hguards : m.Addressable → Safeguards q m₀ m) :
    Leaves (Safeguards q m₀) (settleChange fuel id) m := by
  have hforget := forgetsSome_invalidateSpace m id
  have hdropped := (hedited.alike hforget.alike).dropped
  refine ends_modify (leaves_deriveFrom _ fuel [id] hm₀ fun small => ⟨hdropped.holds small, ?_⟩)
  have room := hforget.alike.fits.addressable ((fits_dropStaleInstances _ id).addressable small)
  obtain ⟨⟨_, _, hd⟩, -⟩ := hedited.holds room
  have howned := hforget.alike.owned hd.owned
  exact ((hguards room).forget hd.owned hforget).dropStaleInstances howned id

theorem leaves_settleAddition (fuel : Nat) (starts : List SpaceId) (hm₀ : m₀.Owned) {m₁ : Model}
    (hedited : Follows (Edited id) m₁ m) (hguards : m.Addressable → Safeguards q m₀ m)
    (hfree : ∀ s, m₀.spaces.get? id = some s → ¬ s.defines name = true) :
    Leaves (Safeguards q m₀) (settleAddition fuel id name starts) m := by
  have hforget := forgetsSome_invalidateSpace m id
  have hhide := forgetsSome_hideGlobal (m.invalidateSpace id).2 name
  have hdropped := ((hedited.alike hforget.alike).alike hhide.alike).dropped
  refine ends_modify (ends_attempt (ends_steady (lasting_safeguards q hm₀) fuel starts
    fun small => ⟨hdropped.holds small, ?_⟩) fun r m₂ hm₂ => ?_)
  · have room := hforget.alike.fits.addressable
      (hhide.alike.fits.addressable ((fits_dropStaleInstances _ id).addressable small))
    obtain ⟨⟨_, _, hd⟩, -⟩ := hedited.holds room
    have howned := hforget.alike.owned hd.owned
    exact (((hguards room).forget hd.owned hforget).forget howned hhide).dropStaleInstances
      (hhide.alike.owned howned) id
  · cases r with
    | ok => exact ends_pure fun small => (hm₂ small).2
    | error e =>
      exact ends_bind (leaves_takeBack fuel hm₀ hfree hm₂) (fun _ _ h => ends_fail h) fun _ h => h

end Waves

/-! ## Cells -/

section Requests

variable {m : Model} (q : Request) (fuel : Nat) (hm : m.Faithful fun _ => False)
include hm

theorem leaves_defineCells (id : SpaceId) (name : String) (formula : Option Formula) :
    Leaves (Safeguards q m) (defineCells fuel id name formula) m := by
  have stay : m.Addressable → Safeguards q m m := fun _ => .refl q m
  refine ends_admitName stay (ends_read stay fun s hs => ends_get ?_)
  obtain ⟨hs, hstatic⟩ := editable_eq_ok hs
  split
  next existing hexisting =>
    refine ends_read stay fun c hc => ?_
    split
    next => exact ends_fail stay
    next hderived =>
      have hexposed : ¬ m.Protected q (.cells existing) :=
        not_protected_cells (cell_eq_ok.1 hc) (by simpa using hderived)
      refine ends_modify (ends_then (leaves_settleChange fuel hm.owned
        (follows_takeover (fun _ => hm) hs hstatic hexisting) fun _ => ?_) fun _ _ h => ends_pure h)
      exact ((Safeguards.refl q m).modifyCell hexposed _).forget
        (owned_modifyCell hm.owned fun _ => by rfl) (forgetsAll_invalidateCells _ _).forgetsSome
  next =>
    split
    next => exact ends_fail stay
    next hfree =>
      have hedited := follows_addCells (c := { name, space := id, formula, derived := false })
        (fun _ => hm) hs hstatic rfl hfree
      refine ends_update (ends_then (leaves_settleAddition fuel [id] hm.owned hedited
        (fun small => (joins_addCells hm.owned small hs).safeguards) fun t ht => ?_)
        fun _ _ h => ends_pure h)
      cases hs.symm.trans ht
      exact hfree

/-- Cells that the request names are changed, and a wave follows. -/
theorem leaves_redefinition {id : CellId} {c : Cells} {s : Space} {f : Cells → Cells}
    (hq : q.edited? = some (.cells id)) (hf : ∀ c, (f c).home = c.home) (hc : m.cell id = .ok c)
    (hs : m.editable c.space = .ok s) :
    Leaves (Safeguards q m) (deriveFrom fuel [c.space])
      (((m.modifyCell id f).invalidateCells id).2.dropStaleInstances c.space) := by
  have howned : (m.modifyCell id f).Owned := owned_modifyCell hm.owned hf
  have hforget := (forgetsAll_invalidateCells (m.modifyCell id f) id).forgetsSome
  refine leaves_deriveFrom _ fuel _ hm.owned fun small =>
    ⟨(follows_redefinition hf (fun _ => hm) hc hs).holds small, ?_⟩
  have hchange := (Safeguards.refl q m).modifyCell (not_protected_edited hq) f
  exact (hchange.forget howned hforget).dropStaleInstances (hforget.alike.owned howned) _

theorem leaves_redefine (id : CellId) (formula : Formula) :
    Leaves (Safeguards (.redefine id formula) m) (redefine fuel id formula) m := by
  have stay : m.Addressable → Safeguards (.redefine id formula) m m := fun _ => .refl _ m
  refine ends_read stay fun c hc => ends_read stay fun s hs => ends_modify ?_
  exact leaves_redefinition _ fuel hm rfl (fun _ => rfl) hc hs

theorem leaves_letCellsBeEmpty (id : CellId) (allow : Option Bool) :
    Leaves (Safeguards (.letCellsBeEmpty id allow) m) (letCellsBeEmpty fuel id allow) m := by
  have stay : m.Addressable → Safeguards (.letCellsBeEmpty id allow) m m := fun _ => .refl _ m
  refine ends_read stay fun c hc => ends_read stay fun s hs => ends_modify ?_
  exact ends_then (leaves_redefinition _ fuel hm rfl (fun _ => rfl) hc hs) fun _ _ h => ends_pure h

theorem leaves_removeCells (id : CellId) :
    Leaves (Safeguards (.removeCells id) m) (removeCells fuel id) m := by
  have stay : m.Addressable → Safeguards (.removeCells id) m m := fun _ => .refl _ m
  refine ends_read stay fun c hc => ends_read stay fun s hs => ?_
  obtain ⟨hs, hstatic⟩ := editable_eq_ok hs
  split
  next => exact ends_get (ends_fail stay)
  next =>
    refine ends_modify (leaves_settleChange fuel hm.owned
      (follows_dropCells (fun _ => hm) (cell_eq_ok.1 hc) hs hstatic) fun _ => ?_)
    refine Safeguards.sheds (W := (· = .cells id)) ?_ (sheds_destroyCells _ id rfl) fun e he heq =>
      not_protected_edited rfl (heq ▸ he)
    exact (Safeguards.refl _ m).retouch c.space (fun s hs => ⟨rfl, rfl, hs, fun h => h⟩)
      (fun _ => rfl) fun _ => rfl

theorem leaves_dropOverride (id : CellId) :
    Leaves (Safeguards (.dropOverride id) m) (dropOverride fuel id) m := by
  have stay : m.Addressable → Safeguards (.dropOverride id) m m := fun _ => .refl _ m
  refine ends_read stay fun c hc => ends_read stay fun s hs => ?_
  split
  next => exact ends_pure stay
  next =>
    refine ends_read stay fun heritage _ => ?_
    split
    next =>
      refine ends_modify (leaves_deriveFrom (fun _ => False) fuel _ hm.owned fun _ => ?_)
      exact ⟨hm.reflag (fun _ => rfl) fun _ => ⟨rfl, rfl⟩,
        (Safeguards.refl _ m).modifyCell (not_protected_edited rfl) _⟩
    next => exact ends_get (ends_fail stay)

/-! ## References -/

/-- A reference that is not protected is bound anew, and keeps its place. -/
theorem safeguards_rebinding {id : RefId} (hexposed : ¬ m.Protected q (.ref id))
    {f : Reference → Reference} (home : ∀ r, (f r).home = r.home) :
    Safeguards q m ((m.modifyRef id f).invalidate (.ref id)).2 :=
  ((Safeguards.refl q m).modifyRef hexposed f).forget (owned_modifyRef hm.owned home)
    (forgetsAll_invalidate _ _).forgetsSome

theorem leaves_rebinding {id : RefId} (hexposed : ¬ m.Protected q (.ref id))
    {f : Reference → Reference} (home : ∀ r, (f r).home = r.home) (starts : List SpaceId) :
    Leaves (Safeguards q m) (deriveFrom fuel starts) ((m.modifyRef id f).invalidate (.ref id)).2 :=
  leaves_deriveFrom _ fuel starts hm.owned fun small =>
    ⟨(follows_rebinding (fun _ => hm) id home).holds small, safeguards_rebinding q hm hexposed home⟩

theorem leaves_bindName (id : SpaceId) (name : String) (value : Value) (mode : RefMode) :
    Leaves (Safeguards q m) (bindName fuel id name value mode) m := by
  have stay : m.Addressable → Safeguards q m m := fun _ => .refl q m
  refine ends_admitName stay (ends_get (ends_read stay fun s hs => ends_get ?_))
  obtain ⟨hs, hstatic⟩ := editable_eq_ok hs
  split
  next existing hexisting =>
    refine ends_read stay fun r hr => ?_
    split
    next => exact ends_fail stay
    next hderived =>
      have hexposed : ¬ m.Protected q (.ref existing) :=
        not_protected_ref (reference_eq_ok.1 hr) (by simpa using hderived)
      exact ends_modify (ends_then (leaves_rebinding q fuel hm hexposed (fun _ => by rfl) [id])
        fun _ _ h => ends_pure h)
  next =>
    split
    next => exact ends_fail stay
    next hfree =>
      have hedited := follows_addRef (r := ⟨name, some id, value, mode,
        m.bindsRelatively id value mode, some id, false⟩) (fun _ => hm) hs hstatic rfl hfree
      refine ends_update (ends_then (leaves_settleAddition fuel [id] hm.owned hedited
        (fun small => (joins_addRef hm.owned small hs rfl).safeguards) fun t ht => ?_)
        fun _ _ h => ends_pure h)
      cases hs.symm.trans ht
      exact hfree

theorem leaves_rebind {id : RefId} (hexposed : ¬ m.Protected q (.ref id)) (value : Value) :
    Leaves (Safeguards q m) (rebind fuel id value) m := by
  have stay : m.Addressable → Safeguards q m m := fun _ => .refl q m
  refine ends_read stay fun r hr => ?_
  split
  next => exact ends_modify (ends_pure fun _ => safeguards_rebinding q hm hexposed fun _ => by rfl)
  next space _ =>
    refine ends_read stay fun s hs => ends_modify ?_
    exact leaves_rebinding q fuel hm hexposed (fun _ => by rfl) [space]

theorem leaves_unbind {id : RefId} (hexposed : ¬ m.Protected q (.ref id)) :
    Leaves (Safeguards q m) (unbind fuel id) m := by
  have stay : m.Addressable → Safeguards q m m := fun _ => .refl q m
  have hsheds : ∀ m₁, Safeguards q m m₁ → Safeguards q m (m₁.destroyReference id) := fun m₁ h =>
    h.sheds (W := (· = .ref id)) (sheds_destroyReference m₁ id rfl) fun e he heq =>
      hexposed (heq ▸ he)
  refine ends_read stay fun r hr => ?_
  split
  next => exact ends_modify (ends_pure fun _ => hsheds _ ((Safeguards.refl q m).widen
    (fun _ _ h => h) (fun _ _ h => h) fun _ _ h => h))
  next space howner =>
    refine ends_read stay fun s hs => ?_
    obtain ⟨hs, hstatic⟩ := editable_eq_ok hs
    split
    next => exact ends_get (ends_fail stay)
    next =>
      refine ends_modify (leaves_settleChange fuel hm.owned
        (follows_dropRef (fun _ => hm) (reference_eq_ok.1 hr) howner hs hstatic) fun _ =>
          hsheds _ ?_)
      exact (Safeguards.refl q m).retouch space (fun s hs => ⟨rfl, rfl, hs, fun h => h⟩)
        (fun _ => rfl) fun _ => rfl

theorem leaves_bindGlobal (name : String) (value : Value) :
    Leaves (Safeguards q m) (bindGlobal name value) m := by
  have stay : m.Addressable → Safeguards q m m := fun _ => .refl q m
  refine ends_admitName stay (ends_get ?_)
  split
  next => exact ends_fail stay
  next =>
    refine ends_change fun small => (Safeguards.refl q m).widen (fun x s hs => ?_)
      (fun c d hd => ?_) fun r x hx => ?_
    · rwa [spaces_addGlobal rfl]
    · rwa [cells_addRef]
    · obtain ⟨hfresh, hrefs⟩ := refs_addRef hm.owned.tidy small
      rw [hrefs, if_neg, hx]
      rintro rfl
      cases hfresh.symm.trans hx

/-- What is bound in the model belongs to no space. -/
theorem not_protected_named {name : String} {id : RefId} (hid : m.globalNamed name = .ok id) :
    ¬ m.Protected q (.ref id) := by
  unfold globalNamed at hid
  split at hid
  next r hr =>
    cases hid
    obtain ⟨x, hx, howner, -⟩ := hm.owned.global_of_listed hr
    exact not_protected_global hx howner
  next => cases hid

theorem leaves_rebindGlobal (name : String) (value : Value) :
    Leaves (Safeguards q m) (rebindGlobal fuel name value) m := by
  have stay : m.Addressable → Safeguards q m m := fun _ => .refl q m
  refine ends_read stay fun id hid => ?_
  exact ends_then (leaves_rebind q fuel hm (not_protected_named q hm hid) value)
    fun _ _ h => ends_pure h

theorem leaves_unbindGlobal (name : String) :
    Leaves (Safeguards q m) (unbindGlobal fuel name) m := by
  have stay : m.Addressable → Safeguards q m m := fun _ => .refl q m
  refine ends_read stay fun id hid => ?_
  exact ends_then (leaves_unbind q fuel hm (not_protected_named q hm hid)) fun _ _ h => ends_pure h

/-! ## Spaces -/

theorem leaves_createSpace (parent : Option SpaceId) (name : String) :
    Leaves (Safeguards q m) (createSpace fuel parent name) m := by
  have stay : m.Addressable → Safeguards q m m := fun _ => .refl q m
  refine ends_admitName stay ?_
  cases parent with
  | none =>
    refine ends_get ?_
    split
    next => exact ends_fail stay
    next =>
      refine ends_change fun small => (Safeguards.refl q m).widen (fun x s hs => ?_)
        (fun _ _ hd => hd) fun _ _ hx => hx
      obtain ⟨hfresh, hspaces⟩ := Pool.insert_fresh hm.owned.tidy.spaces small.spaces
      refine (hspaces x).trans ((if_neg ?_).trans hs)
      rintro rfl
      cases hfresh.symm.trans hs
  | some parent =>
    refine ends_read stay fun s hs => ends_get ?_
    obtain ⟨hs, hstatic⟩ := editable_eq_ok hs
    split
    next existing _ =>
      refine ends_read stay fun t _ => ?_
      split
      next =>
        refine ends_modify (ends_pure fun _ => (Safeguards.refl q m).retouch existing ?_ ?_ ?_)
        · exact fun s hs => s.lasts_setDerived hs
        · exact fun s => s.bases_setDerived _
        · exact fun s => s.implicitBases_setDerived _
      next => exact ends_fail stay
    next =>
      split
      next => exact ends_fail stay
      next hfree =>
        refine ends_update (ends_then (leaves_settleAddition fuel _ hm.owned
          (follows_addChild (fun _ => hm) hs hstatic hfree)
          (fun small => (joins_addChild hm.owned small hs).safeguards) fun t ht => ?_)
          fun _ _ h => ends_pure h)
        cases hs.symm.trans ht
        exact hfree

omit hm in
theorem leaves_document (id : SpaceId) (doc : Option String) :
    Leaves (Safeguards q m) (document id doc) m := by
  have stay : m.Addressable → Safeguards q m m := fun _ => .refl q m
  refine ends_read stay fun s _ => ends_modify (ends_pure fun _ => ?_)
  exact (Safeguards.refl q m).retouch id (fun s hs => ⟨rfl, rfl, hs, fun h => h⟩) (fun _ => rfl)
    fun _ => rfl

omit hm in
/-- What is inside a space that the request deletes is not protected. -/
theorem Safeguards.destroySpace {m₁ m₂ : Model} {id : SpaceId} {s : Space}
    (hguards : Safeguards (.removeSpace id) m m₁) (hcut : Safeguards (.removeSpace id) m m₂)
    (hs : m.spaces.get? id = some s) (hauthored : s.isDerived = false)
    (hclosed : Closed (m₁.Within (.space id)) m₂) :
    Safeguards (.removeSpace id) m (m₂.destroySpace id) := by
  refine hcut.sheds (sheds_destroySpace .self hclosed) fun e hprot hw => ?_
  cases hguards.protected_of_within hw hprot with
  | space hsecure => exact hsecure.not_removed hs hauthored rfl

theorem leaves_removeSpace (id : SpaceId) :
    Leaves (Safeguards (.removeSpace id) m) (removeSpace fuel id) m := by
  have stay : Safeguards (.removeSpace id) m m := .refl _ m
  refine ends_read (fun _ => stay) fun s hs => ?_
  obtain ⟨hs, hstatic⟩ := editable_eq_ok hs
  split
  next => exact ends_get (ends_fail fun _ => stay)
  next hauthored =>
    rw [Bool.not_eq_true] at hauthored
    cases hparent : s.parent with
    | some p =>
      have hdropped := stay.dropStaleInstances hm.owned p
      have hend := follows_dropChild (fun _ => hm) hs hstatic hparent
      refine ends_modify (ends_read (fun _ => hdropped) fun t _ => ends_modify (ends_modify
        (ends_update (ends_modify (leaves_deriveFrom _ fuel _ hm.owned fun small =>
          ⟨hend.holds small, ?_⟩)))))
      -- the instances go first, and the child after them
      obtain ⟨howned, hdrops⟩ := under_dropStaleInstances m p hm.owned
      obtain ⟨x, hx, hxstatic, hchild⟩ := hm.owned.static_holder hs hstatic hparent
      obtain ⟨x', hx', hxeq⟩ := hdrops.static' hx hxstatic
      have hlisted : x'.spaces.get? s.name = some id := by
        rw [hxeq]
        exact hchild
      have hxstatic' : x'.isStatic = true := by
        rw [hxeq]
        exact hxstatic
      have hcut := hdropped.retouch p (f := fun q => { q with spaces := q.spaces.erase s.name })
        (fun s hs => ⟨rfl, rfl, hs, fun h => h⟩) (fun _ => rfl) fun _ => rfl
      have hgone := hdropped.destroySpace hcut hs hauthored
        ((unlists_child howned hx' hxstatic' hlisted).closed howned)
      exact hgone.unlink.forget (hm.dropChild hs hstatic hparent).unlinkDeadBases.owned
        (forgetsSome_invalidateSpace _ p)
    | none =>
      have hend := follows_dropRoot (fun _ => hm) hs hstatic hparent
      refine ends_modify (ends_modify (ends_update (leaves_deriveFrom _ fuel _ hm.owned fun small =>
        ⟨hend.holds small, ?_⟩)))
      have hcut : Safeguards (.removeSpace id) m { m with roots := m.roots.erase s.name } :=
        stay.widen (fun _ _ h => h) (fun _ _ h => h) fun _ _ h => h
      have hroot := hm.owned.root_listed hs hstatic hparent
      exact (stay.destroySpace hcut hs hauthored ((unlists_root hroot).closed hm.owned)).unlink

/-! ## Bases and parameters -/

theorem leaves_linkBase (id base : SpaceId) :
    Leaves (Safeguards q m) (linkBase fuel id base) m := by
  have stay : m.Addressable → Safeguards q m m := fun _ => .refl q m
  refine ends_read stay fun s hs => ends_read stay fun b _ => ends_get ?_
  obtain ⟨hs, hstatic⟩ := editable_eq_ok hs
  split
  next => exact ends_fail stay
  next =>
    split
    next => exact ends_pure stay
    next hnew =>
      split
      next => exact ends_fail stay
      next =>
        have hlasts : ∀ f (s : Space), s.isStatic = true → s.Lasts (s.setBases f) := fun f s hs =>
          (s.persists_setBases f).lasts hs
        have hlinked : Safeguards q m (m.modifySpace id (Space.setBases (· ++ [base]))) := by
          refine (Safeguards.refl q m).modifySpace (hlasts _) (fun _ s b _ hs _ _ _ hb => ?_)
            fun s b _ _ hb => ?_
          · rw [Space.bases_setBases _ _ hs]
            exact List.mem_append_left _ hb
          · rwa [Space.implicitBases_setBases]
        have hsteady : Steady (fun _ => False) (Safeguards q m)
            (m.modifySpace id (Space.setBases (· ++ [base]))) := fun small =>
          ⟨(Follows.setBases (.start fun _ => hm) id _).holds small, hlinked⟩
        refine ends_modify (ends_attempt (ends_steady (lasting_safeguards q hm.owned) fuel [id]
          hsteady) fun r m₂ hm₂ => ?_)
        cases r with
        | ok => exact ends_pure fun small => (hm₂ small).2
        | error e =>
          refine ends_modify (ends_then (leaves_deriveFrom (fun _ => False) fuel [id] hm.owned
            fun small => ?_) fun _ _ h => ends_fail h)
          obtain ⟨hfaithful, hguards⟩ := hm₂ ((addressable_modifySpace _ _).1 small)
          refine ⟨(Follows.setBases (.start fun _ => hfaithful) id _).holds small,
            hguards.modifySpace (hlasts _) (fun s₀ t b hs₀ ht _ _ hb₀ hb => ?_)
              fun s b _ _ hb => ?_⟩
          · -- the base that is taken out again was not there
            cases hs.symm.trans hs₀
            rw [Space.bases_setBases _ _ ht]
            refine List.mem_filter.2 ⟨hb, bne_iff_ne.2 ?_⟩
            rintro rfl
            exact hnew (by simpa using hb₀)
          · rwa [Space.implicitBases_setBases]

theorem leaves_unlinkBase (id base : SpaceId) :
    Leaves (Safeguards (.unlinkBase id base) m) (unlinkBase fuel id base) m := by
  have stay : m.Addressable → Safeguards (.unlinkBase id base) m m := fun _ => .refl _ m
  refine ends_read stay fun s _ => ends_get ?_
  split
  next => exact ends_fail stay
  next =>
    refine ends_modify (leaves_deriveFrom (fun _ => False) fuel [id] hm.owned
      fun small => ⟨(Follows.setBases (.start fun _ => hm) id _).holds small, ?_⟩)
    refine (Safeguards.refl _ m).modifySpace (fun s hs => (s.persists_setBases _).lasts hs)
      (fun _ s b _ hs _ hq _ hb => ?_) fun s b _ _ hb => ?_
    · rw [Space.bases_setBases _ _ hs]
      refine List.mem_filter.2 ⟨hb, bne_iff_ne.2 ?_⟩
      rintro rfl
      exact hq rfl
    · rwa [Space.implicitBases_setBases]

/-- A space changes in place, but for what protects it. -/
theorem safeguards_retouch {id : SpaceId} {f : Space → Space}
    (hf : ∀ s, Space.Retouches s (f s)) (hlasts : ∀ s : Space, s.isStatic = true → s.Lasts (f s))
    (hbases : ∀ s, (f s).bases = s.bases)
    (himplicit : ∀ s, (f s).implicitBases = s.implicitBases) :
    Safeguards q m ((m.modifySpace id f).dropStaleInstances id) :=
  ((Safeguards.refl q m).retouch id hlasts hbases himplicit).dropStaleInstances
    (owned_retouch hm.owned hf) id

theorem leaves_declareParams (id : SpaceId) (params : List Param) (binder : Option Formula) :
    Leaves (Safeguards q m) (declareParams fuel id params binder) m := by
  have stay : m.Addressable → Safeguards q m m := fun _ => .refl q m
  have hf : ∀ s : Space, s.Retouches
      { s with signature := some ⟨params, binder⟩, ownSignature := true } := fun s =>
    ⟨⟨rfl, rfl, rfl, fun _ => rfl, fun _ => rfl⟩, rfl, rfl, rfl, rfl⟩
  refine ends_read stay fun s hs => ends_modify (ends_then (leaves_deriveFrom _ fuel [id] hm.owned
    fun small => ⟨(follows_retouch (fun _ => hm) hs hf).holds small, ?_⟩) fun _ _ h => ends_pure h)
  exact safeguards_retouch q hm hf (fun s hs => ⟨rfl, rfl, hs, fun h => h⟩) (fun _ => rfl)
    fun _ => rfl

end Requests

/-! ## Forgetting and evaluation -/

section Forgetting

theorem under_alike {m m' : Model} (h : Alike m m') : Under Owned Drops m m' :=
  fun hm => ⟨h.owned hm, h.drops⟩

theorem drops_putInput (id : CellId) (args : List Value) (v : Value) :
    Obeys (Under Owned Drops) (putInput id args v) :=
  obeys_bind (obeys_read _) fun _ => obeys_modify fun m => under_alike
    (Frame.trans (alike_invalidate m _) (alike_modifyCell _ id _ fun _ => rfl))

theorem drops_takeInput (id : CellId) (args : List Value) :
    Obeys (Under Owned Drops) (takeInput id args) := by
  refine obeys_bind (obeys_read _) fun key => obeys_bind (obeys_read _) fun c => ?_
  split
  · refine obeys_bind (obeys_modify fun m => under_alike ?_) fun _ => obeys_pure _
    exact Frame.trans (alike_modifyCell m id (fun c =>
      { c with contents := c.contents.dropInput key }) fun _ => rfl) (alike_invalidate _ _)
  · exact obeys_pure _

theorem drops_forgetCells (id : CellId) : Obeys (Under Owned Drops) (forgetCells id) :=
  obeys_bind (obeys_read _) fun _ => obeys_update fun m =>
    under_alike (forgetsAll_invalidateCells m id).forgetsSome.alike

theorem drops_forgetAt (id : CellId) (args : List Value) :
    Obeys (Under Owned Drops) (forgetAt id args) :=
  obeys_bind (obeys_read _) fun _ => obeys_update fun m => under_alike (alike_invalidate m _)

theorem drops_forgetWithin (id : SpaceId) : Obeys (Under Owned Drops) (forgetWithin id) :=
  obeys_bind (obeys_read _) fun _ => obeys_update fun m => under_forgetSpaces _ _ _ m

theorem drops_forgetAll : Obeys (Under Owned Drops) forgetAll := by
  have heach : ∀ l, Obeys (Under Owned Drops) (forgetEach l) := by
    intro l
    induction l with
    | nil => exact obeys_pure _
    | cons id rest ih => exact obeys_bind (drops_forgetWithin id) fun _ => ih
  refine obeys_bind obeys_get fun m => obeys_bind (heach _) fun _ => obeys_modify fun m => ?_
  exact under_alike ⟨rfl, rfl, rfl, rfl, fun _ => rfl, rfl, fun h => h⟩

theorem drops_discardInstances (id : SpaceId) : Obeys (Under Owned Drops) (discardInstances id) :=
  obeys_bind (obeys_read _) fun _ => obeys_update fun m => under_removeEveryInstance m id

variable {α : Type} {q : Request} {m₀ m m' : Model}

theorem ends_drops {x : Action α} (hx : Obeys (Under Owned Drops) x) (hm : m.Owned)
    (hguards : Safeguards q m₀ m) : Leaves (Safeguards q m₀) x m := by
  intro r m' hrun _
  obtain ⟨hm', hdrops⟩ := hx m r m' hrun hm
  exact hguards.drops hm hm' hdrops

theorem leaves_letSpaceBeEmpty (q : Request) (hm : m.Faithful fun _ => False) (id : SpaceId)
    (allow : Option Bool) : Leaves (Safeguards q m) (letSpaceBeEmpty id allow) m := by
  have hf : ∀ s : Space, s.Retouches { s with allowNone := allow } := fun s =>
    ⟨⟨rfl, rfl, rfl, fun _ => rfl, fun _ => rfl⟩, rfl, rfl, rfl, rfl⟩
  refine ends_read (fun _ => .refl q m) fun s hs => ends_modify ?_
  refine ends_then (ends_drops (drops_forgetWithin id)
    (under_dropStaleInstances _ id (owned_retouch hm.owned hf)).1 ?_) fun _ _ h => ends_pure h
  exact safeguards_retouch q hm hf (fun s hs => ⟨rfl, rfl, hs, fun h => h⟩) (fun _ => rfl)
    fun _ => rfl

theorem Safeguards.same (hguards : Safeguards q m₀ m) (h : SameDefinitions m m') :
    Safeguards q m₀ m' := by
  have hspace : ∀ x s, m₀.Secure q x → m₀.spaces.get? x = some s → ∃ s₁ instances,
      m.spaces.get? x = some s₁ ∧ m'.spaces.get? x = some { s₁ with instances } ∧ s.Lasts s₁ := by
    intro x s hsecure hs
    obtain ⟨s₁, hs₁, hlasts⟩ := hguards.space x s hsecure hs
    obtain ⟨instances, hs'⟩ := h.spaces x s₁ hs₁ hlasts.isStatic
    exact ⟨s₁, instances, hs₁, hs', hlasts⟩
  refine ⟨fun x s hsecure hs => ?_, fun x b s s' hsecure hbsecure hs hb hq hs' => ?_,
    fun x b s' hsecure hbsecure hhanded hs' => ?_, fun c d hprot hd => ?_, fun r x hprot hx => ?_⟩
  · obtain ⟨s₁, instances, -, hs', hlasts⟩ := hspace x s hsecure hs
    exact ⟨_, hs', hlasts.name, hlasts.parent, hlasts.isStatic, hlasts.authored⟩
  · obtain ⟨s₁, instances, hs₁, ht, -⟩ := hspace x s hsecure hs
    cases hs'.symm.trans ht
    exact hguards.explicit x b s s₁ hsecure hbsecure hs hb hq hs₁
  · obtain ⟨s, hs, -⟩ := hsecure.static
    obtain ⟨s₁, instances, hs₁, ht, -⟩ := hspace x s hsecure hs
    cases hs'.symm.trans ht
    exact hguards.implicit x b s₁ hsecure hbsecure hhanded hs₁
  · obtain ⟨d₁, hd₁, hlasts⟩ := hguards.cells c d hprot hd
    obtain ⟨s, hs, -⟩ := (hprot.cells_authored hd).2.static
    obtain ⟨s₁, -, hs₁, -, hslasts⟩ := hspace _ s (hprot.cells_authored hd).2 hs
    rw [← hlasts.space] at hs₁
    obtain ⟨d', hd', hbare, -⟩ := h.cells c d₁ s₁ hd₁ hs₁ hslasts.isStatic
    exact ⟨d', hd', hlasts.trans (Cells.lasts_of_bare hbare hlasts.authored)⟩
  · rw [h.refs]
    exact hguards.ref r x hprot hx

end Forgetting

end Recalc.Model

namespace Recalc

open Recalc.Action Recalc.Model

section Requests

variable {q : Request} {m m' : Model} {fuel : Nat} {held : List Handle} {r : Except Failure Reply}

theorem Model.Orderly.guards {α : Type} {x : Action α} {f : α → Reply} (h : m.Orderly)
    (hproper : Obeys (Under Proper Fits) x)
    (hx : m.Faithful (fun _ => False) → Leaves (Safeguards q m) x m)
    (hrun : (f <$> x) m = some (r, m')) (room : m'.Addressable) : Safeguards q m m' := by
  obtain ⟨p, hp⟩ := exists_of_map hrun
  obtain ⟨-, hfits⟩ := hproper m p m' hp h.proper
  exact hx (h.proper (hfits.addressable room)) p m' hp room

theorem Model.adds_childNamed (id : SpaceId) (name : String) :
    Obeys (Under Running Adds) (childNamed id name) := by
  refine obeys_bind (obeys_read _) fun s => ?_
  split
  · exact obeys_pure _
  · split
    · exact obeys_bind obeys_get fun _ => obeys_fail _
    · exact evaluationFrame_adds.child id name

/-- The formula of the space may run, and then an instance goes. -/
theorem Model.Running.guards_discardInstance (h : m.Running) {id : SpaceId} {args : List Value}
    {p : Except Failure Bool} (hrun : discardInstance fuel id args m = some (p, m'))
    (room : m'.Addressable) : Safeguards q m m' := by
  have hkeyed : ∀ m₁ r, itemKey (runFormula fuel) id { positional := args } m = some (r, m₁) →
      m₁.Addressable → m₁.Running ∧ Safeguards q m m₁ := by
    intro m₁ r hkey small
    obtain ⟨hrunning, hadds⟩ := (evaluationFrame_adds.itemKey (runs_adds fuel) id _ h hkey).1
    exact ⟨hrunning, (Safeguards.refl q m).same (hadds.enriches small).sameDefinitions⟩
  unfold discardInstance at hrun
  rcases (bind_eq_some m).1 hrun with ⟨key, m₁, hkey, hrest⟩ | ⟨e, hkey, rfl⟩
  · rw [read_bind] at hrest
    split at hrest
    next =>
      cases hrest
      have small := (fits_removeInstance m₁ id key).addressable room
      obtain ⟨hrunning, hguards⟩ := hkeyed m₁ _ hkey small
      have howned := (hrunning.faithful small).owned
      obtain ⟨howned', hdrops⟩ := under_removeInstance m₁ id key howned
      exact hguards.drops howned howned' hdrops
    next =>
      cases hrest
      exact (hkeyed _ _ hkey room).2
  · exact (hkeyed m' _ hkey room).2

/-- Nothing is lost that is protected from the request. -/
theorem Reachable.safeguards (h : Reachable m) (hrun : q.run fuel held m = some (r, m'))
    (room : m'.Addressable) : Safeguards q m m' := by
  have hm := h.orderly
  have hdrops : ∀ {α : Type} {x : Action α} {f : α → Reply}, Obeys (Under Proper Fits) x →
      Obeys (Under Owned Drops) x → (f <$> x) m = some (r, m') → Safeguards q m m' :=
    fun hproper hx hrun => hm.guards hproper
      (fun hf => ends_drops hx hf.owned (.refl q m)) hrun room
  have hevaluates : ∀ e : Evaluation, e.request.run fuel held m = some (r, m') →
      Safeguards q m m' := fun e hrun =>
    (Safeguards.refl q m).same (h.evaluated hrun room).definitions
  cases q with
  | createSpace parent name =>
    exact hm.guards (proper_createSpace fuel parent name)
      (fun hf => leaves_createSpace _ fuel hf parent name) hrun room
  | removeSpace id =>
    exact hm.guards (proper_removeSpace fuel id) (fun hf => leaves_removeSpace fuel hf id) hrun room
  | childNamed id name =>
    obtain ⟨p, hp⟩ := exists_of_map hrun
    obtain ⟨-, hadds⟩ := adds_childNamed id name m p m' hp h.running
    exact (Safeguards.refl _ m).same (hadds.enriches room).sameDefinitions
  | letSpaceBeEmpty id allow =>
    exact hm.guards (proper_letSpaceBeEmpty id allow)
      (fun hf => leaves_letSpaceBeEmpty _ hf id allow) hrun room
  | document id doc =>
    exact hm.guards (proper_document id doc) (fun _ => leaves_document _ id doc) hrun room
  | defineCells id name formula =>
    exact hm.guards (proper_defineCells fuel id name formula)
      (fun hf => leaves_defineCells _ fuel hf id name formula) hrun room
  | redefine id formula =>
    exact hm.guards (proper_redefine fuel id formula)
      (fun hf => leaves_redefine fuel hf id formula) hrun room
  | removeCells id =>
    exact hm.guards (proper_removeCells fuel id) (fun hf => leaves_removeCells fuel hf id) hrun room
  | letCellsBeEmpty id allow =>
    exact hm.guards (proper_letCellsBeEmpty fuel id allow)
      (fun hf => leaves_letCellsBeEmpty fuel hf id allow) hrun room
  | dropOverride id =>
    exact hm.guards (proper_dropOverride fuel id)
      (fun hf => leaves_dropOverride fuel hf id) hrun room
  | bindName id name value mode =>
    exact hm.guards (proper_bindName fuel id name value mode)
      (fun hf => leaves_bindName _ fuel hf id name value mode) hrun room
  | rebind id value =>
    exact hm.guards (proper_rebind fuel id value)
      (fun hf => leaves_rebind _ fuel hf (not_protected_edited rfl) value) hrun room
  | unbind id =>
    exact hm.guards (proper_unbind fuel id)
      (fun hf => leaves_unbind _ fuel hf (not_protected_edited rfl)) hrun room
  | bindGlobal name value =>
    exact hm.guards (proper_bindGlobal name value)
      (fun hf => leaves_bindGlobal _ hf name value) hrun room
  | rebindGlobal name value =>
    have hproper : Obeys (Under Proper Fits) (rebindGlobal fuel name value) :=
      obeys_bind (obeys_read _) fun id => obeys_bind (proper_rebind fuel id value)
        fun _ => obeys_pure _
    exact hm.guards hproper (fun hf => leaves_rebindGlobal _ fuel hf name value) hrun room
  | unbindGlobal name =>
    have hproper : Obeys (Under Proper Fits) (unbindGlobal fuel name) :=
      obeys_bind (obeys_read _) fun id => obeys_bind (proper_unbind fuel id) fun _ => obeys_pure _
    exact hm.guards hproper (fun hf => leaves_unbindGlobal _ fuel hf name) hrun room
  | linkBase id base =>
    exact hm.guards (proper_linkBase fuel id base)
      (fun hf => leaves_linkBase _ fuel hf id base) hrun room
  | unlinkBase id base =>
    exact hm.guards (proper_unlinkBase fuel id base)
      (fun hf => leaves_unlinkBase fuel hf id base) hrun room
  | declareParams id params binder =>
    exact hm.guards (proper_declareParams fuel id params binder)
      (fun hf => leaves_declareParams _ fuel hf id params binder) hrun room
  | call id a => exact hevaluates (.call id a) hrun
  | selectInstance id a => exact hevaluates (.selectInstance id a) hrun
  | readFrom id name => exact hevaluates (.readFrom id name) hrun
  | putInput id args v => exact hdrops (proper_putInput id args v) (drops_putInput id args v) hrun
  | takeInput id args => exact hdrops (proper_takeInput id args) (drops_takeInput id args) hrun
  | forgetCells id => exact hdrops (proper_forgetCells id) (drops_forgetCells id) hrun
  | forgetAt id args => exact hdrops (proper_forgetAt id args) (drops_forgetAt id args) hrun
  | forgetWithin id => exact hdrops (proper_forgetWithin id) (drops_forgetWithin id) hrun
  | forgetAll => exact hdrops proper_forgetAll drops_forgetAll hrun
  | discardInstance id args =>
    obtain ⟨p, hp⟩ := exists_of_map hrun
    exact h.running.guards_discardInstance hp room
  | discardInstances id =>
    exact hdrops (proper_discardInstances id) (drops_discardInstances id) hrun
  | reclaim =>
    exact hdrops (obeys_update (proper_reclaim held))
      (obeys_update fun m => reclaim_obeys under_removeInstance held m) hrun

/-- What the host authored in secure spaces lasts through every request that does not name it. -/
structure Model.OverridesSound (m : Model) : Prop where
  /-- Authored cells keep their formula and their place, however the request ends. -/
  cells : ∀ (q : Request) fuel held r m', q.run fuel held m = some (r, m') → m'.Addressable →
    ∀ id c, m.cells.get? id = some c → c.derived = false → m.Secure q c.space →
      q.edited? ≠ some (.cells id) → ∃ c' s', m'.cells.get? id = some c' ∧ c.Lasts c' ∧
        m'.spaces.get? c.space = some s' ∧ s'.isStatic = true ∧ s'.cells.get? c.name = some id
  /-- Authored references do not change at all. -/
  refs : ∀ (q : Request) fuel held r m', q.run fuel held m = some (r, m') → m'.Addressable →
    ∀ id x o, m.refs.get? id = some x → x.derived = false → x.owner = some o → m.Secure q o →
      q.edited? ≠ some (.ref id) → ∃ s', m'.refs.get? id = some x ∧
        m'.spaces.get? o = some s' ∧ s'.isStatic = true ∧ s'.refs.get? x.name = some id
  /-- A space is secure where everything around it is authored and not deleted. -/
  secure : m.Addressable → ∀ (q : Request) id s, m.spaces.get? id = some s → s.isStatic = true →
    (∀ a ∈ m.ancestry id, q ≠ .removeSpace a ∧
      ∀ t, m.spaces.get? a = some t → t.isDerived = false) → m.Secure q id

theorem Reachable.overridesSound (h : Reachable m) : m.OverridesSound where
  cells q fuel held r m' hrun room id c hc hauthored hsecure hq := by
    have hguards := h.safeguards hrun room
    have hnext := (h.next hrun).orderly.proper room
    obtain ⟨c', hc', hlasts⟩ := hguards.cells id c (.cells hc hauthored hsecure hq) hc
    obtain ⟨s', hs', hstatic⟩ := hguards.static hsecure
    have hlisted := hnext.owned.cells_listed hc' (hlasts.space ▸ hs')
    rw [hlasts.name] at hlisted
    exact ⟨c', s', hc', hlasts, hs', hstatic, hlisted⟩
  refs q fuel held r m' hrun room id x o hx hauthored howner hsecure hq := by
    have hguards := h.safeguards hrun room
    have hnext := (h.next hrun).orderly.proper room
    have hx' := hguards.ref id x (.ref hx hauthored howner hsecure hq) hx
    obtain ⟨s', hs', hstatic⟩ := hguards.static hsecure
    exact ⟨s', hx', hs', hstatic, hnext.owned.ref_listed hx' howner hs'⟩
  secure room q id s hs hstatic hthere := (h.orderly.proper room).owned.secure hs hstatic hthere

end Requests

/-- `B.c` is derived from `A.c`, and `x` is authored in it. -/
def overridingRequests : List Request :=
  [.createSpace none "A", .createSpace (some ⟨0, 0⟩) "c", .createSpace none "B",
    .linkBase ⟨2, 0⟩ ⟨0, 0⟩, .defineCells ⟨3, 0⟩ "x" (some (Formula.constant 1 (.int 1)))]

/-- Cells that come to `A.c` leave the authored `x` of the derived `B.c` alone. -/
theorem overriding_overridesSound : ∃ m r m' c c',
    Request.runAll 9 [] overridingRequests Shop.start = some m ∧
    (Request.defineCells ⟨1, 0⟩ "x" (some (Formula.constant 2 (.int 2)))).run 9 [] m =
      some (r, m') ∧ r.toOption.isSome = true ∧ m.cells.get? ⟨0, 0⟩ = some c ∧ c.name = "x" ∧
    c.formula.map (·.ident) = some 1 ∧ m'.cells.get? ⟨0, 0⟩ = some c' ∧ c.Lasts c' := by
  have hrun : ((Request.runAll 9 [] overridingRequests Shop.start).any fun m =>
      ((Request.defineCells ⟨1, 0⟩ "x" (some (Formula.constant 2 (.int 2)))).run 9 [] m).any
        fun o => (m.cells.get? ⟨0, 0⟩).any fun c => (m.spaces.get? ⟨0, 0⟩).any fun a =>
          (m.spaces.get? ⟨1, 0⟩).any fun ac => (m.spaces.get? ⟨2, 0⟩).any fun b =>
            (m.spaces.get? c.space).any fun bc => decide (o.1.toOption.isSome = true ∧
              m.Addressable ∧ o.2.Addressable ∧ c.name = "x" ∧
              c.formula.map (·.ident) = some 1 ∧ c.derived = false ∧
              a.spaces.get? bc.name = some ⟨1, 0⟩ ∧ ac.isStatic = true ∧ b.isStatic = true ∧
              ⟨0, 0⟩ ∈ b.bases ∧ bc.isDerived = true ∧ bc.parent = some ⟨2, 0⟩ ∧
              (m.ancestry ⟨1, 0⟩ ++ m.ancestry ⟨2, 0⟩).all (fun x =>
                (m.spaces.get? x).all fun t => !t.isDerived) = true)) = true := by
    decide +kernel
  obtain ⟨m, hm, hrun⟩ := (Option.any_eq_true _ _).1 hrun
  obtain ⟨⟨r, m'⟩, hedit, hrun⟩ := (Option.any_eq_true _ _).1 hrun
  obtain ⟨c, hc, hrun⟩ := (Option.any_eq_true _ _).1 hrun
  obtain ⟨a, ha, hrun⟩ := (Option.any_eq_true _ _).1 hrun
  obtain ⟨ac, hac, hrun⟩ := (Option.any_eq_true _ _).1 hrun
  obtain ⟨b, hb, hrun⟩ := (Option.any_eq_true _ _).1 hrun
  obtain ⟨bc, hbc, hfacts⟩ := (Option.any_eq_true _ _).1 hrun
  obtain ⟨hok, room, room', hname, hformula, hauthored, hchild, hacstatic, hbstatic, hbase,
    hderived, hparent, hall⟩ := of_decide_eq_true hfacts
  have hsound := Reachable.overridesSound
    ⟨_, .new "doc" {}, Request.becomes_of_runAll overridingRequests hm⟩
  rw [List.all_append, Bool.and_eq_true] at hall
  have hsecure : ∀ id s, m.spaces.get? id = some s → s.isStatic = true →
      (m.ancestry id).all (fun x => (m.spaces.get? x).all fun t => !t.isDerived) = true →
      m.Secure (.defineCells ⟨1, 0⟩ "x" (some (Formula.constant 2 (.int 2)))) id := by
    intro id s hs hstatic hall
    refine hsound.secure room _ id s hs hstatic fun x hx => ⟨Request.noConfusion, fun t ht => ?_⟩
    simpa [ht] using List.all_eq_true.1 hall x hx
  obtain ⟨c', -, hc', hlasts, -⟩ := hsound.cells _ 9 [] r m' hedit room' ⟨0, 0⟩ c hc hauthored
    (.derived hbc hderived hparent (hsecure _ b hb hbstatic hall.2)
      (.explicit hb hbase Request.noConfusion) ha hchild (hsecure _ ac hac hacstatic hall.1))
    (by decide)
  exact ⟨m, r, m', c, c', hm, hedit, hok, hc, hname, hformula, hc', hlasts⟩

/-- `B` stops deriving from `A`, and with `B.c` the authored `x` in it is gone. -/
theorem overriding_lost : ∃ m r m' c s, Reachable m ∧
    (Request.unlinkBase ⟨2, 0⟩ ⟨0, 0⟩).run 9 [] m = some (r, m') ∧ r.toOption.isSome = true ∧
    m.cells.get? ⟨0, 0⟩ = some c ∧ c.derived = false ∧ m.spaces.get? c.space = some s ∧
    s.isStatic = true ∧ (Request.unlinkBase ⟨2, 0⟩ ⟨0, 0⟩).edited? ≠ some (.cells ⟨0, 0⟩) ∧
    (∀ a ∈ m.ancestry c.space, Request.unlinkBase ⟨2, 0⟩ ⟨0, 0⟩ ≠ .removeSpace a) ∧
    m'.cells.get? ⟨0, 0⟩ = none := by
  have hrun : ((Request.runAll 9 [] overridingRequests Shop.start).any fun m =>
      ((Request.unlinkBase ⟨2, 0⟩ ⟨0, 0⟩).run 9 [] m).any fun o =>
        (m.cells.get? ⟨0, 0⟩).any fun c => (m.spaces.get? c.space).any fun s =>
          decide (o.1.toOption.isSome = true ∧ c.derived = false ∧ s.isStatic = true ∧
            (o.2.cells.get? ⟨0, 0⟩).isNone = true)) = true := by
    decide +kernel
  obtain ⟨m, hm, hrun⟩ := (Option.any_eq_true _ _).1 hrun
  obtain ⟨⟨r, m'⟩, hedit, hrun⟩ := (Option.any_eq_true _ _).1 hrun
  obtain ⟨c, hc, hrun⟩ := (Option.any_eq_true _ _).1 hrun
  obtain ⟨s, hs, hfacts⟩ := (Option.any_eq_true _ _).1 hrun
  obtain ⟨hok, hauthored, hstatic, hgone⟩ := of_decide_eq_true hfacts
  exact ⟨m, r, m', c, s, ⟨_, .new "doc" {}, Request.becomes_of_runAll overridingRequests hm⟩,
    hedit, hok, hc, hauthored, hs, hstatic, by decide, fun _ _ => Request.noConfusion,
    Option.isNone_iff_eq_none.1 hgone⟩

end Recalc
