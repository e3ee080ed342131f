import Recalc.Proofs.OwnedAdditions
import Recalc.Derive

set_option autoImplicit false

/-!
# Actions that fit

No operation makes a pool untidy or smaller, so there was room for every identity before if there is
afterwards. An action ensures a condition when, provided that there is room at the end, it succeeds
and leaves a model of which the condition holds.
-/

namespace Recalc.Model

open Recalc.Action

/-- Pools stay tidy and do not shrink. -/
structure Fits (m m' : Model) : Prop where
  tidy : m.Tidy → m'.Tidy
  addressable : m'.Addressable → m.Addressable

instance : Frame Fits where
  refl _ := ⟨fun h => h, fun h => h⟩
  trans h h' := ⟨fun ht => h'.tidy (h.tidy ht), fun ha => h.addressable (h'.addressable ha)⟩

section Changes

variable {m m' : Model}

theorem Alike.fits (h : Alike m m') : Fits m m' := ⟨h.tidy', h.addressable.1⟩

theorem Sheds.fits {W : Entity → Prop} (h : Sheds W m m') : Fits m m' :=
  ⟨h.tidy, h.addressable.1⟩

variable (m)

theorem fits_modifySpace (id : SpaceId) (f : Space → Space) : Fits m (m.modifySpace id f) :=
  ⟨fun h => tidy_modifySpace h id f, (addressable_modifySpace id f).1⟩

theorem fits_modifyCell (id : CellId) (f : Cells → Cells) : Fits m (m.modifyCell id f) :=
  ⟨fun h => ⟨h.spaces, Pool.tidy_modify _ _ _ h.cells, h.refs⟩, (addressable_modifyCell id f).1⟩

theorem fits_modifyRef (id : RefId) (f : Reference → Reference) : Fits m (m.modifyRef id f) :=
  ⟨fun h => ⟨h.spaces, h.cells, Pool.tidy_modify _ _ _ h.refs⟩, (addressable_modifyRef id f).1⟩

theorem fits_listings (roots : NameMap SpaceId) (globals : NameMap RefId) :
    Fits m { m with roots, globals } :=
  ⟨fun h => ⟨h.spaces, h.cells, h.refs⟩, fun h => ⟨h.spaces, h.cells, h.refs⟩⟩

theorem fits_addSpace (s : Space) : Fits m (m.addSpace s).2 :=
  ⟨(widens_addSpace m s).tidy, addressable_of_insertSpace⟩

theorem fits_addCells (c : Cells) : Fits m (m.addCells c).2 :=
  ⟨fun h => tidy_addCells h c, addressable_of_addCells⟩

theorem fits_addRef (r : Reference) : Fits m (m.addRef r).2 :=
  ⟨(widens_addRef m r).tidy, addressable_of_addRef⟩

theorem fits_addChild (parent : SpaceId) (s : Space) : Fits m (m.addChild parent s).2 :=
  ⟨(widens_addChild m parent s).tidy, addressable_of_addChild⟩

theorem fits_hideGlobal (name : String) : Fits m (m.hideGlobal name) :=
  (forgetsSome_hideGlobal m name).alike.fits

theorem fits_destroyCells (id : CellId) : Fits m (m.destroyCells id) :=
  (sheds_destroyCells (W := fun _ => True) m id trivial).fits

theorem fits_destroyReference (id : RefId) : Fits m (m.destroyReference id) :=
  (sheds_destroyReference (W := fun _ => True) m id trivial).fits

theorem fits_destroySpace (id : SpaceId) : Fits m (m.destroySpace id) :=
  (sheds_destroyTree (W := fun _ => True) _ m id trivial (closed_univ m)).fits

theorem fits_removeInstance (owner : SpaceId) (key : Key) :
    Fits m (m.removeInstance owner key).2 := by
  unfold removeInstance
  split
  next => exact Frame.refl m
  next item _ =>
    have hforget := (forgetsAll_invalidate (m.modifySpace owner fun s =>
      { s with instances := s.instances.erase key }) (.item owner key)).forgetsSome.alike.fits
    exact Frame.trans (fits_modifySpace m owner _) (Frame.trans hforget (fits_destroySpace _ item))

theorem fits_removeEveryInstance (id : SpaceId) : Fits m (m.removeEveryInstance id).2 := by
  unfold removeEveryInstance
  split
  next => exact Frame.refl m
  next s _ =>
    exact foldl_keeps (P := fun r : Nat × Model => Fits m r.2)
      (fun r key hr => Frame.trans hr (fits_removeInstance r.2 id key)) s.instances.keys
      (Frame.refl m)

theorem fits_dropStaleInstances (id : SpaceId) : Fits m (m.dropStaleInstances id) :=
  foldl_keeps (P := Fits m)
    (fun m' s h => Frame.trans h (fits_removeEveryInstance m' s)) _ (Frame.refl m)

theorem fits_unlinkDeadBases : Fits m m.unlinkDeadBases.2 := by
  unfold unlinkDeadBases
  exact foldl_keeps (P := Fits m) (fun m' id h => Frame.trans h (fits_modifySpace m' id _)) _
    (Frame.refl m)

end Changes

/-! ## Conditions that actions ensure -/

/-- From models with `P` the action succeeds and ends with `Q`, provided that there is room for
every identity. -/
def Ensures {α : Type} (P : Model → Prop) (x : Action α) (Q : α → Model → Prop) : Prop :=
  ∀ m r m', x m = some (r, m') → Fits m m' ∧
    (m'.Addressable → P m → ∃ a, r = .ok a ∧ Q a m')

section Rules

variable {α β : Type} {P P' : Model → Prop} {Q Q' : α → Model → Prop} {x : Action α}

theorem Ensures.fits (h : Ensures P x Q) : Obeys Fits x := fun m r m' hx => (h m r m' hx).1

theorem Ensures.mono (h : Ensures P x Q) (hp : ∀ m, P' m → P m) (hq : ∀ a m, Q a m → Q' a m) :
    Ensures P' x Q' := by
  intro m r m' hx
  obtain ⟨hfits, hspec⟩ := h m r m' hx
  refine ⟨hfits, fun small hm => ?_⟩
  obtain ⟨a, rfl, ha⟩ := hspec small (hp m hm)
  exact ⟨a, rfl, hq a m' ha⟩

theorem ensures_pure {a : α} (h : ∀ m, P m → Q a m) : Ensures P (pure a) Q := by
  intro m r m' hx
  cases hx
  exact ⟨Frame.refl m, fun _ hm => ⟨a, rfl, h m hm⟩⟩

theorem ensures_bind {f : α → Action β} {S : β → Model → Prop} (hx : Ensures P x Q)
    (hf : ∀ a, Ensures (Q a) (f a) S) : Ensures P (x >>= f) S := by
  intro m r m' h
  rcases (bind_eq_some m).1 h with ⟨a, m₁, h₁, h₂⟩ | ⟨e, h₁, rfl⟩
  · obtain ⟨hfits₁, hspec₁⟩ := hx m _ m₁ h₁
    obtain ⟨hfits₂, hspec₂⟩ := hf a m₁ r m' h₂
    refine ⟨Frame.trans hfits₁ hfits₂, fun small hm => ?_⟩
    obtain ⟨b, heq, hq⟩ := hspec₁ (hfits₂.addressable small) hm
    cases heq
    exact hspec₂ small hq
  · obtain ⟨hfits, hspec⟩ := hx m _ m' h₁
    refine ⟨hfits, fun small hm => ?_⟩
    obtain ⟨b, heq, -⟩ := hspec small hm
    cases heq

theorem ensures_read {f : Model → Except Failure α}
    (h : ∀ m, P m → ∃ a, f m = .ok a ∧ Q a m) : Ensures P (read f) Q := by
  intro m r m' hx
  cases hx
  refine ⟨Frame.refl m, fun _ hm => ?_⟩
  obtain ⟨a, ha, hq⟩ := h m hm
  exact ⟨a, ha, hq⟩

theorem ensures_modify {f : Model → Model} {Q : Unit → Model → Prop} (fits : ∀ m, Fits m (f m))
    (h : ∀ m, (f m).Addressable → P m → Q () (f m)) : Ensures P (modify f) Q := by
  intro m r m' hx
  cases hx
  exact ⟨fits m, fun small hm => ⟨(), rfl, h m small hm⟩⟩

theorem ensures_update {f : Model → α × Model} (fits : ∀ m, Fits m (f m).2)
    (h : ∀ m, (f m).2.Addressable → P m → Q (f m).1 (f m).2) : Ensures P (update f) Q := by
  intro m r m' hx
  cases hx
  exact ⟨fits m, fun small hm => ⟨(f m).1, rfl, h m small hm⟩⟩

theorem append_assoc (a b c : Changes) : a ++ b ++ c = a ++ (b ++ c) := by
  show Changes.append (Changes.append a b) c = Changes.append a (Changes.append b c)
  simp only [Changes.append, Nat.add_assoc, Bool.or_assoc, List.append_assoc]

theorem append_empty (a : Changes) : a ++ {} = a := by
  show Changes.append a {} = a
  simp only [Changes.append, Nat.add_zero, Bool.or_false, List.append_nil]

theorem empty_append (a : Changes) : {} ++ a = a := by
  show Changes.append {} a = a
  simp only [Changes.append, Nat.zero_add, Bool.false_or, List.nil_append]

/-- Things are done one after the other, each of which leaves what the rest needs. -/
theorem ensures_collect {f : α → Action Changes} {P : List α → Changes → Model → Prop}
    (step : ∀ a rest before, Ensures (P (a :: rest) before) (f a)
      fun changes => P rest (before ++ changes))
    (l : List α) (before : Changes) :
    Ensures (P l before) (collect f l) fun changes => P [] (before ++ changes) := by
  induction l generalizing before with
  | nil =>
    refine ensures_pure fun m hm => ?_
    rw [append_empty]
    exact hm
  | cons a l ih =>
    refine ensures_bind (step a l before) fun first => ensures_bind (ih (before ++ first)) fun more => ?_
    refine ensures_pure fun m hm => ?_
    rw [← append_assoc]
    exact hm

end Rules

end Recalc.Model
