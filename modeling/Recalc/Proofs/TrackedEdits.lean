import Recalc.Proofs.EditLaws
import Recalc.Proofs.TrackedEvaluation

set_option autoImplicit false

/-!
# Edits keep models tracked

Whatever is done to the definitions of a model, and whether it succeeds or fails, the model is
tracked afterwards if it was before and nothing was under evaluation.
-/

namespace Recalc.Model

open Recalc.Action

abbrev Calm (m : Model) : Prop := m.Resting fun _ => False

theorem obeys_calm_of_under {α : Type} {x : Action α}
    (h : Obeys (Under (Tracked fun _ => False) Retains) x) : Obeys (Keeps Calm) x := by
  intro m r m' hx hm
  obtain ⟨ht, hretains⟩ := h m r m' hx hm.toTracked
  exact ⟨ht, hretains.stack.trans hm.idle⟩

theorem Widens.calm {m m' : Model} (h : Widens m m') : Keeps Calm m m' := fun hm => h.resting hm

theorem ForgetsSome.calm {m m' : Model} (h : ForgetsSome m m') : Keeps Calm m m' :=
  fun hm => h.resting hm

theorem widens_record (m : Model) (id : SpaceId) (f : Space → Space)
    (hf : ∀ s, (f s).instances = s.instances) : Widens m (m.modifySpace id f) :=
  widens_modifySpace m id f fun s _ k hk => by rw [hf s, hk]

theorem editFrame_calm : EditFrame (Keeps Calm) where
  frame := inferInstance
  forget h := h.calm
  addSpace m s _ _ := (widens_addSpace m s).calm
  addCells m c hc := (widens_addCells m c hc).calm
  addRef m r := (widens_addRef m r).calm
  modifySpace m id f hf := (widens_record m id f fun s => (hf s).instances).calm
  declare m id f hf := (widens_record m id f fun s => (hf s).1).calm
  permit m id _ := (widens_record m id _ fun _ => by rfl).calm
  listings m roots globals := (widens_listings m roots globals).calm
  recast m id _ := (widens_modifyCell m id _ fun _ => by rfl).calm
  redefine m id f hf := Frame.trans (widens_modifyCell m id f hf).calm
    (forgetsAll_invalidateCells _ _).forgetsSome.calm
  rebind m id f := Frame.trans (widens_modifyRef m id f).calm
    (forgetsAll_invalidate _ _).forgetsSome.calm
  destroyCells _ id hm := resting_destroyCells hm id
  destroyReference _ id hm := resting_destroyReference hm id
  destroySpace _ id hm := resting_destroySpace hm id
  removeInstance _ owner key hm := resting_removeInstance hm owner key

end Recalc.Model
