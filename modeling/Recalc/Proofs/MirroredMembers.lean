import Recalc.Proofs.MirroredWaves
import Recalc.Edit.Cells
import Recalc.Edit.Inheritance
import Recalc.Edit.Reference
import Recalc.Edit.Space

set_option autoImplicit false

/-!
# Edits of members keep mirrors

An edit changes the definition of one static space, drops the instances around the space and starts
a wave. When the wave that follows a new member fails, there are no instances around the space
while the member is taken back.
-/

namespace Recalc.Model

open Recalc.Action

/-- The model is faithful if there is room for every identity. -/
abbrev Proper (m : Model) : Prop := Upright (fun _ => False) m

structure Follows (P : Model → Prop) (m₀ m : Model) : Prop where
  holds : P m
  fits : Fits m₀ m

/-- One static space was edited, and the instances around it may be stale. -/
def Edited (id : SpaceId) (m : Model) : Prop :=
  m.Addressable →
    (∃ around changes, Deriving id (fun _ => False) around [] [] changes m) ∧ m.Arranged

section Following

variable {m₀ m m' : Model} {id : SpaceId} {sites : SpaceId → Prop}

theorem Follows.start {P : Model → Prop} (h : P m) : Follows P m m := ⟨h, Frame.refl m⟩

theorem Follows.stop {P P' : Model → Prop} (h : Follows P m₀ m) (hp : P m → P' m) :
    Follows P' m₀ m := ⟨hp h.holds, h.fits⟩

theorem obeys_of_ends {α : Type} {x : Action α}
    (h : ∀ m, Proper m → Ends (Follows Proper m) x m) : Obeys (Under Proper Fits) x := by
  intro m r m' hx hm
  have hends := h m hm r m' hx
  exact ⟨hends.holds, hends.fits⟩

theorem ends_of_obeys {α : Type} {P : Model → Prop} {x : Action α} (hx : Obeys (Under P Fits) x)
    (h : Follows P m₀ m) : Ends (Follows P m₀) x m := by
  intro r m' hrun
  obtain ⟨hp, hfits⟩ := hx m r m' hrun h.holds
  exact ⟨hp, Frame.trans h.fits hfits⟩

/-- A change after which a condition holds where there is room. -/
theorem Follows.step {P P' : Model → Prop}
    (h : Follows (fun m => m.Addressable → P m) m₀ m) (fits : Fits m m')
    (hp : m'.Addressable → P m → P' m') : Follows (fun m => m.Addressable → P' m) m₀ m' :=
  ⟨fun small => hp small (h.holds (fits.addressable small)), Frame.trans h.fits fits⟩

theorem Upright.proper (h : Upright sites m) : Proper m := fun small =>
  (h small).mono fun _ hf => hf.elim

theorem Faithful.begin (h : m.Faithful sites) {s : Space} (hs : m.spaces.get? id = some s)
    (hstatic : s.isStatic = true) : Deriving id sites (· ∈ m.ancestry id) [] [] {} m :=
  ⟨h.owned, ⟨s, hs, hstatic⟩, fun _ => Iff.rfl, h.mirrored.mono fun _ hf => hf.elim,
    fun x hx => .inl (h.vacant x hx), by simp, by simp⟩

theorem Follows.edited (h : Follows Proper m₀ m) (fits : Fits m m')
    (hstep : m'.Addressable → m.Faithful (fun _ => False) →
      (∃ around changes, Deriving id (fun _ => False) around [] [] changes m') ∧ m'.Arranged) :
    Follows (Edited id) m₀ m' := h.step fits hstep

theorem Follows.alike (h : Follows (Edited id) m₀ m) (halike : Alike m m') :
    Follows (Edited id) m₀ m' := by
  refine h.step halike.fits fun _ ⟨⟨around, changes, hd⟩, ha⟩ => ?_
  exact ⟨⟨around, changes, hd.alike halike⟩, halike.drops.thins.arranged hd.owned ha⟩

theorem Follows.dropped (h : Follows (Edited id) m₀ m) :
    Follows (Upright (· = id)) m₀ (m.dropStaleInstances id) := by
  refine h.step (fits_dropStaleInstances m id) fun _ ⟨⟨around, changes, hd⟩, ha⟩ => ?_
  exact (hd.dropped ha).mono fun _ => .inr

theorem ends_deriveFrom (fuel : Nat) (starts : List SpaceId) (h : Follows (Upright sites) m₀ m) :
    Ends (Follows (Upright sites) m₀) (deriveFrom fuel starts) m :=
  ends_of_obeys (upright_deriveFrom fuel starts) h

theorem ends_settleChange (fuel : Nat) (h : Follows (Edited id) m₀ m) :
    Ends (Follows Proper m₀) (settleChange fuel id) m := by
  refine ends_modify (ends_deriveFrom fuel [id] ?_)
  exact (h.alike (forgetsSome_invalidateSpace m id).alike).dropped.stop Upright.proper

/-! ## Members are taken back -/

theorem faithful_withdraw (h : m.Faithful (· = id)) (name : String) :
    (withdraw id name m).Faithful (· = id) := by
  unfold withdraw
  split
  next => exact h
  next s hs =>
    have hstatic := (h.vacant id rfl s hs).1
    have hbegin := h.begin hs hstatic
    split
    next c hc =>
      have ha := (severs_cells h.owned hs hstatic hc).thins.arranged h.owned h.arranged
      exact (hbegin.dropCells hs hc).vacated ha rfl
    next =>
      split
      next r hr =>
        have ha := (severs_reference h.owned hs hstatic hr).thins.arranged h.owned h.arranged
        exact (hbegin.dropRef hs hr).vacated ha rfl
      next =>
        split
        next c hc =>
          have ha := (severs_child h.owned hs hstatic hc).thins.arranged h.owned h.arranged
          exact (hbegin.dropChild hs hc .memberRemoved (.inl rfl)).1.vacated ha rfl
        next => exact h

theorem fits_withdraw (m : Model) (id : SpaceId) (name : String) : Fits m (withdraw id name m) := by
  unfold withdraw
  split
  next => exact Frame.refl m
  next =>
    split
    next c _ => exact Frame.trans (fits_modifySpace m id _) (fits_destroyCells _ c)
    next =>
      split
      next r _ => exact Frame.trans (fits_modifySpace m id _) (fits_destroyReference _ r)
      next =>
        split
        next c _ => exact Frame.trans (fits_modifySpace m id _) (fits_destroySpace _ c)
        next => exact Frame.refl m

theorem ends_takeBack (fuel : Nat) (name : String) (h : Follows (Upright (· = id)) m₀ m) :
    Ends (Follows Proper m₀) (takeBack fuel id name) m := by
  refine ends_modify (ends_update ?_)
  have hwithdraw := h.step (fits_withdraw m id name) fun _ hm => faithful_withdraw hm name
  refine ends_deriveFrom fuel _ (Follows.stop (P := Upright (· = id)) ?_ Upright.proper)
  exact hwithdraw.step (fits_unlinkDeadBases _) fun _ hm => hm.unlinkDeadBases

theorem ends_settleAddition (fuel : Nat) (name : String) (starts : List SpaceId)
    (h : Follows (Edited id) m₀ m) :
    Ends (Follows Proper m₀) (settleAddition fuel id name starts) m := by
  have hdropped := ((h.alike (forgetsSome_invalidateSpace m id).alike).alike
    (forgetsSome_hideGlobal _ name).alike).dropped
  refine ends_modify (ends_attempt (ends_deriveFrom fuel starts hdropped) fun r m' hm' => ?_)
  cases r with
  | ok => exact ends_pure (hm'.stop Upright.proper)
  | error e =>
    exact ends_bind (ends_takeBack fuel name hm') (fun _ _ hm => ends_fail hm) fun _ hm => hm

end Following

end Recalc.Model
