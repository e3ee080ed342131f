import Recalc.Proofs.ActionLaws
import Recalc.Proofs.ForgettingLaws
import Recalc.Request

set_option autoImplicit false

/-!
# What edits are made of

Every edit of the definitions, with the waves that follow it, is put together from a few kinds of
steps. A relation that holds across each of them is obeyed by all edits, whether they succeed or
fail.
-/

namespace Recalc

def Request.isEdit : Request → Bool
  | .createSpace .. | .removeSpace .. | .letSpaceBeEmpty .. | .document .. | .defineCells ..
  | .redefine .. | .removeCells .. | .letCellsBeEmpty .. | .dropOverride .. | .bindName ..
  | .rebind .. | .unbind .. | .bindGlobal .. | .rebindGlobal .. | .unbindGlobal ..
  | .linkBase .. | .unlinkBase .. | .declareParams .. => true
  | _ => false

/-- What decides which setting a space is under: the space around it, the counterpart of a replica,
and its own setting. -/
structure Space.Bearing where
  parent : Option SpaceId
  counterpart : Option SpaceId
  allowNone : Option Bool

def Space.bearing (s : Space) : Bearing where
  parent := s.parent
  counterpart :=
    match s.kind with
    | .static .. => none
    | .item _ counterpart _ _ | .dynamic counterpart _ => some counterpart
  allowNone := s.allowNone

/-- The instances of a space, its bearing and its parameters stay. -/
structure Space.Preserves (s s' : Space) : Prop where
  instances : s'.instances = s.instances
  bearing : s'.bearing = s.bearing
  signature : s'.signature = s.signature

theorem Space.Preserves.trans {s s' s'' : Space} (h : s.Preserves s') (h' : s'.Preserves s'') :
    s.Preserves s'' :=
  ⟨h'.instances.trans h.instances, h'.bearing.trans h.bearing, h'.signature.trans h.signature⟩

namespace Model

open Recalc.Action

/-- Every step of an edit that neither brings nor removes spaces, and neither brings nor changes
definitions, obeys the relation. -/
structure StepFrame (R : Model → Model → Prop) : Prop where
  frame : Frame R
  forget : ∀ {m m'}, ForgetsSome m m' → R m m'
  addRef : ∀ m r, R m (m.addRef r).2
  /-- Something other than its instances, its bearing and its parameters changes in a space. -/
  modifySpace : ∀ m id f, (∀ s, Space.Preserves s (f s)) → R m (m.modifySpace id f)
  listings : ∀ m roots globals, R m { m with roots, globals }
  /-- Cells become derived or authored. -/
  recast : ∀ m id flag, R m (m.modifyCell id fun c => { c with derived := flag })
  /-- A reference changes, and everything computed from it is forgotten. -/
  rebind : ∀ m id f, R m ((m.modifyRef id f).invalidate (.ref id)).2
  destroyCells : ∀ m id, R m (m.destroyCells id)
  destroyReference : ∀ m id, R m (m.destroyReference id)

/-- Definitions may change too. -/
structure DefinitionFrame (R : Model → Model → Prop) : Prop extends StepFrame R where
  /-- The definition of cells changes, and everything computed from them is forgotten. -/
  redefine : ∀ m id f, (∀ c, (f c).contents = c.contents) →
    R m ((m.modifyCell id f).invalidateCells id).2
  /-- The parameters of a space change as well. -/
  declare : ∀ m id f, (∀ s, (f s).instances = s.instances ∧ (f s).bearing = s.bearing) →
    R m (m.modifySpace id f)

/-- Spaces may go too. -/
structure LossFrame (R : Model → Model → Prop) : Prop extends StepFrame R where
  destroySpace : ∀ m id, R m (m.destroySpace id)
  removeInstance : ∀ m owner key, R m (m.removeInstance owner key).2

/-- Spaces may come and go, and their settings may change. -/
structure TrimFrame (R : Model → Model → Prop) : Prop extends LossFrame R where
  addSpace : ∀ m s, s.instances = .empty → s.signature = none → R m (m.addSpace s).2
  /-- The setting of a space changes. -/
  permit : ∀ m id allow, R m (m.modifySpace id fun s => { s with allowNone := allow })

/-- Every step of an edit that brings neither spaces nor cells obeys the relation. -/
structure ShrinkFrame (R : Model → Model → Prop) : Prop extends LossFrame R, DefinitionFrame R

/-- Every step of an edit that removes no spaces obeys the relation. -/
structure GrowFrame (R : Model → Model → Prop) : Prop extends DefinitionFrame R where
  addSpace : ∀ m s, s.instances = .empty → s.signature = none → R m (m.addSpace s).2
  addCells : ∀ m c, c.contents = .empty → R m (m.addCells c).2

structure EditFrame (R : Model → Model → Prop) : Prop extends TrimFrame R, DefinitionFrame R where
  addCells : ∀ m c, c.contents = .empty → R m (m.addCells c).2

/-- Edits take rounds: the steps that bring no definitions make one round, however many they are,
and deriving a space is one. -/
structure WaveFrame (T : Model → Model → Prop) (R : Nat → Model → Model → Prop) : Prop
    extends TrimFrame T where
  graded : Graded R
  round : ∀ {m m'}, T m m' → R 1 m m'
  derive : ∀ id, Obeys (R 1) (derive id)

/-- The steps that bring no cells make one round, however many they are, and cells come and are
redefined within a round. -/
structure RoundFrame (T : Model → Model → Prop) (R : Nat → Model → Model → Prop) : Prop
    extends TrimFrame T, DefinitionFrame T where
  graded : Graded R
  round : ∀ {m m'}, T m m' → R 1 m m'
  within : ∀ {m m'}, ForgetsSome m m' → R 0 m m'
  arrive : ∀ m c, c.contents = .empty → R 0 m (m.addCells c).2
  amend : ∀ m id f, (∀ c, (f c).contents = c.contents) →
    R 0 m ((m.modifyCell id f).invalidateCells id).2

/-- The rounds that an edit takes at most, when its waves take at most `fuel` steps. -/
def roundsOf (fuel : Nat) : Nat := 2 * fuel + 5

theorem foldl_obeys {α : Type} {R : Model → Model → Prop} [Frame R]
    {f : Model → α → Model} (h : ∀ m a, R m (f m a)) (l : List α) (m : Model) :
    R m (l.foldl f m) := by
  induction l generalizing m with
  | nil => exact Frame.refl m
  | cons a l ih => exact Frame.trans (h m a) (ih _)

theorem preserves_setBases (f : List SpaceId → List SpaceId) (s : Space) :
    s.Preserves (s.setBases f) := by
  unfold Space.setBases
  split
  next hkind => exact ⟨rfl, by simp only [Space.bearing, hkind], rfl⟩
  next => exact ⟨rfl, rfl, rfl⟩

theorem preserves_setImplicitBases (f : List SpaceId → List SpaceId) (s : Space) :
    s.Preserves (s.setImplicitBases f) := by
  unfold Space.setImplicitBases
  split
  next hkind => exact ⟨rfl, by simp only [Space.bearing, hkind], rfl⟩
  next => exact ⟨rfl, rfl, rfl⟩

theorem preserves_setDerived (flag : Bool) (s : Space) : s.Preserves (s.setDerived flag) := by
  unfold Space.setDerived
  split
  next hkind => exact ⟨rfl, by simp only [Space.bearing, hkind], rfl⟩
  next => exact ⟨rfl, rfl, rfl⟩

/-- Edits obey a relation that every step of them obeys, however many rounds they take. -/
theorem EditFrame.rounds {R : Model → Model → Prop} (H : EditFrame R) :
    RoundFrame R fun _ => R :=
  have := H.frame
  { H.toTrimFrame, H.toDefinitionFrame with
    graded := inferInstance
    round := id
    within := H.forget
    arrive := H.addCells
    amend := H.redefine }

theorem obeys_collect {α : Type} {R : Model → Model → Prop} [Frame R] {f : α → Action Changes}
    (h : ∀ a, Obeys R (f a)) (l : List α) : Obeys R (collect f l) := by
  induction l with
  | nil => exact obeys_pure _
  | cons a l ih => exact obeys_bind (h a) fun _ => obeys_bind ih fun _ => obeys_pure _

theorem obeys_admitName {R : Model → Model → Prop} [Frame R] (name : String) :
    Obeys R (admitName name) := by
  unfold Model.admitName
  split
  · exact obeys_fail _
  · exact obeys_pure _

/-- Steps obey two relations together. -/
theorem DefinitionFrame.and {R R' : Model → Model → Prop} (H : DefinitionFrame R)
    (H' : DefinitionFrame R') : DefinitionFrame fun m m' => R m m' ∧ R' m m' where
  frame := {
    refl := fun m => ⟨H.frame.refl m, H'.frame.refl m⟩
    trans := fun h h' => ⟨H.frame.trans h.1 h'.1, H'.frame.trans h.2 h'.2⟩ }
  forget h := ⟨H.forget h, H'.forget h⟩
  addRef m r := ⟨H.addRef m r, H'.addRef m r⟩
  modifySpace m id f hf := ⟨H.modifySpace m id f hf, H'.modifySpace m id f hf⟩
  listings m roots globals := ⟨H.listings m roots globals, H'.listings m roots globals⟩
  recast m id flag := ⟨H.recast m id flag, H'.recast m id flag⟩
  rebind m id f := ⟨H.rebind m id f, H'.rebind m id f⟩
  destroyCells m id := ⟨H.destroyCells m id, H'.destroyCells m id⟩
  destroyReference m id := ⟨H.destroyReference m id, H'.destroyReference m id⟩
  redefine m id f hf := ⟨H.redefine m id f hf, H'.redefine m id f hf⟩
  declare m id f hf := ⟨H.declare m id f hf, H'.declare m id f hf⟩

theorem DefinitionFrame.mono {R R' : Model → Model → Prop} [Frame R'] (H : DefinitionFrame R)
    (h : ∀ {m m'}, R m m' → R' m m') : DefinitionFrame R' where
  frame := inferInstance
  forget hf := h (H.forget hf)
  addRef m r := h (H.addRef m r)
  modifySpace m id f hf := h (H.modifySpace m id f hf)
  listings m roots globals := h (H.listings m roots globals)
  recast m id flag := h (H.recast m id flag)
  rebind m id f := h (H.rebind m id f)
  destroyCells m id := h (H.destroyCells m id)
  destroyReference m id := h (H.destroyReference m id)
  redefine m id f hf := h (H.redefine m id f hf)
  declare m id f hf := h (H.declare m id f hf)

/-- Cells are derived by bringing new ones or by redefining those that are there. -/
theorem obeys_deriveCells {R : Model → Model → Prop} [Frame R]
    (forget : ∀ {m m'}, ForgetsSome m m' → R m m')
    (addCells : ∀ m c, c.contents = .empty → R m (m.addCells c).2)
    (redefine : ∀ m id f, (∀ c, (f c).contents = c.contents) →
      R m ((m.modifyCell id f).invalidateCells id).2)
    (id : SpaceId) (name : String) (source : CellId) : Obeys R (deriveCells id name source) := by
  refine obeys_bind (obeys_read _) fun src => obeys_bind (obeys_read _) fun s => ?_
  split
  · refine obeys_bind (obeys_modify fun m => ?_) fun _ => obeys_pure _
    exact Frame.trans (addCells m _ rfl) (forget (forgetsSome_hideGlobal _ name))
  · refine obeys_bind (obeys_read _) fun current => ?_
    split
    · exact obeys_bind (obeys_modify fun m => redefine m _ _ fun _ => by rfl) fun _ => obeys_pure _
    · exact obeys_pure _

namespace StepFrame

variable {R : Model → Model → Prop} (H : StepFrame R)
include H

/-! ## Steps -/

theorem hideGlobal (m : Model) (name : String) : R m (m.hideGlobal name) :=
  H.forget (forgetsSome_hideGlobal m name)

theorem invalidateSpace (m : Model) (id : SpaceId) : R m (m.invalidateSpace id).2 :=
  H.forget (forgetsSome_invalidateSpace m id)

theorem addChild (addSpace : ∀ m s, s.instances = .empty → s.signature = none →
    R m (m.addSpace s).2) (m : Model) (parent : SpaceId) {s : Space} (hs : s.instances = .empty)
    (hsig : s.signature = none) : R m (m.addChild parent s).2 :=
  H.frame.trans (addSpace m s hs hsig)
    (H.modifySpace _ _ _ fun _ => by exact ⟨rfl, rfl, rfl⟩)

theorem unlinkDeadBases (m : Model) : R m m.unlinkDeadBases.2 := by
  have := H.frame
  refine foldl_obeys (fun m id => H.modifySpace m id _ fun s => ?_) _ m
  exact (preserves_setBases _ s).trans (preserves_setImplicitBases _ _)

/-! ## Derivation -/

theorem dropCells (id : SpaceId) (heritage : Heritage) (e : String × CellId) :
    Obeys R (dropCells id heritage e) := by
  have := H.frame
  unfold Model.dropCells
  split
  · exact obeys_pure _
  · refine obeys_bind (obeys_read _) fun c => ?_
    split
    · refine obeys_bind (obeys_modify fun m => ?_) fun _ => obeys_pure _
      exact Frame.trans (H.modifySpace m id _ fun _ => by exact ⟨rfl, rfl, rfl⟩)
        (H.destroyCells _ _)
    · exact obeys_pure _

theorem deriveRef (id : SpaceId) (name : String) (source : RefId) :
    Obeys R (deriveRef id name source) := by
  have := H.frame
  refine obeys_bind (obeys_read _) fun src => obeys_bind (obeys_read _) fun s => ?_
  split
  · refine obeys_bind (obeys_modify fun m => ?_) fun _ => obeys_pure _
    exact Frame.trans (H.addRef m _) (H.hideGlobal _ name)
  · refine obeys_bind (obeys_read _) fun current => ?_
    split
    · exact obeys_bind (obeys_modify fun m => H.rebind m _ _) fun _ => obeys_pure _
    · exact obeys_pure _

theorem dropRef (id : SpaceId) (heritage : Heritage) (e : String × RefId) :
    Obeys R (dropRef id heritage e) := by
  have := H.frame
  unfold Model.dropRef
  split
  · exact obeys_pure _
  · refine obeys_bind (obeys_read _) fun r => ?_
    split
    · refine obeys_bind (obeys_modify fun m => ?_) fun _ => obeys_pure _
      exact Frame.trans (H.modifySpace m id _ fun _ => by exact ⟨rfl, rfl, rfl⟩)
        (H.destroyReference _ _)
    · exact obeys_pure _

theorem deriveChild (addSpace : ∀ m s, s.instances = .empty → s.signature = none →
    R m (m.addSpace s).2) (id : SpaceId) (name : String) (sources : List SpaceId) :
    Obeys R (deriveChild id name sources) := by
  have := H.frame
  refine obeys_bind (obeys_read _) fun s => ?_
  split
  · have hfresh := preserves_setImplicitBases (fun _ => sources) (Space.fresh name (some id) true)
    refine obeys_bind (obeys_update fun m =>
      H.addChild addSpace m id hfresh.instances hfresh.signature) fun child => ?_
    exact obeys_bind (obeys_modify fun m => H.hideGlobal m name) fun _ => obeys_pure _
  · refine obeys_bind (obeys_read _) fun c => ?_
    split
    · exact obeys_bind (obeys_modify fun m => H.modifySpace m _ _ (preserves_setImplicitBases _))
        fun _ => obeys_pure _
    · exact obeys_pure _

/-! ## Edits without a wave -/

theorem document (id : SpaceId) (doc : Option String) : Obeys R (document id doc) := by
  have := H.frame
  exact obeys_bind (obeys_read _) fun _ =>
    obeys_modify fun m => H.modifySpace m id _ fun _ => by exact ⟨rfl, rfl, rfl⟩

theorem bindGlobal (name : String) (value : Value) : Obeys R (bindGlobal name value) := by
  have := H.frame
  refine obeys_bind (obeys_admitName name) fun _ => obeys_bind obeys_get fun m => ?_
  split
  · exact obeys_fail _
  · exact obeys_update fun m => H.addRef m _

end StepFrame

theorem DefinitionFrame.deriveSignature {R : Model → Model → Prop} (H : DefinitionFrame R)
    (id : SpaceId) (heritage : Heritage) : Obeys R (deriveSignature id heritage) := by
  have := H.frame
  refine obeys_bind (obeys_read _) fun s => ?_
  split
  · exact obeys_bind (obeys_modify fun m => H.declare m id _ fun _ => by exact ⟨rfl, rfl⟩) fun _ =>
      obeys_pure _
  · exact obeys_pure _

namespace LossFrame

variable {R : Model → Model → Prop} (H : LossFrame R)
include H

/-! ## Steps -/

theorem removeEveryInstance (m : Model) (id : SpaceId) : R m (m.removeEveryInstance id).2 := by
  have := H.frame
  have key : ∀ (keys : List Key) (r : Nat × Model), R r.2 (keys.foldl
      (fun r key => (if (r.2.removeInstance id key).1 then r.1 + 1 else r.1,
        (r.2.removeInstance id key).2)) r).2 := by
    intro keys
    induction keys with
    | nil => exact fun r => Frame.refl r.2
    | cons k keys ih =>
      exact fun r => Frame.trans (H.removeInstance r.2 id k) (ih (_, (r.2.removeInstance id k).2))
  unfold Model.removeEveryInstance
  split
  · exact Frame.refl m
  · exact key _ (0, m)

theorem dropStaleInstances (m : Model) (id : SpaceId) : R m (m.dropStaleInstances id) := by
  have := H.frame
  exact foldl_obeys H.removeEveryInstance _ m

theorem withdraw (id : SpaceId) (name : String) (m : Model) : R m (withdraw id name m) := by
  have := H.frame
  unfold Model.withdraw
  split
  · exact Frame.refl m
  · split
    · exact Frame.trans (H.modifySpace m id _ fun _ => by exact ⟨rfl, rfl, rfl⟩)
        (H.destroyCells _ _)
    · split
      · exact Frame.trans (H.modifySpace m id _ fun _ => by exact ⟨rfl, rfl, rfl⟩)
          (H.destroyReference _ _)
      · split
        · exact Frame.trans (H.modifySpace m id _ fun _ => by exact ⟨rfl, rfl, rfl⟩)
            (H.destroySpace _ _)
        · exact Frame.refl m

/-! ## Derivation -/

theorem dropChild (id : SpaceId) (heritage : Heritage) (e : String × SpaceId) :
    Obeys R (dropChild id heritage e) := by
  have := H.frame
  unfold Model.dropChild
  split
  · exact obeys_pure _
  · refine obeys_bind (obeys_read _) fun c => ?_
    split
    · refine obeys_bind (obeys_modify fun m => ?_) fun _ => obeys_pure _
      exact Frame.trans (H.modifySpace m id _ fun _ => by exact ⟨rfl, rfl, rfl⟩)
        (H.destroySpace _ _)
    · split
      · exact obeys_bind (obeys_modify fun m =>
          H.modifySpace m _ _ (preserves_setImplicitBases _)) fun _ => obeys_pure _
      · exact obeys_pure _

theorem dropStale (id : SpaceId) (changes : Changes) (m : Model) :
    R m (dropStale id changes m) := by
  have := H.frame
  have hinvalidate : R m (if changes.structural then (m.invalidateSpace id).2 else m) := by
    split
    · exact H.invalidateSpace m id
    · exact Frame.refl m
  unfold Model.dropStale
  dsimp only
  split
  · exact Frame.trans hinvalidate (H.dropStaleInstances _ id)
  · exact hinvalidate

theorem settle (id : SpaceId) (changes : Changes) : Obeys R (settle id changes) := by
  have := H.frame
  refine obeys_bind (obeys_modify (H.dropStale id changes)) fun _ => ?_
  split
  · exact obeys_update H.unlinkDeadBases
  · exact obeys_pure _

/-! ## Edits without a wave -/

theorem forgetSpaces (fuel : Nat) (stack : List SpaceId) (count : Nat) (m : Model) :
    R m (forgetSpaces fuel stack count m).2 := by
  have := H.frame
  induction fuel generalizing stack count m with
  | zero => exact Frame.refl m
  | succ fuel ih =>
    cases stack with
    | nil => exact Frame.refl m
    | cons id rest =>
      refine Frame.trans ?_ (ih _ _ _)
      exact Frame.trans (H.invalidateSpace m id) (H.removeEveryInstance _ id)

theorem forgetWithin (id : SpaceId) : Obeys R (forgetWithin id) := by
  have := H.frame
  exact obeys_bind (obeys_read _) fun _ => obeys_update fun m => H.forgetSpaces _ _ _ m

end LossFrame

namespace TrimFrame

variable {R : Model → Model → Prop} (H : TrimFrame R)
include H

theorem addChild (m : Model) (parent : SpaceId) {s : Space} (hs : s.instances = .empty)
    (hsig : s.signature = none) : R m (m.addChild parent s).2 :=
  H.toStepFrame.addChild H.addSpace m parent hs hsig

theorem letSpaceBeEmpty (id : SpaceId) (allow : Option Bool) :
    Obeys R (letSpaceBeEmpty id allow) := by
  have := H.frame
  refine obeys_bind (obeys_read _) fun _ => ?_
  refine obeys_bind (obeys_modify fun m => ?_) fun _ =>
    obeys_bind (H.forgetWithin id) fun _ => obeys_pure _
  exact Frame.trans (H.permit m id allow) (H.dropStaleInstances _ id)

/-- Deriving a space is one round: cells come first, and nothing comes once something goes. -/
theorem deriveMembers {S : Nat → Model → Model → Prop} [Graded S]
    (round : ∀ {m m'}, R m m' → S 1 m m') {id : SpaceId} {heritage : Heritage}
    (cells : ∀ e : String × CellId, Obeys (S 0) (deriveCells id e.1 e.2))
    (signature : Obeys R (deriveSignature id heritage)) :
    Obeys (S 1) (do
      let changes ← deriveMembers id heritage
      let losers ← Model.settle id changes
      return { changes with follow := changes.follow ++ losers }) := by
  have := H.frame
  unfold Model.deriveMembers
  simp only [bind_assoc]
  refine obeys_first (obeys_collect cells _) fun _ => Obeys.mono (R := R) ?_ round
  refine obeys_bind (obeys_read _) fun _ => ?_
  refine obeys_bind (obeys_collect (H.dropCells id heritage) _) fun _ => ?_
  refine obeys_bind
    (obeys_collect (fun e : String × RefId => H.deriveRef id e.1 e.2) _) fun _ => ?_
  refine obeys_bind (obeys_read _) fun _ => ?_
  refine obeys_bind (obeys_collect (H.dropRef id heritage) _) fun _ => ?_
  refine obeys_bind
    (obeys_collect (fun e : String × List SpaceId => H.deriveChild H.addSpace id e.1 e.2) _)
    fun _ => ?_
  refine obeys_bind (obeys_read _) fun _ => ?_
  refine obeys_bind (obeys_collect (H.dropChild id heritage) _) fun _ => ?_
  refine obeys_bind signature fun _ => obeys_bind (obeys_pure _) fun changes => ?_
  exact obeys_bind (H.settle id changes) fun _ => obeys_pure _

end TrimFrame

/-! ## Derivation in two phases -/

/-- Something comes, and something goes then. -/
def Phased (G S : Model → Model → Prop) (m m' : Model) : Prop := ∃ m₁, G m m₁ ∧ S m₁ m'

section Phases

variable {α β : Type} {G S : Model → Model → Prop}

theorem Phased.shrink [Frame S] {m m₁ m' : Model} (h : Phased G S m m₁) (hs : S m₁ m') :
    Phased G S m m' := by
  obtain ⟨m₂, hg, hs₂⟩ := h
  exact ⟨m₂, hg, Frame.trans hs₂ hs⟩

theorem phased_of_grow [Frame S] {m m' : Model} (h : G m m') : Phased G S m m' :=
  ⟨m', h, Frame.refl m'⟩

theorem phased_of_shrink [Frame G] {m m' : Model} (h : S m m') : Phased G S m m' :=
  ⟨m, Frame.refl m, h⟩

theorem obeys_shrink [Frame G] {x : Action α} (h : Obeys S x) : Obeys (Phased G S) x :=
  fun m r m' hx => phased_of_shrink (h m r m' hx)

theorem obeys_grow [Frame G] [Frame S] {x : Action α} {k : α → Action β} (hx : Obeys G x)
    (hk : ∀ a, Obeys (Phased G S) (k a)) : Obeys (Phased G S) (x >>= k) := by
  intro m r m' h
  rcases (bind_eq_some m).1 h with ⟨a, m₁, h₁, h₂⟩ | ⟨e, h₁, -⟩
  · obtain ⟨m₂, hg, hs⟩ := hk a m₁ r m' h₂
    exact ⟨m₂, Frame.trans (hx m _ m₁ h₁) hg, hs⟩
  · exact phased_of_grow (hx m _ m' h₁)

/-- When a space is derived, children come before any goes. -/
theorem derive_phased (HG : GrowFrame G) (HS : ShrinkFrame S) (id : SpaceId) :
    Obeys (Phased G S) (derive id) := by
  have := HG.frame
  have := HS.frame
  refine obeys_grow (obeys_read _) fun s => ?_
  split
  · exact obeys_shrink (obeys_pure _)
  · refine obeys_grow (obeys_read _) fun heritage => ?_
    unfold deriveMembers
    simp only [bind_assoc]
    have hcells := fun e : String × CellId =>
      obeys_deriveCells HG.forget HG.addCells HG.redefine id e.1 e.2
    refine obeys_grow (obeys_collect hcells _) fun _ => obeys_grow (obeys_read _) fun _ => ?_
    refine obeys_grow (obeys_collect (HG.dropCells id heritage) _) fun _ => ?_
    refine obeys_grow
      (obeys_collect (fun e : String × RefId => HG.deriveRef id e.1 e.2) _) fun _ => ?_
    refine obeys_grow (obeys_read _) fun _ => ?_
    refine obeys_grow (obeys_collect (HG.dropRef id heritage) _) fun _ => ?_
    have hchildren := fun e : String × List SpaceId => HG.deriveChild HG.addSpace id e.1 e.2
    refine obeys_grow (obeys_collect hchildren _) fun _ => obeys_shrink ?_
    refine obeys_bind (obeys_read _) fun _ => ?_
    refine obeys_bind (obeys_collect (HS.dropChild id heritage) _) fun _ => ?_
    refine obeys_bind (HS.deriveSignature id heritage) fun _ => ?_
    refine obeys_bind (obeys_pure _) fun changes => ?_
    exact obeys_bind (HS.settle id changes) fun _ => obeys_pure _

end Phases

namespace WaveFrame

variable {T : Model → Model → Prop} {R : Nat → Model → Model → Prop} (H : WaveFrame T R)
include H

/-- One round. -/
theorem trim {α : Type} {x : Action α} (h : Obeys T x) : Obeys (R 1) x :=
  h.mono H.round

theorem deriveFrom (fuel : Nat) (starts : List SpaceId) :
    Obeys (R fuel) (deriveFrom fuel starts) :=
  have := H.graded
  obeys_first obeys_get fun _ => obeys_wave H.derive _ _ _ _

/-- A round and a wave. -/
theorem thenDerive (fuel : Nat) (starts : List SpaceId) {f : Model → Model} (h : ∀ m, T m (f m)) :
    Obeys (R (fuel + 1)) (do
      modify f
      Model.deriveFrom fuel starts) :=
  have := H.graded
  obeys_seq (H.trim (obeys_modify h)) (fun _ => H.deriveFrom fuel starts) (by omega)

/-! ## Members -/

theorem settleChange (fuel : Nat) (id : SpaceId) :
    Obeys (R (fuel + 1)) (settleChange fuel id) := by
  have := H.frame
  refine H.thenDerive fuel [id] fun m => ?_
  exact Frame.trans (H.invalidateSpace m id) (H.dropStaleInstances _ id)

theorem takeBack (fuel : Nat) (id : SpaceId) (name : String) :
    Obeys (R (fuel + 2)) (takeBack fuel id name) := by
  have := H.graded
  refine obeys_seq (H.trim (obeys_modify (H.withdraw id name))) (fun _ => ?_) (j := fuel + 1)
    (by omega)
  exact obeys_seq (H.trim (obeys_update H.unlinkDeadBases)) (fun _ => H.deriveFrom _ _) (by omega)

theorem settleAddition (fuel : Nat) (id : SpaceId) (name : String) (starts : List SpaceId) :
    Obeys (R (2 * fuel + 3)) (settleAddition fuel id name starts) := by
  have := H.graded
  have := H.frame
  refine obeys_seq (j := 2 * fuel + 2) (H.trim (obeys_modify fun m => ?_)) (fun _ => ?_) (by omega)
  · exact Frame.trans (Frame.trans (H.invalidateSpace m id) (H.hideGlobal _ name))
      (H.dropStaleInstances _ id)
  · refine obeys_seq (j := fuel + 2) (obeys_attempt (H.deriveFrom fuel starts)) (fun r => ?_)
      (by omega)
    cases r with
    | ok s => exact obeys_any (obeys_pure _)
    | error e => exact obeys_last (H.takeBack fuel id name) fun _ => obeys_fail e

theorem removeCells (fuel : Nat) (id : CellId) :
    Obeys (R (roundsOf fuel)) (removeCells fuel id) := by
  have := H.graded
  have := H.frame
  refine obeys_first (obeys_read _) fun c => obeys_first (obeys_read _) fun _ => ?_
  split
  · exact obeys_first obeys_get fun _ => obeys_any (obeys_fail _)
  · refine obeys_seq (H.trim (obeys_modify fun m => ?_)) (fun _ => H.settleChange _ _)
      (by rw [roundsOf]; omega)
    exact Frame.trans (H.modifySpace m _ _ fun _ => by exact ⟨rfl, rfl, rfl⟩) (H.destroyCells _ id)

theorem dropOverride (fuel : Nat) (id : CellId) :
    Obeys (R (roundsOf fuel)) (dropOverride fuel id) := by
  have := H.graded
  refine obeys_first (obeys_read _) fun c => obeys_first (obeys_read _) fun _ => ?_
  split
  · exact obeys_any (obeys_pure _)
  · refine obeys_first (obeys_read _) fun heritage => ?_
    split
    · exact obeys_within (H.thenDerive fuel _ fun m => H.recast m id true)
        (by rw [roundsOf]; omega)
    · exact obeys_first obeys_get fun _ => obeys_any (obeys_fail _)

theorem bindName (fuel : Nat) (id : SpaceId) (name : String) (value : Value) (mode : RefMode) :
    Obeys (R (roundsOf fuel)) (bindName fuel id name value mode) := by
  have := H.graded
  refine obeys_first (obeys_admitName name) fun _ => obeys_first obeys_get fun m => ?_
  refine obeys_first (obeys_read _) fun s => obeys_first obeys_get fun m => ?_
  split
  · refine obeys_first (obeys_read _) fun c => ?_
    split
    · exact obeys_any (obeys_fail _)
    · refine obeys_seq (H.trim (obeys_modify fun m => H.rebind m _ _))
        (fun _ => obeys_last (H.deriveFrom _ _) fun _ => obeys_pure _) (by rw [roundsOf]; omega)
  · split
    · exact obeys_any (obeys_fail _)
    · exact obeys_seq (H.trim (obeys_update fun m => H.addRef m _))
        (fun _ => obeys_last (H.settleAddition _ _ _ _) fun _ => obeys_pure _)
        (by rw [roundsOf]; omega)

theorem rebindRef (fuel : Nat) (id : RefId) (value : Value) :
    Obeys (R (roundsOf fuel)) (Model.rebind fuel id value) := by
  have := H.graded
  have := H.frame
  refine obeys_first (obeys_read _) fun r => ?_
  split
  · refine obeys_within (H.trim ?_) (by rw [roundsOf]; omega)
    exact obeys_bind (obeys_modify fun m => H.rebind m _ _) fun _ => obeys_pure _
  · refine obeys_first (obeys_read _) fun _ => ?_
    exact obeys_within (H.thenDerive fuel _ fun m => H.rebind m _ _) (by rw [roundsOf]; omega)

theorem unbind (fuel : Nat) (id : RefId) : Obeys (R (roundsOf fuel)) (unbind fuel id) := by
  have := H.graded
  have := H.frame
  refine obeys_first (obeys_read _) fun r => ?_
  split
  · refine obeys_within (H.trim ?_) (by rw [roundsOf]; omega)
    refine obeys_bind (obeys_modify fun m => ?_) fun _ => obeys_pure _
    exact Frame.trans (H.listings m m.roots _) (H.destroyReference _ id)
  · refine obeys_first (obeys_read _) fun _ => ?_
    split
    · exact obeys_first obeys_get fun _ => obeys_any (obeys_fail _)
    · refine obeys_seq (H.trim (obeys_modify fun m => ?_)) (fun _ => H.settleChange _ _)
        (by rw [roundsOf]; omega)
      exact Frame.trans (H.modifySpace m _ _ fun _ => by exact ⟨rfl, rfl, rfl⟩)
        (H.destroyReference _ id)

theorem rebindGlobal (fuel : Nat) (name : String) (value : Value) :
    Obeys (R (roundsOf fuel)) (rebindGlobal fuel name value) :=
  have := H.graded
  obeys_first (obeys_read _) fun id => obeys_last (H.rebindRef fuel id value) fun _ => obeys_pure _

theorem unbindGlobal (fuel : Nat) (name : String) :
    Obeys (R (roundsOf fuel)) (unbindGlobal fuel name) :=
  have := H.graded
  obeys_first (obeys_read _) fun id => obeys_last (H.unbind fuel id) fun _ => obeys_pure _

/-! ## Spaces -/

theorem createSpace (fuel : Nat) (parent : Option SpaceId) (name : String) :
    Obeys (R (roundsOf fuel)) (createSpace fuel parent name) := by
  have := H.graded
  have := H.frame
  refine obeys_first (obeys_admitName name) fun _ => ?_
  cases parent with
  | none =>
    refine obeys_first obeys_get fun m => ?_
    split
    · exact obeys_any (obeys_fail _)
    · refine obeys_within (H.trim (obeys_update fun m => ?_)) (by rw [roundsOf]; omega)
      exact Frame.trans (H.addSpace m _ rfl rfl) (H.listings _ _ m.globals)
  | some parent =>
    refine obeys_first (obeys_read _) fun s => obeys_first obeys_get fun m => ?_
    split
    · refine obeys_first (obeys_read _) fun t => ?_
      split
      · refine obeys_within (H.trim ?_) (by rw [roundsOf]; omega)
        exact obeys_bind (obeys_modify fun m =>
          H.modifySpace m _ _ (preserves_setDerived false)) fun _ => obeys_pure _
      · exact obeys_any (obeys_fail _)
    · split
      · exact obeys_any (obeys_fail _)
      · exact obeys_seq (H.trim (obeys_update fun m => H.addChild m _ rfl rfl))
          (fun _ => obeys_last (H.settleAddition _ _ _ _) fun _ => obeys_pure _)
          (by rw [roundsOf]; omega)

theorem removeSpace (fuel : Nat) (id : SpaceId) :
    Obeys (R (roundsOf fuel)) (removeSpace fuel id) := by
  have := H.graded
  have hdestroy : Obeys T (modify (·.destroySpace id)) := obeys_modify fun m => H.destroySpace m id
  refine obeys_first (obeys_read _) fun s => ?_
  split
  · exact obeys_first obeys_get fun _ => obeys_any (obeys_fail _)
  · refine obeys_within (i := fuel + 5) ?_ (by rw [roundsOf]; omega)
    cases s.parent with
    | some p =>
      refine obeys_seq (j := fuel + 4) (H.trim (obeys_modify fun m => H.dropStaleInstances m p))
        (fun _ => obeys_first (obeys_read _) fun _ => ?_) (by omega)
      refine obeys_seq (j := fuel + 3)
        (H.trim (obeys_modify fun m => H.modifySpace m p _ fun _ => by exact ⟨rfl, rfl, rfl⟩))
        (fun _ => ?_) (by omega)
      refine obeys_seq (j := fuel + 2) (H.trim hdestroy) (fun _ => ?_) (by omega)
      refine obeys_seq (j := fuel + 1) (H.trim (obeys_update H.unlinkDeadBases)) (fun _ => ?_)
        (by omega)
      exact H.thenDerive fuel _ fun m => H.invalidateSpace m p
    | none =>
      refine obeys_seq (j := fuel + 4)
        (H.trim (obeys_modify fun m => H.listings m _ m.globals)) (fun _ => ?_) (by omega)
      refine obeys_seq (j := fuel + 3) (H.trim hdestroy) (fun _ => ?_) (by omega)
      exact obeys_seq (H.trim (obeys_update H.unlinkDeadBases)) (fun _ => H.deriveFrom _ _)
        (by omega)

theorem linkBase (fuel : Nat) (id base : SpaceId) :
    Obeys (R (roundsOf fuel)) (linkBase fuel id base) := by
  have := H.graded
  refine obeys_first (obeys_read _) fun s => obeys_first (obeys_read _) fun b => ?_
  refine obeys_first obeys_get fun m => ?_
  split
  · exact obeys_any (obeys_fail _)
  · split
    · exact obeys_any (obeys_pure _)
    · split
      · exact obeys_any (obeys_fail _)
      · have hbases : ∀ f m, T m (m.modifySpace id (Space.setBases f)) :=
          fun f m => H.modifySpace m id _ (preserves_setBases f)
        refine obeys_seq (j := 2 * fuel + 1) (H.trim (obeys_modify (hbases _))) (fun _ => ?_)
          (by rw [roundsOf]; omega)
        refine obeys_seq (j := fuel + 1) (obeys_attempt (H.deriveFrom fuel [id])) (fun r => ?_)
          (by omega)
        cases r with
        | ok summary => exact obeys_any (obeys_pure _)
        | error e =>
          refine obeys_seq (j := fuel) (H.trim (obeys_modify (hbases _))) (fun _ => ?_) (by omega)
          exact obeys_last (H.deriveFrom _ _) fun _ => obeys_fail e

theorem unlinkBase (fuel : Nat) (id base : SpaceId) :
    Obeys (R (roundsOf fuel)) (unlinkBase fuel id base) := by
  have := H.graded
  refine obeys_first (obeys_read _) fun s => obeys_first obeys_get fun m => ?_
  split
  · exact obeys_any (obeys_fail _)
  · exact obeys_within (H.thenDerive fuel _ fun m => H.modifySpace m id _ (preserves_setBases _))
      (by rw [roundsOf]; omega)

end WaveFrame

namespace RoundFrame

variable {T : Model → Model → Prop} {R : Nat → Model → Model → Prop} (H : RoundFrame T R)
include H

theorem deriveCells (id : SpaceId) (name : String) (source : CellId) :
    Obeys (R 0) (deriveCells id name source) :=
  have := H.graded
  obeys_deriveCells H.within H.arrive H.amend id name source

theorem obeys_derive (id : SpaceId) : Obeys (R 1) (derive id) := by
  have := H.graded
  refine obeys_first (obeys_read _) fun s => ?_
  split
  · exact obeys_any (obeys_pure _)
  · exact obeys_first (obeys_read _) fun heritage =>
      H.toTrimFrame.deriveMembers H.round (fun e => H.deriveCells id e.1 e.2)
        (H.deriveSignature id heritage)

/-- The waves of edits that take rounds. -/
theorem waves : WaveFrame T R where
  toTrimFrame := H.toTrimFrame
  graded := H.graded
  round := H.round
  derive := H.obeys_derive

theorem defineCells (fuel : Nat) (id : SpaceId) (name : String) (formula : Option Formula) :
    Obeys (R (roundsOf fuel)) (defineCells fuel id name formula) := by
  have := H.graded
  refine obeys_first (obeys_admitName name) fun _ => obeys_first (obeys_read _) fun s => ?_
  refine obeys_first obeys_get fun m => ?_
  split
  · refine obeys_first (obeys_read _) fun c => ?_
    split
    · exact obeys_any (obeys_fail _)
    · refine obeys_first (obeys_modify fun m => H.amend m _ _ fun _ => by rfl) fun _ => ?_
      exact obeys_within (obeys_last (H.waves.settleChange fuel id) fun _ => obeys_pure _)
        (by rw [roundsOf]; omega)
  · split
    · exact obeys_any (obeys_fail _)
    · refine obeys_first (obeys_update fun m => H.arrive m _ rfl) fun new => ?_
      exact obeys_within (obeys_last (H.waves.settleAddition _ _ _ _) fun _ => obeys_pure _)
        (by rw [roundsOf]; omega)

theorem redefineCells (fuel : Nat) (id : CellId) (formula : Formula) :
    Obeys (R (roundsOf fuel)) (Model.redefine fuel id formula) := by
  have := H.graded
  have := H.frame
  refine obeys_first (obeys_read _) fun c => obeys_first (obeys_read _) fun _ => ?_
  refine obeys_within (H.waves.thenDerive fuel [c.space] fun m => ?_) (by rw [roundsOf]; omega)
  exact Frame.trans (H.redefine m id _ fun _ => by rfl) (H.dropStaleInstances _ _)

theorem letCellsBeEmpty (fuel : Nat) (id : CellId) (allow : Option Bool) :
    Obeys (R (roundsOf fuel)) (letCellsBeEmpty fuel id allow) := by
  have := H.graded
  have := H.frame
  refine obeys_first (obeys_read _) fun c => obeys_first (obeys_read _) fun _ => ?_
  refine obeys_seq (H.waves.trim (obeys_modify fun m => ?_))
    (fun _ => obeys_last (H.waves.deriveFrom _ _) fun _ => obeys_pure _) (by rw [roundsOf]; omega)
  exact Frame.trans (H.redefine m id _ fun _ => by rfl) (H.dropStaleInstances _ _)

theorem declareParams (fuel : Nat) (id : SpaceId) (params : List Param)
    (binder : Option Formula) :
    Obeys (R (roundsOf fuel)) (declareParams fuel id params binder) := by
  have := H.graded
  have := H.frame
  refine obeys_first (obeys_read _) fun _ => ?_
  refine obeys_seq (H.waves.trim (obeys_modify fun m => ?_))
    (fun _ => obeys_last (H.waves.deriveFrom _ _) fun _ => obeys_pure _) (by rw [roundsOf]; omega)
  exact Frame.trans (H.declare m id _ fun _ => by exact ⟨rfl, rfl⟩) (H.dropStaleInstances _ id)

theorem request (fuel : Nat) (held : List Handle) {q : Request} (hedit : q.isEdit = true) :
    Obeys (R (roundsOf fuel)) (q.run fuel held) := by
  have := H.graded
  have hone : ∀ {α : Type} {x : Action α}, Obeys T x → Obeys (R (roundsOf fuel)) x := fun h =>
    obeys_within (H.waves.trim h) (by rw [roundsOf]; omega)
  cases q with
  | createSpace parent name => exact obeys_reply _ (H.waves.createSpace fuel parent name)
  | removeSpace id => exact obeys_reply _ (H.waves.removeSpace fuel id)
  | letSpaceBeEmpty id allow => exact obeys_reply _ (hone (H.letSpaceBeEmpty id allow))
  | document id doc => exact obeys_reply _ (hone (H.document id doc))
  | defineCells id name formula => exact obeys_reply _ (H.defineCells fuel id name formula)
  | redefine id formula => exact obeys_reply _ (H.redefineCells fuel id formula)
  | removeCells id => exact obeys_reply _ (H.waves.removeCells fuel id)
  | letCellsBeEmpty id allow => exact obeys_reply _ (H.letCellsBeEmpty fuel id allow)
  | dropOverride id => exact obeys_reply _ (H.waves.dropOverride fuel id)
  | bindName id name value mode => exact obeys_reply _ (H.waves.bindName fuel id name value mode)
  | rebind id value => exact obeys_reply _ (H.waves.rebindRef fuel id value)
  | unbind id => exact obeys_reply _ (H.waves.unbind fuel id)
  | bindGlobal name value => exact obeys_reply _ (hone (H.bindGlobal name value))
  | rebindGlobal name value => exact obeys_reply _ (H.waves.rebindGlobal fuel name value)
  | unbindGlobal name => exact obeys_reply _ (H.waves.unbindGlobal fuel name)
  | linkBase id base => exact obeys_reply _ (H.waves.linkBase fuel id base)
  | unlinkBase id base => exact obeys_reply _ (H.waves.unlinkBase fuel id base)
  | declareParams id params binder => exact obeys_reply _ (H.declareParams fuel id params binder)
  | _ => cases hedit



end RoundFrame

theorem EditFrame.request {R : Model → Model → Prop} (H : EditFrame R) (fuel : Nat)
    (held : List Handle) {q : Request} (hedit : q.isEdit = true) : Obeys R (q.run fuel held) :=
  H.rounds.request fuel held hedit

end Model

end Recalc
