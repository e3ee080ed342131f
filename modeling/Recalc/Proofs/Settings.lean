import Recalc.Proofs.Culling
import Recalc.Proofs.Evaluations
import Recalc.Proofs.MirroredReplicas

set_option autoImplicit false

/-!
# Settings in force

Whether cells may be empty is up to their own setting, else to that of the nearest space with one
around their static counterpart, else to the model. What is looked up on the way stays as it is
while spaces only come, and it stays, as far as it is left, while spaces only go. So one setting is
in force before and after when spaces come first and go then.
-/

namespace Recalc.Model

open Recalc.Action

variable {m m₁ m' : Model}

/-! ## The spaces of two models -/

structure SameBearings (m m' : Model) : Prop where
  spaces : ∀ id, (m'.spaces.get? id).map Space.bearing = (m.spaces.get? id).map Space.bearing
  config : m'.config = m.config

/-- Every space of `m'` is one of `m`, of the same bearing, under the same general setting. -/
structure Houses (m m' : Model) : Prop where
  spaces : ∀ id s', m'.spaces.get? id = some s' →
    ∃ s, m.spaces.get? id = some s ∧ s'.bearing = s.bearing
  config : m'.config = m.config

instance : Frame SameBearings where
  refl _ := ⟨fun _ => rfl, rfl⟩
  trans h h' := ⟨fun id => (h'.spaces id).trans (h.spaces id), h'.config.trans h.config⟩

instance : Frame Houses where
  refl _ := ⟨fun _ s hs => ⟨s, hs, rfl⟩, rfl⟩
  trans h h' := by
    refine ⟨fun id s₃ hs₃ => ?_, h'.config.trans h.config⟩
    obtain ⟨s₂, hs₂, heq₂⟩ := h'.spaces id s₃ hs₃
    obtain ⟨s₁, hs₁, heq₁⟩ := h.spaces id s₂ hs₂
    exact ⟨s₁, hs₁, heq₂.trans heq₁⟩

theorem SameBearings.symm (h : SameBearings m m') : SameBearings m' m :=
  ⟨fun id => (h.spaces id).symm, h.config.symm⟩

theorem SameBearings.houses (h : SameBearings m m') : m.Houses m' := by
  refine ⟨fun id s' hs' => ?_, h.config⟩
  have hid := h.spaces id
  rw [hs', Option.map_some] at hid
  obtain ⟨s, hs, heq⟩ := Option.map_eq_some_iff.1 hid.symm
  exact ⟨s, hs, heq.symm⟩

theorem sameBearings_of_eq (hspaces : m'.spaces = m.spaces) (hconfig : m'.config = m.config) :
    SameBearings m m' :=
  ⟨fun _ => by rw [hspaces], hconfig⟩

theorem ForgetsSome.sameBearings (h : ForgetsSome m m') : SameBearings m m' :=
  sameBearings_of_eq h.alike.spaces h.sameSettings.config

theorem counterpart_of_bearing {id : SpaceId} {s : Space} (hs : m.spaces.get? id = some s) :
    m.counterpart id = .ok (s.bearing.counterpart.getD id) := by
  unfold counterpart
  rw [space_eq_ok.2 hs]
  show Except.ok _ = _
  unfold Space.bearing
  cases s.kind <;> rfl

section Changes

variable (m)

theorem sameBearings_modifySpace (id : SpaceId) {f : Space → Space}
    (hf : ∀ s, (f s).bearing = s.bearing) : SameBearings m (m.modifySpace id f) := by
  refine ⟨fun other => ?_, rfl⟩
  rw [show (m.modifySpace id f).spaces.get? other = _ from Pool.get?_modify m.spaces id other f]
  split
  next heq => rw [heq, Option.map_map, show Space.bearing ∘ f = Space.bearing from funext hf]
  next => rfl

theorem sameBearings_addRef (r : Reference) : SameBearings m (m.addRef r).2 := by
  cases h : r.owner with
  | some owner =>
    rw [addRef_of_owner m h]
    have hlisted := sameBearings_modifySpace { m with refs := (m.refs.insert r).2 } owner
      (f := fun s => { s with refs := s.refs.insert r.name (m.refs.insert r).1 }) fun _ => rfl
    exact ⟨hlisted.spaces, rfl⟩
  | none =>
    rw [addRef_of_global m h]
    exact ⟨fun _ => rfl, rfl⟩

theorem sameBearings_addCells (c : Cells) : SameBearings m (m.addCells c).2 := by
  have hlisted := sameBearings_modifySpace { m with cells := (m.cells.insert c).2 } c.space
    (f := fun s => { s with cells := s.cells.insert c.name (m.cells.insert c).1 }) fun _ => rfl
  exact ⟨hlisted.spaces, rfl⟩

/-- No step of an edit changes a bearing, spaces that come or go and settings of spaces apart. -/
theorem definitionFrame_sameBearings : DefinitionFrame SameBearings where
  frame := inferInstance
  forget h := h.sameBearings
  addRef := sameBearings_addRef
  modifySpace m id _ hf := sameBearings_modifySpace m id fun s => (hf s).bearing
  declare m id _ hf := sameBearings_modifySpace m id fun s => (hf s).2
  listings _ _ _ := ⟨fun _ => rfl, rfl⟩
  recast _ _ _ := ⟨fun _ => rfl, rfl⟩
  redefine m id f _ :=
    have hforget := (forgetsAll_invalidateCells (m.modifyCell id f) id).forgetsSome.sameBearings
    ⟨hforget.spaces, hforget.config⟩
  rebind m id f :=
    have hforget := (forgetsAll_invalidate (m.modifyRef id f) (.ref id)).forgetsSome.sameBearings
    ⟨hforget.spaces, hforget.config⟩
  destroyCells m id :=
    sameBearings_of_eq (spaces_destroyCells m id) (sameSettings_destroyCells m id).config
  destroyReference m id :=
    sameBearings_of_eq (spaces_destroyReference m id) (sameSettings_destroyReference m id).config

theorem houses_addSpace (tidy : m.Tidy) (s : Space) : (m.addSpace s).2.Houses m := by
  refine ⟨fun id t ht => ⟨t, ?_, rfl⟩, rfl⟩
  show (m.spaces.insert s).2.get? id = some t
  rcases Pool.insert_cases tidy.spaces s with ⟨hnone, hfresh⟩ | hsame
  · rw [hfresh, if_neg]
    · exact ht
    · rintro rfl
      rw [hnone] at ht
      contradiction
  · rw [hsame, ht]

theorem houses_eraseSpace (id : SpaceId) : m.Houses { m with spaces := m.spaces.erase id } := by
  refine ⟨fun other s' hs' => ?_, rfl⟩
  replace hs' := (Pool.get?_erase m.spaces id other).symm.trans hs'
  split at hs'
  · contradiction
  · exact ⟨s', hs', rfl⟩

theorem removalFrame_houses : RemovalFrame Houses where
  frame := inferInstance
  forget m n := by
    unfold forget
    split
    · exact SameBearings.houses ⟨fun _ => rfl, rfl⟩
    · exact SameBearings.houses ⟨fun _ => rfl, rfl⟩
  prune _ _ := SameBearings.houses ⟨fun _ => rfl, rfl⟩
  eraseSpace := houses_eraseSpace
  eraseCells _ _ := SameBearings.houses ⟨fun _ => rfl, rfl⟩
  eraseRef _ _ := SameBearings.houses ⟨fun _ => rfl, rfl⟩
  eraseInstance m owner _ := (sameBearings_modifySpace m owner fun _ => by rfl).houses

end Changes

/-! ## The setting that a space is under -/

/-- The setting that a static space is under: its own, else that of the nearest space around it with
one, else the one of the model. -/
inductive Rules (m : Model) (flag : Bool) : SpaceId → Prop
  | own {id : SpaceId} {s : Space} : m.spaces.get? id = some s → s.allowNone = some flag →
      Rules m flag id
  | outer {id p : SpaceId} {s : Space} : m.spaces.get? id = some s → s.allowNone = none →
      s.parent = some p → Rules m flag p → Rules m flag id
  | model {id : SpaceId} {s : Space} : m.spaces.get? id = some s → s.allowNone = none →
      s.parent = none → m.config.allowNone = flag → Rules m flag id

theorem Rules.unique {flag flag' : Bool} {id : SpaceId} (h : m.Rules flag id)
    (h' : m.Rules flag' id) : flag = flag' := by
  induction h with
  | own hs hallow =>
    cases h' with
    | own hs' hallow' =>
      cases hs.symm.trans hs'
      exact Option.some.inj (hallow.symm.trans hallow')
    | outer hs' hnone | model hs' hnone =>
      cases hs.symm.trans hs'
      cases hallow.symm.trans hnone
  | outer hs hnone hparent _ ih =>
    cases h' with
    | own hs' hallow' =>
      cases hs.symm.trans hs'
      cases hallow'.symm.trans hnone
    | outer hs' _ hparent' houter' =>
      cases hs.symm.trans hs'
      cases hparent.symm.trans hparent'
      exact ih houter'
    | model hs' _ hparent' =>
      cases hs.symm.trans hs'
      cases hparent.symm.trans hparent'
  | model hs hnone hparent hconfig =>
    cases h' with
    | own hs' hallow' =>
      cases hs.symm.trans hs'
      cases hallow'.symm.trans hnone
    | outer hs' _ hparent' =>
      cases hs.symm.trans hs'
      cases hparent.symm.trans hparent'
    | model _ _ _ hconfig' => exact hconfig.symm.trans hconfig'

/-- A space is under the same setting in both models when the spaces around it are in both. -/
theorem Rules.within {flag : Bool} {id : SpaceId} (around : SpaceId → Prop)
    (spaces : ∀ x s', around x → m'.spaces.get? x = some s' →
      ∃ s, m.spaces.get? x = some s ∧ s'.bearing = s.bearing)
    (config : m'.config = m.config)
    (outward : ∀ x s' p, around x → m'.spaces.get? x = some s' → s'.parent = some p → around p)
    (h : m'.Rules flag id) (hid : around id) : m.Rules flag id := by
  induction h with
  | own hs hallow =>
    obtain ⟨s, hs, heq⟩ := spaces _ _ hid hs
    exact .own hs ((congrArg Space.Bearing.allowNone heq).symm.trans hallow)
  | outer hs hnone hparent _ ih =>
    have hp := outward _ _ _ hid hs hparent
    obtain ⟨s, hs, heq⟩ := spaces _ _ hid hs
    exact .outer hs ((congrArg Space.Bearing.allowNone heq).symm.trans hnone)
      ((congrArg Space.Bearing.parent heq).symm.trans hparent) (ih hp)
  | model hs hnone hparent hconfig =>
    obtain ⟨s, hs, heq⟩ := spaces _ _ hid hs
    exact .model hs ((congrArg Space.Bearing.allowNone heq).symm.trans hnone)
      ((congrArg Space.Bearing.parent heq).symm.trans hparent) (config ▸ hconfig)

/-- A space of both models is under the same setting in both. -/
theorem Rules.mono {flag : Bool} {id : SpaceId} (houses : m.Houses m') (h : m'.Rules flag id) :
    m.Rules flag id :=
  h.within (fun _ => True) (fun x s' _ => houses.spaces x s') houses.config
    (fun _ _ _ _ _ _ => trivial) trivial

/-- The first setting in the listing of an ancestry is the one that a space is under. -/
theorem Depth.rules {id : SpaceId} {n fuel : Nat} (h : m.Depth id n) (hn : n < fuel) :
    m.Rules (((m.ancestryFrom fuel id).findSome? fun s =>
      (m.spaces.get? s).bind (·.allowNone)).getD m.config.allowNone) id := by
  induction h generalizing fuel with
  | top hs hp =>
    obtain ⟨fuel, rfl⟩ := Nat.exists_eq_succ_of_ne_zero (Nat.ne_zero_of_lt hn)
    rw [ancestryFrom_succ hs, hp, Option.elim_none, List.findSome?_cons, hs, Option.bind_some]
    cases hallow : Space.allowNone _ with
    | none => exact .model hs hallow hp rfl
    | some flag => exact .own hs hallow
  | inside hs hp _ ih =>
    obtain ⟨fuel, rfl⟩ := Nat.exists_eq_succ_of_ne_zero (Nat.ne_zero_of_lt hn)
    rw [ancestryFrom_succ hs, hp, Option.elim_some, List.findSome?_cons, hs, Option.bind_some]
    cases hallow : Space.allowNone _ with
    | none => exact .outer hs hallow hp (ih (by omega))
    | some flag => exact .own hs hallow

def settingAround (m : Model) (id : SpaceId) : Bool :=
  ((m.ancestry id).findSome? fun s => (m.spaces.get? s).bind (·.allowNone)).getD m.config.allowNone

theorem Owned.rules (hm : m.Owned) {id : SpaceId} {s : Space} (hs : m.spaces.get? id = some s)
    (hstatic : s.isStatic = true) : m.Rules (m.settingAround id) id := by
  obtain ⟨n, hn⟩ := (hm.grounded id s hs).depth hm.placed s hs hstatic
  exact hn.rules hn.lt_capacity

/-! ## The setting that cells are under -/

theorem mayBeEmpty_of_own {id : CellId} {c : Cells} {flag : Bool} (hc : m.cells.get? id = some c)
    (hallow : c.allowNone = some flag) : m.mayBeEmpty id = flag := by
  simp only [mayBeEmpty, hc, hallow]

theorem mayBeEmpty_of_around {id : CellId} {c : Cells} {s : Space}
    (hc : m.cells.get? id = some c) (hallow : c.allowNone = none)
    (hs : m.spaces.get? c.space = some s) :
    m.mayBeEmpty id = m.settingAround (s.bearing.counterpart.getD c.space) := by
  simp only [mayBeEmpty, hc, hallow, counterpart_of_bearing hs]
  rfl

theorem Faithful.rules {sites : SpaceId → Prop} (hm : m.Faithful sites) {id : SpaceId} {s : Space}
    (hs : m.spaces.get? id = some s) :
    m.Rules (m.settingAround (s.bearing.counterpart.getD id)) (s.bearing.counterpart.getD id) := by
  obtain ⟨source, hsource, hstatic⟩ := hm.counterpart hs (counterpart_of_bearing hs)
  exact hm.owned.rules hsource hstatic

/-- Cells with a setting of their own or in a space of both models are under the same setting in
both, when a third model has the spaces of both. -/
theorem Faithful.same_setting {sites sites' : SpaceId → Prop} (hm : m.Faithful sites)
    (hm' : m'.Faithful sites') (houses : m₁.Houses m) (houses' : m₁.Houses m') {id : CellId}
    {c c' : Cells} (hc : m.cells.get? id = some c) (hc' : m'.cells.get? id = some c')
    (hallow : c'.allowNone = c.allowNone) (hspace : c'.space = c.space) :
    m'.mayBeEmpty id = m.mayBeEmpty id := by
  cases hown : c.allowNone with
  | some flag => rw [mayBeEmpty_of_own hc hown, mayBeEmpty_of_own hc' (hallow.trans hown)]
  | none =>
    obtain ⟨s, hs, -⟩ := hm.owned.cells_holder hc
    obtain ⟨s', hs', -⟩ := hm'.owned.cells_holder hc'
    rw [hspace] at hs'
    obtain ⟨t, ht, heq⟩ := houses.spaces _ s hs
    obtain ⟨t', ht', heq'⟩ := houses'.spaces _ s' hs'
    cases ht.symm.trans ht'
    have hrules := (hm'.rules hs').mono houses'
    rw [heq', ← heq] at hrules
    rw [mayBeEmpty_of_around hc hown hs, mayBeEmpty_of_around hc' (hallow.trans hown) (hspace ▸ hs'),
      hspace, heq', ← heq]
    exact hrules.unique ((hm.rules hs).mono houses)

end Recalc.Model
