import Recalc.Proofs.Keeping
import Recalc.Proofs.Levels

set_option autoImplicit false

/-!
# The instances around a space

A handle to a space keeps the instances alive that the space lies in. A child lies in the instances
of its parent, and an instance in itself and in those of its owner. So an instance is among the pins
of everything that lies in it, at any depth, and nobody who looks around from a space comes to one
with other pins than those of the space.
-/

namespace Recalc.Model

open Recalc.Action

variable {m m' : Model} {id p : SpaceId} {s : Space}

section Pins

theorem pinsOf_of_none (h : m.instanceRoot? id = none) : m.pinsOf id = [] := by
  unfold pinsOf
  rw [h]

theorem pinsOf_of_static (hs : m.spaces.get? id = some s) (hstatic : s.isStatic = true) :
    m.pinsOf id = [] :=
  pinsOf_of_none (instanceRoot?_of_static hs hstatic)

theorem pinsOf_of_enclosing {owner c : SpaceId} {args : Key} {enclosing : List SpaceId}
    (hs : m.spaces.get? id = some s) (hk : s.kind = .item owner c args enclosing) :
    m.pinsOf id = id :: enclosing := by
  simp only [pinsOf, instanceRoot?, hs, hk]

/-- Spaces in one instance have the same pins. -/
theorem pinsOf_congr (h : m.instanceRoot? id = m.instanceRoot? p) : m.pinsOf id = m.pinsOf p := by
  unfold pinsOf
  rw [h]

end Pins

/-- The spaces around a space are there. -/
theorem Owned.live_of_inside (hm : m.Owned) {i : SpaceId} (h : m.Inside i (.space id))
    (hs : m.spaces.get? id = some s) : ∃ t, m.spaces.get? i = some t := by
  generalize he : Entity.space id = e at h
  induction h generalizing id s with
  | self =>
    cases he
    exact ⟨s, hs⟩
  | @member e a p hhome hp _ ih =>
    obtain ⟨q, hq, -⟩ := hm.holder hhome hp
    exact ih hq rfl

section Faithful

variable {sites : SpaceId → Prop} (hm : m.Faithful sites)
include hm

theorem Faithful.pinsOf_item {owner c : SpaceId} {args : Key} {enclosing : List SpaceId}
    (hs : m.spaces.get? id = some s) (hk : s.kind = .item owner c args enclosing) :
    m.pinsOf id = id :: m.pinsOf owner := by
  obtain ⟨q, hq, -⟩ := hm.owned.item_holder hs hk
  have haround := hm.arranged.beside.enclosing id s owner c args enclosing q hs hk hq
  rw [pinsOf_of_enclosing hs hk, (hm.around hq).1 haround]

theorem Faithful.pinsOf_dynamic {c root : SpaceId} (hs : m.spaces.get? id = some s)
    (hk : s.kind = .dynamic c root) (hp : s.parent = some p) : m.pinsOf id = m.pinsOf p := by
  cases hm.reflects hs with
  | static hstatic =>
    rw [isStatic_of_dynamic hk] at hstatic
    contradiction
  | item hk' => cases hk.symm.trans hk'
  | dynamic hk' hp' hroot =>
    cases hk.symm.trans hk'
    cases hp.symm.trans hp'
    exact pinsOf_congr (by rw [hroot]; simp only [instanceRoot?, hs, hk])

/-- A child lies in the instances of its parent. -/
theorem Faithful.pinsOf_child {name : String} {child : SpaceId} (hs : m.spaces.get? id = some s)
    (hchild : s.spaces.get? name = some child) : m.pinsOf child = m.pinsOf id := by
  obtain ⟨t, ht, hparent, -, hitem⟩ := hm.owned.child_of_listed hs hchild
  cases hk : t.kind with
  | static =>
    have hstatic : t.isStatic = true := by rw [Space.isStatic, hk]
    rw [pinsOf_of_static ht hstatic,
      pinsOf_of_static hs ((hm.owned.placed child t ht).static hstatic id s hparent hs)]
  | item => exact absurd hk (hitem _ _ _ _)
  | dynamic => exact hm.pinsOf_dynamic ht hk hparent

/-- The way up to a parent leads into no instance. -/
theorem Faithful.pinsOf_parent (hs : m.spaces.get? id = some s) (hp : s.parent = some p) :
    m.pinsOf p ⊆ m.pinsOf id := by
  have key : ∀ id, m.Grounded id → ∀ s, m.spaces.get? id = some s → s.parent = some p →
      m.pinsOf p ⊆ m.pinsOf id := by
    intro id hid
    induction hid with
    | intro id s hs _ ih =>
      intro s' hs' hp
      cases hs.symm.trans hs'
      cases hk : s.kind with
      | static =>
        have hstatic : s.isStatic = true := by rw [Space.isStatic, hk]
        obtain ⟨q, hq, hqstatic, -⟩ := hm.owned.static_holder hs hstatic hp
        rw [pinsOf_of_static hq hqstatic]
        exact List.nil_subset _
      | item owner c args enclosing =>
        -- the parent of an instance is the parent of its owner
        obtain ⟨q, hq, -⟩ := hm.owned.item_holder hs hk
        have hparent := hm.arranged.beside.parent id s owner c args enclosing q hs hk hq
        rw [hm.pinsOf_item hs hk]
        exact List.subset_cons_of_subset _
          (ih owner (by rw [home_of_item hk]; rfl) q hq (hparent.symm.trans hp))
      | dynamic =>
        rw [hm.pinsOf_dynamic hs hk hp]
        exact List.Subset.refl _
  exact key id (hm.owned.grounded id s hs) s hs hp

/-- What lies in an instance has it among its pins. -/
theorem Faithful.mem_pinsOf_of_inside {item : SpaceId} (hitem : item ∈ m.pinsOf item)
    (h : m.Inside item (.space id)) : item ∈ m.pinsOf id := by
  generalize he : Entity.space id = e at h
  induction h generalizing id with
  | self =>
    cases he
    exact hitem
  | @member e a p hhome hp _ ih =>
    subst he
    have hmem := ih rfl
    obtain ⟨s, hs, rfl⟩ := space_of_home? hhome
    cases hk : s.kind with
    | static =>
      -- a static space lies in static ones only
      have hstatic : s.isStatic = true := by rw [Space.isStatic, hk]
      rw [home_space?_of_static hstatic] at hp
      obtain ⟨q, hq, hqstatic, -⟩ := hm.owned.static_holder hs hstatic hp
      rw [pinsOf_of_static hq hqstatic] at hmem
      cases hmem
    | item owner c args enclosing =>
      rw [home_of_item hk] at hp
      cases hp
      rw [hm.pinsOf_item hs hk]
      exact List.mem_cons_of_mem _ hmem
    | dynamic c root =>
      obtain ⟨q, hq, -⟩ := (hm.owned.placed id s hs).dynamic c root hk
      rw [home_of_dynamic hk hq] at hp
      cases hp
      rwa [hm.pinsOf_dynamic hs hk hq]

/-- What has an instance among its pins lies in it. -/
theorem Faithful.inside_of_mem_pinsOf {i : SpaceId} (hs : m.spaces.get? id = some s)
    (hi : i ∈ m.pinsOf id) : m.Inside i (.space id) := by
  have key : ∀ id, m.Grounded id → i ∈ m.pinsOf id → m.Inside i (.space id) := by
    intro id hid
    induction hid with
    | intro id s hs _ ih =>
      intro hi
      cases hk : s.kind with
      | static =>
        rw [pinsOf_of_static hs (by rw [Space.isStatic, hk])] at hi
        cases hi
      | item owner c args enclosing =>
        have howner : s.home.space? = some owner := by rw [home_of_item hk]; rfl
        rw [hm.pinsOf_item hs hk] at hi
        rcases List.mem_cons.1 hi with rfl | hi
        · exact .self
        · exact .member (home?_space hs) howner (ih owner howner hi)
      | dynamic c root =>
        obtain ⟨p, hp, -⟩ := (hm.owned.placed id s hs).dynamic c root hk
        have hparent : s.home.space? = some p := by rw [home_of_dynamic hk hp]; rfl
        rw [hm.pinsOf_dynamic hs hk hp] at hi
        exact .member (home?_space hs) hparent (ih p hparent hi)
  exact key id (hm.owned.grounded id s hs) hi

/-- The instances around a space are there. -/
theorem Faithful.live_of_mem_pinsOf {i : SpaceId} (hs : m.spaces.get? id = some s)
    (hi : i ∈ m.pinsOf id) : m.spaces.contains i = true := by
  obtain ⟨t, ht⟩ := hm.owned.live_of_inside (hm.inside_of_mem_pinsOf hs hi) hs
  exact Pool.contains_iff.2 ⟨t, ht⟩

/-- The pins of a space do not change while the spaces keep their kinds. -/
theorem Faithful.pinsOf_retained (h : Retains m m') (hs : m.spaces.get? id = some s) :
    m'.pinsOf id = m.pinsOf id := by
  obtain ⟨s', hs', hkind, -⟩ := h.spaces id s hs
  have hsame : m'.instanceRoot? id = m.instanceRoot? id := by
    simp only [instanceRoot?, hs, hs', hkind]
  unfold pinsOf
  rw [hsame]
  cases hroot : m.instanceRoot? id with
  | none => rfl
  | some root =>
    obtain ⟨t, owner, c, args, around, ht, hk⟩ := hm.instanceRoot hs hroot
    obtain ⟨t', ht', hk', -⟩ := h.spaces root t ht
    simp only [ht, ht', hk', hk]

end Faithful

end Recalc.Model
