import Recalc.Proofs.Evaluations

set_option autoImplicit false

/-!
# What reclamation keeps

Removing an instance takes only what lies inside it, and a reclamation only removes instances that
were free at the beginning of a round: neither a handle nor a recorded read kept them. So a property
stays if it survives the removal of instances that are free while it holds.
-/

namespace Recalc.Model

open Recalc.Action

inductive Inside (m : Model) (id : SpaceId) : Entity → Prop
  | self : Inside m id (.space id)
  | member {e : Entity} {a : Address} {p : SpaceId} : m.home? e = some a → a.space? = some p →
      Inside m id (.space p) → Inside m id e

variable {m m₁ : Model}

/-- Listings only lose instances. -/
theorem Drops.listed (h : Drops m m₁) {a : Address} {e : Entity} (he : m₁.listed a = some e) :
    m.listed a = some e := by
  cases hp : a.space? with
  | none =>
    unfold Model.listed listsTop at he ⊢
    rw [hp] at he ⊢
    rwa [h.roots, h.globals] at he
  | some p =>
    obtain ⟨s', hs', hlists⟩ := space_of_listed he hp
    obtain ⟨s, hs, heq, hsub⟩ := h.space p s' hs'
    rw [listed_of_space hp hs]
    rw [heq] at hlists
    cases a with
    | item p k =>
      obtain ⟨i, hi, rfl⟩ := Option.map_eq_some_iff.1 hlists
      exact congrArg (Option.map Entity.space) (hsub k i hi)
    | _ => exact hlists

theorem Owned.closed_inside (hm : m.Owned) (h : Drops m m₁) (id : SpaceId) :
    Closed (m.Inside id) m₁ := by
  intro a e p hp hinside he
  obtain ⟨b, hb, hsame⟩ := hm.linked.sound a e (h.listed he)
  exact .member hb (hsame.space?.trans hp) hinside

/-- Nothing static lies in a replica. -/
theorem Owned.ofReplica_of_inside (hm : m.Owned) {id : SpaceId} (hid : OfReplica m (.space id))
    {e : Entity} (h : m.Inside id e) : OfReplica m e := by
  induction h with
  | self => exact hid
  | member hhome hp _ ih =>
    exact closed_ofReplica hm.linked.sound hm.placed _ _ _ hp ih (hm.listed hhome)

/-- A space that does not lie in the instance that is removed stays. -/
theorem Owned.kept_removeInstance (hm : m.Owned) {owner item id : SpaceId} {key : Key} {s : Space}
    (hitem : (m.spaces.get? owner).bind (·.instances.get? key) = some item)
    (hs : m.spaces.get? id = some s) (houtside : ¬ m.Inside item (.space id)) :
    (m.removeInstance owner key).2.spaces.contains id = true := by
  have hcut := drops_eraseInstance m owner key
  have halike := (forgetsAll_invalidate (m.modifySpace owner fun s =>
    { s with instances := s.instances.erase key }) (.item owner key)).forgetsSome.alike
  have hdrops := Frame.trans hcut halike.drops
  have hsheds : Sheds (m.Inside item) _ _ :=
    sheds_destroySpace .self (hm.closed_inside hdrops item)
  have hkept : (invalidate (m.modifySpace owner fun s =>
      { s with instances := s.instances.erase key }) (.item owner key)).2.spaces.contains id =
        true := by
    rw [Pool.contains, halike.spaces]
    exact (Pool.contains_modify m.spaces owner _ id).trans (Pool.contains_iff.2 ⟨s, hs⟩)
  unfold removeInstance
  rw [hitem]
  rcases hsheds.spaces id with heq | ⟨hinside, -⟩
  · rw [Pool.contains] at hkept ⊢
    exact (congrArg Option.isSome heq).trans hkept
  · exact absurd hinside houtside

/-- A free instance is listed, kept by no handle and read by nothing. -/
theorem Owned.of_mem_freeInstances (hm : m.Owned) (room : m.Addressable) {held : List Handle}
    {owner : SpaceId} {key : Key} (h : (owner, key) ∈ m.freeInstances held) :
    ∃ item, (m.spaces.get? owner).bind (·.instances.get? key) = some item ∧
      item ∉ m.pinned held ∧ m.graph.hasReaders (.item owner key) = false := by
  have hfree : ∃ i ∈ m.allInstances, m.isFree (m.pinned held) i.1.1 i.1.2 i.2 = true ∧
      i.1 = (owner, key) := by
    unfold freeInstances at h
    split at h
    · cases h
    · obtain ⟨i, hi, heq⟩ := List.mem_map.1 h
      obtain ⟨hi, hfree⟩ := List.mem_filter.1 hi
      exact ⟨i, hi, hfree, heq⟩
  obtain ⟨⟨⟨owner', key'⟩, item⟩, hi, hfree, heq⟩ := hfree
  cases heq
  obtain ⟨⟨p, s⟩, he, hi⟩ := List.mem_flatMap.1 hi
  obtain ⟨⟨k, i⟩, hk, heq⟩ := List.mem_map.1 hi
  cases heq
  have hs := (Pool.mem_entries room.1).1 he
  have hlisted := Table.get?_of_mem_entries hk
  obtain ⟨t, c, args, enclosing, ht, hkind, -⟩ := hm.item_of_listed hs hlisted
  unfold isFree at hfree
  rw [ht, Option.map_some, hkind] at hfree
  simp only [Bool.and_eq_true, Bool.not_eq_true', List.contains_eq_mem,
    decide_eq_false_iff_not] at hfree
  exact ⟨i, by rw [hs]; exact hlisted, hfree⟩

/-- What the removal of free instances leaves true is true after a reclamation. -/
theorem Owned.reclaim_keeps {Q : Model → Prop} {held : List Handle}
    (hkeep : ∀ m m₁ : Model, m.Owned → Q m → m₁.Owned → Drops m m₁ → Q m₁ →
      ∀ owner key, (owner, key) ∈ m.freeInstances held → Q (m₁.removeInstance owner key).2)
    (hm : m.Owned) (hq : Q m) : Q (m.reclaim held).2 := by
  -- one round, with what was free at its beginning
  have hround : ∀ m : Model, m.Owned → Q m → ∀ dead : List (SpaceId × Key),
      (∀ i ∈ dead, i ∈ m.freeInstances held) →
      ∀ r : Nat × Model, r.2.Owned → Drops m r.2 → Q r.2 →
        (dead.foldl (fun r i => (if (r.2.removeInstance i.1 i.2).1 then r.1 + 1 else r.1,
          (r.2.removeInstance i.1 i.2).2)) r).2.Owned ∧
        Q (dead.foldl (fun r i => (if (r.2.removeInstance i.1 i.2).1 then r.1 + 1 else r.1,
          (r.2.removeInstance i.1 i.2).2)) r).2 := by
    intro m hm hq dead
    induction dead with
    | nil => exact fun _ r hr _ hqr => ⟨hr, hqr⟩
    | cons i dead ih =>
      intro hdead r hr hdrops hqr
      obtain ⟨howned, hdropped⟩ := under_removeInstance r.2 i.1 i.2 hr
      exact ih (fun j hj => hdead j (List.mem_cons_of_mem _ hj)) _ howned
        (Frame.trans hdrops hdropped)
        (hkeep m r.2 hm hq hr hdrops hqr i.1 i.2 (hdead i List.mem_cons_self))
  have hrounds : ∀ fuel count (m : Model), m.Owned → Q m →
      Q (reclaimRounds held fuel count m).2 := by
    intro fuel
    induction fuel with
    | zero => exact fun _ m _ hq => hq
    | succ fuel ih =>
      intro count m hm hq
      unfold reclaimRounds
      split
      next => exact hq
      next dead _ hdead =>
        obtain ⟨howned, hq'⟩ := hround m hm hq _ (fun i hi => hi) (0, m) hm (Frame.refl m) hq
        exact ih _ _ howned hq'
  exact hrounds _ _ m hm hq

/-! ## Instances that are held -/

/-- What the model that is ready for a call shares with the one before. -/
structure Sifted (m m' : Model) : Prop where
  owned : m'.Owned
  calm : m'.Calm
  drops : Drops m m'
  upholds : Upholds m m'
  inputs : KeepsInputs m m'
  refs : ∀ id, m'.refs.get? id = m.refs.get? id
  settings : SameSettings m m'

/-- An instance of a static space stays while the host holds a handle that pins it. -/
theorem Owned.item_kept (hm : m.Owned) (room : m.Addressable) {held : List Handle}
    {item owner c : SpaceId} {s source : Space} {args : Key} {enclosing : List SpaceId}
    (hs : m.spaces.get? item = some s) (hk : s.kind = .item owner c args enclosing)
    (howner : m.spaces.get? owner = some source) (hstatic : source.isStatic = true)
    (hheld : item ∈ held.flatMap Handle.pins) :
    (m.reclaim held).2.spaces.contains item = true := by
  let Q : Model → Prop := fun m' => m'.Addressable ∧ Drops m m' ∧ m'.spaces.contains item = true
  refine (hm.reclaim_keeps (Q := Q) ?_ ⟨room, Frame.refl m, Pool.contains_iff.2 ⟨s, hs⟩⟩).2.2
  intro m₁ m₂ hm₁ hq₁ hm₂ hdrops hq₂ p k hfree
  obtain ⟨hroom₂, hsince, hkept⟩ := hq₂
  obtain ⟨howned, hdropped⟩ := under_removeInstance m₂ p k hm₂
  have hroom := hdropped.addressable.2 hroom₂
  refine ⟨hroom, Frame.trans hsince hdropped, ?_⟩
  obtain ⟨x, hx, hunpinned, -⟩ := hm₁.of_mem_freeInstances hq₁.1 hfree
  cases hitem : (m₂.spaces.get? p).bind (·.instances.get? k) with
  | none =>
    unfold removeInstance
    rw [hitem]
    exact hkept
  | some y =>
    obtain ⟨t₂, ht₂, hy⟩ := Option.bind_eq_some_iff.1 hitem
    obtain ⟨t₁, ht₁, -, hsub⟩ := hdrops.space p t₂ ht₂
    rw [ht₁, Option.bind_some, hsub k y hy, Option.some.injEq] at hx
    subst hx
    obtain ⟨s₂, hs₂⟩ := Pool.contains_iff.1 hkept
    refine hm₂.kept_removeInstance hitem hs₂ fun hinside => ?_
    have hlike := hsince.like hs hs₂
    cases hinside with
    | self =>
      refine hunpinned (List.mem_append_left _ ?_)
      rw [List.flatMap_append]
      exact List.mem_append_left _ hheld
    | member hhome hp hinside =>
      -- the instance lies in a static space, and that one in no instance
      rw [home?_space hs₂, Option.some.injEq] at hhome
      have hk₂ : s₂.kind = .item owner c args enclosing := by rw [hlike]; exact hk
      rw [home_of_item hk₂] at hhome
      subst hhome
      cases hp
      have hreplica : OfReplica m₂ (.space y) := by
        obtain ⟨t, d, key, around, ht, hkind, -⟩ := hm₂.item_of_listed ht₂ hy
        intro u hu
        cases ht.symm.trans hu
        exact isStatic_of_item hkind
      obtain ⟨q, hq, heq⟩ := hsince.static' howner hstatic
      have := hm₂.ofReplica_of_inside hreplica hinside q hq
      rw [heq] at this
      exact Bool.noConfusion (hstatic.symm.trans this)

end Recalc.Model

namespace Recalc

open Recalc.Model Recalc.Action

theorem Reachable.sifted {m : Model} (h : Reachable m) (room : m.Addressable)
    (held : List Handle) : Sifted m (m.ready held) := by
  have hm := (h.orderly.proper room).owned
  rcases ready_cases m held with heq | heq
  · rw [heq]
    exact ⟨hm, h.calm, Frame.refl m, Frame.refl m, Frame.refl m, fun _ => rfl, Frame.refl m⟩
  · rw [heq]
    obtain ⟨howned, hdrops⟩ := reclaim_obeys under_removeInstance held m hm
    obtain ⟨hcalm, hupholds⟩ : (m.reclaim held).2.Calm ∧ Upholds m (m.reclaim held).2 :=
      reclaim_obeys editFrame_upholds.removeInstance held m h.calm
    exact ⟨howned, hcalm, hdrops, hupholds,
      reclaim_obeys (fun m owner key => (trimsCells_removeInstance m owner key).keepsInputs) held m,
      (h.orderly.reclaims h.calm room held).refs, sameSettings_reclaim held m⟩

end Recalc
