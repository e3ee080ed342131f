import Recalc.Proofs.Holders
import Recalc.Proofs.OwnedRemoval

set_option autoImplicit false

/-!
# Instances that go

Removing instances leaves every static space with its members, and every replica that stays as it
was. The tables of the static spaces around a stale one are empty afterwards.
-/

namespace Recalc.Model

open Recalc.Action

/-- Instances go, with what is inside them. -/
structure Drops (m m' : Model) : Prop where
  space : ∀ id s', m'.spaces.get? id = some s' → ∃ s, m.spaces.get? id = some s ∧
    s' = { s with instances := s'.instances } ∧
    ∀ k i, s'.instances.get? k = some i → s.instances.get? k = some i
  static : ∀ id s, m.spaces.get? id = some s → s.isStatic = true →
    ∃ s', m'.spaces.get? id = some s'
  cells : ∀ id c', m'.cells.get? id = some c' → ∃ c, m.cells.get? id = some c ∧ c'.bare = c.bare
  refs : ∀ id r', m'.refs.get? id = some r' → m.refs.get? id = some r'
  roots : m'.roots = m.roots
  globals : m'.globals = m.globals
  addressable : m'.Addressable ↔ m.Addressable

theorem Drops.static' {m m' : Model} (h : Drops m m') {id : SpaceId} {s : Space}
    (hs : m.spaces.get? id = some s) (hstatic : s.isStatic = true) :
    ∃ s', m'.spaces.get? id = some s' ∧ s' = { s with instances := s'.instances } := by
  obtain ⟨s', hs'⟩ := h.static id s hs hstatic
  obtain ⟨t, ht, heq, -⟩ := h.space id s' hs'
  rw [hs] at ht
  cases ht
  exact ⟨s', hs', heq⟩

instance : Frame Drops where
  refl _ := ⟨fun _ s h => ⟨s, h, rfl, fun _ _ h => h⟩, fun _ s h _ => ⟨s, h⟩,
    fun _ c h => ⟨c, h, rfl⟩, fun _ _ h => h, rfl, rfl, Iff.rfl⟩
  trans {m₁ m₂ m₃} h h' := by
    refine ⟨fun id s₃ hs₃ => ?_, fun id s hs hstatic => ?_, fun id c₃ hc₃ => ?_,
      fun id r hr => h.refs id r (h'.refs id r hr), h'.roots.trans h.roots,
      h'.globals.trans h.globals, h'.addressable.trans h.addressable⟩
    · obtain ⟨s₂, hs₂, heq₂, hsub₂⟩ := h'.space id s₃ hs₃
      obtain ⟨s₁, hs₁, heq₁, hsub₁⟩ := h.space id s₂ hs₂
      refine ⟨s₁, hs₁, ?_, fun k i hi => hsub₁ k i (hsub₂ k i hi)⟩
      rw [heq₂, heq₁]
    · obtain ⟨s', hs', heq⟩ := h.static' hs hstatic
      refine h'.static id s' hs' ?_
      rw [heq]
      exact hstatic
    · obtain ⟨c₂, hc₂, hbare₂⟩ := h'.cells id c₃ hc₃
      obtain ⟨c₁, hc₁, hbare₁⟩ := h.cells id c₂ hc₂
      exact ⟨c₁, hc₁, hbare₂.trans hbare₁⟩

theorem Alike.drops {m m' : Model} (h : Alike m m') : Drops m m' := by
  refine ⟨fun id s hs => ⟨s, by rwa [h.spaces] at hs, rfl, fun _ _ h => h⟩,
    fun id s hs _ => ⟨s, by rwa [h.spaces]⟩, fun id c' hc' => ?_, fun id r hr => by rwa [h.refs] at hr,
    h.roots, h.globals, h.addressable⟩
  have hcells := h.cells id
  rw [hc', Option.map_some] at hcells
  obtain ⟨c, hc, hbare⟩ := Option.map_eq_some_iff.1 hcells.symm
  exact ⟨c, hc, hbare.symm⟩

def OfReplica (m : Model) (e : Entity) : Prop :=
  match e with
  | .space id => ∀ s, m.spaces.get? id = some s → s.isStatic = false
  | e => ∀ a p s, m.home? e = some a → a.space? = some p → m.spaces.get? p = some s →
    s.isStatic = false

variable {m : Model}

theorem closed_ofReplica (sound : ∀ a e, m.listed a = some e → ∃ b, m.home? e = some b ∧ b.Same a)
    (placed : ∀ id s, m.spaces.get? id = some s → m.Placed s) : Closed (OfReplica m) m := by
  intro a e id ha hw he
  obtain ⟨s, hs, -⟩ := space_of_listed he ha
  have hreplica := hw s hs
  obtain ⟨b, hb, hba⟩ := sound a e he
  have hspace : b.space? = some id := hba.space?.trans ha
  have hmember : ∀ c p t, m.home? e = some c → c.space? = some p → m.spaces.get? p = some t →
      t.isStatic = false := by
    intro c p t hc hp ht
    rw [hb] at hc
    cases hc
    rw [hspace] at hp
    cases hp
    rw [hs] at ht
    cases ht
    exact hreplica
  cases e with
  | cells _ => exact hmember
  | ref _ => exact hmember
  | space other =>
    intro t ht
    cases hstatic : t.isStatic with
    | false => rfl
    | true =>
      rw [home?_space ht, Option.some.injEq, Space.home_of_static hstatic] at hb
      cases hparent : t.parent with
      | none =>
        rw [hparent] at hb
        subst hb
        cases hspace
      | some p =>
        rw [hparent] at hb
        subst hb
        cases hspace
        rw [(placed other t ht).static hstatic _ s hparent hs] at hreplica
        contradiction

theorem Sheds.drops {m₁ m₂ : Model} (h : Drops m m₁) (h' : Sheds (OfReplica m) m₁ m₂) :
    Drops m m₂ := by
  refine Frame.trans h ⟨fun id s hs => ⟨s, h'.space hs, rfl, fun _ _ h => h⟩,
    fun id s₁ hs₁ hstatic => ?_, fun id c hc => ?_, fun id r hr => ?_, h'.roots, h'.globals,
    h'.addressable⟩
  · rcases h'.spaces id with heq | ⟨hw, -⟩
    · exact ⟨s₁, heq.trans hs₁⟩
    · obtain ⟨s, hs, heq, -⟩ := h.space id s₁ hs₁
      have hreplica := hw s hs
      rw [heq] at hstatic
      change s.isStatic = true at hstatic
      rw [hreplica] at hstatic
      contradiction
  · rcases h'.record (.cells id) with heq | ⟨-, hnone⟩
    · simp only [record?, hc, Option.map_some] at heq
      obtain ⟨b, hb, hrecord⟩ := Option.map_eq_some_iff.1 heq.symm
      obtain ⟨c₁, hc₁, rfl⟩ := Option.map_eq_some_iff.1 hb
      exact ⟨c₁, hc₁, (Record.cells.inj hrecord).symm⟩
    · simp [record?, hc] at hnone
  · rcases h'.record (.ref id) with heq | ⟨-, hnone⟩
    · simp only [record?, hr, Option.map_some] at heq
      obtain ⟨r₁, hr₁, hrecord⟩ := Option.map_eq_some_iff.1 heq.symm
      rw [hr₁, Record.ref.inj hrecord]
    · simp [record?, hr] at hnone

theorem Owned.drops {m' : Model} (h : m.Owned) (hdrops : Drops m m') (tidy : m'.Tidy)
    (linked : m'.Linked fun _ => False) : m'.Owned := by
  refine h.transfer tidy linked (fun id s s' hs hs' => ?_) fun id s' hs' hnone => ?_
  · obtain ⟨t, ht, heq, -⟩ := hdrops.space id s' hs'
    rw [hs] at ht
    cases ht
    rw [heq]
    exact ⟨rfl, rfl, rfl, fun _ => rfl, fun _ => rfl⟩
  · obtain ⟨t, ht, -⟩ := hdrops.space id s' hs'
    rw [hnone] at ht
    contradiction

theorem drops_eraseInstance (m : Model) (owner : SpaceId) (key : Key) :
    Drops m (m.modifySpace owner fun s => { s with instances := s.instances.erase key }) := by
  have hget := fun other => Pool.get?_modify m.spaces owner other
    fun s => { s with instances := s.instances.erase key }
  refine ⟨fun id s' hs' => ?_, fun id s hs _ => ?_, fun _ c h => ⟨c, h, rfl⟩, fun _ _ h => h, rfl, rfl,
    addressable_iff (Pool.size_modify _ _ _) rfl rfl⟩
  · have hmodified := (hget id).symm.trans hs'
    split at hmodified
    next h =>
      subst h
      obtain ⟨s, hs, rfl⟩ := Option.map_eq_some_iff.1 hmodified
      refine ⟨s, hs, rfl, fun k i hi => ?_⟩
      rw [Table.get?_erase] at hi
      split at hi
      next => contradiction
      next => exact hi
    next => exact ⟨s', hmodified, rfl, fun _ _ h => h⟩
  · refine Pool.contains_iff.1 ((Pool.contains_modify m.spaces owner _ id).trans ?_)
    exact Pool.contains_iff.2 ⟨s, hs⟩

theorem sheds_destroySpace {W : Entity → Prop} {id : SpaceId} (hw : W (.space id))
    (closed : Closed W m) : Sheds W m (m.destroySpace id) :=
  sheds_destroyTree _ m id hw closed

/-- Removing an instance keeps a model owned, and only instances go. -/
theorem under_removeInstance (m : Model) (owner : SpaceId) (key : Key) :
    Under Owned Drops m (m.removeInstance owner key).2 := by
  intro hm
  unfold removeInstance
  split
  next => exact ⟨hm, Frame.refl m⟩
  next item hitem =>
    obtain ⟨s, hs, hitem⟩ := Option.bind_eq_some_iff.1 hitem
    have hlisted : m.listed (.item owner key) = some (.space item) := by
      rw [listed_of_space rfl hs, Space.lists, hitem, Option.map_some]
    have hrelists := relists_items hs (g := fun t => t.erase key) (i := none)
      fun t k => Table.get?_erase t key k
    obtain ⟨hlinked, hfree⟩ := hm.linked.delist hlisted hrelists
    have hcut := drops_eraseInstance m owner key
    have halike := (forgetsAll_invalidate (m.modifySpace owner fun s =>
      { s with instances := s.instances.erase key }) (.item owner key)).forgetsSome.alike
    have hclosed : Closed (OfReplica m) (invalidate (m.modifySpace owner fun s =>
        { s with instances := s.instances.erase key }) (.item owner key)).2 := by
      intro a e id ha hw he
      rw [halike.listed] at he
      refine closed_ofReplica hm.linked.sound hm.placed a e id ha hw ?_
      by_cases hsame : (Address.item owner key).Same a
      · rw [hrelists.same a hsame] at he
        contradiction
      · rwa [hrelists.other a hsame] at he
    have hreplica : OfReplica m (.space item) := by
      intro t ht
      obtain ⟨u, c, args, enclosing, hu, hk, -⟩ := hm.item_of_listed hs hitem
      cases ht.symm.trans hu
      exact isStatic_of_item hk
    have hsheds := sheds_destroySpace hreplica hclosed
    have hdrops : Drops m _ := hsheds.drops (Frame.trans hcut halike.drops)
    refine ⟨hm.drops hdrops ?_ ?_, hdrops⟩
    · exact hsheds.tidy (halike.tidy' (tidy_modifySpace hm.tidy _ _))
    · refine linked_destroySpace (halike.linked hlinked) fun a => ?_
      rw [halike.listed]
      exact hfree a

theorem under_removeEveryInstance (m : Model) (id : SpaceId) :
    Under Owned Drops m (m.removeEveryInstance id).2 := by
  unfold removeEveryInstance
  split
  next => exact Frame.refl m
  next s _ =>
    exact foldl_keeps (P := fun r : Nat × Model => Under Owned Drops m r.2)
      (fun r key hr => Frame.trans hr (under_removeInstance r.2 id key)) s.instances.keys
      (Frame.refl m)

theorem under_dropStaleInstances (m : Model) (id : SpaceId) :
    Under Owned Drops m (m.dropStaleInstances id) :=
  foldl_keeps (P := Under Owned Drops m)
    (fun m' s h => Frame.trans h (under_removeEveryInstance m' s)) _ (Frame.refl m)

def Cleared (m : Model) (id : SpaceId) : Prop :=
  ∀ s k, m.spaces.get? id = some s → s.instances.get? k = none

theorem Cleared.drops {m' : Model} {id : SpaceId} (h : m.Cleared id) (hdrops : Drops m m') :
    m'.Cleared id := by
  intro s' k hs'
  obtain ⟨s, hs, -, hsub⟩ := hdrops.space id s' hs'
  cases hi : s'.instances.get? k with
  | none => rfl
  | some i => exact absurd (hsub k i hi) (by rw [h s k hs]; simp)

theorem absent_removeInstance (m : Model) (owner : SpaceId) (key : Key) {s' : Space}
    (hs' : (m.removeInstance owner key).2.spaces.get? owner = some s') :
    s'.instances.get? key = none := by
  unfold removeInstance at hs'
  split at hs'
  next h =>
    rw [hs'] at h
    exact h
  next item hitem =>
    have halike := (forgetsAll_invalidate (m.modifySpace owner fun s =>
      { s with instances := s.instances.erase key }) (.item owner key)).forgetsSome.alike
    have hs' := (sheds_destroySpace trivial (closed_univ _)).space hs'
    rw [halike.spaces] at hs'
    obtain ⟨s, hs, -⟩ := Option.bind_eq_some_iff.1 hitem
    rw [get?_modifySpace hs, if_pos rfl] at hs'
    cases hs'
    rw [Table.get?_erase, BEq.rfl]
    rfl

theorem cleared_removeEveryInstance {id : SpaceId} (hm : m.Owned) :
    (m.removeEveryInstance id).2.Cleared id := by
  unfold removeEveryInstance
  split
  next h =>
    intro s k hs
    rw [h] at hs
    contradiction
  next s hs =>
    -- every key of the table has its turn, and none comes back
    have key : ∀ (l : List Key) (r : Nat × Model), r.2.Owned → ∀ k s',
        (l.foldl (fun r key => (if (r.2.removeInstance id key).1 then r.1 + 1 else r.1,
          (r.2.removeInstance id key).2)) r).2.spaces.get? id = some s' →
        (l.contains k = true ∨ ∀ t, r.2.spaces.get? id = some t → t.instances.get? k = none) →
        s'.instances.get? k = none := by
      intro l
      induction l with
      | nil =>
        intro r _ k s' hs' h
        rcases h with h | h
        · cases h
        · exact h s' hs'
      | cons a l ih =>
        intro r hr k s' hs' h
        obtain ⟨howned, hdrops⟩ := under_removeInstance r.2 id a hr
        refine ih _ howned k s' hs' ?_
        rw [List.contains_cons, Bool.or_eq_true] at h
        rcases h with (h | h) | h
        · refine .inr fun t ht => ?_
          rw [Table.get?_congr _ h]
          exact absent_removeInstance r.2 id a ht
        · exact .inl h
        · refine .inr fun t ht => ?_
          obtain ⟨u, hu, -, hsub⟩ := hdrops.space id t ht
          cases hi : t.instances.get? k with
          | none => rfl
          | some i => exact absurd (hsub k i hi) (by rw [h u hu]; simp)
    intro s' k hs'
    refine key s.instances.keys (0, m) hm k s' hs' ?_
    rw [Table.contains_keys, Table.contains_eq_isSome]
    cases hi : s.instances.get? k with
    | some i => exact .inl rfl
    | none =>
      refine .inr fun t ht => ?_
      rw [hs] at ht
      cases ht
      exact hi

/-- After stale instances were dropped, the tables of the static spaces around a space are
empty. -/
theorem cleared_dropStaleInstances (hm : m.Owned) {id a : SpaceId} {s : Space}
    (ha : a ∈ m.ancestry id) (hs : m.spaces.get? a = some s) (hstatic : s.isStatic = true) :
    (m.dropStaleInstances id).Cleared a := by
  have hmem : a ∈ (m.ancestry id).filter fun s => (m.spaces.get? s).any Space.isStatic :=
    List.mem_filter.2 ⟨ha, by rw [hs]; exact hstatic⟩
  have key : ∀ (l : List SpaceId) (m : Model), m.Owned → (a ∈ l ∨ m.Cleared a) →
      (l.foldl (fun m s => (m.removeEveryInstance s).2) m).Cleared a := by
    intro l
    induction l with
    | nil => exact fun m _ h => h.resolve_left (by simp)
    | cons b l ih =>
      intro m hm h
      obtain ⟨howned, hdrops⟩ := under_removeEveryInstance m b hm
      refine ih _ howned ?_
      rcases h with h | h
      · rcases List.mem_cons.1 h with rfl | h
        · exact .inr (cleared_removeEveryInstance hm)
        · exact .inl h
      · exact .inr (h.drops hdrops)
  exact key _ m hm (.inl hmem)

end Recalc.Model
