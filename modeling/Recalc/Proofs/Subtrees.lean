import Recalc.Proofs.Discarding
import Recalc.Proofs.MirroredEdits
import Recalc.Proofs.Upholding

set_option autoImplicit false

/-!
# Forgetting within a space

Forgetting within a space walks over a stack of spaces that only listings of children feed. The walk
comes to every static space inside the first one before it runs out of steps, since no space comes
twice. Where it was, no instance is left and nothing that cells computed.
-/

namespace Recalc.Model

open Recalc.Action

variable {m m' : Model} {root id : SpaceId}

/-! ## The walk -/

def childrenOf (m : Model) (id : SpaceId) : List SpaceId :=
  ((m.spaces.get? id).map (·.spaces.values)).getD []

/-- The spaces that have their turn when a stack is worked off in at most `fuel` steps. -/
def tour (m : Model) : Nat → List SpaceId → List SpaceId
  | 0, _ => []
  | _ + 1, [] => []
  | fuel + 1, id :: rest => id :: m.tour fuel ((m.childrenOf id).reverse ++ rest)

theorem Owned.inside_iff_mem_ancestry (hm : m.Owned) (h : m.Static id) {a : SpaceId} :
    m.Inside a (.space id) ↔ a ∈ m.ancestry id := by
  have key : ∀ id, m.Grounded id → m.Static id →
      (m.Inside a (.space id) ↔ a ∈ m.ancestry id) := by
    intro id hid
    induction hid with
    | intro id s hs _ ih =>
      rintro ⟨t, ht, hstatic⟩
      cases hs.symm.trans ht
      have hhome := home_space?_of_static hstatic
      have up : ∀ p, s.parent = some p → (m.Inside a (.space p) ↔ a ∈ m.ancestry p) := by
        intro p hp
        obtain ⟨q, hq, hqstatic, -⟩ := hm.static_holder hs hstatic hp
        exact ih p (hhome.trans hp) ⟨q, hq, hqstatic⟩
      rw [hm.mem_ancestry hs hstatic]
      constructor
      · intro h
        cases h with
        | self => exact .inl rfl
        | member hat hp hinside =>
          cases (home?_space hs).symm.trans hat
          have hp := hhome.symm.trans hp
          exact .inr ⟨_, hp, (up _ hp).1 hinside⟩
      · rintro (rfl | ⟨p, hp, ha⟩)
        · exact .self
        · exact .member (home?_space hs) (hhome.trans hp) ((up p hp).2 ha)
  obtain ⟨s, hs, hstatic⟩ := h
  exact key id (hm.grounded id s hs) ⟨s, hs, hstatic⟩

theorem Owned.mem_childrenOf (hm : m.Owned) (h : m.Static id) {c : SpaceId} :
    c ∈ m.childrenOf id ↔
      ∃ t, m.spaces.get? c = some t ∧ t.isStatic = true ∧ t.parent = some id := by
  obtain ⟨s, hs, hstatic⟩ := h
  rw [childrenOf, hs, Option.map_some, Option.getD_some, NameMap.mem_values]
  constructor
  · rintro ⟨name, hc⟩
    obtain ⟨t, ht, htstatic, hparent, -⟩ := hm.static_of_listed hs hstatic hc
    exact ⟨t, ht, htstatic, hparent⟩
  · rintro ⟨t, ht, htstatic, hparent⟩
    obtain ⟨u, hu, -, hlisted⟩ := hm.static_holder ht htstatic hparent
    cases hs.symm.trans hu
    exact ⟨t.name, hlisted⟩

/-- A child is listed under its name, so it is listed once. -/
theorem Owned.nodup_childrenOf (hm : m.Owned) (id : SpaceId) : (m.childrenOf id).Nodup := by
  unfold childrenOf
  cases hs : m.spaces.get? id with
  | none => exact List.nodup_nil
  | some s =>
    refine List.pairwise_map.2 (s.spaces.pairwise_ne.imp_of_mem fun {a b} ha hb hne heq => hne ?_)
    obtain ⟨t, ht, -, hname, -⟩ := hm.child_of_listed hs (NameMap.mem_entries.1 ha)
    obtain ⟨u, hu, -, hname', -⟩ := hm.child_of_listed hs (NameMap.mem_entries.1 hb)
    rw [← heq] at hu
    cases ht.symm.trans hu
    exact hname.symm.trans hname'

/-- The spaces of `done` had their turn on the walk from `root`, and those of `waiting` wait for
theirs. -/
structure Route (m : Model) (root : SpaceId) (done waiting : List SpaceId) : Prop where
  nodup : (done ++ waiting).Nodup
  first : root ∈ done ++ waiting
  static : ∀ x ∈ done ++ waiting, m.Static x
  inside : ∀ x ∈ done ++ waiting, m.Inside root (.space x)
  back : ∀ x ∈ done ++ waiting, x = root ∨ ∃ p ∈ done, x ∈ m.childrenOf p
  onward : ∀ p ∈ done, ∀ x ∈ m.childrenOf p, x ∈ done ++ waiting

namespace Route

variable {done waiting rest : List SpaceId}

theorem start (h : m.Static root) : m.Route root [] [root] where
  nodup := List.nodup_singleton root
  first := List.mem_singleton.2 rfl
  static _ hx := List.mem_singleton.1 hx ▸ h
  inside _ hx := List.mem_singleton.1 hx ▸ .self
  back _ hx := .inl (List.mem_singleton.1 hx)
  onward _ hp := absurd hp List.not_mem_nil

theorem child_inside (hm : m.Owned) (h : m.Route root done waiting) (hid : id ∈ done ++ waiting)
    {c : SpaceId} (hc : c ∈ m.childrenOf id) :
    m.Static c ∧ m.Inside root (.space c) ∧ c ≠ root := by
  obtain ⟨t, ht, hstatic, hparent⟩ := (hm.mem_childrenOf (h.static id hid)).1 hc
  have hhome := (home_space?_of_static hstatic).trans hparent
  have hinside := h.inside id hid
  refine ⟨⟨t, ht, hstatic⟩, .member (home?_space ht) hhome hinside, ?_⟩
  -- the walk does not come back to where it began, since that would lie inside its own child
  rintro rfl
  exact (hm.grounded c t ht).acyclic (home?_space ht) hhome hinside

/-- A child that waits or had its turn was reached from its parent, which comes once. -/
theorem child_fresh (hm : m.Owned) (h : m.Route root done (id :: rest)) {c : SpaceId}
    (hc : c ∈ m.childrenOf id) : c ∉ done ++ id :: rest := by
  have hid : id ∈ done ++ id :: rest := List.mem_append_right _ List.mem_cons_self
  intro hmem
  obtain ⟨p, hp, hcp⟩ := (h.back c hmem).resolve_left (h.child_inside hm hid hc).2.2
  obtain ⟨t, ht, -, hparent⟩ := (hm.mem_childrenOf (h.static id hid)).1 hc
  obtain ⟨u, hu, -, hparent'⟩ :=
    (hm.mem_childrenOf (h.static p (List.mem_append_left _ hp))).1 hcp
  cases ht.symm.trans hu
  cases hparent.symm.trans hparent'
  exact List.disjoint_of_nodup_append h.nodup hp List.mem_cons_self

theorem step (hm : m.Owned) (h : m.Route root done (id :: rest)) :
    m.Route root (done ++ [id]) ((m.childrenOf id).reverse ++ rest) := by
  have hid : id ∈ done ++ id :: rest := List.mem_append_right _ List.mem_cons_self
  have hmem : ∀ x, x ∈ done ++ [id] ++ ((m.childrenOf id).reverse ++ rest) ↔
      x ∈ done ++ id :: rest ∨ x ∈ m.childrenOf id := by
    intro x
    simp only [List.mem_append, List.mem_cons, List.not_mem_nil, List.mem_reverse]
    grind
  refine ⟨?_, (hmem root).2 (.inl h.first), fun x hx => ?_, fun x hx => ?_, fun x hx => ?_,
    fun p hp x hx => (hmem x).2 ?_⟩
  · have hperm : (done ++ [id] ++ ((m.childrenOf id).reverse ++ rest)).Perm
        (done ++ id :: rest ++ m.childrenOf id) := by
      rw [List.append_assoc, List.append_assoc, List.singleton_append, List.cons_append]
      refine List.Perm.append_left done (List.Perm.cons id ?_)
      exact List.perm_append_comm.trans (List.Perm.append_left rest (List.reverse_perm _))
    refine hperm.nodup_iff.2 (h.nodup.append (hm.nodup_childrenOf id) ?_)
    exact fun x hx hc => h.child_fresh hm hc hx
  · rcases (hmem x).1 hx with hx | hx
    · exact h.static x hx
    · exact (h.child_inside hm hid hx).1
  · rcases (hmem x).1 hx with hx | hx
    · exact h.inside x hx
    · exact (h.child_inside hm hid hx).2.1
  · rcases (hmem x).1 hx with hx | hx
    · obtain rfl | ⟨p, hp, hx⟩ := h.back x hx
      · exact .inl rfl
      · exact .inr ⟨p, List.mem_append_left _ hp, hx⟩
    · exact .inr ⟨id, List.mem_append_right _ (List.mem_singleton.2 rfl), hx⟩
  · rcases List.mem_append.1 hp with hp | hp
    · exact .inl (h.onward p hp x hx)
    · exact .inr (List.mem_singleton.1 hp ▸ hx)

/-- With as many steps as there are spaces left, nothing waits at the end. -/
theorem tour (hm : m.Owned) {fuel : Nat} (h : m.Route root done waiting)
    (enough : m.spaces.capacity ≤ done.length + fuel) :
    m.Route root (done ++ m.tour fuel waiting) [] := by
  induction fuel generalizing done waiting with
  | zero =>
    have hlength := m.spaces.length_le_capacity (done ++ waiting) h.nodup fun x hx =>
      have ⟨s, hs, _⟩ := h.static x hx
      Pool.contains_iff.2 ⟨s, hs⟩
    rw [List.length_append] at hlength
    have hnil : waiting = [] := List.eq_nil_of_length_eq_zero (by omega)
    subst hnil
    rwa [Model.tour, List.append_nil]
  | succ fuel ih =>
    cases waiting with
    | nil => rwa [Model.tour, List.append_nil]
    | cons id rest =>
      have hrest := ih (h.step hm) (by rw [List.length_append, List.length_singleton]; omega)
      rwa [List.append_assoc] at hrest

/-- A walk without an end left open was everywhere inside its first space. -/
theorem complete (hm : m.Owned) (h : m.Route root done []) {x : SpaceId} (hx : m.Static x)
    (hinside : m.Inside root (.space x)) : x ∈ done := by
  have key : ∀ x, m.Grounded x → m.Static x → m.Inside root (.space x) → x ∈ done := by
    intro x hground
    induction hground with
    | intro x s hs _ ih =>
      rintro ⟨t, ht, hstatic⟩ hinside
      cases hs.symm.trans ht
      have hhome := home_space?_of_static hstatic
      cases hinside with
      | self => simpa using h.first
      | @member _ _ p hat hp hinside =>
        cases (home?_space hs).symm.trans hat
        have hparent := hhome.symm.trans hp
        obtain ⟨q, hq, hqstatic, -⟩ := hm.static_holder hs hstatic hparent
        have hdone := ih p hp ⟨q, hq, hqstatic⟩ hinside
        have hchild := (hm.mem_childrenOf ⟨q, hq, hqstatic⟩).2 ⟨s, hs, hstatic, hparent⟩
        simpa using h.onward p hdone x hchild
  obtain ⟨s, hs, hstatic⟩ := hx
  exact key x (hm.grounded x s hs) ⟨s, hs, hstatic⟩ hinside

end Route

theorem Owned.mem_tour (hm : m.Owned) (hroot : m.Static root) (hid : m.Static id)
    (hinside : m.Inside root (.space id)) : id ∈ m.tour m.spaces.capacity [root] :=
  ((Route.start hroot).tour hm (Nat.le_add_left _ _)).complete hm hid hinside

/-! ## What is left behind -/

theorem Static.drops (h : m.Static id) (hdrops : Drops m m') :
    m'.Static id ∧ m'.childrenOf id = m.childrenOf id := by
  obtain ⟨s, hs, hstatic⟩ := h
  obtain ⟨s', hs', heq⟩ := hdrops.static' hs hstatic
  have hspaces : s'.spaces = s.spaces := by rw [heq]
  refine ⟨⟨s', hs', ?_⟩, ?_⟩
  · rw [heq]
    exact hstatic
  · rw [childrenOf, childrenOf, hs, hs', Option.map_some, Option.map_some, hspaces]

theorem Owned.static_turn (hm : m.Owned) {rest : List SpaceId}
    (h : ∀ x ∈ id :: rest, m.Static x) :
    ∀ x ∈ (m.childrenOf id).reverse ++ rest, m.Static x := by
  intro x hx
  rcases List.mem_append.1 hx with hx | hx
  · obtain ⟨t, ht, hstatic, -⟩ :=
      (hm.mem_childrenOf (h id List.mem_cons_self)).1 (List.mem_reverse.1 hx)
    exact ⟨t, ht, hstatic⟩
  · exact h x (List.mem_cons_of_mem _ hx)

theorem Drops.tour (hm : m.Owned) (hdrops : Drops m m') (fuel : Nat) {stack : List SpaceId}
    (h : ∀ x ∈ stack, m.Static x) : m'.tour fuel stack = m.tour fuel stack := by
  induction fuel generalizing stack with
  | zero => rfl
  | succ fuel ih =>
    cases stack with
    | nil => rfl
    | cons id rest =>
      rw [Model.tour, Model.tour, ((h id List.mem_cons_self).drops hdrops).2,
        ih (hm.static_turn h)]

theorem ForgetsSome.not_computed (h : ForgetsSome m m') {n : Node} (hn : m.isComputed n = false) :
    m'.isComputed n = false := by
  obtain ⟨gone, hforgets⟩ := h
  rw [hforgets.isComputed, hn, Bool.and_false]

theorem not_computed_invalidateCells (hg : m.graph.Indexed) (id : CellId) (k : Key) :
    (m.invalidateCells id).2.isComputed (.cells id k) = false := by
  have hforget := forgetsAll_invalidateCells m id
  cases hk : m.isComputed (.cells id k) with
  | false => exact hforget.forgetsSome.not_computed hk
  | true =>
    obtain ⟨_, c, he, hc, hcomputed⟩ := isComputed_iff.1 hk
    cases he
    exact hforget.not_computed hg ⟨rfl, .inr ⟨c, hc, .inl hcomputed⟩⟩

theorem not_computed_invalidateEach (hg : m.graph.Indexed) {ids : List CellId} {id : CellId}
    (hid : id ∈ ids) (k : Key) : (m.invalidateEach ids).2.isComputed (.cells id k) = false := by
  have key : ∀ (ids : List CellId) (r : Nat × Model), r.2.graph.Indexed →
      (id ∈ ids ∨ r.2.isComputed (.cells id k) = false) →
      (ids.foldl (fun r id => (r.1 + (r.2.invalidateCells id).1, (r.2.invalidateCells id).2))
        r).2.isComputed (.cells id k) = false := by
    intro ids
    induction ids with
    | nil => exact fun r _ h => h.resolve_left List.not_mem_nil
    | cons c ids ih =>
      intro r hg h
      have hforget := (forgetsAll_invalidateCells r.2 c).forgetsSome
      refine ih _ (hforget.choose_spec.graph hg).1 ?_
      rcases h with h | h
      · rcases List.mem_cons.1 h with rfl | h
        · exact .inr (not_computed_invalidateCells hg id k)
        · exact .inl h
      · exact .inr (hforget.not_computed h)
  exact key ids (0, m) hg (.inl hid)

structure Emptied (m : Model) (id : SpaceId) : Prop where
  cleared : m.Cleared id
  values : ∀ c d k, m.cells.get? c = some d → d.space = id → d.contents.values.get? k = none

theorem Emptied.keep (h : m.Emptied id) (hdrops : Drops m m') (hupholds : Upholds m m') :
    m'.Emptied id := by
  refine ⟨h.cleared.drops hdrops, fun c d' k hd' hspace => ?_⟩
  cases hv : d'.contents.values.get? k with
  | none => rfl
  | some v =>
    obtain ⟨d, hd, hv', -, -, hsame⟩ := hupholds.stored c d' k v hd' hv
    rw [h.values c d k hd (hsame.symm.trans hspace)] at hv'
    contradiction

/-- After its turn a space is empty of instances and of computed values. -/
theorem emptied_turn (hm : m.Owned) (hcalm : m.Calm) (id : SpaceId) :
    ((m.invalidateSpace id).2.removeEveryInstance id).2.Emptied id := by
  have hforget := forgetsSome_invalidateSpace m id
  have hm₁ := hforget.alike.owned hm
  have hcalm₁ := (editFrame_upholds.invalidateSpace m id hcalm).1
  obtain ⟨-, hdrops⟩ := under_removeEveryInstance (m.invalidateSpace id).2 id hm₁
  refine ⟨cleared_removeEveryInstance hm₁, fun c d' k hd' hspace => ?_⟩
  cases hv : d'.contents.values.get? k with
  | none => rfl
  | some v =>
    obtain ⟨-, hupholds⟩ := editFrame_upholds.removeEveryInstance _ id hcalm₁
    obtain ⟨d₁, hd₁, hv₁, -, -, hsame₁⟩ := hupholds.stored c d' k v hd' hv
    obtain ⟨d, hd, -, -, -, hsame⟩ :=
      (hforget.upholds hcalm.indexed).stored c d₁ k v hd₁ hv₁
    have hat : d.space = id := (hsame.symm.trans hsame₁.symm).trans hspace
    obtain ⟨s, hs, hlisted⟩ := hm.cells_holder hd
    rw [hat] at hs
    have hnone := not_computed_invalidateEach hcalm.indexed
      (NameMap.mem_values.2 ⟨d.name, hlisted⟩) k
    have hsome : (m.invalidateSpace id).2.isComputed (.cells c k) = true :=
      isComputed_iff.2 ⟨c, d₁, rfl, hd₁, Table.contains_of_get? hv₁⟩
    rw [invalidateSpace, hs, hnone] at hsome
    contradiction

theorem emptied_forgetSpaces (fuel : Nat) {stack : List SpaceId} (count : Nat) (hm : m.Owned)
    (hcalm : m.Calm) (h : ∀ x ∈ stack, m.Static x) :
    ∀ x ∈ m.tour fuel stack, (forgetSpaces fuel stack count m).2.Emptied x := by
  induction fuel generalizing stack count m with
  | zero => exact fun x hx => absurd hx List.not_mem_nil
  | succ fuel ih =>
    cases stack with
    | nil => exact fun x hx => absurd hx List.not_mem_nil
    | cons id rest =>
      have halike := (forgetsSome_invalidateSpace m id).alike
      obtain ⟨hm₂, hremoved⟩ := under_removeEveryInstance (m.invalidateSpace id).2 id
        (halike.owned hm)
      have hdrops := Frame.trans halike.drops hremoved
      have hcalm₂ := (editFrame_upholds.removeEveryInstance _ id
        (editFrame_upholds.invalidateSpace m id hcalm).1).1
      have hemptied := emptied_turn hm hcalm id
      have hstatic := hm.static_turn h
      rw [forgetSpaces]
      dsimp only
      generalize ((m.invalidateSpace id).2.removeEveryInstance id).2 = m₂ at *
      have hlive : (m.childrenOf id).filter m₂.spaces.contains = m.childrenOf id := by
        refine List.filter_eq_self.2 fun c hc => ?_
        obtain ⟨s, hs, -⟩ := ((hstatic c (List.mem_append_left _ (List.mem_reverse.2 hc))).drops
          hdrops).1
        exact Pool.contains_iff.2 ⟨s, hs⟩
      have hstatic₂ := fun x hx => ((hstatic x hx).drops hdrops).1
      rw [show ((m.spaces.get? id).map (·.spaces.values)).getD [] = m.childrenOf id from rfl, hlive]
      intro x hx
      rcases List.mem_cons.1 hx with rfl | hx
      · exact hemptied.keep (under_forgetSpaces _ _ _ m₂ hm₂).2
          (editFrame_upholds.forgetSpaces _ _ _ m₂ hcalm₂).2
      · rw [← hdrops.tour hm fuel hstatic] at hx
        exact ih _ hm₂ hcalm₂ hstatic₂ x hx

/-- Forgetting within a static space leaves every static space inside it so. -/
theorem Owned.emptied_forgetWithin (hm : m.Owned) (hcalm : m.Calm) (hroot : m.Static root)
    (count : Nat) (hid : m.Static id) (hinside : m.Inside root (.space id)) :
    (forgetSpaces m.spaces.capacity [root] count m).2.Emptied id :=
  emptied_forgetSpaces _ count hm hcalm (fun _ hx => List.mem_singleton.1 hx ▸ hroot) id
    (hm.mem_tour hroot hid hinside)

end Recalc.Model
