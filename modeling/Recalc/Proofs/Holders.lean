import Recalc.Proofs.Ownership

set_option autoImplicit false

/-!
# Holders

In an owned model a listing and the record of what is listed say the same. What is listed is alive
and belongs where it is listed, and what is alive is listed by its holder.
-/

namespace Recalc.Model

section Homes

variable {s : Space}

theorem isStatic_of_item {owner c : SpaceId} {args : Key} {enclosing : List SpaceId}
    (hk : s.kind = .item owner c args enclosing) : s.isStatic = false := by
  rw [Space.isStatic, hk]

theorem isStatic_of_dynamic {c root : SpaceId} (hk : s.kind = .dynamic c root) :
    s.isStatic = false := by
  rw [Space.isStatic, hk]

theorem home_of_item {owner c : SpaceId} {args : Key} {enclosing : List SpaceId}
    (hk : s.kind = .item owner c args enclosing) : s.home = .item owner args := by
  simp only [Space.home, hk]

theorem home_of_dynamic {c root p : SpaceId} (hk : s.kind = .dynamic c root)
    (hp : s.parent = some p) : s.home = .child p s.name := by
  simp only [Space.home, hk, hp]

theorem home_space?_of_not_item
    (h : ∀ owner c args enclosing, s.kind ≠ .item owner c args enclosing) :
    s.home.space? = s.parent := by
  unfold Space.home
  split
  next owner c args enclosing hk => exact absurd hk (h owner c args enclosing)
  next => cases s.parent <;> rfl

theorem home_space?_of_static (hstatic : s.isStatic = true) : s.home.space? = s.parent :=
  home_space?_of_not_item fun owner c args enclosing hk => by
    rw [isStatic_of_item hk] at hstatic
    contradiction

end Homes

variable {m : Model} {id : SpaceId} {s : Space} {name : String} (hm : m.Owned)
include hm

/-! ## What is alive is listed -/

section Listed

theorem Owned.cells_holder {c : CellId} {d : Cells} (hd : m.cells.get? c = some d) :
    ∃ s, m.spaces.get? d.space = some s ∧ s.cells.get? d.name = some c := by
  obtain ⟨s, hs, hlists⟩ := hm.holder (home?_cells hd) rfl
  obtain ⟨x, hx, heq⟩ := Option.map_eq_some_iff.1 hlists
  cases heq
  exact ⟨s, hs, hx⟩

theorem Owned.ref_holder {r : RefId} {q : Reference} (hq : m.refs.get? r = some q)
    (howner : q.owner = some id) :
    ∃ s, m.spaces.get? id = some s ∧ s.refs.get? q.name = some r := by
  have hhome : q.home = .ref id q.name := by rw [Reference.home, howner]
  obtain ⟨s, hs, hlists⟩ := hm.holder (home?_ref hq) (p := id) (by rw [hhome]; rfl)
  rw [hhome] at hlists
  obtain ⟨x, hx, heq⟩ := Option.map_eq_some_iff.1 hlists
  cases heq
  exact ⟨s, hs, hx⟩

/-- The parent of a space that is listed as a child. -/
theorem Owned.child_holder {c : SpaceId} {t : Space} (ht : m.spaces.get? c = some t)
    (hhome : t.home = .child id t.name) :
    ∃ s, m.spaces.get? id = some s ∧ s.spaces.get? t.name = some c := by
  obtain ⟨s, hs, hlists⟩ := hm.holder (home?_space ht) (p := id) (by rw [hhome]; rfl)
  rw [hhome] at hlists
  obtain ⟨x, hx, heq⟩ := Option.map_eq_some_iff.1 hlists
  cases heq
  exact ⟨s, hs, hx⟩

/-- The parent of a static space is static. -/
theorem Owned.static_holder {c : SpaceId} {t : Space} (ht : m.spaces.get? c = some t)
    (hstatic : t.isStatic = true) (hparent : t.parent = some id) :
    ∃ s, m.spaces.get? id = some s ∧ s.isStatic = true ∧ s.spaces.get? t.name = some c := by
  obtain ⟨s, hs, hlisted⟩ := hm.child_holder ht
    (by rw [Space.home_of_static hstatic, hparent, Option.elim_some])
  exact ⟨s, hs, (hm.placed c t ht).static hstatic id s hparent hs, hlisted⟩

theorem Owned.item_holder {x c : SpaceId} {t : Space} {args : Key} {enclosing : List SpaceId}
    (ht : m.spaces.get? x = some t) (hk : t.kind = .item id c args enclosing) :
    ∃ s, m.spaces.get? id = some s ∧ s.instances.get? args = some x := by
  obtain ⟨s, hs, hlists⟩ := hm.holder (home?_space ht) (p := id) (by rw [home_of_item hk]; rfl)
  rw [home_of_item hk] at hlists
  obtain ⟨y, hy, heq⟩ := Option.map_eq_some_iff.1 hlists
  cases heq
  exact ⟨s, hs, hy⟩

theorem Owned.cells_listed {c : CellId} {d : Cells} (hd : m.cells.get? c = some d)
    (hs : m.spaces.get? d.space = some s) : s.cells.get? d.name = some c := by
  obtain ⟨t, ht, hlisted⟩ := hm.cells_holder hd
  cases hs.symm.trans ht
  exact hlisted

theorem Owned.ref_listed {r : RefId} {q : Reference} (hq : m.refs.get? r = some q)
    (howner : q.owner = some id) (hs : m.spaces.get? id = some s) :
    s.refs.get? q.name = some r := by
  obtain ⟨t, ht, hlisted⟩ := hm.ref_holder hq howner
  cases hs.symm.trans ht
  exact hlisted

theorem Owned.global_listed {r : RefId} {q : Reference} (hq : m.refs.get? r = some q)
    (howner : q.owner = none) : m.globals.get? q.name = some r := by
  have hlisted := hm.listed (home?_ref hq)
  rw [Reference.home, howner] at hlisted
  obtain ⟨x, hx, heq⟩ := Option.map_eq_some_iff.1 hlisted
  cases heq
  exact hx

theorem Owned.root_listed {c : SpaceId} {t : Space} (ht : m.spaces.get? c = some t)
    (hstatic : t.isStatic = true) (hparent : t.parent = none) : m.roots.get? t.name = some c := by
  have hlisted := hm.listed (home?_space ht)
  rw [Space.home_of_static hstatic, hparent, Option.elim_none] at hlisted
  obtain ⟨x, hx, heq⟩ := Option.map_eq_some_iff.1 hlisted
  cases heq
  exact hx

end Listed

/-! ## What is listed is alive -/

section Listing

/-- Roots are static. -/
theorem Owned.root_of_listed {c : SpaceId} (hc : m.roots.get? name = some c) :
    ∃ t, m.spaces.get? c = some t ∧ t.isStatic = true ∧ t.parent = none ∧ t.name = name := by
  have hlisted : m.listed (.root name) = some (.space c) := congrArg (Option.map Entity.space) hc
  obtain ⟨b, hb, hsame⟩ := hm.linked.sound _ _ hlisted
  obtain ⟨t, ht, rfl⟩ := space_of_home? hb
  cases hk : t.kind with
  | static =>
    have hstatic : t.isStatic = true := by rw [Space.isStatic, hk]
    rw [Space.home_of_static hstatic] at hsame
    cases hp : t.parent with
    | none =>
      rw [hp, Option.elim_none] at hsame
      generalize hn : t.name = n at hsame
      cases hsame
      exact ⟨t, ht, hstatic, hp, hn⟩
    | some p =>
      rw [hp] at hsame
      cases hsame
  | item =>
    rw [home_of_item hk] at hsame
    cases hsame
  | dynamic _ root =>
    obtain ⟨p, hp, -⟩ := (hm.placed c t ht).dynamic _ root hk
    rw [home_of_dynamic hk hp] at hsame
    cases hsame

theorem Owned.global_of_listed {r : RefId} (hr : m.globals.get? name = some r) :
    ∃ q, m.refs.get? r = some q ∧ q.owner = none ∧ q.name = name := by
  have hlisted : m.listed (.global name) = some (.ref r) := congrArg (Option.map Entity.ref) hr
  obtain ⟨b, hb, hsame⟩ := hm.linked.sound _ _ hlisted
  obtain ⟨q, hq, rfl⟩ := ref_of_home? hb
  unfold Reference.home at hsame
  cases howner : q.owner with
  | none =>
    rw [howner] at hsame
    generalize hn : q.name = n at hsame
    cases hsame
    exact ⟨q, hq, howner, hn⟩
  | some o =>
    rw [howner] at hsame
    cases hsame

variable (hs : m.spaces.get? id = some s)
include hs

theorem Owned.cells_of_listed {c : CellId} (hc : s.cells.get? name = some c) :
    ∃ d, m.cells.get? c = some d ∧ d.space = id ∧ d.name = name := by
  have hlisted : m.listed (.cells id name) = some (.cells c) := by
    rw [listed_of_space rfl hs, Space.lists, hc, Option.map_some]
  obtain ⟨b, hb, hsame⟩ := hm.linked.sound _ _ hlisted
  obtain ⟨d, hd, rfl⟩ := cells_of_home? hb
  unfold Cells.home at hsame
  cases hsame
  exact ⟨d, hd, rfl, rfl⟩

theorem Owned.ref_of_listed {r : RefId} (hr : s.refs.get? name = some r) :
    ∃ q, m.refs.get? r = some q ∧ q.owner = some id ∧ q.name = name := by
  have hlisted : m.listed (.ref id name) = some (.ref r) := by
    rw [listed_of_space rfl hs, Space.lists, hr, Option.map_some]
  obtain ⟨b, hb, hsame⟩ := hm.linked.sound _ _ hlisted
  obtain ⟨q, hq, rfl⟩ := ref_of_home? hb
  unfold Reference.home at hsame
  cases howner : q.owner with
  | none =>
    rw [howner] at hsame
    cases hsame
  | some o =>
    rw [howner] at hsame
    cases hsame
    exact ⟨q, hq, howner, rfl⟩

/-- What is listed as a child is no instance. -/
theorem Owned.child_of_listed {c : SpaceId} (hc : s.spaces.get? name = some c) :
    ∃ t, m.spaces.get? c = some t ∧ t.parent = some id ∧ t.name = name ∧
      ∀ owner k args enclosing, t.kind ≠ .item owner k args enclosing := by
  have hlisted : m.listed (.child id name) = some (.space c) := by
    rw [listed_of_space rfl hs, Space.lists, hc, Option.map_some]
  obtain ⟨b, hb, hsame⟩ := hm.linked.sound _ _ hlisted
  obtain ⟨t, ht, rfl⟩ := space_of_home? hb
  unfold Space.home at hsame
  split at hsame
  next => cases hsame
  next hitem =>
    cases hp : t.parent with
    | none =>
      rw [hp] at hsame
      cases hsame
    | some p =>
      rw [hp] at hsame
      generalize hn : t.name = n at hsame
      cases hsame
      exact ⟨t, ht, hp, hn, hitem⟩

/-- The children of a static space are static. -/
theorem Owned.static_of_listed {c : SpaceId} (hstatic : s.isStatic = true)
    (hc : s.spaces.get? name = some c) :
    ∃ t, m.spaces.get? c = some t ∧ t.isStatic = true ∧ t.parent = some id ∧ t.name = name := by
  obtain ⟨t, ht, hparent, hname, hitem⟩ := hm.child_of_listed hs hc
  refine ⟨t, ht, ?_, hparent, hname⟩
  cases hk : t.kind with
  | static => rw [Space.isStatic, hk]
  | item => exact absurd hk (hitem _ _ _ _)
  | dynamic _ root =>
    obtain ⟨p, hp, hdynamic⟩ := (hm.placed c t ht).dynamic _ root hk
    cases hparent.symm.trans hp
    rw [hdynamic s hs] at hstatic
    contradiction

theorem Owned.item_of_listed {k : Key} {i : SpaceId} (hi : s.instances.get? k = some i) :
    ∃ t c args enclosing, m.spaces.get? i = some t ∧ t.kind = .item id c args enclosing ∧
      (args == k) = true := by
  have hlisted : m.listed (.item id k) = some (.space i) := by
    rw [listed_of_space rfl hs, Space.lists, hi, Option.map_some]
  obtain ⟨b, hb, hsame⟩ := hm.linked.sound _ _ hlisted
  obtain ⟨t, ht, rfl⟩ := space_of_home? hb
  unfold Space.home at hsame
  split at hsame
  next owner c args enclosing hk =>
    cases hsame with
    | refl => exact ⟨t, c, _, enclosing, ht, hk, BEq.rfl⟩
    | keys _ hkeys => exact ⟨t, c, args, enclosing, ht, hk, hkeys⟩
  next =>
    cases hp : t.parent with
    | none =>
      rw [hp] at hsame
      cases hsame
    | some p =>
      rw [hp] at hsame
      cases hsame

end Listing

end Recalc.Model
