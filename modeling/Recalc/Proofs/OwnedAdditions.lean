import Recalc.Proofs.OwnedRemoval

set_option autoImplicit false

/-!
# Owned models stay owned when things come

A new entity gets an identity of its own and is listed at home at once, where nothing was listed
before. Pools never shrink, so there is room for every identity at the end only if there was before.
-/

namespace Recalc.Model

open Recalc.Action

section Room

variable {m : Model}

theorem addressable_modifySpace (id : SpaceId) (f : Space → Space) :
    (m.modifySpace id f).Addressable ↔ m.Addressable :=
  addressable_iff (Pool.size_modify _ _ _) rfl rfl

theorem addressable_modifyCell (id : CellId) (f : Cells → Cells) :
    (m.modifyCell id f).Addressable ↔ m.Addressable :=
  addressable_iff rfl (Pool.size_modify _ _ _) rfl

theorem addressable_modifyRef (id : RefId) (f : Reference → Reference) :
    (m.modifyRef id f).Addressable ↔ m.Addressable :=
  addressable_iff rfl rfl (Pool.size_modify _ _ _)

theorem addressable_of_insertSpace {s : Space}
    (h : Addressable { m with spaces := (m.spaces.insert s).2 }) : m.Addressable :=
  ⟨Nat.le_trans (Pool.size_insert_le _ _) h.spaces, h.cells, h.refs⟩

theorem addressable_of_addCells {c : Cells} (h : (m.addCells c).2.Addressable) : m.Addressable := by
  have h : Addressable { m with cells := (m.cells.insert c).2 } := (addressable_modifySpace _ _).1 h
  exact ⟨h.spaces, Nat.le_trans (Pool.size_insert_le _ _) h.cells, h.refs⟩

theorem addressable_of_addRef {r : Reference} (h : (m.addRef r).2.Addressable) : m.Addressable := by
  have h : Addressable { m with refs := (m.refs.insert r).2 } := by
    cases howner : r.owner with
    | some owner =>
      rw [addRef_of_owner m howner] at h
      exact (addressable_modifySpace _ _).1 h
    | none =>
      rw [addRef_of_global m howner] at h
      exact ⟨h.spaces, h.cells, h.refs⟩
  exact ⟨h.spaces, h.cells, Nat.le_trans (Pool.size_insert_le _ _) h.refs⟩

theorem addressable_of_addChild {parent : SpaceId} {s : Space}
    (h : (m.addChild parent s).2.Addressable) : m.Addressable :=
  addressable_of_insertSpace ((addressable_modifySpace _ _).1 h)

end Room

/-! ## Cells -/

structure AddsCells (m m' : Model) (c : Cells) (s : Space) (id : CellId) : Prop where
  space : m.spaces.get? c.space = some s
  fresh : m.cells.get? id = none
  cells : ∀ other, m'.cells.get? other = if id = other then some c else m.cells.get? other
  spaces : ∀ other, m'.spaces.get? other =
    if c.space = other then some { s with cells := s.cells.insert c.name id }
    else m.spaces.get? other
  refs : m'.refs = m.refs
  roots : m'.roots = m.roots
  globals : m'.globals = m.globals

section Adding

variable {m : Model} {loose : Entity → Prop}

theorem addsCells {c : Cells} {s : Space} (ht : m.Tidy) (small : (m.addCells c).2.Addressable)
    (hs : m.spaces.get? c.space = some s) :
    AddsCells m (m.addCells c).2 c s (m.addCells c).1 := by
  have small : Addressable { m with cells := (m.cells.insert c).2 } :=
    (addressable_modifySpace _ _).1 small
  obtain ⟨hfresh, hget⟩ := Pool.insert_fresh ht.cells small.cells
  refine ⟨hs, hfresh, hget, fun other => ?_, rfl, rfl, rfl⟩
  exact get?_modifySpace (m := { m with cells := (m.cells.insert c).2 }) hs _ other

theorem linked_addCells {c : Cells} {s : Space} (ht : m.Tidy)
    (small : (m.addCells c).2.Addressable) (hs : m.spaces.get? c.space = some s)
    (hfree : s.cells.get? c.name = none) (h : m.Linked loose) : (m.addCells c).2.Linked loose := by
  have small : Addressable { m with cells := (m.cells.insert c).2 } :=
    (addressable_modifySpace _ _).1 small
  have hinserts := inserts_cells (Pool.insert_fresh ht.cells small.cells)
  have hlist := relists_cells (m := { m with cells := (m.cells.insert c).2 }) hs
    (g := fun t => t.insert c.name (m.cells.insert c).1) (c := some (m.cells.insert c).1)
    fun t n => NameMap.get?_insert t c.name n _
  refine (h.insert hinserts).enlist hlist hinserts.home (.refl _) ?_
  rw [hinserts.listed, listed_of_space rfl hs, Space.lists, hfree, Option.map_none]

theorem tidy_addCells (ht : m.Tidy) (c : Cells) : (m.addCells c).2.Tidy :=
  ⟨Pool.tidy_modify _ _ _ ht.spaces, Pool.tidy_insert ht.cells c, ht.refs⟩

theorem owned_addCells {c : Cells} {s : Space} (hm : m.Owned) (small : (m.addCells c).2.Addressable)
    (hs : m.spaces.get? c.space = some s) (hfree : s.cells.get? c.name = none) :
    (m.addCells c).2.Owned := by
  have hadds := addsCells hm.tidy small hs
  refine hm.transfer (tidy_addCells hm.tidy c) (linked_addCells hm.tidy small hs hfree hm.linked)
    (fun id t t' ht ht' => ?_) fun id t' ht' hnone => ?_
  · rw [hadds.spaces] at ht'
    split at ht'
    next h =>
      subst h
      rw [hs] at ht
      cases ht
      cases ht'
      exact ⟨rfl, rfl, rfl, fun _ => rfl, fun _ => rfl⟩
    next =>
      rw [ht] at ht'
      cases ht'
      exact .refl t
  · rw [hadds.spaces] at ht'
    split at ht'
    next h =>
      subst h
      rw [hs] at hnone
      contradiction
    next =>
      rw [hnone] at ht'
      contradiction

/-! ## References -/

theorem cells_addRef (m : Model) (r : Reference) : (m.addRef r).2.cells = m.cells := by
  cases howner : r.owner with
  | some owner => rw [addRef_of_owner m howner]; rfl
  | none => rw [addRef_of_global m howner]

theorem roots_addRef (m : Model) (r : Reference) : (m.addRef r).2.roots = m.roots := by
  cases howner : r.owner with
  | some owner => rw [addRef_of_owner m howner]; rfl
  | none => rw [addRef_of_global m howner]

theorem spaces_addRef {r : Reference} {owner : SpaceId} {s : Space} (howner : r.owner = some owner)
    (hs : m.spaces.get? owner = some s) (other : SpaceId) : (m.addRef r).2.spaces.get? other =
      if owner = other then some { s with refs := s.refs.insert r.name (m.addRef r).1 }
      else m.spaces.get? other := by
  rw [addRef_of_owner m howner]
  exact get?_modifySpace (m := { m with refs := (m.refs.insert r).2 }) hs _ other

theorem spaces_addGlobal {r : Reference} (howner : r.owner = none) :
    (m.addRef r).2.spaces = m.spaces := by
  rw [addRef_of_global m howner]

theorem linked_addRef {r : Reference} {owner : SpaceId} {s : Space} (ht : m.Tidy)
    (small : (m.addRef r).2.Addressable) (howner : r.owner = some owner)
    (hs : m.spaces.get? owner = some s) (hfree : s.refs.get? r.name = none) (h : m.Linked loose) :
    (m.addRef r).2.Linked loose := by
  rw [addRef_of_owner m howner] at small ⊢
  have small : Addressable { m with refs := (m.refs.insert r).2 } :=
    (addressable_modifySpace _ _).1 small
  have hinserts := inserts_ref (Pool.insert_fresh ht.refs small.refs)
  have hlist := relists_refs (m := { m with refs := (m.refs.insert r).2 }) hs
    (g := fun t => t.insert r.name (m.refs.insert r).1) (r := some (m.refs.insert r).1)
    fun t n => NameMap.get?_insert t r.name n _
  have hhome : r.home = .ref owner r.name := by rw [Reference.home, howner]
  refine (h.insert hinserts).enlist hlist hinserts.home (by rw [hhome]; exact .refl _) ?_
  rw [hinserts.listed, listed_of_space rfl hs, Space.lists, hfree, Option.map_none]

theorem linked_addGlobal {r : Reference} (ht : m.Tidy) (small : (m.addRef r).2.Addressable)
    (howner : r.owner = none) (hfree : m.globals.get? r.name = none) (h : m.Linked loose) :
    (m.addRef r).2.Linked loose := by
  rw [addRef_of_global m howner] at small ⊢
  have hinserts := inserts_ref (Pool.insert_fresh ht.refs small.refs)
  have hlist := relists_globals (m := { m with refs := (m.refs.insert r).2 })
    (g := fun t => t.insert r.name (m.refs.insert r).1) (r := some (m.refs.insert r).1)
    fun t n => NameMap.get?_insert t r.name n _
  have hhome : r.home = .global r.name := by rw [Reference.home, howner]
  refine (h.insert hinserts).enlist hlist hinserts.home (by rw [hhome]; exact .refl _) ?_
  rw [hinserts.listed]
  show (m.globals.get? r.name).map Entity.ref = none
  rw [hfree, Option.map_none]

/-! ## Spaces -/

/-- A space is listed nowhere inside a new space. -/
theorem lists_of_empty {s : Space} (hc : s.cells = .empty) (hr : s.refs = .empty)
    (hs : s.spaces = .empty) (hi : s.instances = .empty) (a : Address) : s.lists a = none := by
  cases a with
  | root _ => rfl
  | global _ => rfl
  | cells _ n => rw [Space.lists, hc, NameMap.get?_empty, Option.map_none]
  | ref _ n => rw [Space.lists, hr, NameMap.get?_empty, Option.map_none]
  | child _ n => rw [Space.lists, hs, NameMap.get?_empty, Option.map_none]
  | item _ k => rw [Space.lists, hi, Table.get?_empty, Option.map_none]

theorem linked_addChild {parent : SpaceId} {p s : Space} (ht : m.Tidy)
    (small : (m.addChild parent s).2.Addressable) (hp : m.spaces.get? parent = some p)
    (hfree : p.spaces.get? s.name = none) (hhome : s.home = .child parent s.name)
    (empty : ∀ a, s.lists a = none) (h : m.Linked loose) : (m.addChild parent s).2.Linked loose := by
  have small : Addressable { m with spaces := (m.spaces.insert s).2 } :=
    (addressable_modifySpace _ _).1 small
  have hfresh := Pool.insert_fresh ht.spaces small.spaces
  have hinserts := inserts_space hfresh empty
  have hp' : (m.spaces.insert s).2.get? parent = some p := by
    rw [hfresh.2, if_neg, hp]
    rintro rfl
    rw [hfresh.1] at hp
    contradiction
  have hlist := relists_children (m := { m with spaces := (m.spaces.insert s).2 }) hp'
    (g := fun t => t.insert s.name (m.spaces.insert s).1) (c := some (m.spaces.insert s).1)
    fun t n => NameMap.get?_insert t s.name n _
  refine (h.insert hinserts).enlist hlist hinserts.home (by rw [hhome]; exact .refl _) ?_
  rw [hinserts.listed, listed_of_space rfl hp, Space.lists, hfree, Option.map_none]

structure AddsChild (m m' : Model) (parent : SpaceId) (p s : Space) (id : SpaceId) : Prop where
  outer : m.spaces.get? parent = some p
  fresh : m.spaces.get? id = none
  spaces : ∀ other, m'.spaces.get? other =
    if parent = other then some { p with spaces := p.spaces.insert s.name id }
    else if id = other then some s else m.spaces.get? other
  cells : m'.cells = m.cells
  refs : m'.refs = m.refs
  roots : m'.roots = m.roots
  globals : m'.globals = m.globals

theorem addsChild {parent : SpaceId} {p s : Space} (ht : m.Tidy)
    (small : (m.addChild parent s).2.Addressable) (hp : m.spaces.get? parent = some p) :
    AddsChild m (m.addChild parent s).2 parent p s (m.addChild parent s).1 := by
  have small : Addressable { m with spaces := (m.spaces.insert s).2 } :=
    (addressable_modifySpace _ _).1 small
  have hfresh := Pool.insert_fresh ht.spaces small.spaces
  have hp' : (m.spaces.insert s).2.get? parent = some p := by
    rw [hfresh.2, if_neg, hp]
    rintro rfl
    rw [hfresh.1] at hp
    contradiction
  refine ⟨hp, hfresh.1, fun other => ?_, rfl, rfl, rfl, rfl⟩
  refine (get?_modifySpace (m := { m with spaces := (m.spaces.insert s).2 }) hp' _ other).trans ?_
  rw [hfresh.2]
  rfl

/-- A static child of a static space comes. -/
theorem owned_addChild {parent : SpaceId} {p s : Space} (hm : m.Owned)
    (small : (m.addChild parent s).2.Addressable) (hp : m.spaces.get? parent = some p)
    (hfree : p.spaces.get? s.name = none) (hparent : s.parent = some parent)
    (hstatic : s.isStatic = true) (hpstatic : p.isStatic = true) (empty : ∀ a, s.lists a = none) :
    (m.addChild parent s).2.Owned := by
  have hhome : s.home = .child parent s.name := by
    rw [Space.home_of_static hstatic, hparent]
    rfl
  have hadds := addsChild hm.tidy small hp
  refine hm.transfer ((widens_addChild m parent s).tidy hm.tidy)
    (linked_addChild hm.tidy small hp hfree hhome empty hm.linked)
    (fun id t t' ht ht' => ?_) fun id t' ht' hnone => ?_
  · rw [hadds.spaces] at ht'
    split at ht'
    next h =>
      subst h
      rw [hp] at ht
      cases ht
      cases ht'
      exact ⟨rfl, rfl, rfl, fun _ => rfl, fun _ => rfl⟩
    next =>
      split at ht'
      next h =>
        rw [← h, hadds.fresh] at ht
        contradiction
      next =>
        rw [ht] at ht'
        cases ht'
        exact .refl t
  · rw [hadds.spaces] at ht'
    split at ht'
    next h =>
      rw [← h, hp] at hnone
      contradiction
    next =>
      split at ht'
      next =>
        cases ht'
        refine ⟨⟨fun _ q t hq ht => ?_, fun c root hk => ?_, fun hreplica => ?_⟩, fun q hq => ?_⟩
        · rw [hparent] at hq
          cases hq
          rw [hadds.spaces, if_pos rfl] at ht
          cases ht
          exact hpstatic
        · rw [Space.isStatic, hk] at hstatic
          contradiction
        · rw [hstatic] at hreplica
          contradiction
        · rw [hhome] at hq
          cases hq
          exact ⟨p, hp⟩
      next =>
        rw [hnone] at ht'
        contradiction

end Adding

end Recalc.Model
