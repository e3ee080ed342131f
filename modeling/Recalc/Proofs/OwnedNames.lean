import Recalc.Proofs.Levels
import Recalc.Proofs.MirroredRequests

set_option autoImplicit false

/-!
# Owners and names

Between two requests everything that is alive is listed under its own name by the one space that it
belongs to, and what is listed is alive. The links to parents and owners lead nowhere twice, and no
name of a space has two meanings.
-/

namespace Recalc

open Model

structure Space.OneKind (s : Space) (name : String) : Prop where
  cells_spaces : s.cells.get? name = none ∨ s.spaces.get? name = none
  cells_refs : s.cells.get? name = none ∨ s.refs.get? name = none
  spaces_refs : s.spaces.get? name = none ∨ s.refs.get? name = none

namespace Model

/-! ## One meaning for a name -/

section Names

variable {m : Model} {id : SpaceId} {s : Space}

theorem kind_of_lists {kind : MemberKind} {name : String} {e : Entity}
    (h : s.lists (kind.place id name) = some e) : e.kind = kind := by
  cases kind with
  | cells =>
    obtain ⟨_, _, rfl⟩ := Option.map_eq_some_iff.1 h
    rfl
  | space =>
    obtain ⟨_, _, rfl⟩ := Option.map_eq_some_iff.1 h
    rfl
  | reference =>
    obtain ⟨_, _, rfl⟩ := Option.map_eq_some_iff.1 h
    rfl

theorem oneKind_of_static (hm : m.Owned) (ha : m.Arranged) (hs : m.spaces.get? id = some s)
    (hstatic : s.isStatic = true) (name : String) : s.OneKind name := by
  have hone : ∀ kind kind' : MemberKind, kind ≠ kind' →
      s.lists (kind.place id name) = none ∨ s.lists (kind'.place id name) = none := by
    intro kind kind' hne
    by_contra! h
    obtain ⟨e, he⟩ := Option.ne_none_iff_exists'.1 h.1
    obtain ⟨e', he'⟩ := Option.ne_none_iff_exists'.1 h.2
    obtain rfl := kind_of_lists he
    obtain rfl := kind_of_lists he'
    exact hne (ha.names id name e' e (memberAt_of_lists hm hs hstatic he')
      (memberAt_of_lists hm hs hstatic he))
  refine ⟨?_, ?_, ?_⟩
  · simpa only [Space.lists, MemberKind.place, Option.map_eq_none_iff] using
      hone .cells .space (by decide)
  · simpa only [Space.lists, MemberKind.place, Option.map_eq_none_iff] using
      hone .cells .reference (by decide)
  · simpa only [Space.lists, MemberKind.place, Option.map_eq_none_iff] using
      hone .space .reference (by decide)

/-- A replica has children only where the space has some that it is a replica of. -/
theorem Faithful.child_of_replica {sites : SpaceId → Prop} (hm : m.Faithful sites)
    (hs : m.spaces.get? id = some s) {c : SpaceId} {source : Space}
    (hc : m.counterpart id = .ok c) (hsource : m.spaces.get? c = some source)
    (hreplica : s.isStatic = false) {name : String} {y : SpaceId}
    (hy : s.spaces.get? name = some y) : ∃ x, source.spaces.get? name = some x := by
  obtain ⟨t, ht, hparent, rfl, hitem⟩ := hm.owned.child_of_listed hs hy
  cases hm.reflects ht with
  | static hstatic =>
    rw [(hm.owned.placed y t ht).static hstatic id s hparent hs] at hreplica
    contradiction
  | item hk => exact absurd hk (hitem _ _ _ _)
  | dynamic _ hp _ hpc houter hlist =>
    cases hparent.symm.trans hp
    cases hc.symm.trans hpc
    cases hsource.symm.trans houter
    exact ⟨_, hlist⟩

theorem oneKind_of_copies {sites : SpaceId → Prop} (hm : m.Faithful sites)
    (hs : m.spaces.get? id = some s) (hreplica : s.isStatic = false) {c : SpaceId}
    {source : Space} (hc : m.counterpart id = .ok c) (hcopies : m.Copies s c source)
    (name : String) : s.OneKind name := by
  have hrefs : s.refs.get? name = none := by
    rw [(hm.owned.placed id s hs).refs hreplica]
    rfl
  refine ⟨?_, .inr hrefs, .inr hrefs⟩
  -- cells and children of a replica come from a static space that has them under the same names
  have hsource := (oneKind_of_static hm.owned hm.arranged hcopies.live hcopies.isStatic
    name).cells_spaces
  rcases hsource with hcells | hspaces
  · refine .inl (Option.eq_none_iff_forall_ne_some.2 fun d hd => ?_)
    obtain ⟨e, -, -, he, -⟩ := (hcopies.sameCells hm.owned hs).cells name d hd
    rw [hcells] at he
    contradiction
  · refine .inr (Option.eq_none_iff_forall_ne_some.2 fun y hy => ?_)
    obtain ⟨x, hx⟩ := hm.child_of_replica hs hc hcopies.live hreplica hy
    rw [hspaces] at hx
    contradiction

theorem Faithful.oneKind {sites : SpaceId → Prop} (hm : m.Faithful sites)
    (hs : m.spaces.get? id = some s) (name : String) : s.OneKind name := by
  cases hm.reflects hs with
  | static hstatic => exact oneKind_of_static hm.owned hm.arranged hs hstatic name
  | item hk _ hcopies =>
    exact oneKind_of_copies hm hs (isStatic_of_item hk) (counterpart_of_item hs hk) hcopies name
  | dynamic hk _ _ _ _ _ hcopies =>
    exact oneKind_of_copies hm hs (isStatic_of_dynamic hk) (counterpart_of_dynamic hs hk) hcopies
      name

end Names

/-! ## Walks that end -/

section Ends

variable {m : Model} {id : SpaceId} {fuel : Nat}

theorem Owned.ancestry_ends (hm : m.Owned) (hbeside : m.Beside)
    (hfuel : m.spaces.capacity ≤ fuel) : m.ancestryFrom fuel id = m.ancestry id := by
  cases ht : m.spaces.get? id with
  | none =>
    have hnil : ∀ n, m.ancestryFrom n id = [] := by
      rintro (_ | n)
      · rfl
      · rw [ancestryFrom, ht]
    rw [ancestry, hnil, hnil]
  | some t =>
    obtain ⟨n, hn⟩ := (hm.grounded id t ht).level
    exact hn.ancestryFrom_eq hbeside (Nat.lt_of_lt_of_le hn.lt_capacity hfuel) hn.lt_capacity

theorem Owned.dottedName_ends (hm : m.Owned) (hbeside : m.Beside)
    (hfuel : m.spaces.capacity ≤ fuel) : m.dottedNameFrom fuel id = m.dottedName id := by
  cases ht : m.spaces.get? id with
  | none =>
    have hdeleted : ∀ n, m.dottedNameFrom n id = deletedLabel id := by
      rintro (_ | n)
      · rfl
      · rw [dottedNameFrom, ht]
    rw [dottedName, hdeleted, hdeleted]
  | some t =>
    obtain ⟨n, hn⟩ := (hm.grounded id t ht).level
    exact hn.dottedNameFrom_eq hbeside (Nat.lt_of_lt_of_le hn.lt_capacity hfuel)
      (Nat.lt_succ_of_lt hn.lt_capacity)

theorem Faithful.boundArgument_ends {sites : SpaceId → Prop} (hm : m.Faithful sites)
    (name : String) (hfuel : m.spaces.capacity ≤ fuel) :
    m.boundArgumentFrom name fuel (m.instanceRoot? id) = m.boundArgument id name := by
  unfold boundArgument
  cases hr : m.instanceRoot? id with
  | none =>
    have hnone : ∀ n, m.boundArgumentFrom name n none = .ok none := by
      rintro (_ | n) <;> rfl
    rw [hnone, hnone]
  | some root =>
    obtain ⟨t, ht⟩ : ∃ t, m.spaces.get? id = some t := by
      unfold instanceRoot? at hr
      split at hr
      next t ht => exact ⟨t, ht⟩
      next => contradiction
    obtain ⟨n, hn⟩ := (hm.owned.grounded id t ht).level
    obtain ⟨k, -, hk⟩ := hn.reflTransGen hm.arranged.beside (hm.root_above hr)
    exact boundArgumentFrom_eq hm name hk (Nat.lt_of_lt_of_le hk.lt_capacity hfuel) hk.lt_capacity

theorem destroySpace_ends (m : Model) (id : SpaceId) (hfuel : m.spaces.capacity < fuel) :
    destroyTree fuel m id = m.destroySpace id := by
  have hle := Pool.population_le_capacity m.spaces
  exact destroyTree_eq (by omega) (by omega)

end Ends

end Model

/-- What holds of owners and names between two requests. -/
structure OwnershipSound (m : Model) : Prop where
  cells : ∀ id c, m.cells.get? id = some c →
    ∃ s, m.spaces.get? c.space = some s ∧ s.cells.get? c.name = some id
  ref : ∀ id r p, m.refs.get? id = some r → r.owner = some p →
    ∃ s, m.spaces.get? p = some s ∧ s.refs.get? r.name = some id
  global : ∀ id r, m.refs.get? id = some r → r.owner = none → m.globals.get? r.name = some id
  root : ∀ id t, m.spaces.get? id = some t → t.isStatic = true → t.parent = none →
    m.roots.get? t.name = some id
  child : ∀ id t p, m.spaces.get? id = some t → t.isStatic = true → t.parent = some p →
    ∃ s, m.spaces.get? p = some s ∧ s.spaces.get? t.name = some id
  dynamic : ∀ id t c root, m.spaces.get? id = some t → t.kind = .dynamic c root →
    ∃ p s, t.parent = some p ∧ m.spaces.get? p = some s ∧ s.spaces.get? t.name = some id
  item : ∀ id t owner c args enclosing, m.spaces.get? id = some t →
    t.kind = .item owner c args enclosing →
    ∃ s, m.spaces.get? owner = some s ∧ s.instances.get? args = some id
  -- what is listed is alive and says so itself, so that it is listed once
  cells_listed : ∀ p s name id, m.spaces.get? p = some s → s.cells.get? name = some id →
    ∃ c, m.cells.get? id = some c ∧ c.space = p ∧ c.name = name
  ref_listed : ∀ p s name id, m.spaces.get? p = some s → s.refs.get? name = some id →
    ∃ r, m.refs.get? id = some r ∧ r.owner = some p ∧ r.name = name
  global_listed : ∀ name id, m.globals.get? name = some id →
    ∃ r, m.refs.get? id = some r ∧ r.owner = none ∧ r.name = name
  root_listed : ∀ name id, m.roots.get? name = some id →
    ∃ t, m.spaces.get? id = some t ∧ t.isStatic = true ∧ t.parent = none ∧ t.name = name
  child_listed : ∀ p s name id, m.spaces.get? p = some s → s.spaces.get? name = some id →
    ∃ t, m.spaces.get? id = some t ∧ t.parent = some p ∧ t.name = name ∧
      ∀ owner c args enclosing, t.kind ≠ .item owner c args enclosing
  item_listed : ∀ p s key id, m.spaces.get? p = some s → s.instances.get? key = some id →
    ∃ t c args enclosing, m.spaces.get? id = some t ∧ t.kind = .item p c args enclosing ∧
      (args == key) = true
  names : ∀ id s name, m.spaces.get? id = some s → s.OneKind name
  wellFounded : WellFounded m.Above
  above : ∀ p x, m.Above p x → ∃ s, m.spaces.get? p = some s
  root_above : ∀ x r, m.instanceRoot? x = some r → Relation.ReflTransGen m.Above r x
  -- what goes along the links ends by itself
  ancestry : ∀ id fuel, m.spaces.capacity ≤ fuel → m.ancestryFrom fuel id = m.ancestry id
  dottedName : ∀ id fuel, m.spaces.capacity ≤ fuel → m.dottedNameFrom fuel id = m.dottedName id
  boundArgument : ∀ id name fuel, m.spaces.capacity ≤ fuel →
    m.boundArgumentFrom name fuel (m.instanceRoot? id) = m.boundArgument id name
  destroySpace : ∀ id fuel, m.spaces.capacity < fuel → destroyTree fuel m id = m.destroySpace id

section Sound

variable {m : Model}

theorem Model.Faithful.ownership {sites : SpaceId → Prop} (hf : m.Faithful sites) :
    OwnershipSound m where
  cells _ _ hc := hf.owned.cells_holder hc
  ref _ _ _ hr howner := hf.owned.ref_holder hr howner
  global _ _ hr howner := hf.owned.global_listed hr howner
  root _ _ ht hstatic hp := hf.owned.root_listed ht hstatic hp
  child _ _ _ ht hstatic hp := by
    obtain ⟨s, hs, -, hlisted⟩ := hf.owned.static_holder ht hstatic hp
    exact ⟨s, hs, hlisted⟩
  dynamic id t c root ht hk := by
    obtain ⟨p, hp, -⟩ := (hf.owned.placed id t ht).dynamic c root hk
    obtain ⟨s, hs, hlisted⟩ := hf.owned.child_holder ht (home_of_dynamic hk hp)
    exact ⟨p, s, hp, hs, hlisted⟩
  item _ _ _ _ _ _ ht hk := hf.owned.item_holder ht hk
  cells_listed _ _ _ _ hs hc := hf.owned.cells_of_listed hs hc
  ref_listed _ _ _ _ hs hr := hf.owned.ref_of_listed hs hr
  global_listed _ _ hr := hf.owned.global_of_listed hr
  root_listed _ _ hx := hf.owned.root_of_listed hx
  child_listed _ _ _ _ hs hx := hf.owned.child_of_listed hs hx
  item_listed _ _ _ _ hs hx := hf.owned.item_of_listed hs hx
  names _ _ name hs := hf.oneKind hs name
  wellFounded := hf.owned.wellFounded_above hf.arranged.beside
  above _ _ ha := hf.owned.live_of_above hf.arranged.beside ha
  root_above _ _ hr := hf.root_above hr
  ancestry _ _ hfuel := hf.owned.ancestry_ends hf.arranged.beside hfuel
  dottedName _ _ hfuel := hf.owned.dottedName_ends hf.arranged.beside hfuel
  boundArgument _ name _ hfuel := hf.boundArgument_ends name hfuel
  destroySpace id _ hfuel := destroySpace_ends m id hfuel

/-- In every reachable model with room for its identities everything has one owner and one name. -/
theorem Reachable.ownershipSound (h : Reachable m) (room : m.Addressable) : OwnershipSound m :=
  (h.orderly.proper room).ownership

/-- A shop with a rate and a till, an instance of it with its own till, and a global year. -/
def stockedRequests : List Request :=
  [.createSpace none "Shop", .declareParams ⟨0, 0⟩ [{ name := "quantity" }] none,
    .defineCells ⟨0, 0⟩ "total" (some Shop.totalFormula), .createSpace (some ⟨0, 0⟩) "Till",
    .bindName ⟨0, 0⟩ "rate" (.int 3) .auto, .bindGlobal "year" (.int 2024),
    .selectInstance ⟨0, 0⟩ { positional := [.int 4] }, .childNamed ⟨2, 0⟩ "Till"]

theorem stocked_ownershipSound : ∃ m,
    Request.runAll 9 [] stockedRequests Shop.start = some m ∧ m.Addressable ∧
      m.spaces.population = 4 ∧ m.cells.population = 2 ∧ m.refs.population = 2 ∧
        OwnershipSound m := by
  have hrun : ((Request.runAll 9 [] stockedRequests Shop.start).any fun m =>
      decide (m.Addressable ∧ m.spaces.population = 4 ∧ m.cells.population = 2 ∧
        m.refs.population = 2)) = true := by decide +kernel
  obtain ⟨m, hm, hfacts⟩ := (Option.any_eq_true _ _).1 hrun
  obtain ⟨room, hspaces, hcells, hrefs⟩ := of_decide_eq_true hfacts
  exact ⟨m, hm, room, hspaces, hcells, hrefs, Reachable.ownershipSound
    ⟨_, .new "doc" {}, Request.becomes_of_runAll stockedRequests hm⟩ room⟩

end Sound

end Recalc
