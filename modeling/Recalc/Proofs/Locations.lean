import Mathlib.Data.List.Dedup
import Recalc.Proofs.Growth
import Recalc.Proofs.TieredDerivation

set_option autoImplicit false

/-!
# Locations

A static space, and a member of one, has a location: the names on the way down to it. Inheritance
takes what is below a base below the heir, under the same names, so a wave can bring members only
to locations that were there when it began or that one round of inheritance after another adds to
them. Under numbered roots the rounds come to an end.
-/

namespace Recalc

/-- The names on the way from a root down to a space, or to a member of one. -/
abbrev Location := List String

/-- One round of inheritance: what is below a base comes below its heir. -/
def spread (links : List (Location × Location)) (locations : List Location) : List Location :=
  (locations ++ links.flatMap fun l =>
    locations.filterMap fun q => (l.1.isPrefixOf? q).map (l.2 ++ ·)).dedup

def spreads (links : List (Location × Location)) : Nat → List Location → List Location
  | 0, locations => locations
  | n + 1, locations => spread links (spreads links n locations)

section Spreading

variable {links : List (Location × Location)} {locations : List Location} {q : Location}
  {i j n : Nat}

theorem mem_spread : q ∈ spread links locations ↔
    q ∈ locations ∨ ∃ l ∈ links, ∃ s, l.1 ++ s ∈ locations ∧ l.2 ++ s = q := by
  simp only [spread, List.mem_dedup, List.mem_append, List.mem_flatMap, List.mem_filterMap,
    Option.map_eq_some_iff, List.isPrefixOf?_eq_some_iff_append_eq]
  refine or_congr_right (exists_congr fun l => and_congr_right fun _ => ⟨?_, ?_⟩)
  · rintro ⟨p, hp, s, rfl, heq⟩
    exact ⟨s, hp, heq⟩
  · rintro ⟨s, hs, heq⟩
    exact ⟨_, hs, s, rfl, heq⟩

theorem spreads_mono (h : i ≤ j) (hq : q ∈ spreads links i locations) :
    q ∈ spreads links j locations := by
  induction h with
  | refl => exact hq
  | step _ ih => exact mem_spread.2 (.inl ih)

/-- Every link leads from below one root to below another of higher rank. -/
def Climbs (rank : String → Nat) (links : List (Location × Location)) : Prop :=
  ∀ l ∈ links, ∃ a q b p, l = (a :: q, b :: p) ∧ rank a < rank b

variable {rank : String → Nat}

/-- What is below a root is there after as many rounds as the rank of the root. -/
theorem Climbs.mem_spreads (h : Climbs rank links) {a : String} {s : Location}
    (hs : a :: s ∈ spreads links n locations) : a :: s ∈ spreads links (rank a) locations := by
  induction n generalizing a s with
  | zero => exact spreads_mono (Nat.zero_le _) hs
  | succ n ih =>
    rcases mem_spread.1 hs with hs | ⟨l, hl, below, hbelow, heq⟩
    · exact ih hs
    · obtain ⟨b, q, c, p, rfl, hlt⟩ := h l hl
      cases heq
      exact spreads_mono hlt (mem_spread.2 (.inr ⟨_, hl, below, ih hbelow, rfl⟩))

theorem Climbs.closed (h : Climbs rank links) (hrank : ∀ a, rank a ≤ n) {l : Location × Location}
    (hl : l ∈ links) {s : Location} (hs : l.1 ++ s ∈ spreads links n locations) :
    l.2 ++ s ∈ spreads links n locations := by
  obtain ⟨a, q, b, p, rfl, hlt⟩ := h l hl
  refine spreads_mono (Nat.lt_of_lt_of_le hlt (hrank b)) ?_
  exact mem_spread.2 (.inr ⟨_, hl, s, h.mem_spreads hs, rfl⟩)

end Spreading

namespace Model

open Recalc.Action

/-! ## The locations of a model -/

def nameOf (m : Model) (x : SpaceId) : String := (m.spaces.get? x).elim "" Space.name

def location (m : Model) (x : SpaceId) : Location := (m.ancestry x).reverse.map m.nameOf

def locationOf? (m : Model) (e : Entity) : Option Location :=
  (m.membership? e).bind fun l => l.holder.bind fun p =>
    if m.Static p then some (m.location p ++ [l.name]) else none

def entitiesOf (m : Model) : MemberKind → List Entity
  | .cells => m.cells.ids.map .cells
  | .reference => m.refs.ids.map .ref
  | .space => m.spaces.ids.map .space

def locationLinks (m : Model) : List (Location × Location) :=
  m.spaces.entries.flatMap fun e => e.2.outline.links.map fun b => (m.location b, m.location e.1)

/-- Where inheritance can bring members of the kind, in as many rounds as there are roots. -/
def expanse (m : Model) (kind : MemberKind) : List Location :=
  spreads m.locationLinks m.roots.entries.length ((m.entitiesOf kind).filterMap m.locationOf?)

section Locations

variable {m : Model} {x y p : SpaceId} {o : Outline} {e e' : Entity} {q : Location}
  {kind : MemberKind}

/-- Static spaces are reached from their roots down. -/
theorem Owned.static_induction (hm : m.Owned) {P : SpaceId → Prop}
    (step : ∀ x o, m.outline? x = some o → (∀ p, o.parent = some p → m.Static p ∧ P p) → P x)
    (hx : m.Static x) : P x := by
  obtain ⟨s, hs, hstatic⟩ := hx
  have hgrounded := hm.grounded x s hs
  induction hgrounded generalizing s with
  | intro x t ht _ ih =>
    cases ht.symm.trans hs
    refine step x _ (outline?_of_static ht hstatic) fun p hp => ?_
    obtain ⟨u, hu, hustatic, -⟩ := hm.static_holder ht hstatic hp
    exact ⟨⟨u, hu, hustatic⟩, ih p ((home_space?_of_static hstatic).trans hp) u hu hustatic⟩

theorem Owned.location_eq (hm : m.Owned) (ho : m.outline? x = some o) :
    m.location x = o.parent.elim [] m.location ++ [o.name] := by
  obtain ⟨s, hs, hstatic, rfl⟩ := outline?_eq_some.1 ho
  have hname : m.nameOf x = s.name := by rw [nameOf, hs, Option.elim_some]
  rw [location, hm.ancestry_eq hs hstatic, List.reverse_cons, List.map_append, List.map_singleton,
    hname]
  show (s.parent.elim [] m.ancestry).reverse.map m.nameOf ++ [s.name] = _
  cases hp : s.parent with
  | none => simp [Space.outline, hp]
  | some p => simp [Space.outline, hp, location]

theorem Owned.location_ne_nil (hm : m.Owned) (hx : m.Static x) : m.location x ≠ [] := by
  obtain ⟨o, ho⟩ := static_iff_outline?.1 hx
  rw [hm.location_eq ho]
  exact List.append_ne_nil_of_right_ne_nil _ (List.cons_ne_nil _ _)

theorem Owned.location_injective (hm : m.Owned) (hx : m.Static x) (hy : m.Static y)
    (h : m.location x = m.location y) : x = y := by
  refine hm.static_induction (P := fun x => ∀ y, m.Static y → m.location x = m.location y → x = y)
    (fun x o ho ih y hy h => ?_) hx y hy h
  obtain ⟨o', ho'⟩ := static_iff_outline?.1 hy
  rw [hm.location_eq ho, hm.location_eq ho'] at h
  obtain ⟨hparents, hnames⟩ := List.append_inj' h rfl
  obtain ⟨s, hs, hstatic, rfl⟩ := outline?_eq_some.1 ho
  obtain ⟨s', hs', hstatic', rfl⟩ := outline?_eq_some.1 ho'
  replace hnames : s.name = s'.name := List.head_eq_of_cons_eq hnames
  cases hp : s.outline.parent with
  | none =>
    cases hp' : s'.outline.parent with
    | none =>
      have hlisted := hm.root_listed hs hstatic hp
      rw [hnames, hm.root_listed hs' hstatic' hp'] at hlisted
      exact (Option.some.inj hlisted).symm
    | some p' =>
      rw [hp, hp'] at hparents
      exact absurd hparents.symm (hm.location_ne_nil (hm.parent_static ho' hp'))
  | some p =>
    obtain ⟨hstaticp, ihp⟩ := ih p hp
    cases hp' : s'.outline.parent with
    | none =>
      rw [hp, hp'] at hparents
      exact absurd hparents (hm.location_ne_nil hstaticp)
    | some p' =>
      rw [hp, hp'] at hparents
      cases ihp p' (hm.parent_static ho' hp') hparents
      have hhere : m.MemberAt p s'.name (.space x) := ⟨s, hs, hstatic, hp, hnames⟩
      have hthere : m.MemberAt p s'.name (.space y) := ⟨s', hs', hstatic', hp', rfl⟩
      exact Entity.space.inj (hthere.unique hm hhere rfl)

/-- The first name of a location is that of the root. -/
theorem Owned.location_head (hm : m.Owned) (hx : m.Static x) : ∃ first rest r,
    m.location x = first :: rest ∧ m.rootOf? x = some r ∧ m.roots.get? first = some r := by
  refine hm.static_induction (P := fun x => ∃ first rest r, m.location x = first :: rest ∧
    m.rootOf? x = some r ∧ m.roots.get? first = some r) (fun x o ho ih => ?_) hx
  obtain ⟨s, hs, hstatic, rfl⟩ := outline?_eq_some.1 ho
  have hancestry := hm.ancestry_eq hs hstatic
  rw [hm.location_eq ho]
  cases hp : s.outline.parent with
  | none =>
    rw [show s.parent = none from hp, Option.elim_none] at hancestry
    refine ⟨s.name, [], x, rfl, ?_, hm.root_listed hs hstatic hp⟩
    rw [rootOf?, hancestry]
    rfl
  | some p =>
    obtain ⟨hstaticp, first, rest, r, hlocation, hroot, hlisted⟩ := ih p hp
    obtain ⟨u, hu, hustatic⟩ := hstaticp
    rw [show s.parent = some p from hp, Option.elim_some] at hancestry
    refine ⟨first, rest ++ [s.outline.name], r, ?_, ?_, hlisted⟩
    · rw [Option.elim_some, hlocation, List.cons_append]
    · rw [rootOf?, hancestry, hm.ancestry_eq hu hustatic, List.getLast?_cons_cons,
        ← hm.ancestry_eq hu hustatic]
      exact hroot

theorem locationOf?_eq_some : m.locationOf? e = some q ↔
    ∃ p name, m.MemberAt p name e ∧ m.Static p ∧ m.location p ++ [name] = q := by
  simp only [locationOf?, Option.bind_eq_some_iff, memberAt_iff]
  constructor
  · rintro ⟨l, hl, p, hp, hq⟩
    split at hq
    next hstatic => exact ⟨p, l.name, ⟨l, hl, hp, rfl⟩, hstatic, Option.some.inj hq⟩
    next => cases hq
  · rintro ⟨p, name, ⟨l, hl, hp, rfl⟩, hstatic, rfl⟩
    exact ⟨l, hl, p, hp, if_pos hstatic⟩

/-- No two members of a kind are in one location. -/
theorem locationOf?_injective (hm : m.Owned) (h : m.locationOf? e = some q)
    (h' : m.locationOf? e' = some q) (hkind : e'.kind = e.kind) : e' = e := by
  obtain ⟨p, name, hhere, hstatic, rfl⟩ := locationOf?_eq_some.1 h
  obtain ⟨p', name', hhere', hstatic', heq⟩ := locationOf?_eq_some.1 h'
  obtain ⟨hparents, hnames⟩ := List.append_inj' heq rfl
  cases hm.location_injective hstatic' hstatic hparents
  cases List.head_eq_of_cons_eq hnames
  exact hhere.unique hm hhere' hkind

theorem mem_entitiesOf {l : Membership} (hl : m.membership? e = some l) :
    e ∈ m.entitiesOf e.kind := by
  cases e with
  | cells c =>
    obtain ⟨d, hd, -⟩ := Option.map_eq_some_iff.1 hl
    exact List.mem_map.2 ⟨c, List.mem_map.2 ⟨(c, d), Pool.mem_entries_of_get? hd, rfl⟩, rfl⟩
  | ref r =>
    obtain ⟨q, hq, -⟩ := Option.map_eq_some_iff.1 hl
    exact List.mem_map.2 ⟨r, List.mem_map.2 ⟨(r, q), Pool.mem_entries_of_get? hq, rfl⟩, rfl⟩
  | space x =>
    obtain ⟨s, hs, -⟩ := Option.map_eq_some_iff.1 hl
    exact List.mem_map.2 ⟨x, List.mem_map.2 ⟨(x, s), Pool.mem_entries_of_get? hs, rfl⟩, rfl⟩

theorem live_of_mem_entitiesOf (small : m.Addressable) (he : e ∈ m.entitiesOf kind) :
    e.kind = kind ∧ ∃ l, m.membership? e = some l := by
  cases kind with
  | cells =>
    obtain ⟨c, hc, rfl⟩ := List.mem_map.1 he
    obtain ⟨⟨_, d⟩, hd, rfl⟩ := List.mem_map.1 hc
    exact ⟨rfl, _, congrArg (Option.map _) ((Pool.mem_entries small.cells).1 hd)⟩
  | reference =>
    obtain ⟨r, hr, rfl⟩ := List.mem_map.1 he
    obtain ⟨⟨_, q⟩, hq, rfl⟩ := List.mem_map.1 hr
    exact ⟨rfl, _, congrArg (Option.map _) ((Pool.mem_entries small.refs).1 hq)⟩
  | space =>
    obtain ⟨x, hx, rfl⟩ := List.mem_map.1 he
    obtain ⟨⟨_, s⟩, hs, rfl⟩ := List.mem_map.1 hx
    exact ⟨rfl, _, congrArg (Option.map _) ((Pool.mem_entries small.spaces).1 hs)⟩

theorem nodup_entitiesOf (small : m.Addressable) : (m.entitiesOf kind).Nodup := by
  cases kind with
  | cells => exact (Pool.nodup_ids small.cells).map fun _ _ h => Entity.cells.inj h
  | reference => exact (Pool.nodup_ids small.refs).map fun _ _ h => Entity.ref.inj h
  | space => exact (Pool.nodup_ids small.spaces).map fun _ _ h => Entity.space.inj h

theorem length_entitiesOf : (m.entitiesOf kind).length = (m.load kind).population := by
  cases kind with
  | cells | reference | space => exact (List.length_map _).trans (Pool.length_ids _)

end Locations

/-! ## Closed under inheritance -/

/-- Members are at locations of `P`, and what is there below a base is there below its heir. -/
structure Fenced (P : MemberKind → List Location) (m : Model) : Prop where
  member : ∀ e q, m.locationOf? e = some q → q ∈ P e.kind
  link : ∀ x o, m.outline? x = some o → ∀ b ∈ o.links, ∀ kind s,
    m.location b ++ s ∈ P kind → m.location x ++ s ∈ P kind

def rankOf (m : Model) (number : SpaceId → Nat) (name : String) : Nat :=
  (m.roots.values.toFinset.filter fun q => number q < (m.roots.get? name).elim 0 number).card

section Fences

variable {m : Model} {number : SpaceId → Nat}

theorem rankOf_le (name : String) : m.rankOf number name ≤ m.roots.entries.length :=
  calc
    m.rankOf number name ≤ m.roots.values.toFinset.card := Finset.card_filter_le _ _
    _ ≤ m.roots.values.length := List.toFinset_card_le _
    _ = m.roots.entries.length := List.length_map _

theorem rankOf_lt {a b : String} {q r : SpaceId} (ha : m.roots.get? a = some q)
    (hb : m.roots.get? b = some r) (hlt : number q < number r) :
    m.rankOf number a < m.rankOf number b := by
  unfold rankOf
  rw [ha, hb, Option.elim_some, Option.elim_some]
  refine Finset.card_lt_card ((Finset.ssubset_iff_of_subset fun x hx => ?_).2 ⟨q, ?_, ?_⟩)
  · obtain ⟨hx, hsmall⟩ := Finset.mem_filter.1 hx
    exact Finset.mem_filter.2 ⟨hx, hsmall.trans hlt⟩
  · exact Finset.mem_filter.2 ⟨List.mem_toFinset.2 (NameMap.mem_values.2 ⟨a, ha⟩), hlt⟩
  · exact fun hq => Nat.lt_irrefl _ (Finset.mem_filter.1 hq).2

theorem mem_locationLinks {x b : SpaceId} {o : Outline} (ho : m.outline? x = some o)
    (hb : b ∈ o.links) : (m.location b, m.location x) ∈ m.locationLinks := by
  obtain ⟨s, hs, -, rfl⟩ := outline?_eq_some.1 ho
  exact List.mem_flatMap.2 ⟨_, Pool.mem_entries_of_get? hs, List.mem_map.2 ⟨b, hb, rfl⟩⟩

theorem Layered.climbs (h : m.Layered number) (hm : m.Owned) (small : m.Addressable) :
    Climbs (m.rankOf number) m.locationLinks := by
  intro l hl
  obtain ⟨⟨x, s⟩, hmem, hl⟩ := List.mem_flatMap.1 hl
  obtain ⟨b, hb, rfl⟩ := List.mem_map.1 hl
  have ho := outline?_of_static ((Pool.mem_entries small.spaces).1 hmem)
    (isStatic_of_mem_links hb)
  obtain ⟨hbase, q, r, hq, hr, hlt⟩ := h x _ ho b hb
  obtain ⟨a, as, q', hlocation, hq', ha⟩ := hm.location_head hbase
  obtain ⟨c, cs, r', hlocation', hr', hc⟩ := hm.location_head (static_iff_outline?.2 ⟨_, ho⟩)
  cases hq.symm.trans hq'
  cases hr.symm.trans hr'
  exact ⟨a, as, c, cs, by rw [hlocation, hlocation'], rankOf_lt ha hc hlt⟩

/-- Under numbered roots there are rounds of inheritance for every base there is. -/
theorem Layered.fenced (h : m.Layered number) (hm : m.Owned) (small : m.Addressable) :
    Fenced m.expanse m where
  member e q hq := by
    obtain ⟨l, hl, -⟩ := Option.bind_eq_some_iff.1 hq
    exact spreads_mono (Nat.zero_le _) (List.mem_filterMap.2 ⟨e, mem_entitiesOf hl, hq⟩)
  link _ _ ho _ hb _ _ hs := (h.climbs hm small).closed rankOf_le (mem_locationLinks ho hb) hs

end Fences

/-! ## Counting -/

def Kin (m₀ m : Model) : Prop :=
  ∀ e l, m.membership? e = some l →
    (m₀.membership? e).isSome = true ∨ ∃ q, m.locationOf? e = some q

/-- Everything here was there before or is at a location of its own. -/
theorem Fenced.population_le {P : MemberKind → List Location} {m₀ m : Model} (h : Fenced P m)
    (hkin : Kin m₀ m) (hm : m.Owned) (small : m.Addressable) (kind : MemberKind) :
    (m.load kind).population ≤ (m₀.load kind).population + (P kind).length := by
  have hnodup : (m.entitiesOf kind).Nodup := nodup_entitiesOf small
  rw [← length_entitiesOf, ← length_entitiesOf,
    List.length_eq_length_filter_add fun e => (m₀.membership? e).isSome]
  refine Nat.add_le_add ((hnodup.filter _).subperm fun e he => ?_).length_le ?_
  · obtain ⟨he, hbefore⟩ := List.mem_filter.1 he
    obtain ⟨l, hl⟩ := Option.isSome_iff_exists.1 hbefore
    obtain ⟨rfl, -⟩ := live_of_mem_entitiesOf small he
    exact mem_entitiesOf hl
  · have hlocated : ∀ e ∈ (m.entitiesOf kind).filter fun e => !(m₀.membership? e).isSome,
        e.kind = kind ∧ ∃ q, m.locationOf? e = some q := by
      intro e he
      obtain ⟨he, hnew⟩ := List.mem_filter.1 he
      obtain ⟨hkind, l, hl⟩ := live_of_mem_entitiesOf small he
      refine ⟨hkind, (hkin e l hl).resolve_left fun hold => ?_⟩
      rw [hold] at hnew
      cases hnew
    rw [← List.length_map fun e => (m.locationOf? e).getD []]
    refine (List.Nodup.subperm ?_ fun q hq => ?_).length_le
    · refine (hnodup.filter _).map_on fun e he e' he' heq => ?_
      obtain ⟨hkind, q, hq⟩ := hlocated e he
      obtain ⟨hkind', q', hq'⟩ := hlocated e' he'
      rw [hq, hq'] at heq
      cases heq
      exact locationOf?_injective hm hq' hq (hkind.trans hkind'.symm)
    · obtain ⟨e, he, rfl⟩ := List.mem_map.1 hq
      obtain ⟨rfl, q, hq⟩ := hlocated e he
      rw [hq]
      exact h.member e q hq

end Model

end Recalc
