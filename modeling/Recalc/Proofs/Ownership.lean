import Recalc.Proofs.ListingLaws
import Recalc.Proofs.TrackedRemoval

set_option autoImplicit false

/-!
# Ownership

Every entity has a home: the place in a listing where its own record says that it belongs. A model
is linked when what a listing holds is at home there, and what is at home somewhere is listed
there. Records are compared without what cells hold, so forgetting changes no record.
-/

namespace Recalc

inductive Address where
  | root (name : String)
  | global (name : String)
  | cells (space : SpaceId) (name : String)
  | ref (space : SpaceId) (name : String)
  | child (space : SpaceId) (name : String)
  | item (space : SpaceId) (key : Key)

namespace Address

def space? : Address → Option SpaceId
  | .root _ | .global _ => none
  | .cells s _ | .ref s _ | .child s _ | .item s _ => some s

inductive Same : Address → Address → Prop
  | refl (a : Address) : Same a a
  | keys (space : SpaceId) {k k' : Key} : (k == k') = true → Same (.item space k) (.item space k')

theorem Same.symm {a b : Address} (h : a.Same b) : b.Same a := by
  cases h with
  | refl => exact .refl a
  | keys s hk => exact .keys s (BEq.symm hk)

theorem Same.trans {a b c : Address} (h : a.Same b) (h' : b.Same c) : a.Same c := by
  cases h with
  | refl => exact h'
  | keys s hk =>
    cases h' with
    | refl => exact .keys s hk
    | keys _ hk' => exact .keys s (BEq.trans hk hk')

theorem Same.space? {a b : Address} (h : a.Same b) : a.space? = b.space? := by
  cases h <;> rfl

end Address

/-- What a pool stores for an entity, without what cells hold. -/
inductive Record where
  | space (s : Space)
  | cells (c : Cells)
  | ref (r : Reference)

def Space.home (s : Space) : Address :=
  match s.kind with
  | .item owner _ args _ => .item owner args
  | _ =>
    match s.parent with
    | some p => .child p s.name
    | none => .root s.name

def Cells.home (c : Cells) : Address := .cells c.space c.name

def Reference.home (r : Reference) : Address :=
  match r.owner with
  | some s => .ref s r.name
  | none => .global r.name

def Record.home : Record → Address
  | .space s => s.home
  | .cells c => c.home
  | .ref r => r.home

def Space.lists (s : Space) : Address → Option Entity
  | .cells _ n => (s.cells.get? n).map .cells
  | .ref _ n => (s.refs.get? n).map .ref
  | .child _ n => (s.spaces.get? n).map .space
  | .item _ k => (s.instances.get? k).map .space
  | _ => none

/-- What a space lists: its instances, its cells, its references and its children. -/
theorem Space.lists_iff (s : Space) (id : SpaceId) (e : Entity) :
    (∃ a, a.space? = some id ∧ s.lists a = some e) ↔
      e ∈ s.instances.entries.map (fun i => Entity.space i.2) ∨
        e ∈ s.cells.values.map Entity.cells ∨ e ∈ s.refs.values.map Entity.ref ∨
        e ∈ s.spaces.values.map Entity.space := by
  constructor
  · rintro ⟨a, ha, he⟩
    cases a with
    | root _ => cases ha
    | global _ => cases ha
    | cells t n =>
      obtain ⟨c, hc, rfl⟩ := Option.map_eq_some_iff.1 he
      exact .inr (.inl (List.mem_map_of_mem (NameMap.mem_values.2 ⟨n, hc⟩)))
    | ref t n =>
      obtain ⟨r, hr, rfl⟩ := Option.map_eq_some_iff.1 he
      exact .inr (.inr (.inl (List.mem_map_of_mem (NameMap.mem_values.2 ⟨n, hr⟩))))
    | child t n =>
      obtain ⟨c, hc, rfl⟩ := Option.map_eq_some_iff.1 he
      exact .inr (.inr (.inr (List.mem_map_of_mem (NameMap.mem_values.2 ⟨n, hc⟩))))
    | item t k =>
      obtain ⟨i, hi, rfl⟩ := Option.map_eq_some_iff.1 he
      obtain ⟨j, hj, -⟩ := Table.mem_entries_of_get? hi
      exact .inl (List.mem_map.2 ⟨(j, i), hj, rfl⟩)
  · rintro (he | he | he | he)
    · obtain ⟨i, hi, rfl⟩ := List.mem_map.1 he
      exact ⟨.item id i.1, rfl, by simp only [Space.lists, Table.get?_of_mem_entries hi,
        Option.map_some]⟩
    · obtain ⟨c, hc, rfl⟩ := List.mem_map.1 he
      obtain ⟨n, hn⟩ := NameMap.mem_values.1 hc
      exact ⟨.cells id n, rfl, by simp only [Space.lists, hn, Option.map_some]⟩
    · obtain ⟨r, hr, rfl⟩ := List.mem_map.1 he
      obtain ⟨n, hn⟩ := NameMap.mem_values.1 hr
      exact ⟨.ref id n, rfl, by simp only [Space.lists, hn, Option.map_some]⟩
    · obtain ⟨c, hc, rfl⟩ := List.mem_map.1 he
      obtain ⟨n, hn⟩ := NameMap.mem_values.1 hc
      exact ⟨.child id n, rfl, by simp only [Space.lists, hn, Option.map_some]⟩

namespace Model

def record? (m : Model) : Entity → Option Record
  | .space id => (m.spaces.get? id).map .space
  | .cells id => ((m.cells.get? id).map Cells.bare).map .cells
  | .ref id => (m.refs.get? id).map .ref

def home? (m : Model) (e : Entity) : Option Address := (m.record? e).map Record.home

def listsTop (m : Model) : Address → Option Entity
  | .root n => (m.roots.get? n).map .space
  | .global n => (m.globals.get? n).map .ref
  | _ => none

def listed (m : Model) (a : Address) : Option Entity :=
  match a.space? with
  | some id => (m.spaces.get? id).bind (·.lists a)
  | none => m.listsTop a

/-- What is listed is at home there, and what is at home somewhere is listed there, except for the
entities of `loose`. -/
structure Linked (loose : Entity → Prop) (m : Model) : Prop where
  sound : ∀ a e, m.listed a = some e → ∃ b, m.home? e = some b ∧ b.Same a
  complete : ∀ e a, m.home? e = some a → ¬ loose e → m.listed a = some e

section Lookups

variable {m : Model}

theorem home?_space {id : SpaceId} {s : Space} (h : m.spaces.get? id = some s) :
    m.home? (.space id) = some s.home := by
  simp [home?, record?, h, Record.home]

theorem home?_cells {id : CellId} {c : Cells} (h : m.cells.get? id = some c) :
    m.home? (.cells id) = some c.home := by
  simp [home?, record?, h, Record.home, Cells.home, Cells.bare]

theorem home?_ref {id : RefId} {r : Reference} (h : m.refs.get? id = some r) :
    m.home? (.ref id) = some r.home := by
  simp [home?, record?, h, Record.home]

theorem space_of_home? {id : SpaceId} {a : Address} (h : m.home? (.space id) = some a) :
    ∃ s, m.spaces.get? id = some s ∧ s.home = a := by
  obtain ⟨r, hr, rfl⟩ := Option.map_eq_some_iff.1 h
  obtain ⟨s, hs, rfl⟩ := Option.map_eq_some_iff.1 hr
  exact ⟨s, hs, rfl⟩

theorem cells_of_home? {id : CellId} {a : Address} (h : m.home? (.cells id) = some a) :
    ∃ c, m.cells.get? id = some c ∧ c.home = a := by
  obtain ⟨r, hr, rfl⟩ := Option.map_eq_some_iff.1 h
  obtain ⟨b, hb, rfl⟩ := Option.map_eq_some_iff.1 hr
  obtain ⟨c, hc, rfl⟩ := Option.map_eq_some_iff.1 hb
  exact ⟨c, hc, rfl⟩

theorem ref_of_home? {id : RefId} {a : Address} (h : m.home? (.ref id) = some a) :
    ∃ r, m.refs.get? id = some r ∧ r.home = a := by
  obtain ⟨q, hq, rfl⟩ := Option.map_eq_some_iff.1 h
  obtain ⟨r, hr, rfl⟩ := Option.map_eq_some_iff.1 hq
  exact ⟨r, hr, rfl⟩

theorem listed_of_space {a : Address} {id : SpaceId} {s : Space} (ha : a.space? = some id)
    (hs : m.spaces.get? id = some s) : m.listed a = s.lists a := by
  simp [listed, ha, hs]

/-- What is listed in a space is listed in a live one. -/
theorem space_of_listed {a : Address} {e : Entity} {id : SpaceId} (h : m.listed a = some e)
    (ha : a.space? = some id) : ∃ s, m.spaces.get? id = some s ∧ s.lists a = some e := by
  rw [listed, ha] at h
  exact Option.bind_eq_some_iff.1 h

theorem lists_congr {a b : Address} (h : a.Same b) (s : Space) : s.lists a = s.lists b := by
  cases h with
  | refl => rfl
  | keys _ hk => simp only [Space.lists, Table.get?_congr _ hk]

theorem listed_congr {a b : Address} (h : a.Same b) : m.listed a = m.listed b := by
  cases h with
  | refl => rfl
  | keys s hk =>
    have hlists := lists_congr (Address.Same.keys s hk)
    unfold listed
    simp only [Address.space?, hlists]

end Lookups

/-! ## Changes of listings -/

structure Relists (m m' : Model) (a : Address) (v : Option Entity) : Prop where
  home : ∀ e, m'.home? e = m.home? e
  same : ∀ b, a.Same b → m'.listed b = v
  other : ∀ b, ¬ a.Same b → m'.listed b = m.listed b

structure Inserts (m m' : Model) (e : Entity) (a : Address) : Prop where
  fresh : m.home? e = none
  home : m'.home? e = some a
  others : ∀ e', e' ≠ e → m'.home? e' = m.home? e'
  listed : ∀ b, m'.listed b = m.listed b

/-- An entity disappears, with its listings when it is a space. -/
structure Removes (m m' : Model) (e : Entity) : Prop where
  gone : m'.home? e = none
  others : ∀ e', e' ≠ e → m'.home? e' = m.home? e'
  inside : ∀ b, b.space?.map Entity.space = some e → m'.listed b = none
  listed : ∀ b, b.space?.map Entity.space ≠ some e → m'.listed b = m.listed b

namespace Linked

variable {loose loose' : Entity → Prop} {m m' : Model}

theorem mono (h : m.Linked loose) (hl : ∀ e a, m.home? e = some a → loose e → loose' e) :
    m.Linked loose' :=
  ⟨h.sound, fun e a ha hloose => h.complete e a ha fun hl' => hloose (hl e a ha hl')⟩

theorem congr (h : m.Linked loose) (home : ∀ e, m'.home? e = m.home? e)
    (listed : ∀ a, m'.listed a = m.listed a) : m'.Linked loose := by
  refine ⟨fun a e ha => ?_, fun e a ha hl => ?_⟩
  · rw [listed] at ha
    rw [home]
    exact h.sound a e ha
  · rw [home] at ha
    rw [listed]
    exact h.complete e a ha hl

/-- An entity is listed at home, where nothing was listed before. -/
theorem enlist {e : Entity} {a b : Address} (h : m.Linked fun e' => loose e' ∨ e' = e)
    (hchange : Relists m m' a (some e)) (hhome : m.home? e = some b) (hab : b.Same a)
    (hfree : m.listed a = none) : m'.Linked loose := by
  refine ⟨fun c e' hc => ?_, fun e' c hc hl => ?_⟩
  · rw [hchange.home]
    by_cases hac : a.Same c
    · rw [hchange.same c hac] at hc
      cases hc
      exact ⟨b, hhome, hab.trans hac⟩
    · rw [hchange.other c hac] at hc
      exact h.sound c e' hc
  · rw [hchange.home] at hc
    by_cases he : e' = e
    · subst he
      rw [hhome] at hc
      cases hc
      exact hchange.same b hab.symm
    · have hlisted := h.complete e' c hc fun h => h.elim hl he
      by_cases hac : a.Same c
      · rw [← listed_congr hac, hfree] at hlisted
        contradiction
      · rw [hchange.other c hac]
        exact hlisted

/-- An entity is taken off its listing; nothing lists it any more. -/
theorem delist {e : Entity} {a : Address} (h : m.Linked loose) (hlisted : m.listed a = some e)
    (hchange : Relists m m' a none) :
    m'.Linked (fun e' => loose e' ∨ e' = e) ∧ ∀ b, m'.listed b ≠ some e := by
  refine ⟨⟨fun c e' hc => ?_, fun e' c hc hl => ?_⟩, fun c hc => ?_⟩
  · rw [hchange.home]
    by_cases hac : a.Same c
    · rw [hchange.same c hac] at hc
      contradiction
    · rw [hchange.other c hac] at hc
      exact h.sound c e' hc
  · rw [hchange.home] at hc
    have hl := not_or.1 hl
    have hcomplete := h.complete e' c hc hl.1
    by_cases hac : a.Same c
    · rw [← listed_congr hac, hlisted] at hcomplete
      exact absurd (Option.some.inj hcomplete).symm hl.2
    · rw [hchange.other c hac]
      exact hcomplete
  · by_cases hac : a.Same c
    · rw [hchange.same c hac] at hc
      contradiction
    · rw [hchange.other c hac] at hc
      obtain ⟨b, hb, hba⟩ := h.sound a e hlisted
      obtain ⟨b', hb', hbc⟩ := h.sound c e hc
      rw [hb] at hb'
      cases hb'
      exact hac (hba.symm.trans hbc)

theorem insert {e : Entity} {a : Address} (h : m.Linked loose) (hchange : Inserts m m' e a) :
    m'.Linked fun e' => loose e' ∨ e' = e := by
  refine ⟨fun b e' hb => ?_, fun e' b hb hl => ?_⟩
  · rw [hchange.listed] at hb
    obtain ⟨c, hc, hcb⟩ := h.sound b e' hb
    refine ⟨c, ?_, hcb⟩
    rw [hchange.others, hc]
    rintro rfl
    rw [hchange.fresh] at hc
    contradiction
  · have hl := not_or.1 hl
    rw [hchange.others e' hl.2] at hb
    rw [hchange.listed]
    exact h.complete e' b hb hl.1

/-- An entity that nothing lists goes; what was at home in it is let go of. -/
theorem remove {e : Entity} (h : m.Linked loose) (hfree : ∀ a, m.listed a ≠ some e)
    (hchange : Removes m m' e) : m'.Linked fun e' => loose e' ∨
      ∃ a, m.listed a = some e' ∧ a.space?.map Entity.space = some e := by
  refine ⟨fun b e' hb => ?_, fun e' b hb hl => ?_⟩
  · by_cases hin : b.space?.map Entity.space = some e
    · rw [hchange.inside b hin] at hb
      contradiction
    · rw [hchange.listed b hin] at hb
      rw [hchange.others]
      · exact h.sound b e' hb
      · rintro rfl
        exact hfree b hb
  · have hne : e' ≠ e := by
      rintro rfl
      rw [hchange.gone] at hb
      contradiction
    rw [hchange.others e' hne] at hb
    have hl := not_or.1 hl
    have hcomplete := h.complete e' b hb hl.1
    by_cases hin : b.space?.map Entity.space = some e
    · exact absurd ⟨b, hcomplete, hin⟩ hl.2
    · rw [hchange.listed b hin]
      exact hcomplete

end Linked

end Model

/-! ## Owned models -/

/-- A space after a change that does not move it. What a replica is never changes. -/
structure Space.Like (s s' : Space) : Prop where
  name : s'.name = s.name
  parent : s'.parent = s.parent
  isStatic : s'.isStatic = s.isStatic
  kind : s.isStatic = false → s'.kind = s.kind
  refs : s.isStatic = false → s'.refs = s.refs

theorem Space.Like.refl (s : Space) : s.Like s := ⟨rfl, rfl, rfl, fun _ => rfl, fun _ => rfl⟩

theorem Space.Like.trans {s₁ s₂ s₃ : Space} (h : s₁.Like s₂) (h' : s₂.Like s₃) : s₁.Like s₃ :=
  ⟨h'.name.trans h.name, h'.parent.trans h.parent, h'.isStatic.trans h.isStatic,
    fun hs => (h'.kind (h.isStatic.trans hs)).trans (h.kind hs),
    fun hs => (h'.refs (h.isStatic.trans hs)).trans (h.refs hs)⟩

theorem Space.home_of_static {s : Space} (h : s.isStatic = true) :
    s.home = s.parent.elim (.root s.name) (.child · s.name) := by
  unfold Space.isStatic at h
  unfold Space.home
  split at h
  next hk =>
    rw [hk]
    cases s.parent <;> rfl
  next => contradiction

theorem Space.Like.home {s s' : Space} (h : s.Like s') : s'.home = s.home := by
  cases hs : s.isStatic with
  | true =>
    rw [Space.home_of_static hs, Space.home_of_static (h.isStatic.trans hs), h.name, h.parent]
  | false => simp only [Space.home, h.kind hs, h.name, h.parent]

namespace Model

/-- A space is of the kind that its place asks for: a static one lies in a static one, and a child
inside an instance lies in a replica. A replica has no references. -/
structure Placed (m : Model) (s : Space) : Prop where
  static : s.isStatic = true → ∀ p q, s.parent = some p → m.spaces.get? p = some q →
    q.isStatic = true
  dynamic : ∀ c root, s.kind = .dynamic c root → ∃ p, s.parent = some p ∧
    ∀ q, m.spaces.get? p = some q → q.isStatic = false
  refs : s.isStatic = false → s.refs = .empty

/-- The way from a space through the spaces that list one another comes to an end. -/
inductive Grounded (m : Model) : SpaceId → Prop
  | intro (id : SpaceId) (s : Space) : m.spaces.get? id = some s →
      (∀ p, s.home.space? = some p → Grounded m p) → Grounded m id

structure Owned (m : Model) : Prop where
  tidy : m.Tidy
  linked : m.Linked fun _ => False
  placed : ∀ id s, m.spaces.get? id = some s → m.Placed s
  grounded : ∀ id s, m.spaces.get? id = some s → m.Grounded id

section Owned

variable {m m' : Model}

/-- The space in which something is at home is there. -/
theorem Linked.holder {loose : Entity → Prop} (h : m.Linked loose) {e : Entity} {a : Address}
    {p : SpaceId} (ha : m.home? e = some a) (hl : ¬ loose e) (hp : a.space? = some p) :
    ∃ q, m.spaces.get? p = some q ∧ q.lists a = some e :=
  space_of_listed (h.complete e a ha hl) hp

theorem Owned.holder (h : m.Owned) {e : Entity} {a : Address} {p : SpaceId}
    (ha : m.home? e = some a) (hp : a.space? = some p) :
    ∃ q, m.spaces.get? p = some q ∧ q.lists a = some e :=
  h.linked.holder ha (fun hf => hf) hp

theorem Owned.listed (h : m.Owned) {e : Entity} {a : Address} (ha : m.home? e = some a) :
    m.listed a = some e :=
  h.linked.complete e a ha fun hf => hf

/-- Spaces that stay are not moved, and a new space is placed in one that was there. -/
theorem Owned.transfer (h : m.Owned) (tidy : m'.Tidy) (linked : m'.Linked fun _ => False)
    (like : ∀ id s s', m.spaces.get? id = some s → m'.spaces.get? id = some s' → s.Like s')
    (new : ∀ id s', m'.spaces.get? id = some s' → m.spaces.get? id = none → m'.Placed s' ∧
      ∀ p, s'.home.space? = some p → ∃ q, m.spaces.get? p = some q) : m'.Owned := by
  have grounded : ∀ id, m.Grounded id → ∀ s', m'.spaces.get? id = some s' → m'.Grounded id := by
    intro id hid
    induction hid with
    | intro id s hs hp ih =>
      intro s' hs'
      refine .intro id s' hs' fun p hp' => ?_
      obtain ⟨q, hq, -⟩ := linked.holder (home?_space hs') (fun hf => hf) hp'
      rw [(like id s s' hs hs').home] at hp'
      exact ih p hp' q hq
  refine ⟨tidy, linked, fun id s' hs' => ?_, fun id s' hs' => ?_⟩
  · cases hs : m.spaces.get? id with
    | none => exact (new id s' hs' hs).1
    | some s =>
      have hlike := like id s s' hs hs'
      have hplaced := h.placed id s hs
      refine ⟨fun hstatic p q' hp hq' => ?_, fun c root hk => ?_, fun hstatic => ?_⟩
      · rw [hlike.parent] at hp
        rw [hlike.isStatic] at hstatic
        have hhome := Space.home_of_static hstatic
        rw [hp] at hhome
        obtain ⟨q, hq, -⟩ := h.holder (home?_space hs) (p := p) (by rw [hhome]; rfl)
        rw [(like p q q' hq hq').isStatic]
        exact hplaced.static hstatic p q hp hq
      · have hstatic : s.isStatic = false := by
          rw [← hlike.isStatic, Space.isStatic, hk]
        rw [hlike.kind hstatic] at hk
        obtain ⟨p, hp, hq⟩ := hplaced.dynamic c root hk
        refine ⟨p, hlike.parent.trans hp, fun q' hq' => ?_⟩
        have hhome : s.home = .child p s.name := by simp only [Space.home, hk, hp]
        obtain ⟨q, hq₀, -⟩ := h.holder (home?_space hs) (p := p) (by rw [hhome]; rfl)
        rw [(like p q q' hq₀ hq').isStatic]
        exact hq q hq₀
      · rw [hlike.isStatic] at hstatic
        rw [hlike.refs hstatic]
        exact hplaced.refs hstatic
  · cases hs : m.spaces.get? id with
    | some s => exact grounded id (h.grounded id s hs) s' hs'
    | none =>
      refine .intro id s' hs' fun p hp => ?_
      obtain ⟨q', hq', -⟩ := linked.holder (home?_space hs') (fun hf => hf) hp
      obtain ⟨q, hq⟩ := (new id s' hs' hs).2 p hp
      exact grounded p (h.grounded p q hq) q' hq'

end Owned

end Model

end Recalc
