import Recalc.Proofs.MirroredWaves

set_option autoImplicit false

/-!
# Waves spare definitions

A model is sourced when every derived member has a base that defines its name. A wave takes nothing
away from the definitions of a sourced model, whatever it is that started the wave and wherever it
stops: authored members stay as they are, and derived ones with their inputs. Nor does it author
anything.
-/

namespace Recalc.Model

open Recalc.Action

/-! ## Sourced models -/

def isStaticAt (m : Model) (id : SpaceId) : Bool := (m.spaces.get? id).any Space.isStatic

def inherits {α : Type} (m : Model) (listing : Space → NameMap α) (id : SpaceId) (name : String) :
    Bool :=
  (m.allBases id).any fun b => (m.spaces.get? b).any fun s => (listing s).contains name

def inheritsChild (m : Model) (id : SpaceId) (name : String) (child : SpaceId) : Bool :=
  (m.allBases id).any fun b => (m.spaces.get? b).any fun s => s.spaces.get? name == some child

/-- A static space has static bases. When it is derived, a base of its parent has a child of its
name, and its implicit bases are such children. -/
def sourcedSpace (m : Model) (s : Space) : Bool :=
  (s.bases ++ s.implicitBases).all m.isStaticAt &&
    match s.parent with
    | some p =>
      (!s.isDerived || m.inherits Space.spaces p s.name) &&
        s.implicitBases.all (m.inheritsChild p s.name)
    | none => true

def sourcedCells (m : Model) (c : Cells) : Bool :=
  !c.derived || !m.isStaticAt c.space || m.inherits Space.cells c.space c.name

def sourcedRef (m : Model) (r : Reference) : Bool :=
  !r.derived || r.owner.all fun o => m.inherits Space.refs o r.name

/-- Bases are there, and every derived member has a base that defines its name. -/
def Sourced (m : Model) : Prop :=
  (m.spaces.entries.all fun e => !e.2.isStatic || m.sourcedSpace e.2) = true ∧
    (m.cells.entries.all fun e => m.sourcedCells e.2) = true ∧
    (m.refs.entries.all fun e => m.sourcedRef e.2) = true

instance (m : Model) : Decidable m.Sourced := inferInstanceAs (Decidable (_ ∧ _))

section Sources

variable {m : Model}

theorem isStaticAt_iff {id : SpaceId} : m.isStaticAt id = true ↔ m.Static id := by
  unfold isStaticAt Static
  cases m.spaces.get? id <;> simp

theorem inherits_iff {α : Type} {listing : Space → NameMap α} {id : SpaceId} {name : String} :
    m.inherits listing id name = true ↔
      ∃ b ∈ m.allBases id, ∃ s, m.spaces.get? b = some s ∧ (listing s).contains name = true := by
  unfold inherits
  rw [List.any_eq_true]
  refine exists_congr fun b => and_congr_right fun _ => ?_
  cases m.spaces.get? b <;> simp

theorem inheritsChild_iff {id child : SpaceId} {name : String} :
    m.inheritsChild id name child = true ↔
      ∃ b ∈ m.allBases id, ∃ s, m.spaces.get? b = some s ∧ s.spaces.get? name = some child := by
  unfold inheritsChild
  rw [List.any_eq_true]
  refine exists_congr fun b => and_congr_right fun _ => ?_
  cases m.spaces.get? b <;> simp

variable (h : m.Sourced)
include h

theorem Sourced.space {id : SpaceId} {s : Space} (hs : m.spaces.get? id = some s)
    (hstatic : s.isStatic = true) : m.sourcedSpace s = true := by
  have hall := List.all_eq_true.1 h.1 _ (Pool.mem_entries_of_get? hs)
  simpa [hstatic] using hall

theorem Sourced.static_base {id b : SpaceId} {s : Space} (hs : m.spaces.get? id = some s)
    (hstatic : s.isStatic = true) (hb : b ∈ s.bases ++ s.implicitBases) : m.Static b := by
  have hspace := h.space hs hstatic
  rw [sourcedSpace, Bool.and_eq_true] at hspace
  exact isStaticAt_iff.1 (List.all_eq_true.1 hspace.1 b hb)

theorem Sourced.child {c p : SpaceId} {t : Space} (ht : m.spaces.get? c = some t)
    (hstatic : t.isStatic = true) (hp : t.parent = some p) :
    (t.isDerived = true → m.inherits Space.spaces p t.name = true) ∧
      ∀ b ∈ t.implicitBases, m.inheritsChild p t.name b = true := by
  have hspace := h.space ht hstatic
  rw [sourcedSpace, Bool.and_eq_true, hp] at hspace
  have hchild := hspace.2
  simp only [Bool.and_eq_true, Bool.or_eq_true, Bool.not_eq_true', List.all_eq_true] at hchild
  refine ⟨fun hderived => hchild.1.resolve_left ?_, hchild.2⟩
  rw [hderived]
  simp

theorem Sourced.cells {c : CellId} {d : Cells} (hd : m.cells.get? c = some d)
    (hderived : d.derived = true) (hstatic : m.Static d.space) :
    m.inherits Space.cells d.space d.name = true := by
  have hall := List.all_eq_true.1 h.2.1 _ (Pool.mem_entries_of_get? hd)
  simpa [sourcedCells, hderived, isStaticAt_iff.2 hstatic] using hall

theorem Sourced.ref {r : RefId} {q : Reference} {o : SpaceId} (hq : m.refs.get? r = some q)
    (hderived : q.derived = true) (howner : q.owner = some o) :
    m.inherits Space.refs o q.name = true := by
  have hall := List.all_eq_true.1 h.2.2 _ (Pool.mem_entries_of_get? hq)
  simpa [sourcedRef, hderived, howner] using hall

end Sources

/-! ## Nothing is lost -/

structure Spares (m₀ m : Model) : Prop where
  space : ∀ id s, m₀.spaces.get? id = some s → s.isStatic = true →
    ∃ s', m.spaces.get? id = some s' ∧ s.Persists s' ∧ s.bases.Sublist s'.bases ∧
      ∀ b ∈ s.implicitBases, b ∈ s'.implicitBases
  cells : ∀ id c, m₀.cells.get? id = some c → m₀.Static c.space →
    ∃ c', m.cells.get? id = some c' ∧ c.Persists c'
  ref : ∀ id r, m₀.refs.get? id = some r → ∃ r', m.refs.get? id = some r' ∧ r.Persists r'
  roots : m.roots = m₀.roots
  globals : m.globals = m₀.globals

theorem Spares.refl (m : Model) : Spares m m :=
  ⟨fun _ s hs _ => ⟨s, hs, .refl s, .refl _, fun _ hb => hb⟩, fun _ c hc _ => ⟨c, hc, .refl c⟩,
    fun _ r hr => ⟨r, hr, .refl r⟩, rfl, rfl⟩

/-- A heritage that accounts for every derived member that the space had. -/
structure Covers (m₀ : Model) (id : SpaceId) (h : Heritage) : Prop where
  cells : ∀ c d, m₀.cells.get? c = some d → d.space = id → m₀.Static id → d.derived = true →
    h.cells.contains d.name = true
  ref : ∀ r q, m₀.refs.get? r = some q → q.owner = some id → q.derived = true →
    h.refs.contains q.name = true
  space : ∀ c t, m₀.spaces.get? c = some t → t.isStatic = true → t.parent = some id →
    t.isDerived = true → h.spaces.contains t.name = true
  implicitBases : ∀ c t, m₀.spaces.get? c = some t → t.isStatic = true → t.parent = some id →
    ∀ b ∈ t.implicitBases, b ∈ (h.spaces.get? t.name).getD []

def Founded (m : Model) : Entity → Prop
  | .space id => m.Static id
  | .cells id => ∃ c, m.cells.get? id = some c ∧ m.Static c.space
  | .ref id => ∃ r, m.refs.get? id = some r

section Sparing

variable {m₀ m m' : Model} {id : SpaceId} {h : Heritage}

theorem Spares.static (hspares : Spares m₀ m) (hs : m₀.Static id) : m.Static id := by
  obtain ⟨s, hs, hstatic⟩ := hs
  obtain ⟨s', hs', hpersists, -⟩ := hspares.space id s hs hstatic
  exact ⟨s', hs', hpersists.isStatic.trans hstatic⟩

/-- The space in which an entity of static spaces is at home is static. -/
theorem Owned.static_home (hm : m.Owned) {e : Entity} {a : Address} {p : SpaceId}
    (he : m.Founded e) (ha : m.home? e = some a) (hp : a.space? = some p) : m.Static p := by
  obtain ⟨q, hq, hlists⟩ := hm.holder ha hp
  cases e with
  | space x =>
    obtain ⟨s, hs, hstatic⟩ := he
    rw [home?_space hs, Option.some.injEq, Space.home_of_static hstatic] at ha
    cases hparent : s.parent with
    | none =>
      rw [hparent] at ha
      subst ha
      cases hp
    | some o =>
      rw [hparent] at ha
      subst ha
      cases hp
      exact ⟨q, hq, (hm.placed x s hs).static hstatic p q hparent hq⟩
  | cells c =>
    obtain ⟨d, hd, hstatic⟩ := he
    rw [home?_cells hd] at ha
    cases ha
    cases hp
    exact hstatic
  | ref r =>
    refine ⟨q, hq, ?_⟩
    by_contra hstatic
    rw [Bool.not_eq_true] at hstatic
    obtain ⟨x, hx⟩ := he
    rw [home?_ref hx, Reference.home] at ha
    cases howner : x.owner with
    | none =>
      rw [howner] at ha
      cases ha
      cases hp
    | some o =>
      rw [howner] at ha
      cases ha
      rw [Space.lists, (hm.placed p q hq).refs hstatic, NameMap.get?_empty] at hlists
      contradiction

theorem Spares.home (hspares : Spares m₀ m) {e : Entity} (he : m₀.Founded e) :
    m.home? e = m₀.home? e := by
  cases e with
  | space x =>
    obtain ⟨s, hs, hstatic⟩ := he
    obtain ⟨s', hs', hpersists, -⟩ := hspares.space x s hs hstatic
    rw [home?_space hs, home?_space hs', Space.home_of_static hstatic,
      Space.home_of_static (hpersists.isStatic.trans hstatic), hpersists.parent, hpersists.name]
  | cells c =>
    obtain ⟨d, hd, hstatic⟩ := he
    obtain ⟨d', hd', hpersists⟩ := hspares.cells c d hd hstatic
    rw [home?_cells hd, home?_cells hd', Cells.home, Cells.home, hpersists.space, hpersists.name]
  | ref r =>
    obtain ⟨q, hq⟩ := he
    obtain ⟨q', hq', hpersists⟩ := hspares.ref r q hq
    rw [home?_ref hq, home?_ref hq', Reference.home, Reference.home, hpersists.owner,
      hpersists.name]

/-- What was defined in static spaces lies in nothing that came later. -/
theorem Spares.founded_of_within (hspares : Spares m₀ m) (hm₀ : m₀.Owned) {top e : Entity}
    (hw : m.Within top e) (he : m₀.Founded e) : m₀.Founded top := by
  induction hw with
  | self => exact he
  | inside ha hp _ ih =>
    rw [hspares.home he] at ha
    exact ih (hm₀.static_home he ha hp)

/-- Nothing that was defined goes while the heritage accounts for it. -/
theorem Spares.not_goes (hspares : Spares m₀ m) (hm₀ : m₀.Owned) (hcovers : Covers m₀ id h)
    {e : Entity} (he : m₀.Founded e) : ¬ m.Goes id h e := by
  rintro ⟨top, hunsourced, hw⟩
  have htop := hspares.founded_of_within hm₀ hw he
  cases hunsourced with
  | @cells c d' hd' hspace hderived hname =>
    obtain ⟨d, hd, hstatic⟩ := htop
    obtain ⟨x, hx, hpersists⟩ := hspares.cells c d hd hstatic
    cases hd'.symm.trans hx
    rw [hpersists.space] at hspace
    rw [hpersists.derived] at hderived
    have hcontains := hcovers.cells c d hd hspace (hspace ▸ hstatic) hderived
    rw [hpersists.name, hcontains] at hname
    contradiction
  | @ref r q' hq' howner hderived hname =>
    obtain ⟨q, hq⟩ := htop
    obtain ⟨x, hx, hpersists⟩ := hspares.ref r q hq
    cases hq'.symm.trans hx
    rw [hpersists.owner] at howner
    rw [hpersists.derived] at hderived
    have hcontains := hcovers.ref r q hq howner hderived
    rw [hpersists.name, hcontains] at hname
    contradiction
  | @space c t' ht' hderived hparent hname =>
    obtain ⟨t, ht, hstatic⟩ := htop
    obtain ⟨x, hx, hpersists, -⟩ := hspares.space c t ht hstatic
    cases ht'.symm.trans hx
    rw [hpersists.parent] at hparent
    rw [hpersists.isDerived] at hderived
    have hcontains := hcovers.space c t ht hstatic hparent hderived
    rw [hpersists.name, hcontains] at hname
    contradiction

theorem Spares.alters (hspares : Spares m₀ m) (hm₀ : m₀.Owned) (hcovers : Covers m₀ id h)
    (halters : Alters id h m m') : Spares m₀ m' where
  space x s hs hstatic := by
    obtain ⟨s₁, hs₁, hpersists, hbases, himplicit⟩ := hspares.space x s hs hstatic
    rcases halters.space x s₁ hs₁ with ⟨s', hs', hstep⟩ | ⟨-, hgoes⟩
    · refine ⟨s', hs', hpersists.trans hstep.toPersists, hstep.bases ▸ hbases, fun b hb => ?_⟩
      rcases hstep.implicitBases with heq | ⟨hparent, heq⟩
      · rw [heq]
        exact himplicit b hb
      · rw [heq, hpersists.name]
        rw [hpersists.parent] at hparent
        exact hcovers.implicitBases x s hs hstatic hparent b hb
    · exact absurd hgoes (hspares.not_goes hm₀ hcovers ⟨s, hs, hstatic⟩)
  cells c d hd hstatic := by
    obtain ⟨d₁, hd₁, hpersists⟩ := hspares.cells c d hd hstatic
    rcases halters.cells c d₁ hd₁ with ⟨d', hd', hstep⟩ | ⟨-, hgoes⟩
    · exact ⟨d', hd', hpersists.trans hstep⟩
    · exact absurd hgoes (hspares.not_goes hm₀ hcovers ⟨d, hd, hstatic⟩)
  ref r q hq := by
    obtain ⟨q₁, hq₁, hpersists⟩ := hspares.ref r q hq
    rcases halters.ref r q₁ hq₁ with ⟨q', hq', hstep⟩ | ⟨-, hgoes⟩
    · exact ⟨q', hq', hpersists.trans hstep⟩
    · exact absurd hgoes (hspares.not_goes hm₀ hcovers ⟨q, hq⟩)
  roots := halters.roots.trans hspares.roots
  globals := halters.globals.trans hspares.globals

/-- What static spaces list survives the loss of instances. -/
theorem Spares.drops (hspares : Spares m₀ m) (hm : m.Owned) (hm' : m'.Owned)
    (hdrops : Drops m m') (hinputs : KeepsInputs m m') : Spares m₀ m' where
  space x s hs hstatic := by
    obtain ⟨s₁, hs₁, hpersists, hbases, himplicit⟩ := hspares.space x s hs hstatic
    obtain ⟨s', hs', heq⟩ := hdrops.static' hs₁ (hpersists.isStatic.trans hstatic)
    rw [heq] at hs'
    refine ⟨_, hs', hpersists.trans ?_, hbases, himplicit⟩
    exact ⟨rfl, rfl, rfl, rfl, rfl, fun _ => rfl, rfl, rfl⟩
  cells c d hd hstatic := by
    obtain ⟨d₁, hd₁, hpersists⟩ := hspares.cells c d hd hstatic
    obtain ⟨s, hs, hsstatic⟩ := hspares.static hstatic
    rw [← hpersists.space] at hs
    obtain ⟨s', hs', heq⟩ := hdrops.static' hs hsstatic
    have hcells : s'.cells = s.cells := by rw [heq]
    have hlisted := hcells ▸ hm.cells_listed hd₁ hs
    obtain ⟨d', hd', -⟩ := hm'.cells_of_listed hs' hlisted
    obtain ⟨x, hx, hbare⟩ := hdrops.cells c d' hd'
    cases hd₁.symm.trans hx
    obtain ⟨y, hy, hsame⟩ := hinputs c d' hd'
    cases hd₁.symm.trans hy
    exact ⟨d', hd', hpersists.trans (Cells.persists_of_bare hbare hsame)⟩
  ref r q hq := by
    obtain ⟨q₁, hq₁, hpersists⟩ := hspares.ref r q hq
    have hlive : ∃ q', m'.refs.get? r = some q' := by
      cases howner : q₁.owner with
      | none =>
        have hlisted := hm.global_listed hq₁ howner
        rw [← hdrops.globals] at hlisted
        obtain ⟨q', hq', -⟩ := hm'.global_of_listed hlisted
        exact ⟨q', hq'⟩
      | some o =>
        have hhome : m.home? (.ref r) = some (.ref o q₁.name) := by
          rw [home?_ref hq₁, Reference.home, howner]
        obtain ⟨s, hs, hstatic⟩ := hm.static_home (e := .ref r) ⟨q₁, hq₁⟩ hhome rfl
        obtain ⟨s', hs', heq⟩ := hdrops.static' hs hstatic
        have hrefs : s'.refs = s.refs := by rw [heq]
        have hlisted := hrefs ▸ hm.ref_listed hq₁ howner hs
        obtain ⟨q', hq', -⟩ := hm'.ref_of_listed hs' hlisted
        exact ⟨q', hq'⟩
    obtain ⟨q', hq'⟩ := hlive
    cases hq₁.symm.trans (hdrops.refs r q' hq')
    exact ⟨q₁, hq', hpersists⟩
  roots := hdrops.roots.trans hspares.roots
  globals := hdrops.globals.trans hspares.globals

/-- A space changes in place, without losing a base that it had. -/
theorem Spares.modifySpace (hspares : Spares m₀ m) {x : SpaceId} {f : Space → Space}
    (hf : ∀ s : Space, s.Persists (f s))
    (hbases : ∀ s₀ s, m₀.spaces.get? x = some s₀ → s₀.isStatic = true →
      s.isStatic = true → s₀.bases.Sublist s.bases → s₀.bases.Sublist (f s).bases)
    (himplicit : ∀ s₀ s, m₀.spaces.get? x = some s₀ → s₀.isStatic = true → s.isStatic = true →
      (∀ b ∈ s₀.implicitBases, b ∈ s.implicitBases) →
      ∀ b ∈ s₀.implicitBases, b ∈ (f s).implicitBases) :
    Spares m₀ (m.modifySpace x f) := by
  refine { hspares with space := fun y s₀ hs₀ hstatic => ?_ }
  obtain ⟨s, hs, hpersists, hsub, hmem⟩ := hspares.space y s₀ hs₀ hstatic
  have hget := Pool.get?_modify m.spaces x y f
  by_cases heq : x = y
  · subst heq
    rw [if_pos rfl, hs, Option.map_some] at hget
    have hsstatic := hpersists.isStatic.trans hstatic
    exact ⟨f s, hget, hpersists.trans (hf s), hbases s₀ s hs₀ hstatic hsstatic hsub,
      himplicit s₀ s hs₀ hstatic hsstatic hmem⟩
  · rw [if_neg heq] at hget
    exact ⟨s, hget.trans hs, hpersists, hsub, hmem⟩

theorem Founded.home_ne_none {e : Entity} (he : m₀.Founded e) : m₀.home? e ≠ none := by
  cases e with
  | space x =>
    obtain ⟨s, hs, -⟩ := he
    rw [home?_space hs]
    exact Option.some_ne_none _
  | cells c =>
    obtain ⟨d, hd, -⟩ := he
    rw [home?_cells hd]
    exact Option.some_ne_none _
  | ref r =>
    obtain ⟨q, hq⟩ := he
    rw [home?_ref hq]
    exact Option.some_ne_none _

/-- What goes was not there. -/
theorem Spares.sheds (hspares : Spares m₀ m) {W : Entity → Prop} (hsheds : Sheds W m m')
    (hinputs : KeepsInputs m m') (hnew : ∀ e, m₀.Founded e → ¬ W e) : Spares m₀ m' where
  space x s hs hstatic := by
    obtain ⟨s', hs', hrest⟩ := hspares.space x s hs hstatic
    have hkept := (hsheds.spaces x).resolve_right fun hgone => hnew (.space x) ⟨s, hs, hstatic⟩ hgone.1
    exact ⟨s', hkept.trans hs', hrest⟩
  cells c d hd hstatic := by
    obtain ⟨d₁, hd₁, hpersists⟩ := hspares.cells c d hd hstatic
    obtain ⟨d', hd', hstep⟩ := (hsheds.cells hinputs hd₁).resolve_right fun hgone =>
      hnew (.cells c) ⟨d, hd, hstatic⟩ hgone.2
    exact ⟨d', hd', hpersists.trans hstep⟩
  ref r q hq := by
    obtain ⟨q', hq', hpersists⟩ := hspares.ref r q hq
    have hkept := (hsheds.ref r).resolve_right fun hgone => hnew (.ref r) ⟨q, hq⟩ hgone.2
    exact ⟨q', hkept.trans hq', hpersists⟩
  roots := hsheds.roots.trans hspares.roots
  globals := hsheds.globals.trans hspares.globals

theorem Joins.spares {e : Entity} (hjoins : Joins e m₀ m) : Spares m₀ m where
  space x s hs _ := by
    obtain ⟨s', hs', hpersists, hkind⟩ := hjoins.space x s hs
    refine ⟨s', hs', hpersists, ?_, fun b hb => ?_⟩
    · rw [Space.bases_congr hkind]
    · rwa [Space.implicitBases_congr hkind]
  cells c d hd _ := ⟨d, hjoins.cells c d hd, .refl d⟩
  ref r q hq := ⟨q, hjoins.ref r q hq, .refl q⟩
  roots := hjoins.roots
  globals := hjoins.globals

/-- Bases that a sourced model had are there still, so no link to one is dropped. -/
theorem Spares.unlink (hspares : Spares m₀ m) (hsourced : m₀.Sourced) :
    Spares m₀ m.unlinkDeadBases.2 := by
  have hlive : ∀ x s, m₀.spaces.get? x = some s → s.isStatic = true →
      ∀ b ∈ s.bases ++ s.implicitBases, m.spaces.contains b = true := by
    intro x s hs hstatic b hb
    obtain ⟨t, ht, -⟩ := hspares.static (hsourced.static_base hs hstatic hb)
    exact Pool.contains_iff.2 ⟨t, ht⟩
  unfold unlinkDeadBases
  refine foldl_keeps (P := Spares m₀) (fun m' x h => h.modifySpace (fun s => ?_)
    (fun s₀ s hs₀ hstatic hsstatic hsub => ?_) fun s₀ s hs₀ hstatic hsstatic hmem b hb => ?_) _ hspares
  · exact (s.persists_setBases _).trans (Space.persists_setImplicitBases _ _)
  · rw [Space.bases_setImplicitBases, Space.bases_setBases _ _ hsstatic]
    have hall : s₀.bases.filter m.spaces.contains = s₀.bases :=
      List.filter_eq_self.2 fun b hb => hlive x s₀ hs₀ hstatic b (List.mem_append_left _ hb)
    rw [← hall]
    exact hsub.filter _
  · have hset := (s.persists_setBases (·.filter m.spaces.contains)).isStatic.trans hsstatic
    rw [Space.implicitBases_setImplicitBases _ _ hset, Space.implicitBases_setBases]
    exact List.mem_filter.2 ⟨hmem b hb, hlive x s₀ hs₀ hstatic b (List.mem_append_right _ hb)⟩

/-- A base that a sourced model had is still a base. -/
theorem Spares.base (hspares : Spares m₀ m) (hsourced : m₀.Sourced) {b : SpaceId}
    (hid : m₀.Static id) (hb : b ∈ m₀.allBases id) : m₀.Static b ∧ b ∈ m.allBases id := by
  obtain ⟨s, hs, hstatic⟩ := hid
  obtain ⟨t, ht, hmem, -⟩ := mem_allBases.1 hb
  cases hs.symm.trans ht
  have hbase := hsourced.static_base hs hstatic hmem
  obtain ⟨s', hs', -, hsub, himplicit⟩ := hspares.space id s hs hstatic
  obtain ⟨u, hu, -⟩ := hspares.static hbase
  refine ⟨hbase, mem_allBases.2 ⟨s', hs', ?_, Pool.contains_iff.2 ⟨u, hu⟩⟩⟩
  rcases List.mem_append.1 hmem with hmem | hmem
  · exact List.mem_append_left _ (hsub.subset hmem)
  · exact List.mem_append_right _ (himplicit b hmem)

/-- What a static space listed is listed there still. -/
theorem Spares.listed (hspares : Spares m₀ m) (hm₀ : m₀.Owned) (hm : m.Owned) {e : Entity}
    {a : Address} (he : m₀.Founded e) (ha : m₀.listed a = some e) : m.listed a = some e := by
  obtain ⟨b, hb, hba⟩ := hm₀.linked.sound a e ha
  rw [← hspares.home he] at hb
  rw [← listed_congr hba]
  exact hm.listed hb

section Covering

variable (hspares : Spares m₀ m) (hm₀ : m₀.Owned) (hm : m.Owned) (hsourced : m₀.Sourced)
  (hh : m.heritage id = .ok h) (hid : m₀.Static id)
include hspares hm₀ hm hsourced hh hid

theorem Spares.cells_inherited {name : String} (hname : m₀.inherits Space.cells id name = true) :
    h.cells.contains name = true := by
  obtain ⟨b, hb, s, hs, hname⟩ := inherits_iff.1 hname
  obtain ⟨⟨t, ht, hstatic⟩, hb'⟩ := hspares.base hsourced hid hb
  cases hs.symm.trans ht
  obtain ⟨c, hc⟩ := Option.isSome_iff_exists.1 hname
  obtain ⟨d, hd, hspace, -⟩ := hm₀.cells_of_listed hs hc
  have hlisted : m₀.listed (.cells b name) = some (.cells c) := by
    rw [listed_of_space rfl hs, Space.lists, hc, Option.map_some]
  obtain ⟨s', hs', hlists⟩ := space_of_listed
    (hspares.listed (e := .cells c) hm₀ hm ⟨d, hd, hspace ▸ ⟨s, hs, hstatic⟩⟩ hlisted) rfl
  refine contains_heritage_cells hh hb' hs' ?_
  rw [NameMap.contains, ← Option.isSome_map (f := Entity.cells)]
  exact Option.isSome_of_eq_some hlists

theorem Spares.refs_inherited {name : String} (hname : m₀.inherits Space.refs id name = true) :
    h.refs.contains name = true := by
  obtain ⟨b, hb, s, hs, hname⟩ := inherits_iff.1 hname
  obtain ⟨-, hb'⟩ := hspares.base hsourced hid hb
  obtain ⟨r, hr⟩ := Option.isSome_iff_exists.1 hname
  obtain ⟨q, hq, -⟩ := hm₀.ref_of_listed hs hr
  have hlisted : m₀.listed (.ref b name) = some (.ref r) := by
    rw [listed_of_space rfl hs, Space.lists, hr, Option.map_some]
  obtain ⟨s', hs', hlists⟩ := space_of_listed
    (hspares.listed (e := .ref r) hm₀ hm ⟨q, hq⟩ hlisted) rfl
  refine contains_heritage_refs hh hb' hs' ?_
  rw [NameMap.contains, ← Option.isSome_map (f := Entity.ref)]
  exact Option.isSome_of_eq_some hlists

omit hh in
/-- Children of a name that the bases have are there still. -/
theorem Spares.inheritsChild {name : String} {c : SpaceId}
    (hname : m₀.inheritsChild id name c = true) : m.inheritsChild id name c = true := by
  obtain ⟨b, hb, s, hs, hc⟩ := inheritsChild_iff.1 hname
  obtain ⟨⟨t, ht, hstatic⟩, hb'⟩ := hspares.base hsourced hid hb
  cases hs.symm.trans ht
  have hlisted : m₀.listed (.child b name) = some (.space c) := by
    rw [listed_of_space rfl hs, Space.lists, hc, Option.map_some]
  obtain ⟨y, hy, hystatic, -⟩ := hm₀.static_of_listed hs hstatic hc
  obtain ⟨s', hs', hlists⟩ := space_of_listed
    (hspares.listed (e := .space c) hm₀ hm ⟨y, hy, hystatic⟩ hlisted) rfl
  obtain ⟨x, hx, heq⟩ := Option.map_eq_some_iff.1 hlists
  cases heq
  exact inheritsChild_iff.2 ⟨b, hb', s', hs', hx⟩

theorem Spares.child_inherited {name : String} {c : SpaceId}
    (hname : m₀.inheritsChild id name c = true) : c ∈ (h.spaces.get? name).getD [] := by
  obtain ⟨b, hb, s, hs, hc⟩ := inheritsChild_iff.1
    (hspares.inheritsChild hm₀ hm hsourced hid hname)
  exact mem_heritage_spaces hh hb hs hc

theorem Spares.children_inherited {name : String}
    (hname : m₀.inherits Space.spaces id name = true) : h.spaces.contains name = true := by
  obtain ⟨b, hb, s, hs, hname⟩ := inherits_iff.1 hname
  obtain ⟨c, hc⟩ := Option.isSome_iff_exists.1 hname
  obtain ⟨b', hb', s', hs', hc'⟩ := inheritsChild_iff.1
    (hspares.inheritsChild hm₀ hm hsourced hid (inheritsChild_iff.2 ⟨b, hb, s, hs, hc⟩))
  exact contains_heritage_spaces hh hb' hs' (Option.isSome_of_eq_some hc')

end Covering

/-- The heritage of a space accounts for what it derived in a sourced model. -/
theorem Spares.covers (hspares : Spares m₀ m) (hm₀ : m₀.Owned) (hm : m.Owned)
    (hsourced : m₀.Sourced) (hh : m.heritage id = .ok h) : Covers m₀ id h := by
  have hparent : ∀ {c : SpaceId} {t : Space}, m₀.spaces.get? c = some t → t.isStatic = true →
      t.parent = some id → m₀.Static id := by
    intro c t ht hstatic hp
    refine hm₀.static_home (e := .space c) ⟨t, ht, hstatic⟩ (home?_space ht) ?_
    rw [Space.home_of_static hstatic, hp]
    rfl
  refine ⟨fun c d hd hspace hid hderived => ?_, fun r q hq howner hderived => ?_,
    fun c t ht hstatic hp hderived => ?_, fun c t ht hstatic hp b hb => ?_⟩
  · subst hspace
    exact hspares.cells_inherited hm₀ hm hsourced hh hid (hsourced.cells hd hderived hid)
  · have hid : m₀.Static id := by
      refine hm₀.static_home (e := .ref r) ⟨q, hq⟩ (home?_ref hq) ?_
      rw [Reference.home, howner]
      rfl
    exact hspares.refs_inherited hm₀ hm hsourced hh hid (hsourced.ref hq hderived howner)
  · exact hspares.children_inherited hm₀ hm hsourced hh (hparent ht hstatic hp)
      ((hsourced.child ht hstatic hp).1 hderived)
  · exact hspares.child_inherited hm₀ hm hsourced hh (hparent ht hstatic hp)
      ((hsourced.child ht hstatic hp).2 b hb)

theorem lasting_spares (hm₀ : m₀.Owned) (hsourced : m₀.Sourced) :
    Lasting (Spares m₀) (Covers m₀) where
  heritage _ _ _ hm hspares _ hh := hspares.covers hm₀ hm hsourced hh
  alters _ _ _ _ _ _ hspares _ hcovers halters := hspares.alters hm₀ hcovers halters
  drops _ _ hm hm' hspares hdrops hinputs := hspares.drops hm hm' hdrops hinputs
  unlink _ _ hspares := hspares.unlink hsourced

end Sparing

/-! ## Nothing is authored -/

/-- What is new is derived, and no space gained an explicit base. -/
structure AuthorsNothing (m₀ m : Model) : Prop where
  space : ∀ id s', m.spaces.get? id = some s' → s'.isStatic = true →
    (∃ s, m₀.spaces.get? id = some s ∧ s.isStatic = true ∧ s'.bases.Sublist s.bases) ∨
      (s'.isDerived = true ∧ s'.bases = [])
  cells : ∀ id c', m.cells.get? id = some c' →
    (∃ c, m₀.cells.get? id = some c) ∨ c'.derived = true
  ref : ∀ id r', m.refs.get? id = some r' → (∃ r, m₀.refs.get? id = some r) ∨ r'.derived = true

section Authoring

variable {m₀ m m' : Model} {id : SpaceId} {h : Heritage}

theorem AuthorsNothing.refl (m : Model) : AuthorsNothing m m :=
  ⟨fun _ s hs hstatic => .inl ⟨s, hs, hstatic, .refl _⟩, fun _ c hc => .inl ⟨c, hc⟩,
    fun _ r hr => .inl ⟨r, hr⟩⟩

theorem AuthorsNothing.alters (hauthors : AuthorsNothing m₀ m) (halters : Alters id h m m') :
    AuthorsNothing m₀ m' where
  space x s' hs' hstatic := by
    cases hs : m.spaces.get? x with
    | none =>
      obtain ⟨hderived, hbases, -⟩ := halters.newSpace x s' hs' hs
      exact .inr ⟨hderived, hbases⟩
    | some s =>
      rcases halters.space x s hs with ⟨t, ht, hstep⟩ | ⟨hgone, -⟩
      · cases hs'.symm.trans ht
        rw [hstep.isStatic] at hstatic
        rw [hstep.bases, hstep.isDerived]
        exact hauthors.space x s hs hstatic
      · exact absurd (hs'.symm.trans hgone) (by simp)
  cells c d' hd' := by
    cases hd : m.cells.get? c with
    | none => exact .inr (halters.newCells c d' hd' hd).1
    | some d =>
      rcases halters.cells c d hd with ⟨t, ht, hstep⟩ | ⟨hgone, -⟩
      · cases hd'.symm.trans ht
        rw [hstep.derived]
        exact hauthors.cells c d hd
      · exact absurd (hd'.symm.trans hgone) (by simp)
  ref r q' hq' := by
    cases hq : m.refs.get? r with
    | none => exact .inr (halters.newRef r q' hq' hq).1
    | some q =>
      rcases halters.ref r q hq with ⟨t, ht, hstep⟩ | ⟨hgone, -⟩
      · cases hq'.symm.trans ht
        rw [hstep.derived]
        exact hauthors.ref r q hq
      · exact absurd (hq'.symm.trans hgone) (by simp)

theorem AuthorsNothing.drops (hauthors : AuthorsNothing m₀ m) (hdrops : Drops m m') :
    AuthorsNothing m₀ m' where
  space x s' hs' hstatic := by
    obtain ⟨s, hs, heq, -⟩ := hdrops.space x s' hs'
    rw [heq] at hstatic ⊢
    exact hauthors.space x s hs hstatic
  cells c d' hd' := by
    obtain ⟨d, hd, hbare⟩ := hdrops.cells c d' hd'
    have hderived : d'.bare.derived = d.bare.derived := by rw [hbare]
    exact (hauthors.cells c d hd).imp_right hderived.trans
  ref r q' hq' := hauthors.ref r q' (hdrops.refs r q' hq')

/-- A space changes in place, and its explicit bases are among those it had. -/
theorem AuthorsNothing.modifySpace (hauthors : AuthorsNothing m₀ m) {x : SpaceId}
    {f : Space → Space} (hf : ∀ s : Space, s.Persists (f s))
    (hbases : ∀ s, m.spaces.get? x = some s → s.isStatic = true →
      (f s).bases.Sublist s.bases) : AuthorsNothing m₀ (m.modifySpace x f) := by
  refine { hauthors with space := fun y s' hs' hstatic => ?_ }
  have hget := Pool.get?_modify m.spaces x y f
  by_cases heq : x = y
  · subst heq
    rw [if_pos rfl] at hget
    obtain ⟨s, hs, rfl⟩ := Option.map_eq_some_iff.1 (hget.symm.trans hs')
    rw [(hf s).isStatic] at hstatic
    have hsub := hbases s hs hstatic
    rcases hauthors.space x s hs hstatic with ⟨t, ht, htstatic, hle⟩ | ⟨hderived, hnil⟩
    · exact .inl ⟨t, ht, htstatic, hsub.trans hle⟩
    · rw [hnil] at hsub
      exact .inr ⟨(hf s).isDerived.trans hderived, List.sublist_nil.1 hsub⟩
  · rw [if_neg heq] at hget
    exact hauthors.space y s' (hget.symm.trans hs') hstatic

theorem AuthorsNothing.sheds (hauthors : AuthorsNothing m₀ m) {W : Entity → Prop}
    (hsheds : Sheds W m m') (hinputs : KeepsInputs m m') : AuthorsNothing m₀ m' where
  space x s' hs' hstatic := hauthors.space x s' (hsheds.space hs') hstatic
  cells c d' hd' := by
    obtain ⟨d, hd, -⟩ := hinputs c d' hd'
    rcases hsheds.cells hinputs hd with ⟨x, hx, hstep⟩ | ⟨hgone, -⟩
    · cases hd'.symm.trans hx
      exact (hauthors.cells c d hd).imp_right hstep.derived.trans
    · exact absurd (hd'.symm.trans hgone) (by simp)
  ref r q' hq' := by
    rcases hsheds.ref r with heq | ⟨hgone, -⟩
    · exact hauthors.ref r q' (heq.symm.trans hq')
    · exact absurd (hq'.symm.trans hgone) (by simp)

/-- Without the entity that came, what is authored was there before. -/
theorem AuthorsNothing.narrow {m₁ : Model} (hauthors : AuthorsNothing m₁ m) {e : Entity}
    (hjoins : Joins e m₀ m₁) (hgone : m.home? e = none) : AuthorsNothing m₀ m where
  space x s' hs' hstatic := by
    refine (hauthors.space x s' hs' hstatic).imp_left fun ⟨s₁, hs₁, hstatic₁, hsub⟩ => ?_
    cases hs : m₀.spaces.get? x with
    | none =>
      cases hjoins.newSpace x s₁ hs₁ hs
      rw [home?_space hs'] at hgone
      contradiction
    | some s =>
      obtain ⟨t, ht, hpersists, hkind⟩ := hjoins.space x s hs
      cases hs₁.symm.trans ht
      refine ⟨s, rfl, hpersists.isStatic.symm.trans hstatic₁, ?_⟩
      rwa [Space.bases_congr hkind] at hsub
  cells c d' hd' := by
    refine (hauthors.cells c d' hd').imp_left fun ⟨d₁, hd₁⟩ => ?_
    cases hd : m₀.cells.get? c with
    | none =>
      cases hjoins.newCells c d₁ hd₁ hd
      rw [home?_cells hd'] at hgone
      contradiction
    | some d => exact ⟨d, rfl⟩
  ref r q' hq' := by
    refine (hauthors.ref r q' hq').imp_left fun ⟨q₁, hq₁⟩ => ?_
    cases hq : m₀.refs.get? r with
    | none =>
      cases hjoins.newRef r q₁ hq₁ hq
      rw [home?_ref hq'] at hgone
      contradiction
    | some q => exact ⟨q, rfl⟩

theorem AuthorsNothing.unlink (hauthors : AuthorsNothing m₀ m) :
    AuthorsNothing m₀ m.unlinkDeadBases.2 := by
  unfold unlinkDeadBases
  refine foldl_keeps (P := AuthorsNothing m₀) (fun m' x h => h.modifySpace (fun s => ?_)
    fun s _ hstatic => ?_) _ hauthors
  · exact (s.persists_setBases _).trans (Space.persists_setImplicitBases _ _)
  · rw [Space.bases_setImplicitBases, Space.bases_setBases _ _ hstatic]
    exact List.filter_sublist

theorem lasting_authorsNothing (m₀ : Model) : Lasting (AuthorsNothing m₀) fun _ _ => True where
  heritage _ _ _ _ _ _ _ := trivial
  alters _ _ _ _ _ _ hauthors _ _ halters := hauthors.alters halters
  drops _ _ _ _ hauthors hdrops _ := hauthors.drops hdrops
  unlink _ _ hauthors := hauthors.unlink

end Authoring

/-! ## Definitions are restored -/

/-- The definitions of a model are there again. Derived members and implicit bases may have come,
and what is inherited may follow another source; nothing else differs. -/
structure Restores (m₀ m : Model) : Prop where
  space : ∀ id s, m₀.spaces.get? id = some s → s.isStatic = true →
    ∃ s', m.spaces.get? id = some s' ∧ s.Persists s' ∧ s'.bases = s.bases ∧
      ∀ b ∈ s.implicitBases, b ∈ s'.implicitBases
  cells : ∀ id c, m₀.cells.get? id = some c → m₀.Static c.space →
    ∃ c', m.cells.get? id = some c' ∧ c.Persists c'
  ref : ∀ id r, m₀.refs.get? id = some r → ∃ r', m.refs.get? id = some r' ∧ r.Persists r'
  roots : m.roots = m₀.roots
  globals : m.globals = m₀.globals
  newSpace : ∀ id s', m.spaces.get? id = some s' → s'.isStatic = true →
    m₀.Static id ∨ s'.isDerived = true
  newCells : ∀ id c', m.cells.get? id = some c' →
    (∃ c, m₀.cells.get? id = some c) ∨ c'.derived = true
  newRef : ∀ id r', m.refs.get? id = some r' → (∃ r, m₀.refs.get? id = some r) ∨ r'.derived = true

/-- Nothing of one model is lost, and nothing is authored that another one has not. -/
abbrev Restoring (m₀ m₁ m : Model) : Prop := Spares m₀ m ∧ AuthorsNothing m₁ m

section Restoring

variable {m₀ m : Model}

theorem Restoring.restores (h : Restoring m₀ m₀ m) : Restores m₀ m := by
  obtain ⟨hspares, hauthors⟩ := h
  refine { hspares with
    space := fun id s hs hstatic => ?_
    newSpace := fun id s' hs' hstatic => ?_
    newCells := hauthors.cells
    newRef := hauthors.ref }
  · obtain ⟨s', hs', hpersists, hsub, himplicit⟩ := hspares.space id s hs hstatic
    refine ⟨s', hs', hpersists, ?_, himplicit⟩
    rcases hauthors.space id s' hs' (hpersists.isStatic.trans hstatic) with
      ⟨t, ht, -, hle⟩ | ⟨-, hnil⟩
    · cases hs.symm.trans ht
      exact hle.antisymm hsub
    · rw [hnil] at hsub ⊢
      exact (List.sublist_nil.1 hsub).symm
  · rcases hauthors.space id s' hs' hstatic with ⟨s, hs, hstatic, -⟩ | ⟨hderived, -⟩
    · exact .inl ⟨s, hs, hstatic⟩
    · exact .inr hderived

theorem Restores.refl (m : Model) : Restores m m := Restoring.restores ⟨.refl m, .refl m⟩

theorem lasting_restoring (hm₀ : m₀.Owned) (hsourced : m₀.Sourced) (m₁ : Model) :
    Lasting (Restoring m₀ m₁) fun id h => Covers m₀ id h ∧ True :=
  (lasting_spares hm₀ hsourced).and (lasting_authorsNothing m₁)

end Restoring

end Recalc.Model
