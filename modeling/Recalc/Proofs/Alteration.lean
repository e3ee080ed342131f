import Recalc.Proofs.MirroredDerivation
import Recalc.Proofs.Turnover

set_option autoImplicit false

/-!
# What deriving a member alters

Deriving a member of a space alters definitions in few ways: a derived member comes, follows its
source, or goes for want of one, and a child takes other implicit bases. What the host authored
persists, and inputs go only with their cells.
-/

namespace Recalc

/-- Cells as the host left them; derived ones may follow another source. -/
structure Cells.Persists (c c' : Cells) : Prop where
  name : c'.name = c.name
  space : c'.space = c.space
  derived : c'.derived = c.derived
  inputs : c'.contents.inputs = c.contents.inputs
  authored : c.derived = false → c'.formula = c.formula ∧ c'.allowNone = c.allowNone

structure Reference.Persists (r r' : Reference) : Prop where
  name : r'.name = r.name
  owner : r'.owner = r.owner
  derived : r'.derived = r.derived
  authored : r.derived = false → r' = r

/-- What a space is apart from its members and its bases; inherited parameters may change. -/
structure Space.Persists (s s' : Space) : Prop where
  name : s'.name = s.name
  parent : s'.parent = s.parent
  isStatic : s'.isStatic = s.isStatic
  isDerived : s'.isDerived = s.isDerived
  ownSignature : s'.ownSignature = s.ownSignature
  signature : s.ownSignature = true → s'.signature = s.signature
  allowNone : s'.allowNone = s.allowNone
  doc : s'.doc = s.doc

section Persistence

theorem Cells.Persists.refl (c : Cells) : c.Persists c := ⟨rfl, rfl, rfl, rfl, fun _ => ⟨rfl, rfl⟩⟩

theorem Cells.Persists.trans {c₁ c₂ c₃ : Cells} (h : c₁.Persists c₂) (h' : c₂.Persists c₃) :
    c₁.Persists c₃ := by
  refine ⟨h'.name.trans h.name, h'.space.trans h.space, h'.derived.trans h.derived,
    h'.inputs.trans h.inputs, fun hc => ?_⟩
  have h₁ := h.authored hc
  have h₂ := h'.authored (h.derived.trans hc)
  exact ⟨h₂.1.trans h₁.1, h₂.2.trans h₁.2⟩

theorem Reference.Persists.refl (r : Reference) : r.Persists r := ⟨rfl, rfl, rfl, fun _ => rfl⟩

theorem Reference.Persists.trans {r₁ r₂ r₃ : Reference} (h : r₁.Persists r₂)
    (h' : r₂.Persists r₃) : r₁.Persists r₃ :=
  ⟨h'.name.trans h.name, h'.owner.trans h.owner, h'.derived.trans h.derived,
    fun hr => (h'.authored (h.derived.trans hr)).trans (h.authored hr)⟩

theorem Space.Persists.refl (s : Space) : s.Persists s :=
  ⟨rfl, rfl, rfl, rfl, rfl, fun _ => rfl, rfl, rfl⟩

theorem Space.Persists.trans {s₁ s₂ s₃ : Space} (h : s₁.Persists s₂) (h' : s₂.Persists s₃) :
    s₁.Persists s₃ :=
  ⟨h'.name.trans h.name, h'.parent.trans h.parent, h'.isStatic.trans h.isStatic,
    h'.isDerived.trans h.isDerived, h'.ownSignature.trans h.ownSignature,
    fun hs => (h'.signature (h.ownSignature.trans hs)).trans (h.signature hs),
    h'.allowNone.trans h.allowNone, h'.doc.trans h.doc⟩

/-- Cells with the same record and the same inputs. -/
theorem Cells.persists_of_bare {c c' : Cells} (h : c'.bare = c.bare)
    (inputs : c'.contents.inputs = c.contents.inputs) : c.Persists c' := by
  have hname : c'.bare.name = c.bare.name := by rw [h]
  have hspace : c'.bare.space = c.bare.space := by rw [h]
  have hderived : c'.bare.derived = c.bare.derived := by rw [h]
  have hformula : c'.bare.formula = c.bare.formula := by rw [h]
  have hallow : c'.bare.allowNone = c.bare.allowNone := by rw [h]
  exact ⟨hname, hspace, hderived, inputs, fun _ => ⟨hformula, hallow⟩⟩

end Persistence

/-! ## Bases -/

namespace Space

variable (f : List SpaceId → List SpaceId) (s : Space)

theorem persists_setBases : s.Persists (s.setBases f) := by
  unfold setBases
  split
  next hk => exact ⟨rfl, rfl, by simp [isStatic, hk], by simp [isDerived, hk], rfl, fun _ => rfl, rfl, rfl⟩
  next => exact .refl s

theorem persists_setImplicitBases : s.Persists (s.setImplicitBases f) := by
  unfold setImplicitBases
  split
  next hk => exact ⟨rfl, rfl, by simp [isStatic, hk], by simp [isDerived, hk], rfl, fun _ => rfl, rfl, rfl⟩
  next => exact .refl s

theorem bases_setBases (hs : s.isStatic = true) : (s.setBases f).bases = f s.bases := by
  cases hk : s.kind <;> simp [isStatic, setBases, bases, hk] at hs ⊢

theorem implicitBases_setBases : (s.setBases f).implicitBases = s.implicitBases := by
  cases hk : s.kind <;> simp [setBases, implicitBases, hk]

theorem bases_setImplicitBases : (s.setImplicitBases f).bases = s.bases := by
  cases hk : s.kind <;> simp [setImplicitBases, bases, hk]

omit f s in
theorem bases_congr {s s' : Space} (h : s'.kind = s.kind) : s'.bases = s.bases := by
  rw [bases, h, ← bases]

omit f s in
theorem implicitBases_congr {s s' : Space} (h : s'.kind = s.kind) :
    s'.implicitBases = s.implicitBases := by
  rw [implicitBases, h, ← implicitBases]

theorem implicitBases_setImplicitBases (hs : s.isStatic = true) :
    (s.setImplicitBases f).implicitBases = f s.implicitBases := by
  cases hk : s.kind <;> simp [isStatic, setImplicitBases, implicitBases, hk] at hs ⊢

end Space

namespace Model

open Recalc.Action

/-! ## Inputs -/

/-- No cells come, and those that stay keep their inputs. -/
def KeepsInputs (m m' : Model) : Prop :=
  ∀ id c', m'.cells.get? id = some c' →
    ∃ c, m.cells.get? id = some c ∧ c'.contents.inputs = c.contents.inputs

instance : Frame KeepsInputs where
  refl _ _ c h := ⟨c, h, rfl⟩
  trans h h' id c₃ hc₃ := by
    obtain ⟨c₂, hc₂, hinputs₂⟩ := h' id c₃ hc₃
    obtain ⟨c₁, hc₁, hinputs₁⟩ := h id c₂ hc₂
    exact ⟨c₁, hc₁, hinputs₂.trans hinputs₁⟩

theorem TrimsCells.keepsInputs {m m' : Model} (h : TrimsCells m m') : KeepsInputs m m' :=
  fun _ _ hc' => Pool.Trims.of_get? h hc'

/-! ## Departures -/

namespace Sheds

variable {W : Entity → Prop} {m m' : Model}

theorem cells (hsheds : Sheds W m m') (hinputs : KeepsInputs m m') {c : CellId} {d : Cells}
    (hd : m.cells.get? c = some d) :
    (∃ d', m'.cells.get? c = some d' ∧ d.Persists d') ∨ (m'.cells.get? c = none ∧ W (.cells c)) := by
  cases hd' : m'.cells.get? c with
  | some d' =>
    refine .inl ⟨d', rfl, ?_⟩
    obtain ⟨b, hb, hsame⟩ := hinputs c d' hd'
    cases hd.symm.trans hb
    rcases hsheds.record (.cells c) with heq | ⟨-, hnone⟩
    · simp only [record?, hd, hd', Option.map_some, Option.some.injEq, Record.cells.injEq] at heq
      exact Cells.persists_of_bare heq hsame
    · simp [record?, hd'] at hnone
  | none =>
    refine .inr ⟨rfl, ?_⟩
    rcases hsheds.record (.cells c) with heq | ⟨hw, -⟩
    · simp [record?, hd, hd'] at heq
    · exact hw

theorem ref (hsheds : Sheds W m m') (r : RefId) :
    m'.refs.get? r = m.refs.get? r ∨ (m'.refs.get? r = none ∧ W (.ref r)) := by
  have hinj : Function.Injective Record.ref := fun _ _ heq => Record.ref.inj heq
  refine (hsheds.record (.ref r)).imp (fun heq => Option.map_injective hinj heq) ?_
  exact fun ⟨hw, hnone⟩ => ⟨Option.map_eq_none_iff.1 hnone, hw⟩

end Sheds

/-! ## Arrivals -/

structure Joins (e : Entity) (m m' : Model) : Prop where
  fresh : m.home? e = none
  space : ∀ x s, m.spaces.get? x = some s →
    ∃ s', m'.spaces.get? x = some s' ∧ s.Persists s' ∧ s'.kind = s.kind
  cells : ∀ c d, m.cells.get? c = some d → m'.cells.get? c = some d
  ref : ∀ r q, m.refs.get? r = some q → m'.refs.get? r = some q
  newSpace : ∀ x s', m'.spaces.get? x = some s' → m.spaces.get? x = none → e = .space x
  newCells : ∀ c d', m'.cells.get? c = some d' → m.cells.get? c = none → e = .cells c
  newRef : ∀ r q', m'.refs.get? r = some q' → m.refs.get? r = none → e = .ref r
  roots : m'.roots = m.roots
  globals : m'.globals = m.globals

section Arrivals

variable {m m' : Model} {id : SpaceId} {s t : Space}

/-- Something is listed in a space. -/
theorem space_of_listing (hs : m.spaces.get? id = some s)
    (hspaces : ∀ x, m'.spaces.get? x = if id = x then some t else m.spaces.get? x)
    (ht : s.Persists t) (hkind : t.kind = s.kind) (x : SpaceId) :
    (∀ u, m.spaces.get? x = some u →
      ∃ u', m'.spaces.get? x = some u' ∧ u.Persists u' ∧ u'.kind = u.kind) ∧
      ∀ u', m'.spaces.get? x = some u' → ∃ u, m.spaces.get? x = some u := by
  by_cases heq : id = x
  · subst heq
    refine ⟨fun u hu => ?_, fun _ _ => ⟨s, hs⟩⟩
    cases hs.symm.trans hu
    exact ⟨t, by rw [hspaces, if_pos rfl], ht, hkind⟩
  · refine ⟨fun u hu => ⟨u, by rw [hspaces, if_neg heq, hu], .refl u, rfl⟩, fun u' hu' => ⟨u', ?_⟩⟩
    rwa [hspaces, if_neg heq] at hu'

theorem joins_addCells (hm : m.Owned) {c : Cells} (small : (m.addCells c).2.Addressable)
    (hs : m.spaces.get? c.space = some s) : Joins (.cells (m.addCells c).1) m (m.addCells c).2 := by
  have hadds := addsCells hm.tidy small hs
  have hlisting := space_of_listing hs hadds.spaces
    ⟨rfl, rfl, rfl, rfl, rfl, fun _ => rfl, rfl, rfl⟩ rfl
  refine { fresh := by simp [home?, record?, hadds.fresh],
           roots := hadds.roots, globals := hadds.globals, space := fun x => (hlisting x).1,
           cells := fun b d hd => ?_,
           ref := fun r q hq => by rw [hadds.refs, hq],
           newSpace := fun x u' hu' hnone => ?_,
           newCells := fun b d' hd' hnone => ?_,
           newRef := fun r q' hq' hnone => ?_ }
  · rw [hadds.cells, if_neg, hd]
    rintro rfl
    rw [hadds.fresh] at hd
    contradiction
  · obtain ⟨u, hu⟩ := (hlisting x).2 u' hu'
    rw [hu] at hnone
    contradiction
  · rw [hadds.cells, hnone] at hd'
    split at hd'
    next heq => rw [heq]
    next => contradiction
  · rw [hadds.refs, hnone] at hq'
    contradiction

theorem refs_addRef (ht : m.Tidy) {r : Reference} (small : (m.addRef r).2.Addressable) :
    m.refs.get? (m.addRef r).1 = none ∧ ∀ other, (m.addRef r).2.refs.get? other =
      if (m.addRef r).1 = other then some r else m.refs.get? other := by
  cases howner : r.owner with
  | some owner =>
    rw [addRef_of_owner m howner] at small ⊢
    have small : Addressable { m with refs := (m.refs.insert r).2 } :=
      (addressable_modifySpace _ _).1 small
    exact Pool.insert_fresh ht.refs small.refs
  | none =>
    rw [addRef_of_global m howner] at small ⊢
    exact Pool.insert_fresh ht.refs small.refs

theorem globals_addRef {r : Reference} {owner : SpaceId} (howner : r.owner = some owner) :
    (m.addRef r).2.globals = m.globals := by
  rw [addRef_of_owner m howner]
  rfl

theorem joins_addRef (hm : m.Owned) {r : Reference} (small : (m.addRef r).2.Addressable)
    (hs : m.spaces.get? id = some s) (howner : r.owner = some id) :
    Joins (.ref (m.addRef r).1) m (m.addRef r).2 := by
  obtain ⟨hfresh, hrefs⟩ := refs_addRef hm.tidy small
  have hcells := cells_addRef m r
  have hlisting := space_of_listing hs (spaces_addRef howner hs)
    ⟨rfl, rfl, rfl, rfl, rfl, fun _ => rfl, rfl, rfl⟩ rfl
  refine { fresh := by simp [home?, record?, hfresh],
           roots := roots_addRef m r, globals := globals_addRef howner,
           space := fun x => (hlisting x).1,
           cells := fun b d hd => by rw [hcells, hd],
           ref := fun b q hq => ?_,
           newSpace := fun x u' hu' hnone => ?_,
           newCells := fun b d' hd' hnone => ?_,
           newRef := fun b q' hq' hnone => ?_ }
  · rw [hrefs, if_neg, hq]
    rintro rfl
    rw [hfresh] at hq
    contradiction
  · obtain ⟨u, hu⟩ := (hlisting x).2 u' hu'
    rw [hu] at hnone
    contradiction
  · rw [hcells, hnone] at hd'
    contradiction
  · rw [hrefs, hnone] at hq'
    split at hq'
    next heq => rw [heq]
    next => contradiction

theorem joins_addChild (hm : m.Owned) (small : (m.addChild id t).2.Addressable)
    (hs : m.spaces.get? id = some s) : Joins (.space (m.addChild id t).1) m (m.addChild id t).2 := by
  have hadds := addsChild hm.tidy small hs
  refine { fresh := by simp [home?, record?, hadds.fresh],
           roots := hadds.roots, globals := hadds.globals,
           space := fun x u hu => ?_,
           cells := fun b d hd => by rw [hadds.cells, hd],
           ref := fun b q hq => by rw [hadds.refs, hq],
           newSpace := fun x u' hu' hnone => ?_,
           newCells := fun b d' hd' hnone => ?_,
           newRef := fun b q' hq' hnone => ?_ }
  · have hget := hadds.spaces x
    split at hget
    next heq =>
      subst heq
      cases hs.symm.trans hu
      exact ⟨_, hget, ⟨rfl, rfl, rfl, rfl, rfl, fun _ => rfl, rfl, rfl⟩, rfl⟩
    next =>
      split at hget
      next heq =>
        rw [← heq, hadds.fresh] at hu
        contradiction
      next => exact ⟨u, hget.trans hu, .refl u, rfl⟩
  · rw [hadds.spaces, hnone] at hu'
    split at hu'
    next heq =>
      rw [← heq, hs] at hnone
      contradiction
    next =>
      split at hu'
      next heq => rw [heq]
      next => contradiction
  · rw [hadds.cells, hnone] at hd'
    contradiction
  · rw [hadds.refs, hnone] at hq'
    contradiction

end Arrivals

/-! ## Alterations -/

def Static (m : Model) (id : SpaceId) : Prop := ∃ s, m.spaces.get? id = some s ∧ s.isStatic = true

/-- A derived member of the space that nothing in the heritage accounts for. -/
inductive Unsourced (m : Model) (id : SpaceId) (h : Heritage) : Entity → Prop
  | cells {c : CellId} {d : Cells} : m.cells.get? c = some d → d.space = id → d.derived = true →
      h.cells.contains d.name = false → Unsourced m id h (.cells c)
  | ref {r : RefId} {q : Reference} : m.refs.get? r = some q → q.owner = some id →
      q.derived = true → h.refs.contains q.name = false → Unsourced m id h (.ref r)
  | space {c : SpaceId} {t : Space} : m.spaces.get? c = some t → t.isDerived = true →
      t.parent = some id → h.spaces.contains t.name = false → Unsourced m id h (.space c)

def Inherited (m : Model) (id : SpaceId) (h : Heritage) : Entity → Prop
  | .space x => ∀ s, m.spaces.get? x = some s → s.isDerived = true ∧ s.bases = [] ∧
      s.parent = some id ∧ h.spaces.contains s.name = true
  | .cells c => ∀ d, m.cells.get? c = some d → d.derived = true ∧ d.space = id ∧
      h.cells.contains d.name = true
  | .ref r => ∀ q, m.refs.get? r = some q → q.derived = true ∧ q.owner = some id ∧
      h.refs.contains q.name = true

def Goes (m : Model) (id : SpaceId) (h : Heritage) (e : Entity) : Prop :=
  ∃ top, m.Unsourced id h top ∧ m.Within top e

end Model

structure Space.Alters (id : SpaceId) (h : Heritage) (s s' : Space) : Prop
    extends s.Persists s' where
  bases : s'.bases = s.bases
  implicitBases : s'.implicitBases = s.implicitBases ∨
    (s.parent = some id ∧ s'.implicitBases = (h.spaces.get? s.name).getD [])
  replica : s.isStatic = false → s'.kind = s.kind

theorem Space.Alters.refl (id : SpaceId) (h : Heritage) (s : Space) : s.Alters id h s :=
  ⟨.refl s, rfl, .inl rfl, fun _ => rfl⟩

namespace Model

/-- What deriving one member of the space does to definitions. -/
structure Alters (id : SpaceId) (h : Heritage) (m m' : Model) : Prop where
  space : ∀ x s, m.spaces.get? x = some s →
    (∃ s', m'.spaces.get? x = some s' ∧ s.Alters id h s') ∨
      (m'.spaces.get? x = none ∧ m.Goes id h (.space x))
  cells : ∀ c d, m.cells.get? c = some d →
    (∃ d', m'.cells.get? c = some d' ∧ d.Persists d') ∨
      (m'.cells.get? c = none ∧ m.Goes id h (.cells c))
  ref : ∀ r q, m.refs.get? r = some q →
    (∃ q', m'.refs.get? r = some q' ∧ q.Persists q') ∨
      (m'.refs.get? r = none ∧ m.Goes id h (.ref r))
  newSpace : ∀ x s', m'.spaces.get? x = some s' → m.spaces.get? x = none →
    s'.isDerived = true ∧ s'.bases = [] ∧ s'.parent = some id ∧ h.spaces.contains s'.name = true
  newCells : ∀ c d', m'.cells.get? c = some d' → m.cells.get? c = none →
    d'.derived = true ∧ d'.space = id ∧ h.cells.contains d'.name = true
  newRef : ∀ r q', m'.refs.get? r = some q' → m.refs.get? r = none →
    q'.derived = true ∧ q'.owner = some id ∧ h.refs.contains q'.name = true
  roots : m'.roots = m.roots
  globals : m'.globals = m.globals

section Changes

variable {m m' : Model} {id : SpaceId} {h : Heritage}

theorem Alters.refl (m : Model) : Alters id h m m where
  space _ s hs := .inl ⟨s, hs, .refl id h s⟩
  cells _ d hd := .inl ⟨d, hd, .refl d⟩
  ref _ q hq := .inl ⟨q, hq, .refl q⟩
  newSpace _ _ hs' hnone := by
    rw [hnone] at hs'
    contradiction
  newCells _ _ hd' hnone := by
    rw [hnone] at hd'
    contradiction
  newRef _ _ hq' hnone := by
    rw [hnone] at hq'
    contradiction
  roots := rfl
  globals := rfl

/-- A space changes in place. -/
theorem alters_modifySpace {x : SpaceId} {f : Space → Space}
    (hf : ∀ s, m.spaces.get? x = some s → s.Alters id h (f s)) :
    Alters id h m (m.modifySpace x f) := by
  have hget := fun other => Pool.get?_modify m.spaces x other f
  refine { (Alters.refl m : Alters id h m m) with
    space := fun y s hs => .inl ?_
    newSpace := fun y s' hs' hnone => ?_ }
  · by_cases heq : x = y
    · subst heq
      exact ⟨f s, by rw [modifySpace, hget, if_pos rfl, hs, Option.map_some], hf s hs⟩
    · exact ⟨s, by rw [modifySpace, hget, if_neg heq, hs], .refl id h s⟩
  · obtain ⟨s, hs⟩ := live_modifySpace.1 ⟨s', hs'⟩
    rw [hs] at hnone
    contradiction

/-- A child takes the implicit bases that its name has in the heritage. -/
theorem alters_setImplicitBases {c : SpaceId} {t : Space} {sources : List SpaceId}
    (ht : m.spaces.get? c = some t) (hparent : t.parent = some id)
    (hsources : (h.spaces.get? t.name).getD [] = sources) :
    Alters id h m (m.modifySpace c (Space.setImplicitBases fun _ => sources)) := by
  refine alters_modifySpace fun u hu => ?_
  cases ht.symm.trans hu
  refine ⟨t.persists_setImplicitBases _, t.bases_setImplicitBases _, ?_, fun hreplica => ?_⟩
  · cases hstatic : t.isStatic with
    | true =>
      refine .inr ⟨hparent, ?_⟩
      rw [t.implicitBases_setImplicitBases _ hstatic, hsources]
    | false =>
      rw [t.setImplicitBases_of_replica _ hstatic]
      exact .inl rfl
  · rw [t.setImplicitBases_of_replica _ hreplica]

theorem alters_modifyCell {c : CellId} {f : Cells → Cells}
    (hf : ∀ d, m.cells.get? c = some d → d.Persists (f d)) :
    Alters id h m (m.modifyCell c f) := by
  have hget := fun other => Pool.get?_modify m.cells c other f
  refine { (Alters.refl m : Alters id h m m) with
    cells := fun b d hd => .inl ?_
    newCells := fun b d' hd' hnone => ?_ }
  · by_cases heq : c = b
    · subst heq
      exact ⟨f d, by rw [modifyCell, hget, if_pos rfl, hd, Option.map_some], hf d hd⟩
    · exact ⟨d, by rw [modifyCell, hget, if_neg heq, hd], .refl d⟩
  · rw [modifyCell, hget] at hd'
    split at hd'
    next heq =>
      rw [heq, hnone] at hd'
      contradiction
    next =>
      rw [hnone] at hd'
      contradiction

theorem alters_modifyRef {r : RefId} {f : Reference → Reference}
    (hf : ∀ q, m.refs.get? r = some q → q.Persists (f q)) :
    Alters id h m (m.modifyRef r f) := by
  have hget := fun other => Pool.get?_modify m.refs r other f
  refine { (Alters.refl m : Alters id h m m) with
    ref := fun b q hq => .inl ?_
    newRef := fun b q' hq' hnone => ?_ }
  · by_cases heq : r = b
    · subst heq
      exact ⟨f q, by rw [modifyRef, hget, if_pos rfl, hq, Option.map_some], hf q hq⟩
    · exact ⟨q, by rw [modifyRef, hget, if_neg heq, hq], .refl q⟩
  · rw [modifyRef, hget] at hq'
    split at hq'
    next heq =>
      rw [heq, hnone] at hq'
      contradiction
    next =>
      rw [hnone] at hq'
      contradiction

/-- What is new follows the heritage. -/
theorem Joins.alters {e : Entity} (hjoins : Joins e m m') (hnew : m'.Inherited id h e) :
    Alters id h m m' where
  space x s hs := by
    obtain ⟨s', hs', hpersists, hkind⟩ := hjoins.space x s hs
    exact .inl ⟨s', hs', hpersists, Space.bases_congr hkind, .inl (Space.implicitBases_congr hkind),
      fun _ => hkind⟩
  cells c d hd := .inl ⟨d, hjoins.cells c d hd, .refl d⟩
  ref r q hq := .inl ⟨q, hjoins.ref r q hq, .refl q⟩
  newSpace x s' hs' hnone := by
    cases hjoins.newSpace x s' hs' hnone
    exact hnew s' hs'
  newCells c d' hd' hnone := by
    cases hjoins.newCells c d' hd' hnone
    exact hnew d' hd'
  newRef r q' hq' hnone := by
    cases hjoins.newRef r q' hq' hnone
    exact hnew q' hq'
  roots := hjoins.roots
  globals := hjoins.globals

theorem alters_addCells (hm : m.Owned) {c : Cells} {s : Space}
    (small : (m.addCells c).2.Addressable) (hs : m.spaces.get? id = some s) (hspace : c.space = id)
    (hderived : c.derived = true) (hname : h.cells.contains c.name = true) :
    Alters id h m (m.addCells c).2 := by
  subst hspace
  refine (joins_addCells hm small hs).alters fun d hd => ?_
  rw [(addsCells hm.tidy small hs).cells, if_pos rfl] at hd
  cases hd
  exact ⟨hderived, rfl, hname⟩

theorem alters_addRef (hm : m.Owned) {r : Reference} {s : Space}
    (small : (m.addRef r).2.Addressable) (hs : m.spaces.get? id = some s)
    (howner : r.owner = some id) (hderived : r.derived = true)
    (hname : h.refs.contains r.name = true) : Alters id h m (m.addRef r).2 := by
  refine (joins_addRef hm small hs howner).alters fun q hq => ?_
  rw [(refs_addRef hm.tidy small).2, if_pos rfl] at hq
  cases hq
  exact ⟨hderived, howner, hname⟩

theorem alters_addChild (hm : m.Owned) {s t : Space} (small : (m.addChild id t).2.Addressable)
    (hs : m.spaces.get? id = some s) (hparent : t.parent = some id) (hderived : t.isDerived = true)
    (hbases : t.bases = []) (hname : h.spaces.contains t.name = true) :
    Alters id h m (m.addChild id t).2 := by
  refine (joins_addChild hm small hs).alters fun u hu => ?_
  have hadds := addsChild hm.tidy small hs
  rw [hadds.spaces, if_neg, if_pos rfl] at hu
  · cases hu
    exact ⟨hderived, hbases, hparent, hname⟩
  · intro heq
    rw [heq, hadds.fresh] at hs
    contradiction

/-- An unsourced member is taken off its listing and goes. -/
theorem alters_shed {e : Entity} {f : Space → Space} (hunsourced : m.Unsourced id h e)
    (hf : ∀ s : Space, s.Alters id h (f s)) (hsheds : Sheds (m.Within e) (m.modifySpace id f) m')
    (hinputs : KeepsInputs (m.modifySpace id f) m') : Alters id h m m' := by
  have hgoes : ∀ e', m.Within e e' → m.Goes id h e' := fun e' hw => ⟨e, hunsourced, hw⟩
  have hcut := alters_modifySpace (m := m) (x := id) fun s _ => hf s
  refine { roots := hsheds.roots, globals := hsheds.globals, space := fun x s hs => ?_,
           cells := fun c d hd => (hsheds.cells hinputs hd).imp_right (.imp_right (hgoes _)),
           ref := fun r q hq => ?_,
           newSpace := fun x s' hs' hnone => hcut.newSpace x s' (hsheds.space hs') hnone,
           newCells := fun c d' hd' hnone => ?_, newRef := fun r q' hq' hnone => ?_ }
  · rcases hsheds.spaces x with heq | ⟨hw, hgone⟩
    · rcases hcut.space x s hs with ⟨s', hs', halters⟩ | ⟨hgone, hgoes⟩
      · exact .inl ⟨s', heq.trans hs', halters⟩
      · exact .inr ⟨heq.trans hgone, hgoes⟩
    · exact .inr ⟨hgone, hgoes _ hw⟩
  · exact (hsheds.ref r).imp (fun heq => ⟨q, heq.trans hq, .refl q⟩) (.imp_right (hgoes _))
  · obtain ⟨d, hd, -⟩ := hinputs c d' hd'
    exact absurd (hnone.symm.trans hd) (by simp)
  · rcases hsheds.ref r with heq | ⟨hgone, -⟩
    · exact absurd (hnone.symm.trans (heq.symm.trans hq')) (by simp)
    · exact absurd (hq'.symm.trans hgone) (by simp)

end Changes

end Model

end Recalc
