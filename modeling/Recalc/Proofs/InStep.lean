import Recalc.Proofs.MirroredWaves

set_option autoImplicit false

/-!
# Spaces in step with their bases

A static space is in step when each of its derived references agrees with the first base that has
one of the name, and each child of a base is a base of its own child of the name. What a space is in
step with are its outline, the outlines of its bases and of its children, and the references in
them: a change elsewhere leaves it in step.
-/

namespace Recalc

/-- What an heir can find in a static space, and where its own bases are. -/
structure Outline where
  name : String
  parent : Option SpaceId
  bases : List SpaceId
  implicitBases : List SpaceId
  spaces : NameMap SpaceId
  refs : NameMap RefId

def Outline.links (o : Outline) : List SpaceId := o.bases ++ o.implicitBases

def Space.outline (s : Space) : Outline :=
  ⟨s.name, s.parent, s.bases, s.implicitBases, s.spaces, s.refs⟩

/-- A derived reference as deriving would leave it. Nothing is said of the mode in force, which is
copied and never compared. -/
structure Reference.Follows (q source : Reference) : Prop where
  value : (q.value == source.value) = true
  mode : q.mode = source.mode
  origin : q.origin = source.origin

/-- A reference with a name of its own, authored where it is, whose mode in force is possible for
its value and mode. -/
structure Reference.Sound (q : Reference) : Prop where
  name : SystemName.ofString? q.name = none
  origin : q.derived = false → q.origin = q.owner
  space : q.relative = true → ∃ h, q.value = .space h
  absolute : q.mode = .absolute → q.relative = false
  relative : q.mode = .relative → ∀ h, q.value = .space h → q.relative = true

namespace Model

def outline? (m : Model) (id : SpaceId) : Option Outline :=
  match m.spaces.get? id with
  | some s => if s.isStatic then some s.outline else none
  | none => none

def refOf? (m : Model) (id : SpaceId) (name : String) : Option Reference := do
  m.refs.get? (← (← m.spaces.get? id).refs.get? name)

/-- The reference that a space inherits under the name: that of the first effective base that has
one. -/
def sourceOf? (m : Model) (id : SpaceId) (name : String) : Option Reference :=
  (m.allBases id).findSome? (m.refOf? · name)

/-- The derived references of the space agree with their sources, and its children inherit from the
children of its bases. -/
structure InStep (m : Model) (id : SpaceId) : Prop where
  ref : ∀ r q, m.refs.get? r = some q → q.owner = some id → q.derived = true →
    ∃ source, m.sourceOf? id q.name = some source ∧ q.Follows source
  child : ∀ b ∈ m.allBases id, ∀ t name c, m.spaces.get? b = some t →
    t.spaces.get? name = some c → ∃ s d u, m.spaces.get? id = some s ∧
      s.spaces.get? name = some d ∧ m.spaces.get? d = some u ∧ c ∈ u.implicitBases

def LiveBases (m : Model) : Prop :=
  ∀ id o, m.outline? id = some o → ∀ b ∈ o.links, ∃ p, m.outline? b = some p

section Outlines

variable {m : Model} {id : SpaceId} {o : Outline} {s : Space}

theorem outline?_eq_some : m.outline? id = some o ↔
    ∃ s, m.spaces.get? id = some s ∧ s.isStatic = true ∧ s.outline = o := by
  unfold outline?
  cases m.spaces.get? id with
  | none => simp
  | some s => cases hs : s.isStatic <;> simp [hs]

theorem outline?_of_static (hs : m.spaces.get? id = some s) (hstatic : s.isStatic = true) :
    m.outline? id = some s.outline :=
  outline?_eq_some.2 ⟨s, hs, hstatic, rfl⟩

theorem static_iff_outline? : m.Static id ↔ ∃ o, m.outline? id = some o := by
  constructor
  · rintro ⟨s, hs, hstatic⟩
    exact ⟨_, outline?_of_static hs hstatic⟩
  · rintro ⟨o, ho⟩
    obtain ⟨s, hs, hstatic, -⟩ := outline?_eq_some.1 ho
    exact ⟨s, hs, hstatic⟩

/-- A space changes in place. -/
theorem outline?_modifySpace {f : Space → Space} {g : Outline → Outline}
    (hstatic : ∀ s, (f s).isStatic = s.isStatic)
    (hf : ∀ s : Space, s.isStatic = true → (f s).outline = g s.outline) (x : SpaceId) :
    (m.modifySpace id f).outline? x = if id = x then (m.outline? x).map g else m.outline? x := by
  have hget : (m.modifySpace id f).spaces.get? x = _ := Pool.get?_modify m.spaces id x f
  unfold outline?
  rw [hget]
  by_cases heq : id = x
  · subst heq
    rw [if_pos rfl, if_pos rfl]
    cases m.spaces.get? id with
    | none => rfl
    | some s =>
      cases hs : s.isStatic with
      | true => simp [hstatic, hs, hf]
      | false => simp [hstatic, hs]
  · rw [if_neg heq, if_neg heq]

theorem mem_links_of_mem_allBases {b : SpaceId} (ho : m.outline? id = some o)
    (hb : b ∈ m.allBases id) : b ∈ o.links := by
  obtain ⟨s, hs, -, rfl⟩ := outline?_eq_some.1 ho
  obtain ⟨t, ht, hmem, -⟩ := mem_allBases.1 hb
  cases hs.symm.trans ht
  exact hmem

theorem LiveBases.base (hlive : m.LiveBases) (ho : m.outline? id = some o) {b : SpaceId}
    (hb : b ∈ m.allBases id) : ∃ p, m.outline? b = some p :=
  hlive id o ho b (mem_links_of_mem_allBases ho hb)

theorem LiveBases.mem_allBases (hlive : m.LiveBases) (ho : m.outline? id = some o) {b : SpaceId}
    (hb : b ∈ o.links) : b ∈ m.allBases id := by
  obtain ⟨p, hp⟩ := hlive id o ho b hb
  obtain ⟨s, hs, -, rfl⟩ := outline?_eq_some.1 ho
  obtain ⟨t, ht, -, -⟩ := outline?_eq_some.1 hp
  exact Model.mem_allBases.2 ⟨s, hs, hb, Pool.contains_iff.2 ⟨t, ht⟩⟩

/-- With the same links the effective bases are the same. -/
theorem LiveBases.allBases_congr {m' : Model} (hlive : m.LiveBases) (hlive' : m'.LiveBases)
    {o' : Outline} (ho : m.outline? id = some o) (ho' : m'.outline? id = some o')
    (hlinks : o'.links = o.links) : m'.allBases id = m.allBases id := by
  obtain ⟨s, hs, -, rfl⟩ := outline?_eq_some.1 ho
  obtain ⟨s', hs', -, rfl⟩ := outline?_eq_some.1 ho'
  have hcontains : ∀ {m : Model} {o : Outline}, m.LiveBases → m.outline? id = some o →
      ∀ b ∈ o.links, m.spaces.contains b = true := by
    intro m o hlive ho b hb
    obtain ⟨p, hp⟩ := hlive id o ho b hb
    obtain ⟨t, ht, -⟩ := outline?_eq_some.1 hp
    exact Pool.contains_iff.2 ⟨t, ht⟩
  unfold allBases
  rw [hs, hs']
  replace hlinks : s'.bases ++ s'.implicitBases = s.bases ++ s.implicitBases := hlinks
  dsimp only
  rw [hlinks]
  refine List.foldl_ext _ _ _ fun out b hb => ?_
  rw [hcontains hlive ho b hb, hcontains hlive' ho' b]
  rwa [Outline.links, Space.outline, hlinks]

theorem refOf?_eq_some {name : String} {q : Reference} : m.refOf? id name = some q ↔
    ∃ s r, m.spaces.get? id = some s ∧ s.refs.get? name = some r ∧ m.refs.get? r = some q := by
  simp only [refOf?, bind, Option.bind_eq_some_iff]
  grind

end Outlines

end Model

/-! ## Changes elsewhere -/

/-- How the outline of a space changes where the members of some spaces are edited and the bases of
others follow. An implicit base that is still there is lost only by a child of an edited space. -/
structure Outline.Shifts (edited follow : SpaceId → Prop) (m' : Model) (id : SpaceId)
    (o o' : Outline) : Prop where
  name : o'.name = o.name
  parent : o'.parent = o.parent
  members : ¬ edited id → o'.spaces = o.spaces ∧ o'.refs = o.refs
  links : ¬ follow id → o'.bases = o.bases ∧ o'.implicitBases = o.implicitBases
  implicit : (∀ p, o.parent = some p → ¬ edited p) → ∀ c ∈ o.implicitBases,
    (∃ p, m'.outline? c = some p) → c ∈ o'.implicitBases

namespace Model

/-- The members of some static spaces are edited, and the bases of others follow; those may be new.
Nothing is said of replicas. -/
structure Reshapes (edited follow : SpaceId → Prop) (m m' : Model) : Prop where
  ref : ∀ r q x, m'.refs.get? r = some q → q.owner = some x → ¬ edited x → m.refs.get? r = some q
  outline : ∀ x o', m'.outline? x = some o' → (m.outline? x = none ∧ follow x) ∨
    ∃ o, m.outline? x = some o ∧ o.Shifts edited follow m' x o'

section Reshaping

variable {m m' : Model} {edited follow : SpaceId → Prop} {id : SpaceId} {o o' : Outline}

/-- A space that is not edited lists the references that it listed. -/
theorem Reshapes.refOf? (h : Reshapes edited follow m m') (hm' : m'.Owned)
    (ho : m.outline? id = some o) (ho' : m'.outline? id = some o') (hnot : ¬ edited id)
    (name : String) : m'.refOf? id name = m.refOf? id name := by
  obtain ⟨s, hs, -, rfl⟩ := outline?_eq_some.1 ho
  obtain ⟨s', hs', -, rfl⟩ := outline?_eq_some.1 ho'
  have hrefs : s'.refs = s.refs := by
    rcases h.outline id _ ho' with ⟨hnone, -⟩ | ⟨o, hold, hshifts⟩
    · rw [ho] at hnone
      contradiction
    · cases ho.symm.trans hold
      exact (hshifts.members hnot).2
  simp only [Model.refOf?, hs, hs', hrefs, Option.bind_eq_bind, Option.bind_some]
  cases hr : s.refs.get? name with
  | none => rfl
  | some r =>
    obtain ⟨q, hq, howner, -⟩ := hm'.ref_of_listed hs' (hrefs ▸ hr)
    exact hq.trans (h.ref r q id hq howner hnot).symm

variable (hm : m.Owned) (hm' : m'.Owned) (hlive : m.LiveBases) (hlive' : m'.LiveBases)
  (h : Reshapes edited follow m m')
include hm hm' hlive hlive' h

/-- A space that is neither edited nor follows, and inherits from no edited space, stays in step. -/
theorem InStep.reshape (hstep : m.InStep id) (ho' : m'.outline? id = some o')
    (hedited : ¬ edited id) (hfollow : ¬ follow id) (hbases : ∀ b ∈ o'.links, ¬ edited b) : m'.InStep id := by
  obtain ⟨o, ho, hshifts⟩ := (h.outline id o' ho').resolve_left fun hnew => hfollow hnew.2
  have hlinks : o'.links = o.links := by
    rw [Outline.links, (hshifts.links hfollow).1, (hshifts.links hfollow).2, Outline.links]
  have hall : m'.allBases id = m.allBases id := hlive.allBases_congr hlive' ho ho' hlinks
  have hsource : ∀ b ∈ m.allBases id, ∃ p p', m.outline? b = some p ∧ m'.outline? b = some p' ∧
      p'.spaces = p.spaces ∧ ¬ edited b := by
    intro b hb
    obtain ⟨p, hp⟩ := hlive.base ho hb
    obtain ⟨p', hp'⟩ := hlive'.base ho' (hall ▸ hb)
    have hnot := hbases b (mem_links_of_mem_allBases ho' (hall ▸ hb))
    refine ⟨p, p', hp, hp', ?_, hnot⟩
    rcases h.outline b p' hp' with ⟨hnone, -⟩ | ⟨p₁, hp₁, hkept⟩
    · rw [hp] at hnone
      contradiction
    · cases hp.symm.trans hp₁
      exact (hkept.members hnot).1
  refine ⟨fun r q hq howner hderived => ?_, fun b hb t' name c ht' hc => ?_⟩
  · obtain ⟨source, hfind, hfollows⟩ :=
      hstep.ref r q (h.ref r q id hq howner hedited) howner hderived
    refine ⟨source, ?_, hfollows⟩
    rw [← hfind, sourceOf?, sourceOf?, hall, ← List.head?_filterMap, ← List.head?_filterMap]
    refine congrArg List.head? (List.filterMap_congr fun b hb => ?_)
    obtain ⟨p, p', hp, hp', -, hnot⟩ := hsource b hb
    exact h.refOf? hm' hp hp' hnot q.name
  · rw [hall] at hb
    obtain ⟨p, p', hp, hp', hspaces, -⟩ := hsource b hb
    obtain ⟨t, ht, -, rfl⟩ := outline?_eq_some.1 hp
    obtain ⟨u', hu', hstatic, rfl⟩ := outline?_eq_some.1 hp'
    cases ht'.symm.trans hu'
    rw [show t'.spaces = t.spaces from hspaces] at hc
    obtain ⟨s, d, u, hs, hd, hu, hmem⟩ := hstep.child b hb t name c ht hc
    obtain ⟨s₁, hs₁, hself, rfl⟩ := outline?_eq_some.1 ho
    cases hs.symm.trans hs₁
    obtain ⟨s', hs', hself', rfl⟩ := outline?_eq_some.1 ho'
    have hd' : s'.spaces.get? name = some d := by
      rw [show s'.spaces = s.spaces from (hshifts.members hedited).1, hd]
    obtain ⟨v, hv, hvstatic, hparent, -⟩ := hm.static_of_listed hs hself hd
    cases hu.symm.trans hv
    obtain ⟨u', hu', hustatic, -⟩ := hm'.static_of_listed hs' hself' hd'
    obtain ⟨w, hw, hwstatic, -⟩ := hm'.static_of_listed ht' hstatic
      (by rw [show t'.spaces = t.spaces from hspaces, hc])
    refine ⟨s', d, u', hs', hd', hu', ?_⟩
    -- the child of the heir was there before, and the child of the base still is
    rcases h.outline d _ (outline?_of_static hu' hustatic) with ⟨hnone, -⟩ | ⟨p₁, hold, hkept⟩
    · rw [outline?_of_static hu hvstatic] at hnone
      contradiction
    · cases hold.symm.trans (outline?_of_static hu hvstatic)
      refine hkept.implicit (fun p hp => ?_) c hmem ⟨_, outline?_of_static hw hwstatic⟩
      cases hparent.symm.trans hp
      exact hedited

end Reshaping

def SoundRefs (m : Model) : Prop :=
  ∀ r q x, m.refs.get? r = some q → q.owner = some x → q.Sound

/-- Bases are there, references are sound, and every static space is in step but those that are
pending. -/
structure InStepBut (pending : SpaceId → Prop) (m : Model) : Prop where
  live : m.LiveBases
  sound : m.SoundRefs
  step : ∀ x, m.Static x → ¬ pending x → m.InStep x

theorem InStepBut.mono {pending pending' : SpaceId → Prop} {m : Model} (h : InStepBut pending m)
    (hmono : ∀ x, m.Static x → pending x → pending' x) : InStepBut pending' m :=
  { h with step := fun x hx hnot => h.step x hx fun hp => hnot (hmono x hx hp) }

/-- After a change the spaces that were edited or follow are pending, and the heirs of the edited
ones. -/
theorem InStepBut.reshape {pending edited follow : SpaceId → Prop} {m m' : Model}
    (h : InStepBut pending m) (hm : m.Owned) (hm' : m'.Owned)
    (hreshapes : Reshapes edited follow m m') (live : m'.LiveBases)
    (sound : m'.SoundRefs) :
    InStepBut (fun x => pending x ∨ edited x ∨ follow x ∨
      ∃ o, m'.outline? x = some o ∧ ∃ b ∈ o.links, edited b) m' := by
  refine ⟨live, sound, fun x hx hnot => ?_⟩
  simp only [not_or, not_exists, not_and] at hnot
  obtain ⟨hpending, hedited, hfollow, hbases⟩ := hnot
  obtain ⟨o', ho'⟩ := static_iff_outline?.1 hx
  obtain ⟨o, ho, -⟩ := (hreshapes.outline x o' ho').resolve_left fun hnew => hfollow hnew.2
  have hstep := h.step x (static_iff_outline?.2 ⟨o, ho⟩) hpending
  exact InStep.reshape hm hm' h.live live hreshapes hstep ho' hedited hfollow (hbases o' ho')

/-! ## Changes that heirs cannot see -/

/-- Static spaces keep their outlines, and references may only go. -/
structure SameShape (m m' : Model) : Prop where
  outline : ∀ x, m'.outline? x = m.outline? x
  ref : ∀ r q, m'.refs.get? r = some q → (∃ x, q.owner = some x) → m.refs.get? r = some q

instance : Action.Frame SameShape where
  refl _ := ⟨fun _ => rfl, fun _ _ hq _ => hq⟩
  trans h h' := ⟨fun x => (h'.outline x).trans (h.outline x),
    fun r q hq howner => h.ref r q (h'.ref r q hq howner) howner⟩

section Shapes

variable {m m' : Model} {edited follow pending : SpaceId → Prop}

theorem SameShape.live (h : SameShape m m') (hlive : m.LiveBases) : m'.LiveBases := by
  intro id o ho b hb
  rw [h.outline] at ho ⊢
  exact hlive id o ho b hb

theorem SameShape.reshapes (h : SameShape m m') : Reshapes edited follow m m' where
  ref r q x hq howner _ := h.ref r q hq ⟨x, howner⟩
  outline x o' ho' := by
    rw [h.outline] at ho'
    exact .inr ⟨o', ho', rfl, rfl, fun _ => ⟨rfl, rfl⟩, fun _ => ⟨rfl, rfl⟩, fun _ _ hc _ => hc⟩

theorem InStepBut.sameShape (h : InStepBut pending m) (hm : m.Owned) (hm' : m'.Owned)
    (hsame : SameShape m m') : InStepBut pending m' := by
  have hreshapes : Reshapes (fun _ => False) (fun _ => False) m m' := hsame.reshapes
  have hafter := h.reshape hm hm' hreshapes (hsame.live h.live)
    fun r q x hq howner => h.sound r q x (hsame.ref r q hq ⟨x, howner⟩) howner
  exact hafter.mono fun x _ hx => by simpa using hx

theorem Alike.sameShape (h : Alike m m') : SameShape m m' :=
  ⟨fun x => by rw [outline?, outline?, h.spaces], fun r q hq _ => by rwa [h.refs] at hq⟩

theorem Drops.sameShape (h : Drops m m') : SameShape m m' := by
  refine ⟨fun x => ?_, fun r q hq _ => h.refs r q hq⟩
  unfold outline?
  cases hs : m.spaces.get? x with
  | none =>
    cases hs' : m'.spaces.get? x with
    | none => rfl
    | some s' =>
      obtain ⟨s, hold, -⟩ := h.space x s' hs'
      rw [hs] at hold
      contradiction
  | some s =>
    cases hstatic : s.isStatic with
    | true =>
      obtain ⟨s', hs', heq⟩ := h.static' hs hstatic
      rw [hs', heq]
      rfl
    | false =>
      cases hs' : m'.spaces.get? x with
      | none => simp [hstatic]
      | some s' =>
        obtain ⟨t, hold, heq, -⟩ := h.space x s' hs'
        cases hs.symm.trans hold
        have hkind : s'.isStatic = s.isStatic := by rw [heq]; rfl
        simp [hkind, hstatic]

/-- A space changes in place, and not in what heirs see. -/
theorem sameShape_modifySpace {id : SpaceId} {f : Space → Space}
    (hstatic : ∀ s, (f s).isStatic = s.isStatic) (hf : ∀ s, (f s).outline = s.outline) :
    SameShape m (m.modifySpace id f) := by
  refine ⟨fun x => ?_, fun r q hq _ => hq⟩
  rw [outline?_modifySpace (g := fun o => o) hstatic fun s _ => hf s, Option.map_id', ite_self]

theorem sameShape_of_spaces (hspaces : m'.spaces = m.spaces) (hrefs : m'.refs = m.refs) :
    SameShape m m' :=
  ⟨fun x => by rw [outline?, outline?, hspaces], fun r q hq _ => by rwa [hrefs] at hq⟩

theorem sameShape_addCells {c : Cells} : SameShape m (m.addCells c).2 := by
  have hmodify : SameShape { m with cells := (m.cells.insert c).2 } (m.addCells c).2 :=
    sameShape_modifySpace (fun _ => rfl) fun _ => rfl
  exact ⟨hmodify.outline, hmodify.ref⟩

theorem sameShape_modifyCell (c : CellId) (f : Cells → Cells) : SameShape m (m.modifyCell c f) :=
  sameShape_of_spaces rfl rfl

theorem sameShape_dropCells {id : SpaceId} (name : String) (c : CellId) : SameShape m
    ((m.modifySpace id fun s => { s with cells := s.cells.erase name }).destroyCells c) := by
  have hcut : SameShape m (m.modifySpace id fun s => { s with cells := s.cells.erase name }) :=
    sameShape_modifySpace (fun _ => rfl) fun _ => rfl
  exact Action.Frame.trans hcut
    (sameShape_of_spaces (spaces_destroyCells _ c) (refs_destroyCells _ c))

end Shapes

/-! ## Members of one space -/

/-- The references and children of one space change, and static spaces may come, of which `fresh`
holds, or go. Bases stay as they are. -/
structure Amends (id : SpaceId) (fresh : SpaceId → Outline → Prop) (m m' : Model) : Prop where
  ref : ∀ r q, m'.refs.get? r = some q → q.owner ≠ some id → m.refs.get? r = some q
  outline : ∀ x o', m'.outline? x = some o' → (m.outline? x = none ∧ fresh x o') ∨
    ∃ o, m.outline? x = some o ∧ o' = { o with spaces := o'.spaces, refs := o'.refs } ∧
      (x ≠ id → o' = o)

def DropsRefs (m m' : Model) : Prop := ∀ r q, m'.refs.get? r = some q → m.refs.get? r = some q

instance : Action.Frame DropsRefs where
  refl _ _ _ hq := hq
  trans h h' r q hq := h r q (h' r q hq)

def Stays (m m' : Model) : Prop := ∀ x, m.Static x → m'.Static x

instance : Action.Frame Stays where
  refl _ _ hx := hx
  trans h h' x hx := h' x (h x hx)

section Amending

variable {m m' m'' : Model} {id : SpaceId} {fresh : SpaceId → Outline → Prop} {s : Space}

theorem stays_of_outline (h : ∀ x o, m.outline? x = some o → ∃ o', m'.outline? x = some o') :
    Stays m m' := by
  intro x hx
  obtain ⟨o, ho⟩ := static_iff_outline?.1 hx
  exact static_iff_outline?.2 (h x o ho)

theorem SameShape.stays (h : SameShape m m') : Stays m m' :=
  stays_of_outline fun x o ho => ⟨o, (h.outline x).trans ho⟩

theorem Amends.alike (h : Amends id fresh m m') (halike : Alike m' m'') :
    Amends id fresh m m'' where
  ref r q hq howner := h.ref r q (by rwa [halike.refs] at hq) howner
  outline x o' ho' := h.outline x o' (by rwa [halike.sameShape.outline] at ho')

theorem DropsRefs.sound (h : DropsRefs m m') (hsound : m.SoundRefs) : m'.SoundRefs :=
  fun r q x hq howner => hsound r q x (h r q hq) howner

theorem Alike.dropsRefs (h : Alike m m') : DropsRefs m m' := by
  intro r q hq
  rwa [h.refs] at hq

theorem Sheds.dropsRefs {W : Entity → Prop} (h : Sheds W m m') : DropsRefs m m' := by
  intro r q hq
  rcases h.ref r with heq | ⟨hgone, -⟩
  · exact heq.symm.trans hq
  · rw [hgone] at hq
    contradiction

theorem amends_of_sameShape (h : SameShape m m') (href : DropsRefs m m') :
    Amends id (fun _ _ => False) m m' :=
  ⟨fun r q hq _ => href r q hq, fun x o' ho' => .inr ⟨o', (h.outline x).symm.trans ho', rfl,
    fun _ => rfl⟩⟩

theorem Amends.reshapes (h : Amends id fresh m m') :
    Reshapes (· = id) (fun x => ∃ o, fresh x o) m m' where
  ref r q x hq howner hnot := by
    refine h.ref r q hq ?_
    rw [howner]
    exact fun heq => hnot (Option.some.inj heq)
  outline x o' ho' := by
    rcases h.outline x o' ho' with ⟨hnone, hfresh⟩ | ⟨o, ho, heq, hsame⟩
    · exact .inl ⟨hnone, o', hfresh⟩
    · refine .inr ⟨o, ho, ?_, ?_, fun hnot => ?_, fun _ => ⟨?_, ?_⟩, fun _ c hc _ => ?_⟩
      · rw [heq]
      · rw [heq]
      · rw [hsame hnot]
        exact ⟨rfl, rfl⟩
      · rw [heq]
      · rw [heq]
      · rw [heq]
        exact hc

/-- Bases stay there when no static space goes. -/
theorem Amends.live (h : Amends id fresh m m') (hstays : Stays m m') (hlive : m.LiveBases)
    (hfresh : ∀ x o, fresh x o → ∀ b ∈ o.links, m'.Static b) : m'.LiveBases := by
  intro x o' ho' b hb
  refine static_iff_outline?.1 ?_
  rcases h.outline x o' ho' with ⟨-, hnew⟩ | ⟨o, ho, heq, -⟩
  · exact hfresh x o' hnew b hb
  · rw [heq] at hb
    exact hstays b (static_iff_outline?.2 (hlive x o ho b hb))

theorem amends_addRef (hm : m.Owned) {r : Reference} (small : (m.addRef r).2.Addressable)
    (howner : r.owner = some id) :
    Amends id (fun _ _ => False) m (m.addRef r).2 ∧ Stays m (m.addRef r).2 := by
  have houtline : ∀ x, (m.addRef r).2.outline? x = if id = x then (m.outline? x).map fun o =>
      { o with refs := o.refs.insert r.name (m.addRef r).1 } else m.outline? x := by
    intro x
    rw [addRef_of_owner m howner]
    exact outline?_modifySpace (m := { m with refs := (m.refs.insert r).2 })
      (f := fun s => { s with refs := s.refs.insert r.name (m.refs.insert r).1 })
      (g := fun o => { o with refs := o.refs.insert r.name (m.refs.insert r).1 })
      (fun _ => rfl) (fun _ _ => rfl) x
  refine ⟨⟨fun b q hq hnot => ?_, fun x o' ho' => ?_⟩, stays_of_outline fun x o ho => ?_⟩
  · rw [(refs_addRef hm.tidy small).2] at hq
    split at hq
    next =>
      cases hq
      exact absurd howner hnot
    next => exact hq
  · rw [houtline] at ho'
    split at ho'
    next heq =>
      obtain ⟨o, ho, rfl⟩ := Option.map_eq_some_iff.1 ho'
      exact .inr ⟨o, ho, rfl, fun hne => absurd heq.symm hne⟩
    next => exact .inr ⟨o', ho', rfl, fun _ => rfl⟩
  · rw [houtline, ho]
    split <;> exact ⟨_, rfl⟩

theorem amends_modifyRef {r : RefId} {f : Reference → Reference}
    (hf : ∀ q, m.refs.get? r = some q → (f q).owner = some id) :
    Amends id (fun _ _ => False) m (m.modifyRef r f) := by
  refine ⟨fun b q hq hnot => ?_, fun x o' ho' => .inr ⟨o', ho', rfl, fun _ => rfl⟩⟩
  have hget := Pool.get?_modify m.refs r b f
  rw [modifyRef, hget] at hq
  split at hq
  next heq =>
    obtain ⟨q₀, hq₀, rfl⟩ := Option.map_eq_some_iff.1 hq
    exact absurd (hf q₀ hq₀) hnot
  next => exact hq

theorem stays_modifyRef (r : RefId) (f : Reference → Reference) : Stays m (m.modifyRef r f) :=
  fun _ hx => hx

theorem outline?_eraseRef (name : String) (x : SpaceId) :
    (m.modifySpace id fun s => { s with refs := s.refs.erase name }).outline? x =
      if id = x then (m.outline? x).map fun o => { o with refs := o.refs.erase name }
      else m.outline? x :=
  outline?_modifySpace (f := fun s => { s with refs := s.refs.erase name })
    (g := fun o => { o with refs := o.refs.erase name }) (fun _ => rfl) (fun _ _ => rfl) x

theorem dropsRefs_dropRef (name : String) (r : RefId) : DropsRefs m
    ((m.modifySpace id fun s => { s with refs := s.refs.erase name }).destroyReference r) :=
  (sheds_destroyReference (W := fun _ => True)
    (m.modifySpace id fun s => { s with refs := s.refs.erase name }) r trivial).dropsRefs

theorem amends_dropRef (name : String) (r : RefId) : Amends id (fun _ _ => False) m
    ((m.modifySpace id fun s => { s with refs := s.refs.erase name }).destroyReference r) := by
  refine ⟨fun b q hq _ => dropsRefs_dropRef name r b q hq, fun x o' ho' => ?_⟩
  rw [outline?, spaces_destroyReference, ← outline?, outline?_eraseRef] at ho'
  split at ho'
  next heq =>
    obtain ⟨o, ho, rfl⟩ := Option.map_eq_some_iff.1 ho'
    exact .inr ⟨o, ho, rfl, fun hne => absurd heq.symm hne⟩
  next => exact .inr ⟨o', ho', rfl, fun _ => rfl⟩

theorem stays_dropRef (name : String) (r : RefId) : Stays m
    ((m.modifySpace id fun s => { s with refs := s.refs.erase name }).destroyReference r) := by
  refine stays_of_outline fun x o ho => ?_
  rw [outline?, spaces_destroyReference, ← outline?, outline?_eraseRef, ho]
  split <;> exact ⟨_, rfl⟩

theorem outline?_addChild (hm : m.Owned) {t : Space} (small : (m.addChild id t).2.Addressable)
    (hs : m.spaces.get? id = some s) (hstatic : t.isStatic = true) (x : SpaceId) :
    (m.addChild id t).2.outline? x = if id = x then
      (m.outline? x).map fun o => { o with spaces := o.spaces.insert t.name (m.addChild id t).1 }
      else if (m.addChild id t).1 = x then some t.outline else m.outline? x := by
  have hadds := addsChild hm.tidy small hs
  unfold outline?
  rw [hadds.spaces]
  by_cases heq : id = x
  · subst heq
    rw [if_pos rfl, if_pos rfl, hs]
    have hself : ∀ spaces, ({ s with spaces } : Space).isStatic = s.isStatic := fun _ => rfl
    cases hkind : s.isStatic with
    | true =>
      simp only [hself, hkind, if_true, Option.map_some]
      rfl
    | false => simp [hself, hkind]
  · rw [if_neg heq, if_neg heq]
    by_cases hnew : (m.addChild id t).1 = x
    · rw [if_pos hnew, if_pos hnew]
      simp only [hstatic, if_true]
    · rw [if_neg hnew, if_neg hnew]

theorem outline?_newChild (hm : m.Owned) {t : Space} (small : (m.addChild id t).2.Addressable)
    (hs : m.spaces.get? id = some s) (hstatic : t.isStatic = true) :
    (m.addChild id t).2.outline? (m.addChild id t).1 = some t.outline := by
  rw [outline?_addChild hm small hs hstatic, if_neg ?_, if_pos rfl]
  intro heq
  have hfresh := (addsChild hm.tidy small hs).fresh
  rw [← heq, hs] at hfresh
  contradiction

theorem amends_addChild (hm : m.Owned) {t : Space} (small : (m.addChild id t).2.Addressable)
    (hs : m.spaces.get? id = some s) (hstatic : t.isStatic = true) : Amends id
      (fun x o => x = (m.addChild id t).1 ∧ o = t.outline) m (m.addChild id t).2 ∧
    Stays m (m.addChild id t).2 := by
  have hadds := addsChild hm.tidy small hs
  have houtline := outline?_addChild hm small hs hstatic
  have hfresh : m.outline? (m.addChild id t).1 = none := by rw [outline?, hadds.fresh]
  refine ⟨⟨fun b q hq _ => by rwa [hadds.refs] at hq, fun x o' ho' => ?_⟩,
    stays_of_outline fun x o ho => ?_⟩
  · rw [houtline] at ho'
    split at ho'
    next heq =>
      obtain ⟨o, ho, rfl⟩ := Option.map_eq_some_iff.1 ho'
      exact .inr ⟨o, ho, rfl, fun hne => absurd heq.symm hne⟩
    next =>
      split at ho'
      next heq =>
        cases ho'
        exact .inl ⟨heq ▸ hfresh, heq.symm, rfl⟩
      next => exact .inr ⟨o', ho', rfl, fun _ => rfl⟩
  · rw [houtline, ho]
    split
    · exact ⟨_, rfl⟩
    · split
      · exact ⟨_, rfl⟩
      · exact ⟨o, rfl⟩

theorem outline?_eraseChild (name : String) (x : SpaceId) :
    (m.modifySpace id fun s => { s with spaces := s.spaces.erase name }).outline? x =
      if id = x then (m.outline? x).map fun o => { o with spaces := o.spaces.erase name }
      else m.outline? x :=
  outline?_modifySpace (f := fun s => { s with spaces := s.spaces.erase name })
    (g := fun o => { o with spaces := o.spaces.erase name }) (fun _ => rfl) (fun _ _ => rfl) x

theorem sheds_dropChild (name : String) (c : SpaceId) : Sheds (fun _ => True)
    (m.modifySpace id fun s => { s with spaces := s.spaces.erase name })
    ((m.modifySpace id fun s => { s with spaces := s.spaces.erase name }).destroySpace c) :=
  sheds_destroySpace trivial (closed_univ _)

theorem dropsRefs_dropChild (name : String) (c : SpaceId) : DropsRefs m
    ((m.modifySpace id fun s => { s with spaces := s.spaces.erase name }).destroySpace c) :=
  (sheds_dropChild name c).dropsRefs

theorem amends_dropChild (name : String) (c : SpaceId) : Amends id (fun _ _ => False) m
    ((m.modifySpace id fun s => { s with spaces := s.spaces.erase name }).destroySpace c) := by
  refine ⟨fun b q hq _ => dropsRefs_dropChild name c b q hq, fun x o' ho' => ?_⟩
  obtain ⟨u, hu, hstatic, rfl⟩ := outline?_eq_some.1 ho'
  have hbefore := outline?_of_static ((sheds_dropChild name c).space hu) hstatic
  rw [outline?_eraseChild] at hbefore
  split at hbefore
  next heq =>
    obtain ⟨o, ho, heq'⟩ := Option.map_eq_some_iff.1 hbefore
    refine .inr ⟨o, ho, ?_, fun hne => absurd heq.symm hne⟩
    rw [← heq']
  next => exact .inr ⟨u.outline, hbefore, rfl, fun _ => rfl⟩

end Amending

end Model

end Recalc
