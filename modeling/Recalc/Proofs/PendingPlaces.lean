import Recalc.Proofs.Enriching
import Recalc.Proofs.OwnedNames
import Recalc.Proofs.Substituted

set_option autoImplicit false

/-!
# Children that are still to be made

A child of a replica is made when it is first asked for. Before that it is a place, the way to it
from the last space that is there. The way goes through the counterpart, and if it does not break
off there then the space is made, with the name that the place promised. Walks through what is there
stay as they were when more children are made.
-/

namespace Recalc

theorem Space.Extends.name {s s' : Space} (h : s.Extends s') : s'.name = s.name := by rw [h.same]

theorem Space.Extends.parent {s s' : Space} (h : s.Extends s') : s'.parent = s.parent := by
  rw [h.same]

theorem Space.Extends.cells {s s' : Space} (h : s.Extends s') : s'.cells = s.cells := by
  rw [h.same]

theorem Space.Extends.refs {s s' : Space} (h : s.Extends s') : s'.refs = s.refs := by rw [h.same]

theorem Space.Extends.signature {s s' : Space} (h : s.Extends s') : s'.signature = s.signature := by
  rw [h.same]

namespace Model

open Recalc.Action

variable {m m' : Model} {id : SpaceId} {s : Space}

/-! ## Walks -/

section Walks

variable {sites sites' : SpaceId → Prop} (h : Enriches m m') (hm : m.Faithful sites)
  (hm' : m'.Faithful sites')

include h in
theorem Enriches.counterpart (hs : m.spaces.get? id = some s) :
    m'.counterpart id = m.counterpart id := by
  obtain ⟨s', hs', hext⟩ := h.spaces id s hs
  simp only [Model.counterpart, space_eq_ok.2 hs, space_eq_ok.2 hs', hext.kind, bind, Except.bind]

include h in
theorem Enriches.instanceRoot? (hs : m.spaces.get? id = some s) :
    m'.instanceRoot? id = m.instanceRoot? id := by
  obtain ⟨s', hs', hext⟩ := h.spaces id s hs
  simp only [Model.instanceRoot?, hs, hs', hext.kind]

include h hm

theorem Enriches.climb (count : Nat) (hs : m.spaces.get? id = some s) :
    m'.climb count id = m.climb count id := by
  induction count generalizing id s with
  | zero => rfl
  | succ count ih =>
    obtain ⟨s', hs', hext⟩ := h.spaces id s hs
    simp only [Model.climb, space_eq_ok.2 hs, space_eq_ok.2 hs', hext.parent, bind, Except.bind]
    cases hp : s.parent with
    | none => rfl
    | some p =>
      obtain ⟨q, hq⟩ := hm.owned.live_of_above hm.arranged.beside ⟨s, hs, .inl hp⟩
      exact ih hq

include hm'

theorem Enriches.ancestry (hs : m.spaces.get? id = some s) : m'.ancestry id = m.ancestry id := by
  have key : ∀ fuel id s, m.spaces.get? id = some s →
      m'.ancestryFrom fuel id = m.ancestryFrom fuel id := by
    intro fuel
    induction fuel with
    | zero => intros; rfl
    | succ fuel ih =>
      intro id s hs
      obtain ⟨s', hs', hext⟩ := h.spaces id s hs
      rw [ancestryFrom_succ hs, ancestryFrom_succ hs', hext.parent]
      cases hp : s.parent with
      | none => rfl
      | some p =>
        obtain ⟨q, hq⟩ := hm.owned.live_of_above hm.arranged.beside ⟨s, hs, .inl hp⟩
        exact congrArg _ (ih p q hq)
  rw [← hm'.owned.ancestry_ends hm'.arranged.beside (Nat.le_max_left _ m.spaces.capacity),
    key _ id s hs, hm.owned.ancestry_ends hm.arranged.beside (Nat.le_max_right _ _)]

theorem Enriches.dottedName (hs : m.spaces.get? id = some s) :
    m'.dottedName id = m.dottedName id := by
  have key : ∀ fuel id s, m.spaces.get? id = some s →
      m'.dottedNameFrom fuel id = m.dottedNameFrom fuel id := by
    intro fuel
    induction fuel with
    | zero => intros; rfl
    | succ fuel ih =>
      intro id s hs
      obtain ⟨s', hs', hext⟩ := h.spaces id s hs
      have hrest : ∀ p, m.Above p id → m'.dottedNameFrom fuel p = m.dottedNameFrom fuel p := by
        intro p ha
        obtain ⟨q, hq⟩ := hm.owned.live_of_above hm.arranged.beside ha
        exact ih p q hq
      simp only [dottedNameFrom, hs, hs', hext.kind, hext.parent, hext.name]
      split
      next owner c args enclosing hk => rw [hrest owner ⟨s, hs, .inr ⟨_, _, _, hk⟩⟩]
      next =>
        cases hp : s.parent with
        | none => rfl
        | some p => exact congrArg (· ++ "." ++ s.name) (hrest p ⟨s, hs, .inl hp⟩)
  rw [← hm'.owned.dottedName_ends hm'.arranged.beside (Nat.le_max_left _ m.spaces.capacity),
    key _ id s hs, hm.owned.dottedName_ends hm.arranged.beside (Nat.le_max_right _ _)]

theorem Enriches.boundArgument (name : String) (hs : m.spaces.get? id = some s) :
    m'.boundArgument id name = m.boundArgument id name := by
  have key : ∀ fuel id s, m.spaces.get? id = some s →
      m'.boundArgumentFrom name fuel (m.instanceRoot? id) =
        m.boundArgumentFrom name fuel (m.instanceRoot? id) := by
    intro fuel
    induction fuel with
    | zero => intros; rfl
    | succ fuel ih =>
      intro id s hs
      cases hroot : m.instanceRoot? id with
      | none => rfl
      | some root =>
        obtain ⟨t, owner, c, args, around, ht, hk⟩ := hm.instanceRoot hs hroot
        obtain ⟨t', ht', hext⟩ := h.spaces root t ht
        obtain ⟨source, hsource, -⟩ := hm.counterpart ht (counterpart_of_item ht hk)
        obtain ⟨source', hsource', hext'⟩ := h.spaces c source hsource
        obtain ⟨q, hq, -⟩ := hm.owned.item_holder ht hk
        simp only [boundArgumentFrom, space_eq_ok.2 ht, space_eq_ok.2 ht', hext.kind, hk,
          space_eq_ok.2 hsource, space_eq_ok.2 hsource', hext'.signature, h.instanceRoot? hq,
          ih owner q hq, bind, Except.bind]
  rw [← hm'.boundArgument_ends name (Nat.le_max_left _ m.spaces.capacity), h.instanceRoot? hs,
    key _ id s hs, hm.boundArgument_ends name (Nat.le_max_right _ _)]

end Walks

/-! ## Ways -/

def nameBelow (name : String) (path : List String) : String :=
  path.foldl (fun name child => name ++ "." ++ child) name

def endOf (m : Model) : List String → SpaceId → Option SpaceId
  | [], id => some id
  | name :: rest, id => do m.endOf rest (← (← m.spaces.get? id).spaces.get? name)

theorem endOf_cons {name : String} {rest : List String} {x : SpaceId} :
    m.endOf (name :: rest) id = some x ↔ ∃ s child, m.spaces.get? id = some s ∧
      s.spaces.get? name = some child ∧ m.endOf rest child = some x := by
  simp only [endOf, bind, Option.bind_eq_some_iff]
  constructor
  · rintro ⟨s, hs, child, hchild, hrest⟩
    exact ⟨s, child, hs, hchild, hrest⟩
  · rintro ⟨s, child, hs, hchild, hrest⟩
    exact ⟨s, hs, child, hchild, hrest⟩

/-- What is to be made is there in the counterpart. -/
def WholePlace (m : Model) : Place → Prop
  | .existing _ => True
  | .pending start path => ∃ c x, m.counterpart start = .ok c ∧ m.endOf path c = some x

theorem wholePlace_pending {start : SpaceId} {path : List String} :
    m.WholePlace (.pending start path) ↔
      ∃ c ∈ (m.counterpart start).toOption, (m.endOf path c).isSome := by
  simp only [WholePlace, Option.mem_def, toOption_eq_some, Option.isSome_iff_exists,
    exists_and_left]

instance (m : Model) : (place : Place) → Decidable (m.WholePlace place)
  | .existing _ => .isTrue trivial
  | .pending _ _ => decidable_of_iff _ wholePlace_pending.symm

def Embodies (m : Model) (name : String) (c id : SpaceId) : Prop :=
  m.spaces.contains id = true ∧ m.counterpart id = .ok c ∧ m.dottedName id = name

def Promises (m : Model) (name : String) (c : SpaceId) : Place → Prop
  | .existing id => m.Embodies name c id
  | .pending start path => ∃ s d, m.spaces.get? start = some s ∧ s.isStatic = false ∧
      m.counterpart start = .ok d ∧ m.endOf path d = some c ∧
        nameBelow (m.dottedName start) path = name

theorem exists_counterpart (hs : m.spaces.get? id = some s) : ∃ c, m.counterpart id = .ok c := by
  unfold counterpart
  rw [space_eq_ok.2 hs]
  exact ⟨_, rfl⟩

theorem descend_of_child {name : String} {rest : List String} {child : SpaceId}
    (hs : m.spaces.get? id = some s) (hchild : s.spaces.get? name = some child) :
    m.descend (name :: rest) id = m.descend rest child := by
  rw [descend, space_eq_ok.2 hs]
  simp only [bind, Except.bind, hchild]

/-- What a replica without a child of the name has to go on from its counterpart. -/
theorem descend_of_replica {name : String} {rest : List String} {c : SpaceId} {source : Space}
    (hs : m.spaces.get? id = some s) (hchild : s.spaces.get? name = none)
    (hreplica : s.isStatic = false) (hc : m.counterpart id = .ok c)
    (hsource : m.spaces.get? c = some source) : m.descend (name :: rest) id =
      .ok (if source.spaces.contains name then some (.pending id (name :: rest)) else none) := by
  rw [descend, space_eq_ok.2 hs]
  simp only [bind, Except.bind, hchild, hreplica, hc, space_eq_ok.2 hsource]
  rfl

theorem descend_of_static {name : String} {rest : List String} (hs : m.spaces.get? id = some s)
    (hchild : s.spaces.get? name = none) (hstatic : s.isStatic = true) :
    m.descend (name :: rest) id = .ok none := by
  rw [descend, space_eq_ok.2 hs]
  simp only [bind, Except.bind, hchild, hstatic]
  rfl

section Ways

variable {sites : SpaceId → Prop} (hm : m.Faithful sites)
include hm

theorem Faithful.dottedName_child {name : String} {child : SpaceId} (hs : m.spaces.get? id = some s)
    (hchild : s.spaces.get? name = some child) :
    m.dottedName child = m.dottedName id ++ "." ++ name := by
  obtain ⟨t, ht, hparent, rfl, hitem⟩ := hm.owned.child_of_listed hs hchild
  have hends : m.dottedNameFrom m.spaces.capacity id = m.dottedName id :=
    hm.owned.dottedName_ends hm.arranged.beside (le_refl _)
  rw [← hends, dottedName]
  cases hk : t.kind with
  | item => exact absurd hk (hitem _ _ _ _)
  | _ => simp only [dottedNameFrom, ht, hk, hparent]

/-- A child is a replica of the child of that name, or static like its parent. -/
theorem Faithful.counterpart_child {name : String} {child c x : SpaceId} {source : Space}
    (hs : m.spaces.get? id = some s) (hchild : s.spaces.get? name = some child)
    (hc : m.counterpart id = .ok c) (hsource : m.spaces.get? c = some source)
    (hx : source.spaces.get? name = some x) :
    ∃ t, m.spaces.get? child = some t ∧ t.isStatic = s.isStatic ∧ m.counterpart child = .ok x := by
  obtain ⟨t, ht, hparent, rfl, hitem⟩ := hm.owned.child_of_listed hs hchild
  refine ⟨t, ht, ?_⟩
  cases hm.reflects ht with
  | static hstatic =>
    have hself : s.isStatic = true := (hm.owned.placed child t ht).static hstatic id s hparent hs
    cases (counterpart_of_static hs hself).symm.trans hc
    cases hs.symm.trans hsource
    cases hchild.symm.trans hx
    exact ⟨hstatic.trans hself.symm, counterpart_of_static ht hstatic⟩
  | item hk => exact absurd hk (hitem _ _ _ _)
  | dynamic hk hp _ hpc houter hlist =>
    cases hparent.symm.trans hp
    cases hc.symm.trans hpc
    cases hsource.symm.trans houter
    cases hx.symm.trans hlist
    obtain ⟨q, hq, hreplica⟩ := (hm.owned.placed child t ht).dynamic _ _ hk
    cases hp.symm.trans hq
    exact ⟨(isStatic_of_dynamic hk).trans (hreplica s hs).symm, counterpart_of_dynamic ht hk⟩

/-- Where the counterpart has a way, following it comes to a place as one expects. -/
theorem Faithful.descend_of_way {path : List String} {c x : SpaceId}
    (hs : m.spaces.get? id = some s) (hc : m.counterpart id = .ok c)
    (hway : m.endOf path c = some x) : ∃ place, m.descend path id = .ok (some place) ∧
      m.Promises (nameBelow (m.dottedName id) path) x place := by
  induction path generalizing id s c with
  | nil =>
    cases hway
    exact ⟨.existing id, rfl, Pool.contains_iff.2 ⟨s, hs⟩, hc, rfl⟩
  | cons name rest ih =>
    obtain ⟨source, y, hsource, hy, hrest⟩ := endOf_cons.1 hway
    cases hchild : s.spaces.get? name with
    | some child =>
      obtain ⟨t, ht, -, hct⟩ := hm.counterpart_child hs hchild hc hsource hy
      obtain ⟨place, hplace, hpromises⟩ := ih ht hct hrest
      rw [hm.dottedName_child hs hchild] at hpromises
      exact ⟨place, (descend_of_child hs hchild).trans hplace, hpromises⟩
    | none =>
      cases hstatic : s.isStatic with
      | true =>
        cases (counterpart_of_static hs hstatic).symm.trans hc
        cases hs.symm.trans hsource
        rw [hchild] at hy
        contradiction
      | false =>
        have hcontains : source.spaces.contains name = true := by
          rw [NameMap.contains, hy]
          rfl
        refine ⟨.pending id (name :: rest), ?_, s, c, hs, hstatic, hc, hway, rfl⟩
        rw [descend_of_replica hs hchild hstatic hc hsource, hcontains, if_pos rfl]

end Ways

theorem Enriches.endOf (h : Enriches m m') {path : List String} {x : SpaceId}
    (hway : m.endOf path id = some x) : m'.endOf path id = some x := by
  induction path generalizing id with
  | nil => exact hway
  | cons name rest ih =>
    obtain ⟨s, child, hs, hchild, hrest⟩ := endOf_cons.1 hway
    obtain ⟨s', hs', hext⟩ := h.spaces id s hs
    exact endOf_cons.2 ⟨s', child, hs', hext.spaces name child hchild, ih hrest⟩

/-! ## Making what is pending -/

section Making

variable {name : String} {c x : SpaceId} {source : Space} {r : Except Failure SpaceId} {m₁ : Model}

theorem exists_ensureChild (hs : m.spaces.get? id = some s) (hreplica : s.isStatic = false)
    (hc : m.counterpart id = .ok c) (hsource : m.spaces.get? c = some source)
    (hx : source.spaces.get? name = some x) :
    ∃ child m₁, ensureChild id name m = some (.ok child, m₁) := by
  have hroot : ∃ root, m.instanceRoot? id = some root := by
    cases hk : s.kind with
    | static => simp [Space.isStatic, hk] at hreplica
    | item => exact ⟨id, by simp only [instanceRoot?, hs, hk]⟩
    | dynamic d root => exact ⟨root, by simp only [instanceRoot?, hs, hk]⟩
  obtain ⟨root, hroot⟩ := hroot
  have hfound : (do m.space (← m.counterpart id)) = .ok source :=
    except_bind_eq_ok.2 ⟨c, hc, space_eq_ok.2 hsource⟩
  unfold ensureChild
  rw [read_bind, space_eq_ok.2 hs]
  cases hchild : s.spaces.get? name with
  | some child =>
    simp only [hchild]
    exact ⟨child, m, rfl⟩
  | none =>
    simp only [hchild, get_bind, hroot, read_bind, hfound, hx]
    exact ⟨_, _, rfl⟩

/-- A child that was given is listed. -/
theorem Running.lists_given (hm : m.Running) {child : SpaceId}
    (h : ensureChild id name m = some (.ok child, m₁)) (room : m₁.Addressable) :
    ∃ s', m₁.spaces.get? id = some s' ∧ s'.spaces.get? name = some child := by
  have hf := hm.faithful ((fits_ensureChild h).addressable room)
  rcases ensureChild_cases h with ⟨rfl, hold⟩ |
      ⟨q, root, pc, outer, y, _, m₂, hq, hfree, hroot, hpc, houter, hlist, hadd, rfl, heq⟩
  · exact hold child rfl
  · cases heq
    obtain ⟨outer', houter', hstatic⟩ := hf.counterpart hq hpc
    cases houter.symm.trans houter'
    obtain ⟨inner, hinner, -⟩ := hf.owned.static_of_listed houter hstatic hlist
    obtain ⟨s', hnew⟩ := unlisted_addReplica hf.owned hadd ((addressable_modifySpace id _).1 room)
      hinner (lists_of_empty rfl rfl rfl rfl) rfl
    refine ⟨_, (get?_modifySpace (hnew.old hq) _ id).trans (if_pos rfl), ?_⟩
    exact (NameMap.get?_insert _ _ _ _).trans (if_pos rfl)

/-- A child of a replica is listed once it was asked for. -/
theorem Running.lists_child (hm : m.Running) (hs : m.spaces.get? id = some s)
    (hreplica : s.isStatic = false) (hc : m.counterpart id = .ok c)
    (hsource : m.spaces.get? c = some source) (hx : source.spaces.get? name = some x)
    (h : ensureChild id name m = some (r, m₁)) (room : m₁.Addressable) :
    ∃ child s', r = .ok child ∧ m₁.spaces.get? id = some s' ∧
      s'.spaces.get? name = some child := by
  obtain ⟨child, m₂, hok⟩ := exists_ensureChild hs hreplica hc hsource hx
  cases h.symm.trans hok
  obtain ⟨s', hs', hchild⟩ := hm.lists_given h room
  exact ⟨child, s', rfl, hs', hchild⟩

theorem Running.makes_path {path : List String} {c x : SpaceId} (hm : m.Running)
    (hs : m.spaces.get? id = some s) (hreplica : s.isStatic = false)
    (hc : m.counterpart id = .ok c) (hway : m.endOf path c = some x)
    (h : ensurePath path id m = some (r, m₁)) (room : m₁.Addressable) :
    ∃ y, r = .ok y ∧ m₁.Embodies (nameBelow (m.dottedName id) path) x y := by
  induction path generalizing m id s c with
  | nil =>
    cases h
    cases hway
    exact ⟨id, rfl, Pool.contains_iff.2 ⟨s, hs⟩, hc, rfl⟩
  | cons name rest ih =>
    obtain ⟨source, z, hsource, hz, hrest⟩ := endOf_cons.1 hway
    have hlists := fun {r m₂} (hchild : ensureChild id name m = some (r, m₂)) =>
      hm.lists_child hs hreplica hc hsource hz hchild
    rcases (bind_eq_some m).1 h with ⟨child, m₂, hchild, hpath⟩ | ⟨e, hchild, rfl⟩
    · obtain ⟨hm₂, hadds⟩ := evaluationFrame_adds.child id name m _ m₂ hchild hm
      obtain ⟨-, hmore⟩ := evaluationFrame_adds.ensurePath rest child m₂ r m₁ hpath hm₂
      have room₂ : m₂.Addressable := hmore.grows.fits.addressable room
      obtain ⟨_, s₂, heq, hs₂, hlisted⟩ := hlists hchild room₂
      cases heq
      have henriches := hadds.enriches room₂
      have hf := hm.faithful (hadds.grows.fits.addressable room₂)
      have hf₂ := hm₂.faithful room₂
      obtain ⟨s', hs', hsame⟩ := henriches.spaces id s hs
      cases hs₂.symm.trans hs'
      obtain ⟨source₂, hsource₂, hext⟩ := henriches.spaces c source hsource
      obtain ⟨t, ht, hstatic, hct⟩ := hf₂.counterpart_child hs₂ hlisted
        ((henriches.counterpart hs).trans hc) hsource₂ (hext.spaces name z hz)
      obtain ⟨y, rfl, hembodies⟩ := ih hm₂ ht (hstatic.trans (hsame.isStatic.trans hreplica)) hct
        (henriches.endOf hrest) hpath
      rw [hf₂.dottedName_child hs₂ hlisted, henriches.dottedName hf hf₂ hs] at hembodies
      exact ⟨y, rfl, hembodies⟩
    · obtain ⟨child, -, heq, -⟩ := hlists hchild room
      contradiction

theorem ensurePlace_existing (y : SpaceId) (m : Model) :
    ensurePlace (.existing y) m = some ((m.space y).map fun _ => y, m) := by
  show (Action.read (·.space y) >>= fun _ => (pure y : Action SpaceId)) m = _
  rw [read_bind]
  cases m.space y <;> rfl

/-- The space at a place is what the place promised once it is made. -/
theorem Running.makes_place {place : Place} (hm : m.Running) (hpromises : m.Promises name c place)
    (h : ensurePlace place m = some (r, m₁)) (room : m₁.Addressable) :
    ∃ y, r = .ok y ∧ m₁.Embodies name c y := by
  cases place with
  | existing y =>
    obtain ⟨t, ht⟩ := Pool.contains_iff.1 hpromises.1
    rw [ensurePlace_existing, space_eq_ok.2 ht] at h
    cases h
    exact ⟨y, rfl, hpromises⟩
  | pending start path =>
    obtain ⟨s, d, hs, hreplica, hd, hway, rfl⟩ := hpromises
    exact hm.makes_path hs hreplica hd hway h room

end Making

/-! ## Following a way -/

/-- The way of a relative reference, step by step. -/
theorem replay_eq (m : Model) (origin target current : SpaceId) :
    m.replay origin target current =
      if origin == current then .ok (.existing target)
      else match (m.ancestry origin).find? (m.ancestry target).contains with
        | none => .ok (.existing target)
        | some common =>
          let ups := (m.ancestry origin).findIdx (· == common)
          let downs := (((m.ancestry target).takeWhile (· != common)).filterMap fun s =>
            (m.spaces.get? s).map Space.name).reverse
          if m.config.maxDepth < ups + downs.length then
            .error (.tooDeep (ups + downs.length) m.config.maxDepth)
          else m.climb ups current >>= fun
            | none => .ok (.existing target)
            | some top => (m.descend downs top).map fun found => found.getD (.existing target) := by
  unfold replay
  split
  next => rfl
  next =>
    dsimp only
    cases (m.ancestry origin).find? (m.ancestry target).contains with
    | none => rfl
    | some common =>
      dsimp only
      split
      next => rfl
      next =>
        refine congrArg (m.climb _ current >>= ·) (funext fun top => ?_)
        cases top with
        | none => rfl
        | some top =>
          dsimp only
          cases m.descend _ top <;> rfl

theorem Faithful.live_of_climb {sites : SpaceId → Prop} (hm : m.Faithful sites) {count : Nat}
    {top : SpaceId} (hs : m.spaces.get? id = some s) (h : m.climb count id = .ok (some top)) :
    ∃ t, m.spaces.get? top = some t := by
  induction count generalizing id s with
  | zero =>
    cases h
    exact ⟨s, hs⟩
  | succ count ih =>
    unfold climb at h
    rw [space_eq_ok.2 hs] at h
    cases hp : s.parent with
    | none =>
      simp only [bind, Except.bind, hp] at h
      cases h
    | some p =>
      obtain ⟨q, hq⟩ := hm.owned.live_of_above hm.arranged.beside ⟨s, hs, .inl hp⟩
      simp only [bind, Except.bind, hp] at h
      exact ih hq h

/-- Where a space has no cells of the name it sees a child, or a reference of its counterpart. -/
theorem Faithful.memberMeaning_eq {sites : SpaceId → Prop} (hm : m.Faithful sites) {name : String}
    {c : SpaceId} {source : Space} (hs : m.spaces.get? id = some s)
    (hcells : s.cells.get? name = none) (hc : m.counterpart id = .ok c)
    (hsource : m.spaces.get? c = some source) : m.memberMeaning id name =
      m.descend [name] id >>= fun
        | some place => .ok (some (.space place))
        | none => match source.refs.get? name with
          | some r => (m.refMeaning r id).map fun found => some (.ref r found)
          | none => .ok none := by
  unfold memberMeaning
  rw [space_eq_ok.2 hs]
  cases hchild : s.spaces.get? name with
  | some child =>
    rw [descend_of_child hs hchild]
    simp only [bind, Except.bind, hcells, hchild]
    rfl
  | none =>
    cases hstatic : s.isStatic with
    | true =>
      cases (counterpart_of_static hs hstatic).symm.trans hc
      rw [descend_of_static hs hchild hstatic]
      simp only [bind, Except.bind, hcells, hchild, hc, space_eq_ok.2 hsource, bne_self_eq_false,
        Bool.false_and]
      cases source.refs.get? name with
      | none => rfl
      | some r =>
        dsimp only
        cases m.refMeaning r id <;> rfl
    | false =>
      -- the counterpart is static, and so another space
      obtain ⟨source', hsource', hfixed⟩ := hm.counterpart hs hc
      have hne : (c != id) = true := by
        refine bne_iff_ne.2 fun heq => ?_
        subst heq
        cases hs.symm.trans hsource'
        rw [hfixed] at hstatic
        contradiction
      rw [descend_of_replica hs hchild hstatic hc hsource]
      simp only [bind, Except.bind, hcells, hchild, hc, space_eq_ok.2 hsource, hne, Bool.true_and]
      cases source.spaces.contains name with
      | true => rfl
      | false =>
        cases source.refs.get? name with
        | none => rfl
        | some r =>
          simp only [Bool.false_eq_true, if_false]
          cases m.refMeaning r id <;> rfl

/-- A child that is pending on its own is in the counterpart. -/
theorem wholePlace_of_name {name : String} {place : Place}
    (h : m.descend [name] id = .ok (some place)) : m.WholePlace place := by
  unfold descend at h
  obtain ⟨s, -, h⟩ := except_bind_eq_ok.1 h
  split at h
  next =>
    cases h
    trivial
  next =>
    split at h
    next => cases h
    next =>
      obtain ⟨c, hc, h⟩ := except_bind_eq_ok.1 h
      obtain ⟨source, hsource, h⟩ := except_bind_eq_ok.1 h
      split at h
      next hcontains =>
        cases h
        obtain ⟨x, hx⟩ := Option.isSome_iff_exists.1 hcontains
        exact ⟨c, x, hc, endOf_cons.2 ⟨source, x, space_eq_ok.1 hsource, hx, rfl⟩⟩
      next => cases h

end Model

end Recalc
