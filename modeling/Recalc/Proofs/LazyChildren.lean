import Recalc.Proofs.PendingPlaces

set_option autoImplicit false

/-!
# Children made on demand

What was asked for before decides which children of a replica are there. A name means the same in
any case. Where a child is there the name means the child; where it is not, the name means a place
that promises what the child is. A relative reference goes the same way past children that are there
and children that are not, if the way is there in the counterpart to its end.
-/

namespace Recalc

theorem except_ok_bind {α β : Type} (a : α) (f : α → Except Failure β) :
    (Except.ok a >>= f) = f a := rfl

inductive Concur {α β : Type} (R : α → β → Prop) : Except Failure α → Except Failure β → Prop
  | ok {a : α} {b : β} : R a b → Concur R (.ok a) (.ok b)
  | error (e : Failure) : Concur R (.error e) (.error e)

theorem Concur.refl {α : Type} (x : Except Failure α) : Concur Eq x x := by
  cases x with
  | ok a => exact .ok rfl
  | error e => exact .error e

theorem Concur.map {α β γ δ : Type} {R : α → β → Prop} {S : γ → δ → Prop} {x : Except Failure α}
    {y : Except Failure β} {f : α → γ} {g : β → δ} (h : Concur R x y)
    (hfg : ∀ a b, R a b → S (f a) (g b)) : Concur S (x.map f) (y.map g) := by
  cases h with
  | ok hab => exact .ok (hfg _ _ hab)
  | error e => exact .error e

theorem Concur.bind {α β γ δ : Type} {R : α → β → Prop} {S : γ → δ → Prop} {x : Except Failure α}
    {y : Except Failure β} {f : α → Except Failure γ} {g : β → Except Failure δ}
    (h : Concur R x y) (hfg : ∀ a b, x = .ok a → R a b → Concur S (f a) (g b)) :
    Concur S (x >>= f) (y >>= g) := by
  cases h with
  | ok hab => exact hfg _ _ rfl hab
  | error e => exact .error e

namespace Model

open Recalc.Action

variable {m m' : Model} {id : SpaceId} {s : Space}

/-! ## The same meaning -/

/-- The spaces that references and the arguments of instances name. -/
inductive Mentions (m : Model) : SpaceId → Prop
  | ref {r : RefId} {q : Reference} {a : Handle} : m.refs.get? r = some q → q.value = .space a →
      Mentions m a.id
  | origin {r : RefId} {q : Reference} {x : SpaceId} : m.refs.get? r = some q →
      q.origin = some x → Mentions m x
  | argument {x owner c : SpaceId} {s : Space} {args : Key} {around : List SpaceId} {a : Handle} :
      m.spaces.get? x = some s → s.kind = .item owner c args around → .space a ∈ args.values →
      Mentions m a.id

/-- The places promise one name and counterpart, or nothing is there. -/
inductive SamePlace (m m' : Model) : Place → Place → Prop
  | promised {p p' : Place} (name : String) (c : SpaceId) : m.Promises name c p →
      m'.Promises name c p' → SamePlace m m' p p'
  | gone {id : SpaceId} : m.spaces.get? id = none → m'.spaces.get? id = none →
      SamePlace m m' (.existing id) (.existing id)

inductive SameValue (m m' : Model) : Value → Value → Prop
  | other {v : Value} : (∀ a, v ≠ .space a) → SameValue m m' v v
  | space {a b : Handle} : SamePlace m m' (.existing a.id) (.existing b.id) →
      SameValue m m' (.space a) (.space b)

inductive SameMeaning (m m' : Model) : Meaning → Meaning → Prop
  | cells {c : CellId} : m.cells.contains c = true → SameMeaning m m' (.cells c) (.cells c)
  | space {p p' : Place} : SamePlace m m' p p' → SameMeaning m m' (.space p) (.space p')
  | value (r : RefId) {v : Value} : SameValue m m' v v →
      SameMeaning m m' (.ref r (.value v)) (.ref r (.value v))
  | target (r : RefId) {p p' : Place} : SamePlace m m' p p' →
      SameMeaning m m' (.ref r (.space p)) (.ref r (.space p'))
  | param {v : Value} : SameValue m m' v v → SameMeaning m m' (.param v) (.param v)
  | model : SameMeaning m m' .model .model

/-- A place that a reference leads to is there wholly in the counterpart. -/
def WholeMeaning (m : Model) : Meaning → Prop
  | .ref _ (.space target) => m.WholePlace target
  | _ => True

instance (m : Model) : (found : Meaning) → Decidable (m.WholeMeaning found)
  | .ref _ (.space target) => inferInstanceAs (Decidable (m.WholePlace target))
  | .ref _ (.value _) | .cells _ | .space _ | .param _ | .model => .isTrue trivial

/-- An argument that is a space is mentioned. -/
theorem mentions_of_boundArgument {name : String} {a : Handle}
    (h : m.boundArgument id name = .ok (some (.space a))) : m.Mentions a.id := by
  have key : ∀ fuel root, m.boundArgumentFrom name fuel root = .ok (some (.space a)) →
      m.Mentions a.id := by
    intro fuel
    induction fuel with
    | zero =>
      intro root h
      cases h
    | succ fuel ih =>
      intro root h
      cases root with
      | none => cases h
      | some item =>
        unfold boundArgumentFrom at h
        obtain ⟨t, ht, h⟩ := except_bind_eq_ok.1 h
        split at h
        next owner c args around hk =>
          obtain ⟨source, -, h⟩ := except_bind_eq_ok.1 h
          split at h
          next i _ =>
            have hv : args.values[i]? = some (.space a) := Except.ok.inj h
            exact .argument (space_eq_ok.1 ht) hk (List.mem_of_getElem? hv)
          next => exact ih _ h
        next => cases h
  exact key _ _ h

section Comparison

variable {sites : SpaceId → Prop} (h : Enriches m m') (hm : m.Faithful sites)
  (hm' : m'.Faithful sites)
include h hm hm'

theorem Enriches.samePlace (hs : m.spaces.get? id = some s) :
    SamePlace m m' (.existing id) (.existing id) := by
  obtain ⟨s', hs', -⟩ := h.spaces id s hs
  obtain ⟨c, hc⟩ := exists_counterpart hs
  exact .promised _ c ⟨Pool.contains_iff.2 ⟨s, hs⟩, hc, rfl⟩
    ⟨Pool.contains_iff.2 ⟨s', hs'⟩, (h.counterpart hs).trans hc, h.dottedName hm hm' hs⟩

/-- A space that was there, or is not there now either. -/
theorem Enriches.samePlace_of_old
    (hold : m.spaces.get? id = none → m'.spaces.get? id = none) :
    SamePlace m m' (.existing id) (.existing id) := by
  cases hs : m.spaces.get? id with
  | none => exact .gone hs (hold hs)
  | some s => exact h.samePlace hm hm' hs

theorem Enriches.ancestry_of_old (hold : m.spaces.get? id = none → m'.spaces.get? id = none) :
    m'.ancestry id = m.ancestry id := by
  cases hs : m.spaces.get? id with
  | none =>
    have hnil : ∀ {m : Model}, m.spaces.get? id = none → m.ancestry id = [] := by
      intro m hnone
      unfold Model.ancestry
      cases m.spaces.capacity with
      | zero => rfl
      | succ fuel => rw [ancestryFrom, hnone]
    rw [hnil hs, hnil (hold hs)]
  | some s => exact h.ancestry hm hm' hs

/-- A way that is not broken inside a counterpart comes to places of one name. -/
theorem Enriches.descend_concur (path : List String) (hs : m.spaces.get? id = some s)
    (hwhole : ∀ place, m.descend path id = .ok (some place) → m.WholePlace place) :
    Concur (Option.Rel (SamePlace m m')) (m.descend path id) (m'.descend path id) := by
  induction path generalizing id s with
  | nil => exact .ok (.some (h.samePlace hm hm' hs))
  | cons name rest ih =>
    obtain ⟨s', hs', hext⟩ := h.spaces id s hs
    cases hchild : s.spaces.get? name with
    | some child =>
      obtain ⟨t, ht, -⟩ := hm.owned.child_of_listed hs hchild
      rw [descend_of_child hs hchild] at hwhole ⊢
      rw [descend_of_child hs' (hext.spaces name child hchild)]
      exact ih ht hwhole
    | none =>
      cases hstatic : s.isStatic with
      | true =>
        have hchild' : s'.spaces.get? name = none := by rw [hext.children hstatic, hchild]
        rw [descend_of_static hs hchild hstatic,
          descend_of_static hs' hchild' (hext.isStatic.trans hstatic)]
        exact .ok .none
      | false =>
        obtain ⟨c, hc⟩ := exists_counterpart hs
        obtain ⟨source, hsource, hfixed⟩ := hm.counterpart hs hc
        obtain ⟨source', hsource', hext'⟩ := h.spaces c source hsource
        have hc' := (h.counterpart hs).trans hc
        have hreplica := hext.isStatic.trans hstatic
        have heq : m.descend (name :: rest) id = _ :=
          descend_of_replica hs hchild hstatic hc hsource
        cases hx : source.spaces.get? name with
        | some x =>
          have hcontains : source.spaces.contains name = true := by
            rw [NameMap.contains, hx]
            rfl
          rw [hcontains, if_pos rfl] at heq
          rw [heq] at hwhole ⊢
          -- what is pending here is found there along the same way
          obtain ⟨d, y, hd, hway⟩ := hwhole _ rfl
          cases hc.symm.trans hd
          obtain ⟨place, hplace, hpromises⟩ := hm'.descend_of_way hs' hc' (h.endOf hway)
          rw [h.dottedName hm hm' hs] at hpromises
          rw [hplace]
          exact .ok (.some (.promised _ y ⟨s, c, hs, hstatic, hc, hway, rfl⟩ hpromises))
        | none =>
          have hcontains : source.spaces.contains name = false := by
            rw [NameMap.contains, hx]
            rfl
          have hchild' : s'.spaces.get? name = none := by
            refine Option.eq_none_iff_forall_ne_some.2 fun y hy => ?_
            obtain ⟨x, hx'⟩ := hm'.child_of_replica hs' hc' hsource' hreplica hy
            rw [hext'.children hfixed, hx] at hx'
            contradiction
          rw [heq, descend_of_replica hs' hchild' hreplica hc' hsource', hext'.children hfixed,
            hcontains]
          exact .ok .none

theorem Enriches.replay_concur {origin target : SpaceId}
    (horigin : m.spaces.get? origin = none → m'.spaces.get? origin = none)
    (htarget : m.spaces.get? target = none → m'.spaces.get? target = none)
    (hs : m.spaces.get? id = some s)
    (hwhole : ∀ place, m.replay origin target id = .ok place → m.WholePlace place) :
    Concur (SamePlace m m') (m.replay origin target id) (m'.replay origin target id) := by
  have hstay : Concur (SamePlace m m') (.ok (.existing target)) (.ok (.existing target)) :=
    .ok (h.samePlace_of_old hm hm' htarget)
  have hnames : ∀ l : List SpaceId, (∀ x ∈ l, x ∈ m.ancestry target) →
      (l.filterMap fun x => (m'.spaces.get? x).map Space.name) =
        l.filterMap fun x => (m.spaces.get? x).map Space.name := by
    refine fun l hl => List.filterMap_congr fun x hx => ?_
    obtain ⟨t, ht⟩ := live_of_mem_ancestryFrom (hl x hx)
    obtain ⟨t', ht', hext⟩ := h.spaces x t ht
    rw [ht, ht', Option.map_some, Option.map_some, hext.name]
  rw [replay_eq] at hwhole
  rw [replay_eq, replay_eq, h.ancestry_of_old hm hm' horigin, h.ancestry_of_old hm hm' htarget,
    h.config]
  split
  next => exact hstay
  next hne =>
    rw [if_neg hne] at hwhole
    cases hcommon : (m.ancestry origin).find? (m.ancestry target).contains with
    | none => exact hstay
    | some common =>
      rw [hcommon] at hwhole
      dsimp only at hwhole ⊢
      rw [hnames _ fun x hx => List.takeWhile_subset _ hx, h.climb hm _ hs]
      split
      next => exact .error _
      next hdeep =>
        rw [if_neg hdeep] at hwhole
        cases htop : m.climb ((m.ancestry origin).findIdx (· == common)) id with
        | error e => exact .error e
        | ok top =>
          rw [htop] at hwhole
          cases top with
          | none => exact hstay
          | some top =>
            obtain ⟨t, ht⟩ := hm.live_of_climb hs htop
            refine Concur.map (h.descend_concur hm hm' _ ht fun place hplace => hwhole place ?_)
              fun _ _ hfound => ?_
            · show Except.map _ (m.descend _ top) = _
              rw [hplace]
              rfl
            · cases hfound with
              | some hsame => exact hsame
              | none => exact h.samePlace_of_old hm hm' htarget

variable (hold : ∀ x, m.Mentions x → m.spaces.get? x = none → m'.spaces.get? x = none)
include hold

theorem Enriches.sameValue {v : Value} (hv : ∀ a, v = .space a → m.Mentions a.id) :
    SameValue m m' v v := by
  cases v with
  | space a => exact .space (h.samePlace_of_old hm hm' (hold a.id (hv a rfl)))
  | _ => exact .other nofun

theorem Enriches.refMeaning_concur (r : RefId) (hs : m.spaces.get? id = some s)
    (hwhole : ∀ found, m.refMeaning r id = .ok found → m.WholeMeaning (.ref r found)) :
    Concur (fun a b => SameMeaning m m' (.ref r a) (.ref r b)) (m.refMeaning r id)
      (m'.refMeaning r id) := by
  cases hq : m.refs.get? r with
  | none =>
    unfold refMeaning reference
    rw [h.refs, hq]
    exact .error _
  | some q =>
    have hq' : m'.refs.get? r = some q := by rw [h.refs, hq]
    unfold refMeaning at hwhole ⊢
    rw [reference_eq_ok.2 hq, except_ok_bind] at hwhole ⊢
    rw [reference_eq_ok.2 hq', except_ok_bind]
    split
    next a origin hvalue hrelative horigin =>
      refine Concur.bind (h.replay_concur hm hm' (hold origin (.origin hq horigin))
        (hold a.id (.ref hq hvalue)) hs fun place hplace => ?_)
        fun _ _ _ hsame => .ok (.target r hsame)
      refine hwhole (.space place) ?_
      simp only [hvalue, hrelative, horigin]
      rw [hplace]
      rfl
    next => exact .ok (.value r (h.sameValue hm hm' hold fun a ha => .ref hq ha))

theorem Enriches.memberMeaning_concur (name : String) (hs : m.spaces.get? id = some s)
    (hwhole : ∀ found, m.memberMeaning id name = .ok (some found) → m.WholeMeaning found) :
    Concur (Option.Rel (SameMeaning m m')) (m.memberMeaning id name)
      (m'.memberMeaning id name) := by
  obtain ⟨s', hs', hext⟩ := h.spaces id s hs
  cases hcells : s.cells.get? name with
  | some c =>
    rw [memberMeaning_of_cells hs hcells,
      memberMeaning_of_cells hs' (by rw [hext.cells, hcells])]
    obtain ⟨d, hd, -⟩ := hm.owned.cells_of_listed hs hcells
    exact .ok (.some (.cells (Pool.contains_iff.2 ⟨d, hd⟩)))
  | none =>
    obtain ⟨c, hc⟩ := exists_counterpart hs
    obtain ⟨source, hsource, -⟩ := hm.counterpart hs hc
    obtain ⟨source', hsource', hext'⟩ := h.spaces c source hsource
    rw [hm.memberMeaning_eq hs hcells hc hsource] at hwhole ⊢
    rw [hm'.memberMeaning_eq hs' (by rw [hext.cells, hcells]) ((h.counterpart hs).trans hc)
      hsource', hext'.refs]
    refine Concur.bind (h.descend_concur hm hm' [name] hs fun _ => wholePlace_of_name)
      fun found _ hfound hsame => ?_
    cases hsame with
    | some hsame => exact .ok (.some (.space hsame))
    | none =>
      rw [hfound] at hwhole
      cases hr : source.refs.get? name with
      | none => exact .ok .none
      | some r =>
        refine Concur.map (h.refMeaning_concur hm hm' hold r hs fun target htarget =>
          hwhole (.ref r target) ?_) fun _ _ hsame => .some hsame
        rw [except_ok_bind, hr]
        show Except.map _ (m.refMeaning r id) = _
        rw [htarget]
        rfl

/-- A name means the same, whatever was made and evaluated in between. -/
theorem Enriches.meaning_concur (name : String) (hs : m.spaces.get? id = some s)
    (hwhole : ∀ found, m.meaning id name = .ok found → m.WholeMeaning found) :
    Concur (SameMeaning m m') (m.meaning id name) (m'.meaning id name) := by
  obtain ⟨s', hs', hext⟩ := h.spaces id s hs
  cases hname : SystemName.ofString? name with
  | none =>
    rw [meaning_of_bare hs hname] at hwhole ⊢
    rw [meaning_of_bare hs' hname, h.boundArgument hm hm' name hs, h.globals,
      h.dottedName hm hm' hs]
    refine Concur.bind (h.memberMeaning_concur hm hm' hold name hs fun found hfound =>
      hwhole found (by rw [hfound]; rfl)) fun _ _ _ hsame => ?_
    cases hsame with
    | some hsame => exact .ok hsame
    | none =>
      refine Concur.bind (.refl _) fun v _ hv heq => ?_
      subst heq
      cases v with
      | some v =>
        refine .ok (.param (h.sameValue hm hm' hold fun a ha => ?_))
        subst ha
        exact mentions_of_boundArgument hv
      | none =>
        dsimp only
        cases m.globals.get? name with
        | none => exact .error _
        | some r =>
          have hsame : m'.reference r = m.reference r := by rw [reference, reference, h.refs]
          dsimp only
          rw [hsame]
          refine Concur.bind (.refl _) fun q _ hq heq => ?_
          subst heq
          exact .ok (.value r (h.sameValue hm hm' hold fun a ha =>
            .ref (reference_eq_ok.1 hq) ha))
  | some found =>
    unfold meaning
    rw [space_eq_ok.2 hs, space_eq_ok.2 hs', hname, except_ok_bind, except_ok_bind]
    cases found with
    | self => exact .ok (.space (h.samePlace hm hm' hs))
    | model => exact .ok .model
    | parent =>
      dsimp only
      rw [hext.parent]
      cases hp : s.parent with
      | none => exact .ok .model
      | some p =>
        obtain ⟨q, hq⟩ := hm.owned.live_of_above hm.arranged.beside ⟨s, hs, .inl hp⟩
        exact .ok (.space (h.samePlace hm hm' hq))

omit hold in
theorem Enriches.promises {place : Place} {name : String} {c : SpaceId}
    (hpromises : m.Promises name c place) : m'.Promises name c place := by
  cases place with
  | existing id =>
    obtain ⟨hlive, hc, rfl⟩ := hpromises
    obtain ⟨s, hs⟩ := Pool.contains_iff.1 hlive
    obtain ⟨s', hs', -⟩ := h.spaces id s hs
    exact ⟨Pool.contains_iff.2 ⟨s', hs'⟩, (h.counterpart hs).trans hc, h.dottedName hm hm' hs⟩
  | pending start path =>
    obtain ⟨s, d, hs, hreplica, hd, hway, rfl⟩ := hpromises
    obtain ⟨s', hs', hext⟩ := h.spaces start s hs
    exact ⟨s', d, hs', hext.isStatic.trans hreplica, (h.counterpart hs).trans hd, h.endOf hway,
      by rw [h.dottedName hm hm' hs]⟩

end Comparison

end Model

end Recalc
