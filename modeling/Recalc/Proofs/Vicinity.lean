import Recalc.Proofs.Backing

set_option autoImplicit false

/-!
# Where names lead

A node under evaluation knows a space when its records keep alive what the space lies in. From there
names lead only to spaces that it knows as well: to children and parents, along the ways that
relative references replay, and through the arguments of the instances around the space.
-/

namespace Recalc.Model

open Recalc.Action

variable {issue : SpaceId → List SpaceId} {m : Model} {id p target : SpaceId} {s : Space}
  {name : String}

def Knows (issue : SpaceId → List SpaceId) (m : Model) (l : List Handle) : Prop :=
  ∀ h ∈ l, m.Known issue h

/-- The place is known; what is pending lies below a known space. -/
def NearPlace (issue : SpaceId → List SpaceId) (m : Model) : Place → Prop
  | .existing id => m.Near issue id
  | .pending start _ => m.Near issue start

def NearMeaning (issue : SpaceId → List SpaceId) (m : Model) : Meaning → Prop
  | .cells id => ∃ c, m.cells.get? id = some c ∧ m.Near issue c.space
  | .space target | .ref _ (.space target) => m.NearPlace issue target
  | .ref _ (.value v) | .param v => m.Knows issue v.handles
  | .model => True

theorem Knows.mono {m' : Model} {l : List Handle} (h : m.Knows issue l) (henriches : Enriches m m')
    (hstack : m'.stack.nodes = m.stack.nodes) : m'.Knows issue l :=
  fun a ha => (h a ha).mono henriches hstack

/-- Known handles are as they were issued. -/
theorem Knows.issued {l : List Handle} (h : m.Knows issue l) : Issued issue l :=
  fun a ha => (h a ha).1

theorem NearPlace.mono {m' : Model} {place : Place} (h : m.NearPlace issue place)
    (henriches : Enriches m m') (hstack : m'.stack.nodes = m.stack.nodes) :
    m'.NearPlace issue place := by
  cases place with
  | existing id => exact Near.mono h henriches hstack
  | pending start path => exact Near.mono h henriches hstack

theorem Knows.append {l l' : List Handle} (h : m.Knows issue l) (h' : m.Knows issue l') :
    m.Knows issue (l ++ l') :=
  fun a ha => (List.mem_append.1 ha).elim (h a) (h' a)

theorem Knows.subset {l l' : List Handle} (h : m.Knows issue l) (hsub : l' ⊆ l) :
    m.Knows issue l' :=
  fun a ha => h a (hsub ha)

theorem knows_nil : m.Knows issue [] := fun _ ha => absurd ha List.not_mem_nil

/-! ## What is kept alive beside a known space -/

section Steps

variable (hm : m.Trusted issue)
include hm

theorem Near.of_pins {t : Space} (h : m.Near issue id) (hs : m.spaces.get? id = some s)
    (ht : m.spaces.get? p = some t) (hpins : m.pinsOf p ⊆ m.pinsOf id) : m.Near issue p := by
  rw [hm.issuing.pins p t ht, hm.issuing.pins id s hs] at hpins
  exact fun z hz i hi => h z hz i (hpins hi)

theorem Near.child {child : SpaceId} (h : m.Near issue id) (hs : m.spaces.get? id = some s)
    (hchild : s.spaces.get? name = some child) : m.Near issue child := by
  obtain ⟨t, ht, -⟩ := hm.faithful.owned.child_of_listed hs hchild
  refine h.of_pins hm hs ht ?_
  rw [hm.faithful.pinsOf_child hs hchild]
  exact List.Subset.refl _

theorem Near.parent (h : m.Near issue id) (hs : m.spaces.get? id = some s)
    (hp : s.parent = some p) : m.Near issue p := by
  obtain ⟨t, ht⟩ := hm.faithful.owned.live_of_above hm.faithful.arranged.beside ⟨s, hs, .inl hp⟩
  exact h.of_pins hm hs ht (hm.faithful.pinsOf_parent hs hp)

/-- An instance is kept alive when what the space lies in is. -/
theorem Near.backed {z : Node} (h : m.Near issue id) (hz : m.stack.top? = some z)
    (hs : m.spaces.get? id = some s) (hi : p ∈ m.pinsOf id) : m.Backed issue z p := by
  rw [hm.issuing.pins id s hs] at hi
  exact h z hz p hi

/-- The arguments of a known instance are known. -/
theorem Near.args {owner c : SpaceId} {args : Key} {around : List SpaceId} (h : m.Near issue id)
    (hs : m.spaces.get? id = some s) (hk : s.kind = .item owner c args around) :
    m.Knows issue args.handles := by
  intro a ha
  have hstored : a ∈ s.handles := by
    unfold Space.handles
    rw [hk]
    exact List.mem_append_right _ ha
  refine ⟨hm.stocked.spaces id s hs a hstored, fun z hz i hi => ?_⟩
  have hself : id ∈ m.pinsOf id := by
    rw [pinsOf_of_enclosing hs hk]
    exact List.mem_cons_self
  exact .args (h.backed hm hz hs hself) hs hk ha hi

theorem knows_ref {r : RefId} {q : Reference} (hq : m.refs.get? r = some q) :
    m.Knows issue q.value.handles :=
  fun a ha => ⟨hm.stocked.refs r q hq a ha, fun _ _ _ hi => .ref hq ha hi⟩

theorem knows_signature {spec : Signature} (hs : m.spaces.get? id = some s)
    (hstatic : s.isStatic = true) (hspec : s.signature = some spec) :
    m.Knows issue spec.handles := by
  intro a ha
  have hstored : a ∈ s.handles := by
    unfold Space.handles
    rw [hspec]
    exact List.mem_append_left _ (List.mem_append_left _ ha)
  exact ⟨hm.stocked.spaces id s hs a hstored, fun _ _ _ hi => .signature hs hstatic hspec ha hi⟩

/-! ## What names mean -/

theorem Near.climb {count : Nat} {top : SpaceId} (h : m.Near issue id)
    (hclimb : m.climb count id = .ok (some top)) : m.Near issue top := by
  induction count generalizing id with
  | zero =>
    cases hclimb
    exact h
  | succ count ih =>
    unfold Model.climb at hclimb
    obtain ⟨s, hs, hclimb⟩ := except_bind_eq_ok.1 hclimb
    split at hclimb
    next p hp => exact ih (h.parent hm (space_eq_ok.1 hs) hp) hclimb
    next => cases hclimb

theorem Near.descend {path : List String} {place : Place} (h : m.Near issue id)
    (hdescend : m.descend path id = .ok (some place)) : m.NearPlace issue place := by
  induction path generalizing id with
  | nil =>
    cases hdescend
    exact h
  | cons name rest ih =>
    unfold Model.descend at hdescend
    obtain ⟨s, hs, hdescend⟩ := except_bind_eq_ok.1 hdescend
    split at hdescend
    next child hchild => exact ih (h.child hm (space_eq_ok.1 hs) hchild) hdescend
    next =>
      split at hdescend
      next => cases hdescend
      next =>
        obtain ⟨c, -, hdescend⟩ := except_bind_eq_ok.1 hdescend
        obtain ⟨source, -, hdescend⟩ := except_bind_eq_ok.1 hdescend
        split at hdescend
        next =>
          cases hdescend
          exact h
        next => cases hdescend

/-- The way of a relative reference leads from a known space to a known place. -/
theorem Near.replay {origin current : SpaceId} {place : Place} (h : m.Near issue current)
    (htarget : m.Near issue target) (hreplay : m.replay origin target current = .ok place) :
    m.NearPlace issue place := by
  unfold Model.replay at hreplay
  have hstay : ∀ {place : Place}, (.ok (.existing target) : Except Failure Place) = .ok place →
      m.NearPlace issue place := by
    intro place heq
    cases heq
    exact htarget
  split at hreplay
  next => exact hstay hreplay
  next =>
    dsimp only at hreplay
    split at hreplay
    next => exact hstay hreplay
    next common _ =>
      split at hreplay
      next => cases hreplay
      next =>
        obtain ⟨top, htop, hreplay⟩ := except_bind_eq_ok.1 hreplay
        cases top with
        | none => exact hstay hreplay
        | some top =>
          obtain ⟨found, hfound, hreplay⟩ := except_bind_eq_ok.1 hreplay
          cases found with
          | none => exact hstay hreplay
          | some found =>
            cases hreplay
            exact (h.climb hm htop).descend hm hfound

theorem Near.refMeaning {r : RefId} {found : RefMeaning} (h : m.Near issue id)
    (hfound : m.refMeaning r id = .ok found) : m.NearMeaning issue (.ref r found) := by
  unfold Model.refMeaning at hfound
  obtain ⟨q, hq, hfound⟩ := except_bind_eq_ok.1 hfound
  have hknown := knows_ref hm (reference_eq_ok.1 hq)
  split at hfound
  next a origin hvalue _ _ =>
    obtain ⟨place, hplace, hfound⟩ := except_bind_eq_ok.1 hfound
    cases hfound
    rw [hvalue] at hknown
    exact h.replay hm (hknown a List.mem_cons_self).2 hplace
  next =>
    cases hfound
    exact hknown

theorem Near.memberMeaning {found : Meaning} (h : m.Near issue id)
    (hfound : m.memberMeaning id name = .ok (some found)) : m.NearMeaning issue found := by
  unfold Model.memberMeaning at hfound
  obtain ⟨s, hs, hfound⟩ := except_bind_eq_ok.1 hfound
  have hs := space_eq_ok.1 hs
  split at hfound
  next c hc =>
    cases hfound
    obtain ⟨d, hd, hspace, -⟩ := hm.faithful.owned.cells_of_listed hs hc
    exact ⟨d, hd, by rwa [hspace]⟩
  next =>
    split at hfound
    next child hchild =>
      cases hfound
      exact h.child hm hs hchild
    next =>
      obtain ⟨c, -, hfound⟩ := except_bind_eq_ok.1 hfound
      obtain ⟨source, -, hfound⟩ := except_bind_eq_ok.1 hfound
      split at hfound
      next =>
        cases hfound
        exact h
      next =>
        split at hfound
        next r _ =>
          obtain ⟨target, htarget, hfound⟩ := except_bind_eq_ok.1 hfound
          cases hfound
          exact h.refMeaning hm htarget
        next => cases hfound

/-- The argument of an instance around a known space is known. -/
theorem Near.boundArgument {v : Value} (h : m.Near issue id)
    (hv : m.boundArgument id name = .ok (some v)) : m.Knows issue v.handles := by
  -- the root of the instance around a known space is known
  have hroot : ∀ {id root : SpaceId}, m.Near issue id → m.instanceRoot? id = some root →
      m.Near issue root := by
    intro id root h hroot
    cases hs : m.spaces.get? id with
    | none =>
      rw [instanceRoot?, hs] at hroot
      contradiction
    | some s =>
      obtain ⟨t, owner, c, args, around, ht, hk⟩ := hm.faithful.instanceRoot hs hroot
      refine h.of_pins hm hs ht ?_
      rw [pinsOf_congr (p := id) (by rw [hroot]; simp only [instanceRoot?, ht, hk])]
      exact List.Subset.refl _
  have key : ∀ (fuel : Nat) (root : Option SpaceId), (∀ i, root = some i → m.Near issue i) →
      m.boundArgumentFrom name fuel root = .ok (some v) → m.Knows issue v.handles := by
    intro fuel
    induction fuel with
    | zero =>
      intro root _ hv
      cases hv
    | succ fuel ih =>
      intro root hnear hv
      cases root with
      | none => cases hv
      | some item =>
        have hitem := hnear item rfl
        unfold boundArgumentFrom at hv
        obtain ⟨t, ht, hv⟩ := except_bind_eq_ok.1 hv
        have ht := space_eq_ok.1 ht
        split at hv
        next owner c args around hk =>
          obtain ⟨source, -, hv⟩ := except_bind_eq_ok.1 hv
          split at hv
          next i _ =>
            have hv : args.values[i]? = some v := Except.ok.inj hv
            have hargs := hitem.args hm ht hk
            exact fun a ha => hargs a
              (Value.mem_itemHandles.2 ⟨v, List.mem_of_getElem? hv, ha⟩)
          next =>
            refine ih _ (fun i hi => hroot ?_ hi) hv
            obtain ⟨q, hq, -⟩ := hm.faithful.owned.item_holder ht hk
            refine hitem.of_pins hm ht hq ?_
            rw [hm.faithful.pinsOf_item ht hk]
            exact List.subset_cons_self _ _
        next => cases hv
  exact key _ _ (fun i hi => hroot h hi) hv

/-- A name means something known where it is read. -/
theorem Near.meaning {found : Meaning} (h : m.Near issue id)
    (hfound : m.meaning id name = .ok found) : m.NearMeaning issue found := by
  unfold Model.meaning at hfound
  obtain ⟨s, hs, hfound⟩ := except_bind_eq_ok.1 hfound
  split at hfound
  · split at hfound
    next p hp =>
      cases hfound
      exact h.parent hm (space_eq_ok.1 hs) hp
    next =>
      cases hfound
      trivial
  · cases hfound
    trivial
  · cases hfound
    exact h
  · obtain ⟨member, hmember, hfound⟩ := except_bind_eq_ok.1 hfound
    split at hfound
    next =>
      cases hfound
      exact h.memberMeaning hm hmember
    next =>
      obtain ⟨bound, hbound, hfound⟩ := except_bind_eq_ok.1 hfound
      split at hfound
      next =>
        cases hfound
        exact h.boundArgument hm hbound
      next =>
        split at hfound
        next r _ =>
          obtain ⟨q, hq, hfound⟩ := except_bind_eq_ok.1 hfound
          cases hfound
          exact knows_ref hm (reference_eq_ok.1 hq)
        next => cases hfound

end Steps

end Recalc.Model
