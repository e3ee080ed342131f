import Recalc.Proofs.EvaluationLaws

set_option autoImplicit false

/-!
# Laws of replicas

What can happen when a child of a replica or an instance of a space is asked for: nothing, because
it is there or cannot be made, or one new replica.
-/

namespace Recalc.Model

open Recalc.Action

def childRecord (parent : SpaceId) (name : String) (counterpart root : SpaceId) : Space :=
  { name, parent := some parent, kind := .dynamic counterpart root }

def itemRecord (m : Model) (s : Space) (owner counterpart : SpaceId) (key : Key) : Space :=
  { name := s.name, parent := s.parent, kind := .item owner counterpart key (m.pinsOf owner) }

def listChild (m : Model) (parent : SpaceId) (name : String) (child : SpaceId) : Model :=
  m.modifySpace parent fun p => { p with spaces := p.spaces.insert name child }

def listItem (m : Model) (owner : SpaceId) (key : Key) (item : SpaceId) : Model :=
  m.modifySpace owner fun s => { s with instances := s.instances.insert key item }

/-- Asking for a child of a replica changes nothing, or makes the child. -/
theorem ensureChild_cases {m m' : Model} {parent : SpaceId} {name : String}
    {r : Except Failure SpaceId} (h : ensureChild parent name m = some (r, m')) :
    (m' = m ∧ ∀ child, r = .ok child →
      ∃ s, m.spaces.get? parent = some s ∧ s.spaces.get? name = some child) ∨
    ∃ s root c source counterpart child m₁, m.spaces.get? parent = some s ∧
      s.spaces.get? name = none ∧ m.instanceRoot? parent = some root ∧ m.counterpart parent = .ok c ∧
      m.spaces.get? c = some source ∧ source.spaces.get? name = some counterpart ∧
      m.addReplica (childRecord parent name counterpart root) counterpart = (child, m₁) ∧
      m' = m₁.listChild parent name child ∧ r = .ok child := by
  unfold ensureChild at h
  rw [read_bind] at h
  split at h
  next s hs =>
    cases hchild : s.spaces.get? name with
    | some child =>
      rw [hchild] at h
      cases h
      refine .inl ⟨rfl, fun found hfound => ⟨s, space_eq_ok.1 hs, ?_⟩⟩
      cases hfound
      exact hchild
    | none =>
      rw [hchild] at h
      simp only [get_bind] at h
      cases hroot : m.instanceRoot? parent with
      | none =>
        rw [hroot] at h
        cases h
        exact .inl ⟨rfl, fun _ hr => nomatch hr⟩
      | some root =>
        rw [hroot] at h
        simp only [read_bind] at h
        split at h
        next source hsource =>
          obtain ⟨c, hc, hsource⟩ := except_bind_eq_ok.1 hsource
          cases hcounterpart : source.spaces.get? name with
          | none =>
            rw [hcounterpart] at h
            cases h
            exact .inl ⟨rfl, fun _ hr => nomatch hr⟩
          | some counterpart =>
            rw [hcounterpart] at h
            cases h
            exact .inr ⟨s, root, c, source, counterpart, _, _, space_eq_ok.1 hs, hchild, rfl, hc,
              space_eq_ok.1 hsource, hcounterpart, rfl, rfl, rfl⟩
        next =>
          cases h
          exact .inl ⟨rfl, fun _ hr => nomatch hr⟩
  next =>
    cases h
    exact .inl ⟨rfl, fun _ hr => nomatch hr⟩

/-- Asking for an instance fails, finds it or makes it. -/
theorem ensureItem_cases {m m' : Model} {id : SpaceId} {key : Key} {r : Except Failure Handle}
    (h : ensureItem id key m = some (r, m')) :
    (m' = m ∧ ∃ e, r = .error e) ∨ ∃ s, m.spaces.get? id = some s ∧
      ((∃ item, s.instances.get? key = some item ∧ m' = noteRead (.item id key) m ∧
        r = m'.handleTo item) ∨
      ∃ c item m₁, m.counterpart id = .ok c ∧
        (∀ other, s.instances.get? key = some other → m.spaces.contains other = false) ∧
        m.addReplica (m.itemRecord s id c key) c = (item, m₁) ∧
        m' = noteRead (.item id key) (m₁.listItem id key item) ∧ r = m'.handleTo item) := by
  unfold ensureItem at h
  rw [read_bind] at h
  split at h
  next s hs =>
    have hs := space_eq_ok.1 hs
    simp only [get_bind] at h
    cases hfound : (s.instances.get? key).filter m.spaces.contains with
    | some item =>
      rw [hfound] at h
      cases h
      exact .inr ⟨s, hs, .inl ⟨item, (Option.filter_eq_some_iff.1 hfound).1, rfl, rfl⟩⟩
    | none =>
      rw [hfound] at h
      have hdead : ∀ other, s.instances.get? key = some other →
          m.spaces.contains other = false := by
        intro other hother
        rw [hother] at hfound
        simpa [Option.filter] using hfound
      unfold makeItem at h
      simp only [read_bind, bind_assoc] at h
      cases hc : m.counterpart id with
      | error e =>
        rw [hc] at h
        cases h
        exact .inl ⟨rfl, e, rfl⟩
      | ok c =>
        rw [hc, space_eq_ok.2 hs] at h
        cases h
        exact .inr ⟨s, hs, .inr ⟨c, _, _, rfl, hdead, rfl, rfl, rfl⟩⟩
  next e _ =>
    cases h
    exact .inl ⟨rfl, e, rfl⟩

end Recalc.Model
