import Mathlib.Data.List.Forall2
import Recalc.Key

set_option autoImplicit false

/-!
# Normal forms

A sequence of values has normal forms when all of its members have them. Only a host object keeps a
value from having one, at whatever depth it is, and the failure is about such an object. A normal
form is its own normal form.
-/

namespace Recalc

section Results

variable {α β : Type} {x : Except Failure α} {f : α → β}

theorem except_map_eq_ok {b : β} : x.map f = .ok b ↔ ∃ a, x = .ok a ∧ f a = b := by
  cases x <;> simp [Except.map]

theorem except_map_eq_error {e : Failure} : x.map f = .error e ↔ x = .error e := by
  cases x <;> simp [Except.map]

end Results

namespace Value

variable {v w : Value} {vs ws : List Value} {o : HostObject}

/-- Values are built from their members. -/
theorem induct {P : Value → Prop} (empty : P .empty) (bool : ∀ b, P (.bool b))
    (int : ∀ i, P (.int i)) (number : ∀ x, P (.number x)) (text : ∀ s, P (.text s))
    (tuple : ∀ items, (∀ v ∈ items, P v) → P (.tuple items))
    (list : ∀ items, (∀ v ∈ items, P v) → P (.list items)) (space : ∀ h, P (.space h))
    (host : ∀ o, P (.host o)) (v : Value) : P v :=
  @Value.rec P (fun items => ∀ v ∈ items, P v) empty bool int number text tuple list space host
    (fun _ h => absurd h List.not_mem_nil)
    (fun _ _ hfirst hrest => List.forall_mem_cons.2 ⟨hfirst, hrest⟩) v

/-! ## Normal forms -/

theorem normalizeItems_eq_ok :
    normalizeItems vs = .ok ws ↔ List.Forall₂ (fun v w => v.normalize = .ok w) vs ws := by
  induction vs generalizing ws with
  | nil =>
    rw [normalizeItems, Except.ok.injEq, List.forall₂_nil_left_iff]
    exact eq_comm
  | cons v vs ih =>
    rw [List.forall₂_cons_left_iff, normalizeItems]
    simp only [← ih]
    cases hv : v.normalize <;> cases hvs : normalizeItems vs <;> simp [Except.map, eq_comm]

theorem exists_of_normalizeItems_eq_error {e : Failure} (h : normalizeItems vs = .error e) :
    ∃ v ∈ vs, v.normalize = .error e := by
  induction vs with
  | nil => cases h
  | cons v vs ih =>
    rw [normalizeItems] at h
    cases hv : v.normalize with
    | error e' =>
      rw [hv] at h
      cases h
      exact ⟨v, List.mem_cons_self, hv⟩
    | ok w =>
      rw [hv] at h
      obtain ⟨u, hu, hfails⟩ := ih (except_map_eq_error.1 h)
      exact ⟨u, List.mem_cons_of_mem v hu, hfails⟩

theorem exists_normalize_of_mem (h : normalizeItems vs = .ok ws) (hv : v ∈ vs) :
    ∃ w, v.normalize = .ok w := by
  have hws := normalizeItems_eq_ok.1 h
  induction hws with
  | nil => exact absurd hv List.not_mem_nil
  | cons hfirst hrest ih =>
    rcases List.mem_cons.1 hv with rfl | hv
    · exact ⟨_, hfirst⟩
    · exact ih (normalizeItems_eq_ok.2 hrest) hv

/-- What members have in common with their normal forms, a sequence has in common with its own. -/
theorem map_of_normalizeItems {β : Type} {f : Value → β}
    (h : ∀ v ∈ vs, ∀ w, v.normalize = .ok w → f w = f v) (hws : normalizeItems vs = .ok ws) :
    ws.map f = vs.map f := by
  have hmembers := normalizeItems_eq_ok.1 hws
  clear hws
  induction hmembers with
  | nil => rfl
  | @cons v w vs ws hw _ ih =>
    obtain ⟨hfirst, hrest⟩ := List.forall_mem_cons.1 h
    rw [List.map_cons, List.map_cons, hfirst w hw, ih hrest]

theorem areNormal_iff : areNormal vs = true ↔ ∀ v ∈ vs, v.isNormal = true := by
  induction vs with
  | nil => simp [areNormal]
  | cons v vs ih => rw [areNormal, Bool.and_eq_true, ih, List.forall_mem_cons]

theorem normalize_of_isNormal (h : v.isNormal = true) : v.normalize = .ok v := by
  induction v using induct with
  | tuple items ih =>
    have hitems : normalizeItems items = .ok items :=
      normalizeItems_eq_ok.2 (List.forall₂_same.2 fun v hv => ih v hv (areNormal_iff.1 h v hv))
    rw [normalize, hitems]
    rfl
  | list | host => cases h
  | _ => rfl

/-! ## Host objects in values -/

inductive Holds (o : HostObject) : Value → Prop
  | host : Holds o (.host o)
  | tuple {items : List Value} {v : Value} : v ∈ items → Holds o v → Holds o (.tuple items)
  | list {items : List Value} {v : Value} : v ∈ items → Holds o v → Holds o (.list items)

theorem Holds.normalize_ne_ok (h : v.Holds o) : v.normalize ≠ .ok w := by
  induction h generalizing w with
  | host => exact fun hw => by cases hw
  | tuple hv _ ih | list hv _ ih =>
    intro hw
    rw [normalize, except_map_eq_ok] at hw
    obtain ⟨ws, hws, -⟩ := hw
    obtain ⟨u, hu⟩ := exists_normalize_of_mem hws hv
    exact ih hu

/-- The failure of a sequence is about a host object in one of its members. -/
theorem exists_holds_member {e : Failure} (h : normalizeItems vs = .error e)
    (hmembers : ∀ v ∈ vs, v.normalize = .error e → ∃ o, v.Holds o ∧ e = unhashable o) :
    ∃ o, (∃ v ∈ vs, v.Holds o) ∧ e = unhashable o := by
  obtain ⟨v, hv, hfails⟩ := exists_of_normalizeItems_eq_error h
  obtain ⟨o, hholds, he⟩ := hmembers v hv hfails
  exact ⟨o, ⟨v, hv, hholds⟩, he⟩

/-- Only a host object keeps a value from having a normal form. -/
theorem exists_holds {e : Failure} (h : v.normalize = .error e) :
    ∃ o, v.Holds o ∧ e = unhashable o := by
  induction v using induct with
  | tuple items ih =>
    obtain ⟨o, ⟨v, hv, hholds⟩, he⟩ := exists_holds_member (except_map_eq_error.1 h) ih
    exact ⟨o, .tuple hv hholds, he⟩
  | list items ih =>
    obtain ⟨o, ⟨v, hv, hholds⟩, he⟩ := exists_holds_member (except_map_eq_error.1 h) ih
    exact ⟨o, .list hv hholds, he⟩
  | host o =>
    cases h
    exact ⟨o, .host, rfl⟩
  | _ => cases h

theorem normalize_fails_iff : (∃ e, v.normalize = .error e) ↔ ∃ o, v.Holds o := by
  constructor
  · rintro ⟨e, h⟩
    obtain ⟨o, hholds, -⟩ := exists_holds h
    exact ⟨o, hholds⟩
  · rintro ⟨o, hholds⟩
    cases hv : v.normalize with
    | error e => exact ⟨e, rfl⟩
    | ok w => exact absurd hv hholds.normalize_ne_ok

theorem exists_normalizeItems (h : ∀ v ∈ vs, ∀ o, ¬ v.Holds o) :
    ∃ ws, normalizeItems vs = .ok ws := by
  cases hvs : normalizeItems vs with
  | ok ws => exact ⟨ws, rfl⟩
  | error e =>
    obtain ⟨o, ⟨v, hv, hholds⟩, -⟩ := exists_holds_member hvs fun _ _ => exists_holds
    exact absurd hholds (h v hv o)

end Value

/-! ## Keys -/

namespace Key

variable {as : List Value} {k : Key}

theorem ofValues_eq_ok : ofValues as = .ok k ↔ Value.normalizeItems as = .ok k.values := by
  unfold ofValues
  split
  next values h =>
    constructor
    · intro hk
      cases hk
      exact h
    · intro hk
      obtain ⟨values', hnormal⟩ := k
      cases h.symm.trans hk
      rfl
  next e h => simp only [h, reduceCtorEq]

theorem ofValues_eq_error {e : Failure} :
    ofValues as = .error e ↔ Value.normalizeItems as = .error e := by
  unfold ofValues
  split
  next values h => simp only [h, reduceCtorEq]
  next e' h => simp only [h, Except.error.injEq]

theorem exists_ofValues (h : ∀ v ∈ as, ∀ o, ¬ v.Holds o) : ∃ k, ofValues as = .ok k := by
  obtain ⟨values, hvalues⟩ := Value.exists_normalizeItems h
  exact ⟨⟨values, Value.areNormal_of_normalizeItems as values hvalues⟩, ofValues_eq_ok.2 hvalues⟩

end Key

end Recalc
