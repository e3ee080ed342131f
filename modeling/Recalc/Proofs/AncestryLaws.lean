import Recalc.Proofs.InstanceRemoval

set_option autoImplicit false

/-!
# Laws of ancestries

The spaces around a static space have fewer and fewer spaces around them, so no more of them are
listed than there are spaces, and the listing of an ancestry is complete.
-/

namespace Recalc.Model

variable {m : Model}

inductive Depth (m : Model) : SpaceId → Nat → Prop
  | top {id : SpaceId} {s : Space} : m.spaces.get? id = some s → s.parent = none → Depth m id 0
  | inside {id p : SpaceId} {s : Space} {n : Nat} : m.spaces.get? id = some s →
      s.parent = some p → Depth m p n → Depth m id (n + 1)

theorem Depth.unique {id : SpaceId} {n k : Nat} (h : m.Depth id n) (h' : m.Depth id k) :
    n = k := by
  induction h generalizing k with
  | top hs hp =>
    cases h' with
    | top => rfl
    | inside hs' hp' _ =>
      rw [hs] at hs'
      cases hs'
      rw [hp] at hp'
      contradiction
  | inside hs hp _ ih =>
    cases h' with
    | top hs' hp' =>
      rw [hs] at hs'
      cases hs'
      rw [hp] at hp'
      contradiction
    | inside hs' hp' hd =>
      rw [hs] at hs'
      cases hs'
      rw [hp] at hp'
      cases hp'
      rw [ih hd]

theorem ancestryFrom_succ {id : SpaceId} {s : Space} (hs : m.spaces.get? id = some s) (fuel : Nat) :
    m.ancestryFrom (fuel + 1) id = id :: s.parent.elim [] (m.ancestryFrom fuel) := by
  simp only [ancestryFrom, hs]
  cases s.parent <;> rfl

theorem Depth.of_mem {id x : SpaceId} {n fuel : Nat} (h : m.Depth id n)
    (hx : x ∈ m.ancestryFrom fuel id) : ∃ k, k ≤ n ∧ m.Depth x k := by
  induction h generalizing fuel with
  | @top id s hs hp =>
    cases fuel with
    | zero => cases hx
    | succ fuel =>
      rw [ancestryFrom_succ hs, hp] at hx
      rw [List.mem_singleton.1 hx]
      exact ⟨0, Nat.le_refl 0, .top hs hp⟩
  | @inside id p s n hs hp hd ih =>
    cases fuel with
    | zero => cases hx
    | succ fuel =>
      rw [ancestryFrom_succ hs, hp] at hx
      rcases List.mem_cons.1 hx with rfl | hx
      · exact ⟨n + 1, Nat.le_refl _, .inside hs hp hd⟩
      · obtain ⟨k, hk, hdk⟩ := ih hx
        exact ⟨k, Nat.le_succ_of_le hk, hdk⟩

theorem live_of_mem_ancestryFrom {id x : SpaceId} {fuel : Nat} (hx : x ∈ m.ancestryFrom fuel id) :
    ∃ s, m.spaces.get? x = some s := by
  induction fuel generalizing id with
  | zero => cases hx
  | succ fuel ih =>
    cases hs : m.spaces.get? id with
    | none =>
      rw [ancestryFrom, hs] at hx
      cases hx
    | some s =>
      rw [ancestryFrom_succ hs] at hx
      rcases List.mem_cons.1 hx with rfl | hx
      · exact ⟨s, hs⟩
      · cases hp : s.parent with
        | none =>
          rw [hp] at hx
          cases hx
        | some p =>
          rw [hp] at hx
          exact ih hx

theorem Depth.nodup_ancestryFrom {id : SpaceId} {n : Nat} (h : m.Depth id n) (fuel : Nat) :
    (m.ancestryFrom fuel id).Nodup := by
  induction h generalizing fuel with
  | top hs hp =>
    cases fuel with
    | zero => exact List.nodup_nil
    | succ fuel =>
      rw [ancestryFrom_succ hs, hp]
      exact List.nodup_singleton _
  | inside hs hp hd ih =>
    cases fuel with
    | zero => exact List.nodup_nil
    | succ fuel =>
      rw [ancestryFrom_succ hs, hp]
      refine List.nodup_cons.2 ⟨fun hmem => ?_, ih fuel⟩
      obtain ⟨k, hk, hdk⟩ := hd.of_mem hmem
      have := hdk.unique (.inside hs hp hd)
      omega

theorem Depth.length_ancestryFrom {id : SpaceId} {n : Nat} (h : m.Depth id n) :
    (m.ancestryFrom (n + 1) id).length = n + 1 := by
  induction h with
  | top hs hp => rw [ancestryFrom_succ hs, hp, Option.elim_none, List.length_singleton]
  | inside hs hp _ ih => rw [ancestryFrom_succ hs, hp, Option.elim_some, List.length_cons, ih]

theorem Depth.lt_capacity {id : SpaceId} {n : Nat} (h : m.Depth id n) : n < m.spaces.capacity := by
  have hlength := Pool.length_le_capacity m.spaces (m.ancestryFrom (n + 1) id)
    (h.nodup_ancestryFrom _) fun x hx => Pool.contains_iff.2 (live_of_mem_ancestryFrom hx)
  rw [h.length_ancestryFrom] at hlength
  exact hlength

/-- Beyond the depth of the space more fuel lists no more. -/
theorem Depth.ancestryFrom_eq {id : SpaceId} {n fuel fuel' : Nat} (h : m.Depth id n)
    (hn : n < fuel) (hn' : n < fuel') : m.ancestryFrom fuel id = m.ancestryFrom fuel' id := by
  obtain ⟨fuel, rfl⟩ := Nat.exists_eq_add_one_of_ne_zero (Nat.ne_zero_of_lt hn)
  obtain ⟨fuel', rfl⟩ := Nat.exists_eq_add_one_of_ne_zero (Nat.ne_zero_of_lt hn')
  induction h generalizing fuel fuel' with
  | top hs hp => rw [ancestryFrom_succ hs, ancestryFrom_succ hs, hp, Option.elim_none,
      Option.elim_none]
  | inside hs hp _ ih =>
    obtain ⟨fuel, rfl⟩ := Nat.exists_eq_add_one_of_ne_zero
      (Nat.ne_zero_of_lt (Nat.lt_of_succ_lt_succ hn))
    obtain ⟨fuel', rfl⟩ := Nat.exists_eq_add_one_of_ne_zero
      (Nat.ne_zero_of_lt (Nat.lt_of_succ_lt_succ hn'))
    rw [ancestryFrom_succ hs, ancestryFrom_succ hs, hp, Option.elim_some, Option.elim_some,
      ih fuel (by omega) fuel' (by omega)]

theorem length_ancestryFrom_le (m : Model) (fuel : Nat) (id : SpaceId) :
    (m.ancestryFrom fuel id).length ≤ fuel := by
  induction fuel generalizing id with
  | zero => exact Nat.le_refl 0
  | succ fuel ih =>
    cases hs : m.spaces.get? id with
    | none =>
      rw [ancestryFrom, hs]
      exact Nat.zero_le _
    | some s =>
      rw [ancestryFrom_succ hs, List.length_cons]
      refine Nat.succ_le_succ ?_
      cases s.parent with
      | none => exact Nat.zero_le _
      | some p => exact ih p

theorem Grounded.depth (placed : ∀ id s, m.spaces.get? id = some s → m.Placed s) {id : SpaceId}
    (h : m.Grounded id) : ∀ s, m.spaces.get? id = some s → s.isStatic = true →
      ∃ n, m.Depth id n := by
  induction h with
  | intro id s hs hp ih =>
    intro t ht hstatic
    rw [hs] at ht
    cases ht
    have hhome := Space.home_of_static hstatic
    cases hparent : s.parent with
    | none => exact ⟨0, .top hs hparent⟩
    | some p =>
      rw [hparent] at hhome
      have hholder : s.home.space? = some p := by
        rw [hhome]
        rfl
      cases hp p hholder with
      | intro _ q hq _ =>
        obtain ⟨n, hn⟩ := ih p hholder q hq ((placed id s hs).static hstatic p q hparent hq)
        exact ⟨n + 1, .inside hs hparent hn⟩

variable {id : SpaceId} {s : Space} (hm : m.Owned) (hs : m.spaces.get? id = some s)
  (hstatic : s.isStatic = true)
include hm hs hstatic

/-- Around a static space are the space itself and what is around its parent. -/
theorem Owned.ancestry_eq : m.ancestry id = id :: s.parent.elim [] m.ancestry := by
  obtain ⟨n, hn⟩ := (hm.grounded id s hs).depth hm.placed s hs hstatic
  have hcap := hn.lt_capacity
  calc
    _ = m.ancestryFrom (m.spaces.capacity + 1) id :=
      hn.ancestryFrom_eq hcap (Nat.lt_succ_of_lt hcap)
    _ = _ := ancestryFrom_succ hs m.spaces.capacity

theorem Owned.mem_ancestry {x : SpaceId} : x ∈ m.ancestry id ↔
    x = id ∨ ∃ p, s.parent = some p ∧ x ∈ m.ancestry p := by
  rw [hm.ancestry_eq hs hstatic, List.mem_cons]
  cases s.parent with
  | none => simp
  | some p => simp

theorem Owned.mem_ancestry_self : id ∈ m.ancestry id := (hm.mem_ancestry hs hstatic).2 (.inl rfl)

omit hm hs hstatic

/-- The spaces around a static space stay the same while spaces are not moved. -/
theorem Owned.mem_ancestry_congr {m' : Model} {s s' : Space} {x : SpaceId} (hm : m.Owned)
    (hm' : m'.Owned)
    (like : ∀ id s s', m.spaces.get? id = some s → m'.spaces.get? id = some s' → s.Like s')
    (hs : m.spaces.get? id = some s) (hs' : m'.spaces.get? id = some s')
    (hstatic : s.isStatic = true) : x ∈ m'.ancestry id ↔ x ∈ m.ancestry id := by
  have key : ∀ id, m.Grounded id → ∀ s s', m.spaces.get? id = some s →
      m'.spaces.get? id = some s' → s.isStatic = true →
      (x ∈ m'.ancestry id ↔ x ∈ m.ancestry id) := by
    intro id hid
    induction hid with
    | intro id t ht _ ih =>
      intro s s' hs hs' hstatic
      rw [ht] at hs
      cases hs
      have hlike := like id t s' ht hs'
      have hstatic' := hlike.isStatic.trans hstatic
      rw [hm.mem_ancestry ht hstatic, hm'.mem_ancestry hs' hstatic', hlike.parent]
      cases hp : t.parent with
      | none => simp
      | some p =>
        have hhome : t.home.space? = some p := by rw [home_space?_of_static hstatic, hp]
        obtain ⟨q, hq, hqstatic, -⟩ := hm.static_holder ht hstatic hp
        obtain ⟨q', hq', -⟩ := hm'.static_holder hs' hstatic' (hlike.parent.trans hp)
        have hiff := ih p hhome q q' hq hq' hqstatic
        simp only [Option.some.injEq, exists_eq_left', hiff]
  exact key id (hm.grounded id s hs) s s' hs hs' hstatic

end Recalc.Model
