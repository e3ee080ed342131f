import Mathlib.Logic.Relation
import Recalc.Meaning
import Recalc.Proofs.MirroredReplicas

set_option autoImplicit false

/-!
# Ways upwards

From every space the links to parents and owners lead to the top in fewer steps than there are
spaces, so the walks along them end before their fuel does. The destruction of a space ends because
every space that it enters has gone by then.
-/

namespace Recalc.Model

/-- `p` is the parent or the owner of `x`. -/
def Above (m : Model) (p x : SpaceId) : Prop :=
  ∃ t, m.spaces.get? x = some t ∧
    (t.parent = some p ∨ ∃ c args enclosing, t.kind = .item p c args enclosing)

/-- The number of spaces on the way upwards through those that list one another. -/
inductive Level (m : Model) : SpaceId → Nat → Prop
  | top {x : SpaceId} {t : Space} : m.spaces.get? x = some t → t.home.space? = none → Level m x 0
  | inside {x p : SpaceId} {t : Space} {n : Nat} : m.spaces.get? x = some t →
      t.home.space? = some p → Level m p n → Level m x (n + 1)

section Levels

variable {m : Model} {x p : SpaceId} {n : Nat}

theorem Level.live (h : m.Level x n) : ∃ t, m.spaces.get? x = some t := by
  cases h with
  | top ht => exact ⟨_, ht⟩
  | inside ht => exact ⟨_, ht⟩

theorem Level.unique (h : m.Level x n) {k : Nat} (h' : m.Level x k) : n = k := by
  induction h generalizing k with
  | top ht htop =>
    cases h' with
    | top => rfl
    | inside ht' hp =>
      cases ht.symm.trans ht'
      rw [htop] at hp
      contradiction
  | inside ht hp _ ih =>
    cases h' with
    | top ht' htop =>
      cases ht.symm.trans ht'
      rw [htop] at hp
      contradiction
    | inside ht' hp' h' =>
      cases ht.symm.trans ht'
      cases hp.symm.trans hp'
      rw [ih h']

/-- The spaces on the way are all different. -/
theorem Level.way (h : m.Level x n) :
    ∃ l : List SpaceId, l.length = n + 1 ∧ l.Nodup ∧ ∀ y ∈ l, ∃ k ≤ n, m.Level y k := by
  induction h with
  | @top x t ht htop =>
    exact ⟨[x], rfl, List.nodup_singleton x, by simpa using Level.top ht htop⟩
  | @inside x p t n ht hp hlevel ih =>
    obtain ⟨l, hlength, hnodup, hlevels⟩ := ih
    have hself := Level.inside ht hp hlevel
    refine ⟨x :: l, by rw [List.length_cons, hlength], List.nodup_cons.2 ⟨fun hx => ?_, hnodup⟩, ?_⟩
    · -- those further up are on lower levels
      obtain ⟨k, hk, hlevel'⟩ := hlevels x hx
      have := hself.unique hlevel'
      omega
    · refine List.forall_mem_cons.2 ⟨⟨n + 1, le_refl _, hself⟩, fun y hy => ?_⟩
      obtain ⟨k, hk, hlevel'⟩ := hlevels y hy
      exact ⟨k, by omega, hlevel'⟩

theorem Level.lt_capacity (h : m.Level x n) : n < m.spaces.capacity := by
  obtain ⟨l, hlength, hnodup, hlevels⟩ := h.way
  have hbound := Pool.length_le_capacity m.spaces l hnodup fun y hy => by
    obtain ⟨k, -, hlevel⟩ := hlevels y hy
    exact Pool.contains_iff.2 hlevel.live
  omega

theorem Grounded.level (h : m.Grounded x) : ∃ n, m.Level x n := by
  induction h with
  | intro x t ht _ ih =>
    cases hp : t.home.space? with
    | none => exact ⟨0, .top ht hp⟩
    | some p =>
      obtain ⟨n, hn⟩ := ih p hp
      exact ⟨n + 1, .inside ht hp hn⟩

/-- A link upwards leads to a lower level. -/
theorem Level.above (h : m.Level x n) (hbeside : m.Beside) (ha : m.Above p x) :
    ∃ k < n, m.Level p k := by
  induction h generalizing p with
  | @top x t ht htop =>
    obtain ⟨t', ht', hlink⟩ := ha
    cases ht.symm.trans ht'
    exfalso
    cases hk : t.kind with
    | item owner c args enclosing =>
      rw [home_of_item hk] at htop
      contradiction
    | _ =>
      rw [home_space?_of_not_item (by simp [hk])] at htop
      simp [htop, hk] at hlink
  | @inside x q t n ht hq hlevel ih =>
    obtain ⟨t', ht', hlink⟩ := ha
    cases ht.symm.trans ht'
    cases hk : t.kind with
    | item owner c args enclosing =>
      rw [home_of_item hk] at hq
      cases hq
      rcases hlink with hparent | ⟨_, _, _, hk'⟩
      · -- the parent of an instance is the parent of its owner
        obtain ⟨s, hs⟩ := hlevel.live
        rw [hbeside.parent x t _ c args enclosing s ht hk hs] at hparent
        obtain ⟨k, hlt, hk⟩ := ih ⟨s, hs, .inl hparent⟩
        exact ⟨k, by omega, hk⟩
      · cases hk.symm.trans hk'
        exact ⟨n, by omega, hlevel⟩
    | _ =>
      rw [home_space?_of_not_item (by simp [hk])] at hq
      rcases hlink with hparent | ⟨_, _, _, hk'⟩
      · cases hq.symm.trans hparent
        exact ⟨n, by omega, hlevel⟩
      · cases hk.symm.trans hk'

theorem Level.acc (hbeside : m.Beside) (h : m.Level x n) : Acc m.Above x := by
  induction n using Nat.strongRecOn generalizing x with
  | ind n ih =>
    refine .intro x fun p ha => ?_
    obtain ⟨k, hlt, hk⟩ := h.above hbeside ha
    exact ih k hlt hk

/-- The links to parents and owners are well-founded. -/
theorem Owned.wellFounded_above (hm : m.Owned) (hbeside : m.Beside) : WellFounded m.Above := by
  refine ⟨fun x => .intro x fun p ha => ?_⟩
  obtain ⟨t, ht, -⟩ := id ha
  obtain ⟨n, hn⟩ := (hm.grounded x t ht).level
  obtain ⟨k, -, hk⟩ := hn.above hbeside ha
  exact hk.acc hbeside

/-- Parents and owners are there. -/
theorem Owned.live_of_above (hm : m.Owned) (hbeside : m.Beside) (ha : m.Above p x) :
    ∃ s, m.spaces.get? p = some s := by
  obtain ⟨t, ht, -⟩ := id ha
  obtain ⟨n, hn⟩ := (hm.grounded x t ht).level
  obtain ⟨k, -, hk⟩ := hn.above hbeside ha
  exact hk.live

end Levels

/-! ## Walks along the links -/

section Walks

variable {m : Model} {x : SpaceId} {n fuel fuel' : Nat}

theorem Level.ancestryFrom_eq (h : m.Level x n) (hbeside : m.Beside) (hfuel : n < fuel)
    (hfuel' : n < fuel') : m.ancestryFrom fuel x = m.ancestryFrom fuel' x := by
  induction n using Nat.strongRecOn generalizing x fuel fuel' with
  | ind n ih =>
    obtain ⟨fuel, rfl⟩ := Nat.exists_eq_succ_of_ne_zero (Nat.ne_zero_of_lt hfuel)
    obtain ⟨fuel', rfl⟩ := Nat.exists_eq_succ_of_ne_zero (Nat.ne_zero_of_lt hfuel')
    obtain ⟨t, ht⟩ := h.live
    rw [ancestryFrom_succ ht, ancestryFrom_succ ht]
    cases hp : t.parent with
    | none => rfl
    | some p =>
      obtain ⟨k, hlt, hk⟩ := h.above hbeside ⟨t, ht, .inl hp⟩
      exact congrArg _ (ih k hlt hk (by omega) (by omega))

theorem Level.dottedNameFrom_eq (h : m.Level x n) (hbeside : m.Beside) (hfuel : n < fuel)
    (hfuel' : n < fuel') : m.dottedNameFrom fuel x = m.dottedNameFrom fuel' x := by
  induction n using Nat.strongRecOn generalizing x fuel fuel' with
  | ind n ih =>
    obtain ⟨fuel, rfl⟩ := Nat.exists_eq_succ_of_ne_zero (Nat.ne_zero_of_lt hfuel)
    obtain ⟨fuel', rfl⟩ := Nat.exists_eq_succ_of_ne_zero (Nat.ne_zero_of_lt hfuel')
    obtain ⟨t, ht⟩ := h.live
    have hrest : ∀ p, m.Above p x → m.dottedNameFrom fuel p = m.dottedNameFrom fuel' p := by
      intro p ha
      obtain ⟨k, hlt, hk⟩ := h.above hbeside ha
      exact ih k hlt hk (by omega) (by omega)
    simp only [dottedNameFrom, ht]
    split
    next owner c args enclosing hk => rw [hrest owner ⟨t, ht, .inr ⟨_, _, _, hk⟩⟩]
    next =>
      cases hp : t.parent with
      | none => rfl
      | some p => exact congrArg (· ++ "." ++ t.name) (hrest p ⟨t, ht, .inl hp⟩)

/-- The root of the instance that a space lies in is the space or above it. -/
theorem Faithful.root_above {sites : SpaceId → Prop} (hm : m.Faithful sites) {r : SpaceId}
    (hr : m.instanceRoot? x = some r) : Relation.ReflTransGen m.Above r x := by
  have key : ∀ {n x}, m.Level x n → m.instanceRoot? x = some r →
      Relation.ReflTransGen m.Above r x := by
    intro n
    induction n using Nat.strongRecOn with
    | ind n ih =>
      intro x h hr
      obtain ⟨t, ht⟩ := h.live
      cases hm.reflects ht with
      | static hstatic =>
        rw [instanceRoot?_of_static ht hstatic] at hr
        contradiction
      | item hk =>
        simp only [instanceRoot?, ht, hk, Option.some.injEq] at hr
        subst hr
        exact .refl
      | dynamic hk hp hroot =>
        have ha := show m.Above _ x from ⟨t, ht, .inl hp⟩
        obtain ⟨k, hlt, hk'⟩ := h.above hm.arranged.beside ha
        simp only [instanceRoot?, ht, hk, Option.some.injEq] at hr
        subst hr
        exact (ih k hlt hk' hroot).tail ha
  cases ht : m.spaces.get? x with
  | none =>
    rw [instanceRoot?, ht] at hr
    contradiction
  | some t =>
    obtain ⟨n, hn⟩ := (hm.owned.grounded x t ht).level
    exact key hn hr

theorem Level.reflTransGen (h : m.Level x n) (hbeside : m.Beside) {r : SpaceId}
    (hr : Relation.ReflTransGen m.Above r x) : ∃ k ≤ n, m.Level r k := by
  induction hr using Relation.ReflTransGen.head_induction_on with
  | refl => exact ⟨n, le_refl n, h⟩
  | head ha _ ih =>
    obtain ⟨k, hle, hk⟩ := ih
    obtain ⟨j, hlt, hj⟩ := hk.above hbeside ha
    exact ⟨j, by omega, hj⟩

theorem boundArgumentFrom_eq {sites : SpaceId → Prop} (hm : m.Faithful sites) (name : String)
    {item : SpaceId} (h : m.Level item n) (hfuel : n < fuel) (hfuel' : n < fuel') :
    m.boundArgumentFrom name fuel (some item) = m.boundArgumentFrom name fuel' (some item) := by
  induction n using Nat.strongRecOn generalizing item fuel fuel' with
  | ind n ih =>
    obtain ⟨fuel, rfl⟩ := Nat.exists_eq_succ_of_ne_zero (Nat.ne_zero_of_lt hfuel)
    obtain ⟨fuel', rfl⟩ := Nat.exists_eq_succ_of_ne_zero (Nat.ne_zero_of_lt hfuel')
    obtain ⟨t, ht⟩ := h.live
    have hrest : ∀ owner, m.Above owner item →
        m.boundArgumentFrom name fuel (m.instanceRoot? owner) =
          m.boundArgumentFrom name fuel' (m.instanceRoot? owner) := by
      intro owner ha
      obtain ⟨k, hlt, hk⟩ := h.above hm.arranged.beside ha
      cases hr : m.instanceRoot? owner with
      | none => cases fuel <;> cases fuel' <;> rfl
      | some r =>
        -- the instance to look in next is the root above the owner
        obtain ⟨j, hle, hj⟩ := hk.reflTransGen hm.arranged.beside (hm.root_above hr)
        exact ih j (by omega) hj (by omega) (by omega)
    simp only [boundArgumentFrom, space_eq_ok.2 ht, bind, Except.bind]
    cases hk : t.kind with
    | item owner c args enclosing => simp only [hrest owner ⟨t, ht, .inr ⟨_, _, _, hk⟩⟩]
    | _ => rfl

end Walks

/-! ## Destruction -/

section Destruction

/-- Two folds agree while what they carry meets a condition that the steps keep. -/
theorem foldl_eq_of_keeps {α β : Type} {P : β → Prop} {f g : β → α → β}
    (h : ∀ b a, P b → f b a = g b a ∧ P (f b a)) (l : List α) {b : β} (hb : P b) :
    l.foldl f b = l.foldl g b ∧ P (l.foldl f b) := by
  induction l generalizing b with
  | nil => exact ⟨rfl, hb⟩
  | cons a l ih =>
    obtain ⟨heq, hnext⟩ := h b a hb
    rw [List.foldl_cons, List.foldl_cons, ← heq]
    exact ih hnext

def AtMost (bound : Nat) (m : Model) : Prop := m.spaces.population ≤ bound

theorem AtMost.of_spaces {bound : Nat} {m m' : Model} (h : AtMost bound m)
    (heq : m'.spaces = m.spaces) : AtMost bound m' := by
  unfold AtMost
  rw [heq]
  exact h

theorem AtMost.destroyTree {bound : Nat} {m : Model} (h : AtMost bound m) (fuel : Nat)
    (id : SpaceId) : AtMost bound (destroyTree fuel m id) :=
  Nat.le_trans
    (sheds_destroyTree (W := fun _ => True) fuel m id trivial (closed_univ m)).population h

/-- Fuel for all the spaces that are there is enough to destroy one with everything inside it. -/
theorem destroyTree_eq {fuel fuel' : Nat} {m : Model} {id : SpaceId}
    (hfuel : m.spaces.population < fuel) (hfuel' : m.spaces.population < fuel') :
    destroyTree fuel m id = destroyTree fuel' m id := by
  induction fuel generalizing fuel' m id with
  | zero => omega
  | succ fuel ih =>
    obtain ⟨fuel', rfl⟩ := Nat.exists_eq_succ_of_ne_zero (Nat.ne_zero_of_lt hfuel')
    unfold destroyTree
    split
    next => rfl
    next s spaces hremove =>
      obtain ⟨hs, rfl⟩ := (Pool.remove?_eq_some _ _).1 hremove
      have hless := Pool.population_erase hs
      obtain ⟨bound, hbound⟩ : ∃ bound, bound = (m.spaces.erase id).population := ⟨_, rfl⟩
      -- the space has gone before what is inside it goes
      have hstep : ∀ m' y, AtMost bound m' →
          destroyTree fuel m' y = destroyTree fuel' m' y ∧
            AtMost bound (destroyTree fuel m' y) := by
        intro m' y h
        have hle : m'.spaces.population ≤ bound := h
        exact ⟨ih (by omega) (by omega), h.destroyTree fuel y⟩
      obtain ⟨hinstances, herased⟩ := foldl_eq_of_keeps (P := AtMost bound)
        (f := fun m e => destroyTree fuel (m.invalidate (.item id e.1)).2 e.2)
        (g := fun m e => destroyTree fuel' (m.invalidate (.item id e.1)).2 e.2)
        (fun m' e h =>
          hstep _ e.2 (h.of_spaces (forgetsAll_invalidate m' _).forgetsSome.alike.spaces))
        s.instances.entries (b := { m with spaces := m.spaces.erase id })
        (Nat.le_of_eq hbound.symm)
      have hpruned := herased.of_spaces (alike_prune _ (.space id)).spaces
      have hcells := List.foldlRecOn (motive := AtMost bound) s.cells.values destroyCells hpruned
        fun m' h c _ => h.of_spaces (spaces_destroyCells m' c)
      have hrefs := List.foldlRecOn (motive := AtMost bound) s.refs.values destroyReference hcells
        fun m' h r _ => h.of_spaces (spaces_destroyReference m' r)
      dsimp only
      rw [← hinstances]
      exact (foldl_eq_of_keeps (fun m' y h => hstep m' y h) s.spaces.values hrefs).1

end Destruction

end Recalc.Model
