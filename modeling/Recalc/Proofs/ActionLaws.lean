import Recalc.Reclaim
import Recalc.Wave

set_option autoImplicit false

/-!
# Laws of actions

How an action that begins with a look at the model goes on, and what it means that an action obeys
a relation between the models before and after. A relation that is reflexive and transitive is
obeyed by a sequence of actions when each of them obeys it.
-/

namespace Recalc.Action

variable {α β : Type}

section Steps

variable (m : Model)

theorem read_bind (f : Model → Except Failure α) (k : α → Action β) :
    (read f >>= k) m =
      match f m with
      | .ok a => k a m
      | .error e => some (.error e, m) := by
  rw [bind_apply]
  unfold read
  cases f m <;> rfl

theorem get_bind (k : Model → Action β) : (get >>= k) m = k m m := rfl

theorem modify_bind (f : Model → Model) (k : Unit → Action β) :
    (modify f >>= k) m = k () (f m) := rfl

theorem attempt_bind (x : Action α) (k : Except Failure α → Action β) :
    (attempt x >>= k) m =
      match x m with
      | some (r, m') => k r m'
      | none => none := by
  rw [bind_apply]
  unfold attempt
  rcases x m with _ | ⟨r, m'⟩ <;> rfl

/-- A sequence ends with a failure of its first part or with the outcome of the second. -/
theorem bind_eq_some {x : Action α} {k : α → Action β} {r : Except Failure β} {m' : Model} :
    (x >>= k) m = some (r, m') ↔
      (∃ a m₁, x m = some (.ok a, m₁) ∧ k a m₁ = some (r, m')) ∨
        ∃ e, x m = some (.error e, m') ∧ r = .error e := by
  rw [bind_apply]
  rcases x m with _ | ⟨e | a, m₁⟩
  · simp
  · constructor
    · intro h
      cases h
      exact .inr ⟨e, rfl, rfl⟩
    · rintro (⟨a, m₂, h, -⟩ | ⟨e', h, rfl⟩) <;> cases h
      rfl
  · constructor
    · exact fun h => .inl ⟨a, m₁, rfl, h⟩
    · rintro (⟨a', m₂, h, h'⟩ | ⟨e, h, -⟩) <;> cases h
      exact h'

theorem attempt_eq_some {x : Action α} {r : Except Failure (Except Failure α)} {m' : Model} :
    attempt x m = some (r, m') ↔ ∃ q, x m = some (q, m') ∧ r = .ok q := by
  unfold attempt
  rcases x m with _ | ⟨q, m₁⟩
  · simp
  · constructor
    · intro h
      cases h
      exact ⟨q, rfl, rfl⟩
    · rintro ⟨q', h, rfl⟩
      cases h
      rfl

end Steps

/-- Whatever the action does to a model, the models before and after are related. -/
def Obeys (R : Model → Model → Prop) (x : Action α) : Prop :=
  ∀ m r m', x m = some (r, m') → R m m'

theorem Obeys.mono {R R' : Model → Model → Prop} {x : Action α} (h : Obeys R x)
    (le : ∀ {m m'}, R m m' → R' m m') : Obeys R' x := fun m r m' hx => le (h m r m' hx)

/-- A relation that doing nothing and doing one thing after another obey. -/
class Frame (R : Model → Model → Prop) : Prop where
  refl : ∀ m, R m m
  trans : ∀ {m₁ m₂ m₃}, R m₁ m₂ → R m₂ m₃ → R m₁ m₃

def Keeps (P : Model → Prop) (m m' : Model) : Prop := P m → P m'

instance (P : Model → Prop) : Frame (Keeps P) where
  refl _ h := h
  trans h h' hp := h' (h hp)

section Frames

variable {R : Model → Model → Prop} [Frame R]

theorem obeys_pure (a : α) : Obeys R (pure a) := by
  intro m r m' h
  cases h
  exact Frame.refl m

theorem obeys_fail (e : Failure) : Obeys R (fail e : Action α) := by
  intro m r m' h
  cases h
  exact Frame.refl m

theorem obeys_read (f : Model → Except Failure α) : Obeys R (read f) := by
  intro m r m' h
  cases h
  exact Frame.refl m

theorem obeys_ofExcept (r : Except Failure α) : Obeys R (ofExcept r) := by
  intro m r m' h
  cases h
  exact Frame.refl m

theorem obeys_get : Obeys R get := by
  intro m r m' h
  cases h
  exact Frame.refl m

omit [Frame R] in
theorem obeys_exhausted : Obeys R (exhausted : Action α) := by
  intro m r m' h
  cases h

omit [Frame R] in
theorem obeys_modify {f : Model → Model} (h : ∀ m, R m (f m)) : Obeys R (modify f) := by
  intro m r m' hm
  cases hm
  exact h m

omit [Frame R] in
theorem obeys_update {f : Model → α × Model} (h : ∀ m, R m (f m).2) : Obeys R (update f) := by
  intro m r m' hm
  cases hm
  exact h m

theorem obeys_bind {x : Action α} {k : α → Action β} (hx : Obeys R x)
    (hk : ∀ a, Obeys R (k a)) : Obeys R (x >>= k) := by
  intro m r m' h
  rcases (bind_eq_some m).1 h with ⟨a, m₁, h₁, h₂⟩ | ⟨e, h₁, -⟩
  · exact Frame.trans (hx _ _ _ h₁) (hk a _ _ _ h₂)
  · exact hx _ _ _ h₁

theorem obeys_map {x : Action α} (f : α → β) (h : Obeys R x) : Obeys R (f <$> x) := by
  rw [← bind_pure_comp]
  exact obeys_bind h fun _ => obeys_pure _

omit [Frame R] in
theorem obeys_attempt {x : Action α} (hx : Obeys R x) : Obeys R (attempt x) := by
  intro m r m' h
  obtain ⟨q, hq, -⟩ := (attempt_eq_some m).1 h
  exact hx _ _ _ hq

end Frames

/-- A relation that costs something: doing nothing is free, and doing one thing after another costs
what both cost. -/
class Graded (R : Nat → Model → Model → Prop) : Prop where
  refl : ∀ m, R 0 m m
  trans : ∀ {i j m₁ m₂ m₃}, R i m₁ m₂ → R j m₂ m₃ → R (i + j) m₁ m₃
  mono : ∀ {i j m m'}, i ≤ j → R i m m' → R j m m'

instance (R : Nat → Model → Model → Prop) [Graded R] : Frame (R 0) where
  refl := Graded.refl
  trans h h' := Graded.trans h h'

instance (R : Model → Model → Prop) [Frame R] : Graded fun _ => R where
  refl := Frame.refl
  trans h h' := Frame.trans h h'
  mono _ h := h

section Costs

variable {R : Nat → Model → Model → Prop} [Graded R] {i j n : Nat}

theorem obeys_within {x : Action α} (h : Obeys (R i) x) (le : i ≤ n) : Obeys (R n) x :=
  fun m r m' hx => Graded.mono le (h m r m' hx)

theorem obeys_any {x : Action α} (h : Obeys (R 0) x) : Obeys (R n) x :=
  obeys_within h (Nat.zero_le n)

theorem obeys_seq {x : Action α} {k : α → Action β} (hx : Obeys (R i) x)
    (hk : ∀ a, Obeys (R j) (k a)) (le : i + j ≤ n) : Obeys (R n) (x >>= k) := by
  intro m r m' h
  refine Graded.mono le ?_
  rcases (bind_eq_some m).1 h with ⟨a, m₁, h₁, h₂⟩ | ⟨e, h₁, -⟩
  · exact Graded.trans (hx _ _ _ h₁) (hk a _ _ _ h₂)
  · exact Graded.mono (Nat.le_add_right i j) (hx _ _ _ h₁)

theorem obeys_first {x : Action α} {k : α → Action β} (hx : Obeys (R 0) x)
    (hk : ∀ a, Obeys (R n) (k a)) : Obeys (R n) (x >>= k) :=
  obeys_seq hx hk (Nat.le_of_eq (Nat.zero_add n))

theorem obeys_last {x : Action α} {k : α → Action β} (hx : Obeys (R n) x)
    (hk : ∀ a, Obeys (R 0) (k a)) : Obeys (R n) (x >>= k) :=
  obeys_seq hx hk (Nat.le_refl n)

theorem obeys_reply {x : Action α} (f : α → β) (h : Obeys (R n) x) : Obeys (R n) (f <$> x) := by
  rw [← bind_pure_comp]
  exact obeys_last h fun _ => obeys_pure _

end Costs

section Ends

variable {α β : Type} {Q S : Model → Prop} {m : Model}

def Ends (Q : Model → Prop) (x : Action α) (m : Model) : Prop :=
  ∀ r m', x m = some (r, m') → Q m'

theorem ends_pure {a : α} (h : Q m) : Ends Q (pure a) m := by
  intro r m' hx
  cases hx
  exact h

theorem ends_fail {e : Failure} (h : Q m) : Ends Q (fail e : Action α) m := by
  intro r m' hx
  cases hx
  exact h

theorem ends_read {f : Model → Except Failure α} {k : α → Action β} (stay : Q m)
    (h : ∀ a, f m = .ok a → Ends Q (k a) m) : Ends Q (read f >>= k) m := by
  intro r m' hx
  rw [read_bind] at hx
  split at hx
  next a ha => exact h a ha r m' hx
  next =>
    cases hx
    exact stay

/-- What is looked for is there. -/
theorem ends_found {f : Model → Except Failure α} {k : α → Action β} {a : α} (found : f m = .ok a)
    (h : Ends Q (k a) m) : Ends Q (read f >>= k) m := by
  intro r m' hx
  rw [read_bind, found] at hx
  exact h r m' hx

theorem ends_get {k : Model → Action β} (h : Ends Q (k m) m) : Ends Q (get >>= k) m := h

theorem ends_modify {f : Model → Model} {k : Unit → Action β} (h : Ends Q (k ()) (f m)) :
    Ends Q (modify f >>= k) m := h

theorem ends_update {f : Model → α × Model} {k : α → Action β}
    (h : Ends Q (k (f m).1) (f m).2) : Ends Q (update f >>= k) m := h

theorem ends_change {f : Model → α × Model} (h : Q (f m).2) : Ends Q (update f) m := by
  intro r m' hx
  cases hx
  exact h

theorem ends_bind {x : Action α} {k : α → Action β} (hx : Ends S x m)
    (hk : ∀ a m, S m → Ends Q (k a) m) (stop : ∀ m, S m → Q m) : Ends Q (x >>= k) m := by
  intro r m' h
  rcases (bind_eq_some m).1 h with ⟨a, m₁, h₁, h₂⟩ | ⟨e, h₁, rfl⟩
  · exact hk a m₁ (hx _ _ h₁) r m' h₂
  · exact stop m' (hx _ _ h₁)

theorem ends_attempt {x : Action α} {k : Except Failure α → Action β} (hx : Ends S x m)
    (hk : ∀ r m, S m → Ends Q (k r) m) : Ends Q (attempt x >>= k) m := by
  intro r m' h
  rcases (bind_eq_some m).1 h with ⟨a, m₁, h₁, h₂⟩ | ⟨e, h₁, rfl⟩
  · obtain ⟨b, hb, heq⟩ := (attempt_eq_some m).1 h₁
    exact hk a m₁ (hx _ _ hb) r m' h₂
  · obtain ⟨b, hb, heq⟩ := (attempt_eq_some m).1 h₁
    cases heq

end Ends

end Recalc.Action

namespace Recalc.Model

open Recalc.Action

/-! ## Actions that always end -/

def Total {α : Type} (x : Action α) : Prop := ∀ m, ∃ r m', x m = some (r, m')

theorem Total.bind {α β : Type} {x : Action α} {k : α → Action β} (hx : Total x)
    (hk : ∀ a, Total (k a)) : Total (x >>= k) := by
  intro m
  obtain ⟨r, m₁, hr⟩ := hx m
  cases r with
  | error e => exact ⟨.error e, m₁, (bind_eq_some m).2 (.inr ⟨e, hr, rfl⟩)⟩
  | ok a =>
    obtain ⟨q, m₂, hq⟩ := hk a m₁
    exact ⟨q, m₂, (bind_eq_some m).2 (.inl ⟨a, m₁, hr, hq⟩)⟩

theorem total_pure {α : Type} (a : α) : Total (pure a) := fun m => ⟨.ok a, m, rfl⟩

theorem total_fail {α : Type} (e : Failure) : Total (fail e : Action α) :=
  fun m => ⟨.error e, m, rfl⟩

theorem total_read {α : Type} (f : Model → Except Failure α) : Total (read f) :=
  fun m => ⟨f m, m, rfl⟩

theorem total_modify (f : Model → Model) : Total (modify f) := fun m => ⟨.ok (), f m, rfl⟩

theorem total_update {α : Type} (f : Model → α × Model) : Total (update f) :=
  fun m => ⟨.ok (f m).1, (f m).2, rfl⟩

/-! ## What waves and reclamation obey -/

variable {R : Model → Model → Prop} [Frame R]

/-- A wave costs what its derivations cost. -/
theorem obeys_wave {R : Nat → Model → Model → Prop} [Graded R] (h : ∀ id, Obeys (R 1) (derive id))
    (fuel stalled : Nat) (queue : List SpaceId) (summary : Summary) :
    Obeys (R fuel) (wave fuel stalled queue summary) := by
  induction fuel generalizing stalled queue summary with
  | zero => exact obeys_exhausted
  | succ fuel ih =>
    cases queue with
    | nil => exact obeys_any (obeys_pure _)
    | cons id rest =>
      unfold wave
      refine obeys_first obeys_get fun m => ?_
      split
      · exact obeys_within (ih _ _ _) (Nat.le_succ fuel)
      · split
        · exact obeys_within (ih _ _ _) (Nat.le_succ fuel)
        · exact obeys_seq (h id) (fun changes => obeys_first obeys_get fun m => ih _ _ _)
            (Nat.le_of_eq (Nat.add_comm 1 fuel))

/-- A wave obeys what every derivation obeys. -/
theorem obeys_deriveFrom (h : ∀ id, Obeys R (derive id)) (fuel : Nat) (starts : List SpaceId) :
    Obeys R (deriveFrom fuel starts) :=
  obeys_bind obeys_get fun _ => obeys_wave (R := fun _ => R) h fuel _ _ _

/-- Reclamation obeys what every removal of an instance obeys. -/
theorem reclaim_obeys (h : ∀ m owner key, R m (m.removeInstance owner key).2)
    (held : List Handle) (m : Model) : R m (m.reclaim held).2 := by
  have hremove : ∀ (dead : List (SpaceId × Key)) (r : Nat × Model),
      R r.2 (dead.foldl (fun r i => (if (r.2.removeInstance i.1 i.2).1 then r.1 + 1 else r.1,
        (r.2.removeInstance i.1 i.2).2)) r).2 := by
    intro dead
    induction dead with
    | nil => exact fun r => Frame.refl r.2
    | cons i dead ih => exact fun r => Frame.trans (h r.2 i.1 i.2) (ih (_, _))
  have hrounds : ∀ fuel count m, R m (reclaimRounds held fuel count m).2 := by
    intro fuel
    induction fuel with
    | zero => exact fun _ m => Frame.refl m
    | succ fuel ih =>
      intro count m
      unfold reclaimRounds
      split
      next => exact Frame.refl m
      next => exact Frame.trans (hremove _ (0, m)) (ih _ _)
  exact hrounds _ _ _

end Recalc.Model
