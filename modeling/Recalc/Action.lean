import Recalc.Model

set_option autoImplicit false

/-!
# Actions

An action changes a model and ends with a result or a failure. A failure does not undo the
changes made before it. Evaluation can nest, and waves of derivation can go on, without bound; an
action that needed more fuel than it was given has no outcome at all, which nothing can catch.
-/

namespace Recalc

def Action (α : Type) : Type := Model → Option (Except Failure α × Model)

namespace Action

variable {α β : Type}

instance : Monad Action where
  pure a := fun m => some (.ok a, m)
  bind x f := fun m =>
    match x m with
    | some (.ok a, m) => f a m
    | some (.error e, m) => some (.error e, m)
    | none => none

theorem bind_apply (x : Action α) (f : α → Action β) (m : Model) :
    (x >>= f) m =
      match x m with
      | some (.ok a, m) => f a m
      | some (.error e, m) => some (.error e, m)
      | none => none := rfl

instance : LawfulMonad Action := by
  refine LawfulMonad.mk' Action ?_ ?_ ?_
  · intro α x
    funext m
    show (match x m with
      | some (.ok a, m) => some (.ok (id a), m)
      | some (.error e, m) => some (.error e, m)
      | none => none) = x m
    rcases x m with _ | ⟨_ | _, _⟩ <;> rfl
  · intros
    rfl
  · intro α β γ x f g
    funext m
    simp only [bind_apply]
    rcases x m with _ | ⟨_ | _, _⟩ <;> rfl

def fail (e : Failure) : Action α := fun m => some (.error e, m)

def exhausted : Action α := fun _ => none

def get : Action Model := fun m => some (.ok m, m)

def modify (f : Model → Model) : Action Unit := fun m => some (.ok (), f m)

/-- Look at the model; a failure of the look-up is the action's failure. -/
def read (f : Model → Except Failure α) : Action α := fun m => some (f m, m)

def update (f : Model → α × Model) : Action α := fun m =>
  let (a, m) := f m
  some (.ok a, m)

def ofExcept (r : Except Failure α) : Action α := fun m => some (r, m)

def attempt (x : Action α) : Action (Except Failure α) := fun m =>
  match x m with
  | some (r, m) => some (.ok r, m)
  | none => none

end Action

end Recalc
