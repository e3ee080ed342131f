import Recalc.Proofs.EvaluationLaws

set_option autoImplicit false

/-!
# Failures in which no formula had a part

A look-up fails since an entity is gone, a name is unknown or arguments do not fit, and such a
failure is wrapped at the formula in whose body it comes up. Only the walk of a relative reference
through the tree of spaces can be too long, and that failure unwinds as it is. Neither is a cycle, a
missing value or the failure of a formula.
-/

namespace Recalc

/-- A chain of formulas or a walk through the tree was too long. -/
def Failure.Deep (e : Failure) : Prop := ∃ depth max, e = .tooDeep depth max

/-- A failure that is wrapped at the formula it comes up in, or a walk that was too long. -/
def Failure.Outright (e : Failure) : Prop := e.unwindsUnchanged = false ∨ e.Deep

namespace Action

variable {α β : Type}

def Raises (Q : Failure → Prop) (x : Action α) : Prop :=
  ∀ m e m', x m = some (.error e, m') → Q e

variable {Q : Failure → Prop}

theorem raises_of_ok {x : Action α} (hx : ∀ m, ∃ a m', x m = some (.ok a, m')) : Raises Q x := by
  intro m e m' h
  obtain ⟨a, m₁, ha⟩ := hx m
  rw [ha] at h
  cases h

theorem raises_pure (a : α) : Raises Q (pure a) := raises_of_ok fun m => ⟨a, m, rfl⟩

theorem raises_get : Raises Q get := raises_of_ok fun m => ⟨m, m, rfl⟩

theorem raises_modify (f : Model → Model) : Raises Q (modify f) :=
  raises_of_ok fun m => ⟨(), f m, rfl⟩

theorem raises_update (f : Model → α × Model) : Raises Q (update f) :=
  raises_of_ok fun m => ⟨(f m).1, (f m).2, rfl⟩

theorem raises_fail {e : Failure} (he : Q e) : Raises Q (fail e : Action α) := by
  intro m e' m' h
  cases h
  exact he

theorem raises_read {f : Model → Except Failure α} (hf : ∀ m e, f m = .error e → Q e) :
    Raises Q (read f) := by
  intro m e m' h
  exact hf m e (Prod.mk.inj (Option.some.inj h)).1

theorem raises_bind {x : Action α} {k : α → Action β} (hx : Raises Q x)
    (hk : ∀ a, Raises Q (k a)) : Raises Q (x >>= k) := by
  intro m e m' h
  rcases (bind_eq_some m).1 h with ⟨a, m₁, -, h⟩ | ⟨e', h, he⟩
  · exact hk a m₁ e m' h
  · cases he
    exact hx m e m' h

end Action

namespace Model

open Recalc.Action

variable {α β : Type}

/-! ## Look-ups -/

def Outright (r : Except Failure α) : Prop := ∀ e, r = .error e → e.Outright

theorem outright_ok (a : α) : Outright (.ok a : Except Failure α) := fun _ h => nomatch h

theorem outright_error {e : Failure} (he : e.unwindsUnchanged = false) :
    Outright (.error e : Except Failure α) := by
  intro e' h
  cases h
  exact .inl he

theorem Outright.bind {r : Except Failure α} {f : α → Except Failure β} (h : Outright r)
    (hf : ∀ a, Outright (f a)) : Outright (r >>= f) := by
  cases r with
  | error e => exact fun e' he => h e' (congrArg Except.error (Except.error.inj he))
  | ok a => exact hf a

theorem Outright.map {r : Except Failure α} {f : α → β} (h : Outright r) : Outright (r.map f) := by
  cases r with
  | error e => exact fun e' he => h e' (congrArg Except.error (Except.error.inj he))
  | ok a => exact outright_ok _

theorem outright_space (m : Model) (id : SpaceId) : Outright (m.space id) := by
  unfold space
  split
  · exact outright_ok _
  · exact outright_error rfl

theorem outright_cell (m : Model) (id : CellId) : Outright (m.cell id) := by
  unfold cell
  split
  · exact outright_ok _
  · exact outright_error rfl

theorem outright_reference (m : Model) (id : RefId) : Outright (m.reference id) := by
  unfold reference
  split
  · exact outright_ok _
  · exact outright_error rfl

theorem outright_counterpart (m : Model) (id : SpaceId) : Outright (m.counterpart id) :=
  (outright_space m id).bind fun _ => outright_ok _

theorem outright_handleTo (m : Model) (id : SpaceId) : Outright (m.handleTo id) :=
  (outright_space m id).bind fun _ => outright_ok _

theorem outright_argValues (m : Model) (id : SpaceId) : Outright (m.argValues id) :=
  (outright_space m id).bind fun _ => outright_ok _

theorem outright_signature (m : Model) (id : SpaceId) : Outright (m.signature id) := by
  refine (outright_counterpart m id).bind fun c => (outright_space m c).bind fun source => ?_
  split
  · exact outright_ok _
  · exact outright_error rfl

theorem outright_climb (m : Model) (count : Nat) (id : SpaceId) : Outright (m.climb count id) := by
  induction count generalizing id with
  | zero => exact outright_ok _
  | succ count ih =>
    refine (outright_space m id).bind fun s => ?_
    split
    · exact ih _
    · exact outright_ok _

theorem outright_descend (m : Model) (path : List String) (id : SpaceId) :
    Outright (m.descend path id) := by
  induction path generalizing id with
  | nil => exact outright_ok _
  | cons name rest ih =>
    refine (outright_space m id).bind fun s => ?_
    split
    · exact ih _
    · split
      · exact outright_ok _
      · exact (outright_counterpart m id).bind fun c =>
          (outright_space m c).bind fun _ => outright_ok _

theorem outright_replay (m : Model) (origin target current : SpaceId) :
    Outright (m.replay origin target current) := by
  unfold replay
  split
  · exact outright_ok _
  · dsimp only
    split
    · exact outright_ok _
    · split
      · intro e h
        cases h
        exact .inr ⟨_, _, rfl⟩
      · refine (outright_climb m _ _).bind fun top => ?_
        split
        · exact outright_ok _
        · exact (outright_descend m _ _).bind fun _ => outright_ok _

theorem outright_refMeaning (m : Model) (id : RefId) (current : SpaceId) :
    Outright (m.refMeaning id current) := by
  refine (outright_reference m id).bind fun r => ?_
  split
  · exact (outright_replay m _ _ _).bind fun _ => outright_ok _
  · exact outright_ok _

theorem outright_memberMeaning (m : Model) (id : SpaceId) (name : String) :
    Outright (m.memberMeaning id name) := by
  refine (outright_space m id).bind fun s => ?_
  split
  · exact outright_ok _
  · split
    · exact outright_ok _
    · refine (outright_counterpart m id).bind fun c => (outright_space m c).bind fun source => ?_
      split
      · exact outright_ok _
      · split
        · exact (outright_refMeaning m _ id).bind fun _ => outright_ok _
        · exact outright_ok _

theorem outright_boundArgumentFrom (m : Model) (name : String) (fuel : Nat)
    (item : Option SpaceId) : Outright (m.boundArgumentFrom name fuel item) := by
  induction fuel generalizing item with
  | zero => cases item <;> exact outright_ok _
  | succ fuel ih =>
    cases item with
    | none => exact outright_ok _
    | some item =>
      refine (outright_space m item).bind fun s => ?_
      split
      · refine (outright_space m _).bind fun source => ?_
        split
        · exact outright_ok _
        · exact ih _
      · exact outright_ok _

theorem outright_meaning (m : Model) (id : SpaceId) (name : String) :
    Outright (m.meaning id name) := by
  refine (outright_space m id).bind fun s => ?_
  split
  · exact outright_ok _
  · exact outright_ok _
  · exact outright_ok _
  · refine (outright_memberMeaning m id name).bind fun found => ?_
    split
    · exact outright_ok _
    · refine (outright_boundArgumentFrom m name _ _).bind fun v => ?_
      split
      · exact outright_ok _
      · split
        · exact (outright_reference m _).bind fun _ => outright_ok _
        · exact outright_error rfl

theorem outright_placeNamed (params : List Param) (target : String)
    (named : List (String × Value)) (slots : List (Option Value)) :
    Outright (Binding.placeNamed params (.invalidArguments target) named slots) := by
  induction named generalizing slots with
  | nil => exact outright_ok _
  | cons e rest ih =>
    unfold Binding.placeNamed
    split
    · exact outright_error rfl
    · split
      · exact outright_error rfl
      · exact ih _

theorem outright_fillDefaults (target : String) (params : List Param)
    (slots : List (Option Value)) :
    Outright (Binding.fillDefaults (.invalidArguments target) params slots) := by
  induction params generalizing slots with
  | nil => exact outright_ok _
  | cons p params ih =>
    cases slots with
    | nil => exact outright_ok _
    | cons slot slots =>
      unfold Binding.fillDefaults
      split
      · exact (ih slots).map
      · exact outright_error rfl

theorem outright_matchArguments (params : List Param) (a : Arguments) (target : String) :
    Outright (matchArguments params a target) := by
  unfold matchArguments
  dsimp only
  split
  · exact outright_error rfl
  · have hplaced := outright_placeNamed params target a.named
      (Binding.placePositional params a.positional)
    split
    next e he =>
      rw [he] at hplaced
      exact fun e' heq => hplaced e' (congrArg Except.error (Except.error.inj heq))
    next => exact outright_fillDefaults target params _

theorem outright_ofValues (vs : List Value) : Outright (Key.ofValues vs) := by
  intro e h
  obtain ⟨o, -, rfl⟩ := Value.exists_holds_member (Key.ofValues_eq_error.1 h) fun _ _ =>
    Value.exists_holds
  exact outright_error (α := Key) rfl _ rfl

theorem outright_bindCells (m : Model) (id : CellId) (a : Arguments) :
    Outright (m.bindCells id a) := by
  refine (outright_cell m id).bind fun c => ?_
  split
  · exact (outright_matchArguments _ a _).bind fun vs => outright_ofValues vs
  · split
    · exact outright_ofValues _
    · exact outright_error rfl

theorem outright_canonicalArguments (spec : Signature) (target : String) (bound : List Value)
    (given : Value) : Outright (canonicalArguments spec target bound given) := by
  have hother : Outright (if spec.params.length = 1 then Except.ok [given]
      else .error (Failure.invalidArguments target ("binder returned " ++ given.display ++
        ", expected a tuple of " ++ toString spec.params.length ++ " values"))) := by
    split
    · exact outright_ok _
    · exact outright_error rfl
  unfold canonicalArguments
  dsimp only
  split
  · exact outright_ok _
  · split
    · exact outright_ok _
    · exact hother
  · split
    · exact outright_ok _
    · exact hother
  · exact hother

/-! ## Places and instances -/

theorem outright_ensureChild (parent : SpaceId) (name : String) :
    Raises Failure.Outright (ensureChild parent name) := by
  refine raises_bind (raises_read fun m => outright_space m parent) fun s => ?_
  split
  · exact raises_pure _
  · refine raises_bind raises_get fun m => ?_
    dsimp only
    split
    · exact raises_fail (.inl rfl)
    · refine raises_bind (raises_read fun m => ?_) fun source => ?_
      · exact (outright_counterpart m parent).bind fun c => outright_space m c
      · split
        · exact raises_fail (.inl rfl)
        · exact raises_update _

theorem outright_ensurePlace (target : Place) : Raises Failure.Outright (ensurePlace target) := by
  cases target with
  | existing id =>
    exact raises_bind (raises_read fun m => outright_space m id) fun _ => raises_pure id
  | pending start path =>
    unfold ensurePlace
    induction path generalizing start with
    | nil => exact raises_pure start
    | cons name rest ih => exact raises_bind (outright_ensureChild start name) fun id => ih id

theorem outright_handleValue (target : Place) : Raises Failure.Outright (handleValue target) :=
  raises_bind (outright_ensurePlace target) fun id =>
    raises_bind (raises_read fun m => outright_handleTo m id) fun _ => raises_pure _

theorem outright_ensureItem (id : SpaceId) (key : Key) : Raises Failure.Outright (ensureItem id key) := by
  refine raises_bind (raises_read fun m => outright_space m id) fun s =>
    raises_bind raises_get fun m => ?_
  split
  · exact raises_bind (raises_modify _) fun _ => raises_read fun m => outright_handleTo m _
  · refine raises_bind ?_ fun item =>
      raises_bind (raises_modify _) fun _ => raises_read fun m => outright_handleTo m item
    exact raises_bind (raises_read fun m => outright_counterpart m id) fun _ =>
      raises_bind (raises_read fun m => outright_space m id) fun _ => raises_update _

end Model

end Recalc
