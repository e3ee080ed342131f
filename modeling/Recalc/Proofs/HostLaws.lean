import Recalc.Proofs.EvaluationLaws
import Recalc.Request
import Recalc.Shop
import Recalc.Snapshot.Capture

set_option autoImplicit false

/-!
# Everything a host can do

A relation that every operation for the host obeys is obeyed by requests, and by rebuilding from a
snapshot, which is put together from the same operations.
-/

namespace Recalc

open Recalc.Action Recalc.Model

structure HostFrame (R : Model → Model → Prop) : Prop where
  frame : Frame R
  createSpace : ∀ fuel parent name, Obeys R (Model.createSpace fuel parent name)
  removeSpace : ∀ fuel id, Obeys R (Model.removeSpace fuel id)
  childNamed : ∀ id name, Obeys R (Model.childNamed id name)
  letSpaceBeEmpty : ∀ id allow, Obeys R (Model.letSpaceBeEmpty id allow)
  document : ∀ id doc, Obeys R (Model.document id doc)
  defineCells : ∀ fuel id name formula, Obeys R (Model.defineCells fuel id name formula)
  redefine : ∀ fuel id formula, Obeys R (Model.redefine fuel id formula)
  removeCells : ∀ fuel id, Obeys R (Model.removeCells fuel id)
  letCellsBeEmpty : ∀ fuel id allow, Obeys R (Model.letCellsBeEmpty fuel id allow)
  dropOverride : ∀ fuel id, Obeys R (Model.dropOverride fuel id)
  bindName : ∀ fuel id name value mode, Obeys R (Model.bindName fuel id name value mode)
  rebind : ∀ fuel id value, Obeys R (Model.rebind fuel id value)
  unbind : ∀ fuel id, Obeys R (Model.unbind fuel id)
  bindGlobal : ∀ name value, Obeys R (Model.bindGlobal name value)
  linkBase : ∀ fuel id base, Obeys R (Model.linkBase fuel id base)
  unlinkBase : ∀ fuel id base, Obeys R (Model.unlinkBase fuel id base)
  declareParams : ∀ fuel id params binder, Obeys R (Model.declareParams fuel id params binder)
  call : ∀ fuel held id a, Obeys R (Model.call fuel held id a)
  selectInstance : ∀ fuel held id a, Obeys R (Model.selectInstance fuel held id a)
  readFrom : ∀ fuel held id name, Obeys R (Model.readFrom fuel held id name)
  putInput : ∀ id args v, Obeys R (Model.putInput id args v)
  takeInput : ∀ id args, Obeys R (Model.takeInput id args)
  forgetCells : ∀ id, Obeys R (Model.forgetCells id)
  forgetAt : ∀ id args, Obeys R (Model.forgetAt id args)
  forgetWithin : ∀ id, Obeys R (Model.forgetWithin id)
  forgetAll : Obeys R Model.forgetAll
  discardInstance : ∀ fuel id args, Obeys R (Model.discardInstance fuel id args)
  discardInstances : ∀ id, Obeys R (Model.discardInstances id)
  reclaim : ∀ held m, R m (Model.reclaim held m).2
  flag : ∀ e, Obeys R (Model.restoreFlag e)

section Combining

variable {R : Model → Model → Prop} [Frame R]

theorem obeys_each {α : Type} {f : α → Action Unit} (h : ∀ a, Obeys R (f a))
    (l : List α) : Obeys R (each f l) := by
  induction l with
  | nil => exact obeys_pure _
  | cons a l ih => exact obeys_bind (h a) fun _ => ih

theorem obeys_loadOptional (load : Loader) (f : Option StoredFormula) :
    Obeys R (loadOptional load f) := by
  cases f with
  | none => exact obeys_pure _
  | some f => exact obeys_map _ (obeys_ofExcept _)

end Combining

namespace HostFrame

variable {R : Model → Model → Prop} (H : HostFrame R)
include H

theorem createSpaces (fuel : Nat) (l : List (Option String × StoredSpace)) :
    Obeys R (Model.createSpaces fuel l) := by
  have := H.frame
  induction l with
  | nil => exact obeys_pure _
  | cons e rest ih =>
    obtain ⟨path, s⟩ := e
    have hrest : ∀ parent, Obeys R (do
        let id ← Model.createSpace fuel parent s.name
        let more ← Model.createSpaces fuel rest
        return (id, s) :: more) := fun parent =>
      obeys_bind (H.createSpace fuel parent _) fun id => obeys_bind ih fun _ => obeys_pure _
    cases path with
    | none => exact obeys_bind (obeys_pure _) hrest
    | some p => exact obeys_bind (obeys_map _ (obeys_read _)) hrest

theorem restoreBases (fuel : Nat) (load : Loader) (e : SpaceId × StoredSpace) :
    Obeys R (Model.restoreBases fuel load e) := by
  have := H.frame
  refine obeys_bind (obeys_each (fun path => ?_) _) fun _ => ?_
  · exact obeys_bind (obeys_read _) fun base => obeys_bind (H.linkBase fuel e.1 base) fun _ =>
      obeys_pure _
  · split
    · exact obeys_bind (obeys_loadOptional load _) fun binder => H.declareParams fuel e.1 _ binder
    · exact obeys_pure _

theorem restoreCells (fuel : Nat) (load : Loader) (id : SpaceId) (c : StoredCells) :
    Obeys R (Model.restoreCells fuel load id c) := by
  have := H.frame
  refine obeys_bind (obeys_loadOptional load _) fun f => ?_
  refine obeys_bind (H.defineCells fuel id _ f) fun cell => ?_
  split
  · exact H.letCellsBeEmpty fuel cell _
  · exact obeys_pure _

theorem restoreMembers (fuel : Nat) (load : Loader) (e : SpaceId × StoredSpace) :
    Obeys R (Model.restoreMembers fuel load e) := by
  have := H.frame
  have href : ∀ r, Obeys R (Model.restoreRef fuel e.1 r) := fun r =>
    obeys_bind (obeys_read _) fun v => obeys_bind (H.bindName fuel e.1 _ v _) fun _ =>
      obeys_pure _
  have hdoc : Obeys R (if e.2.doc.isSome then Model.document e.1 e.2.doc else pure ()) := by
    split
    · exact H.document e.1 _
    · exact obeys_pure _
  refine obeys_bind (obeys_each href _) fun _ => ?_
  refine obeys_bind (obeys_each (H.restoreCells fuel load e.1) _) fun _ => ?_
  by_cases hallow : e.2.allowNone.isSome = true
  · simp only [hallow, if_true]
    exact obeys_bind (H.letSpaceBeEmpty e.1 _) fun _ => hdoc
  · simp only [hallow]
    exact hdoc

theorem restoreInputs (e : SpaceId × StoredSpace) :
    Obeys R (Model.restoreInputs e) := by
  have := H.frame
  refine obeys_each (fun c => ?_) _
  refine obeys_bind (obeys_read _) fun cell => ?_
  exact obeys_each (fun i : StoredInput => H.putInput cell i.args i.value) c.inputs

theorem restoreGlobal (g : StoredRef) : Obeys R (Model.restoreGlobal g) := by
  have := H.frame
  exact obeys_bind (obeys_read _) fun v => obeys_bind (H.bindGlobal _ v) fun _ => obeys_pure _

theorem restore (fuel : Nat) (load : Loader) (s : Snapshot) :
    Obeys R (Model.restore fuel load s) := by
  have := H.frame
  refine obeys_bind (H.createSpaces fuel _) fun spaces => ?_
  refine obeys_bind (obeys_each (H.restoreBases fuel load) _) fun _ => ?_
  refine obeys_bind (obeys_each (H.restoreMembers fuel load) _) fun _ => ?_
  refine obeys_bind (obeys_each H.flag _) fun _ => ?_
  refine obeys_bind (obeys_each H.restoreInputs _) fun _ => ?_
  exact obeys_each H.restoreGlobal _

theorem request (fuel : Nat) (held : List Handle) (q : Request) :
    Obeys R (q.run fuel held) := by
  have := H.frame
  cases q with
  | createSpace parent name => exact obeys_map _ (H.createSpace fuel parent name)
  | removeSpace id => exact obeys_map _ (H.removeSpace fuel id)
  | childNamed id name => exact obeys_map _ (H.childNamed id name)
  | letSpaceBeEmpty id allow => exact obeys_map _ (H.letSpaceBeEmpty id allow)
  | document id doc => exact obeys_map _ (H.document id doc)
  | defineCells id name formula => exact obeys_map _ (H.defineCells fuel id name formula)
  | redefine id formula => exact obeys_map _ (H.redefine fuel id formula)
  | removeCells id => exact obeys_map _ (H.removeCells fuel id)
  | letCellsBeEmpty id allow => exact obeys_map _ (H.letCellsBeEmpty fuel id allow)
  | dropOverride id => exact obeys_map _ (H.dropOverride fuel id)
  | bindName id name value mode => exact obeys_map _ (H.bindName fuel id name value mode)
  | rebind id value => exact obeys_map _ (H.rebind fuel id value)
  | unbind id => exact obeys_map _ (H.unbind fuel id)
  | bindGlobal name value => exact obeys_map _ (H.bindGlobal name value)
  | rebindGlobal name value =>
    exact obeys_map _ (obeys_bind (obeys_read _) fun id => obeys_bind (H.rebind fuel id value)
      fun _ => obeys_pure _)
  | unbindGlobal name =>
    exact obeys_map _ (obeys_bind (obeys_read _) fun id => obeys_bind (H.unbind fuel id)
      fun _ => obeys_pure _)
  | linkBase id base => exact obeys_map _ (H.linkBase fuel id base)
  | unlinkBase id base => exact obeys_map _ (H.unlinkBase fuel id base)
  | declareParams id params binder => exact obeys_map _ (H.declareParams fuel id params binder)
  | call id a => exact obeys_map _ (H.call fuel held id a)
  | selectInstance id a => exact obeys_map _ (H.selectInstance fuel held id a)
  | readFrom id name => exact obeys_map _ (H.readFrom fuel held id name)
  | putInput id args v => exact obeys_map _ (H.putInput id args v)
  | takeInput id args => exact obeys_map _ (H.takeInput id args)
  | forgetCells id => exact obeys_map _ (H.forgetCells id)
  | forgetAt id args => exact obeys_map _ (H.forgetAt id args)
  | forgetWithin id => exact obeys_map _ (H.forgetWithin id)
  | forgetAll => exact obeys_map _ H.forgetAll
  | discardInstance id args => exact obeys_map _ (H.discardInstance fuel id args)
  | discardInstances id => exact obeys_map _ (H.discardInstances id)
  | reclaim => exact obeys_map _ (obeys_update (H.reclaim held))

variable {P : Model → Prop} (keep : ∀ {m m'}, R m m' → P m → P m')
include keep

theorem born (new : ∀ name config order, P { name, config, order }) {m : Model} (h : Born m) :
    P m := by
  cases h with
  | new name config order => exact new name config order
  | @rebuilt fuel load s order m h =>
    unfold ofSnapshot at h
    split at h
    next m' hrun =>
      cases h
      exact keep (H.restore fuel load s _ _ _ hrun) (new s.name s.config order)
    next => cases h
    next => cases h

theorem becomes {allowed : Step → Prop} {start m : Model} (h : Becomes allowed start m)
    (hstart : P start) : P m := by
  induction h with
  | refl => exact hstart
  | step s _ hsound _ ih => exact keep (H.request s.fuel s.held s.request _ _ _ hsound) ih

/-- What new models have and every operation keeps is so in every reachable model. -/
theorem reachable (new : ∀ name config order, P { name, config, order }) {m : Model} (h : Reachable m) :
    P m := by
  obtain ⟨start, hborn, hbecomes⟩ := h
  exact H.becomes keep hbecomes (H.born keep new hborn)

end HostFrame

theorem Reachable.next {m m' : Model} (h : Reachable m) {q : Request} {fuel : Nat}
    {held : List Handle} {r : Except Failure Reply} (hrun : q.run fuel held m = some (r, m')) :
    Reachable m' := by
  obtain ⟨start, hborn, hbecomes⟩ := h
  exact ⟨start, hborn, .step ⟨m, fuel, held, q, r, m'⟩ hbecomes hrun trivial⟩

/-- The one formula of a registry, under every key. -/
def loadOne : Loader := fun source params => .ok ⟨0, params, .constant (.int 1), some source⟩

/-- `B` defines cells before it inherits cells of the same name that may be empty from `A`. -/
def layeredRequests : List Request :=
  [.createSpace none "A", .createSpace none "B",
    .defineCells ⟨1, 0⟩ "c" (some ((Formula.constant 0 (.int 1)).storedAs "one")),
    .defineCells ⟨0, 0⟩ "c" (some ((Formula.constant 0 (.int 1)).storedAs "one")),
    .letCellsBeEmpty ⟨1, 0⟩ (some true), .linkBase ⟨1, 0⟩ ⟨0, 0⟩]

/-- Rebuilding links bases before it defines members, so what the members inherit at that moment
stays with them: a snapshot need not be that of the model rebuilt from it. -/
theorem layered_rebuilt_otherwise : ∃ m s m' s', Reachable m ∧ m.snapshot = .ok s ∧
    ofSnapshot 20 loadOne s = some (.ok m') ∧ m'.snapshot = .ok s' ∧ (s' == s) = false := by
  have hrun : ((Request.runAll 9 [] layeredRequests Shop.start).any fun m =>
      m.snapshot.toOption.any fun s => (ofSnapshot 20 loadOne s).any fun o => o.toOption.any fun m' =>
        m'.snapshot.toOption.any fun s' => !(s' == s)) = true := by decide +kernel
  obtain ⟨m, hm, hrun⟩ := (Option.any_eq_true _ _).1 hrun
  obtain ⟨s, hs, hrun⟩ := (Option.any_eq_true _ _).1 hrun
  obtain ⟨o, ho, hrun⟩ := (Option.any_eq_true _ _).1 hrun
  obtain ⟨m', hm', hrun⟩ := (Option.any_eq_true _ _).1 hrun
  obtain ⟨s', hs', hne⟩ := (Option.any_eq_true _ _).1 hrun
  rw [toOption_eq_some] at hs hm' hs'
  exact ⟨m, s, m', s', ⟨_, .new "doc" {}, Request.becomes_of_runAll layeredRequests hm⟩, hs,
    by rw [ho, hm'], hs', by simpa using hne⟩

/-- `A.c` holds an input for two arguments, and then its formula becomes one with one parameter. -/
def narrowedRequests : List Request :=
  [.createSpace none "A",
    .defineCells ⟨0, 0⟩ "c"
      (some ⟨0, [{ name := "x" }, { name := "y" }], .constant (.int 1), some "two"⟩),
    .putInput ⟨0, 0⟩ [.int 1, .int 2] (.int 5),
    .redefine ⟨0, 0⟩ ⟨1, [{ name := "x" }], .constant (.int 1), some "one"⟩]

/-- Inputs stay when the formula changes and are stored with their arguments, but rebuilding binds
those arguments to the parameters of the formula as it stands: a snapshot need not be loadable, even
where the registry has every formula in it. -/
theorem narrowed_not_rebuilt : ∃ m s e, Reachable m ∧ m.snapshot = .ok s ∧
    ofSnapshot 20 loadOne s = some (.error e) ∧ e.kind = .invalidArguments := by
  have hrun : ((Request.runAll 9 [] narrowedRequests Shop.start).any fun m =>
      m.snapshot.toOption.any fun s => (ofSnapshot 20 loadOne s).any fun o =>
        match o with
        | .ok _ => false
        | .error e => e.kind == .invalidArguments) = true := by decide +kernel
  obtain ⟨m, hm, hrun⟩ := (Option.any_eq_true _ _).1 hrun
  obtain ⟨s, hs, hrun⟩ := (Option.any_eq_true _ _).1 hrun
  obtain ⟨o, ho, hrun⟩ := (Option.any_eq_true _ _).1 hrun
  rw [toOption_eq_some] at hs
  have hreach : Reachable m := ⟨_, .new "doc" {}, Request.becomes_of_runAll narrowedRequests hm⟩
  cases o with
  | ok _ => cases hrun
  | error e => exact ⟨m, s, e, hreach, hs, ho, by simpa using hrun⟩

end Recalc
