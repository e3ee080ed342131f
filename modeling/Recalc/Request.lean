import Recalc.Call
import Recalc.Snapshot.Rebuild

set_option autoImplicit false

/-!
# Requests

A request is one thing that a host asks of a model and that can change it. A model in use goes
from request to request; each of them is carried out to its end, whether it succeeds or fails.
-/

namespace Recalc

open Recalc.Action

inductive Request where
  | createSpace (parent : Option SpaceId) (name : String)
  | removeSpace (id : SpaceId)
  | childNamed (id : SpaceId) (name : String)
  | letSpaceBeEmpty (id : SpaceId) (allow : Option Bool)
  | document (id : SpaceId) (doc : Option String)
  | defineCells (id : SpaceId) (name : String) (formula : Option Formula)
  | redefine (id : CellId) (formula : Formula)
  | removeCells (id : CellId)
  | letCellsBeEmpty (id : CellId) (allow : Option Bool)
  | dropOverride (id : CellId)
  | bindName (id : SpaceId) (name : String) (value : Value) (mode : RefMode)
  | rebind (id : RefId) (value : Value)
  | unbind (id : RefId)
  | bindGlobal (name : String) (value : Value)
  | rebindGlobal (name : String) (value : Value)
  | unbindGlobal (name : String)
  | linkBase (id base : SpaceId)
  | unlinkBase (id base : SpaceId)
  | declareParams (id : SpaceId) (params : List Param) (binder : Option Formula)
  | call (id : CellId) (a : Arguments)
  | selectInstance (id : SpaceId) (a : Arguments)
  | readFrom (id : SpaceId) (name : String)
  | putInput (id : CellId) (args : List Value) (v : Value)
  | takeInput (id : CellId) (args : List Value)
  | forgetCells (id : CellId)
  | forgetAt (id : CellId) (args : List Value)
  | forgetWithin (id : SpaceId)
  | forgetAll
  | discardInstance (id : SpaceId) (args : List Value)
  | discardInstances (id : SpaceId)
  | reclaim

inductive Reply where
  | done
  | space (id : SpaceId)
  | cells (id : CellId)
  | ref (id : RefId)
  | value (v : Value)
  | handle (h : Handle)
  | summary (s : Summary)
  | count (n : Nat)
  | flag (b : Bool)

namespace Request

open Model

/-- Carry a request out for a host that holds the given handles. -/
def run (fuel : Nat) (held : List Handle) : Request → Action Reply
  | .createSpace parent name => Reply.space <$> Model.createSpace fuel parent name
  | .removeSpace id => Reply.summary <$> Model.removeSpace fuel id
  | .childNamed id name => Reply.space <$> Model.childNamed id name
  | .letSpaceBeEmpty id allow => (fun _ => .done) <$> Model.letSpaceBeEmpty id allow
  | .document id doc => (fun _ => .done) <$> Model.document id doc
  | .defineCells id name formula => Reply.cells <$> Model.defineCells fuel id name formula
  | .redefine id formula => Reply.summary <$> Model.redefine fuel id formula
  | .removeCells id => Reply.summary <$> Model.removeCells fuel id
  | .letCellsBeEmpty id allow => (fun _ => .done) <$> Model.letCellsBeEmpty fuel id allow
  | .dropOverride id => Reply.summary <$> Model.dropOverride fuel id
  | .bindName id name value mode => Reply.ref <$> Model.bindName fuel id name value mode
  | .rebind id value => Reply.summary <$> Model.rebind fuel id value
  | .unbind id => Reply.summary <$> Model.unbind fuel id
  | .bindGlobal name value => Reply.ref <$> Model.bindGlobal name value
  | .rebindGlobal name value => (fun _ => .done) <$> Model.rebindGlobal fuel name value
  | .unbindGlobal name => (fun _ => .done) <$> Model.unbindGlobal fuel name
  | .linkBase id base => Reply.summary <$> Model.linkBase fuel id base
  | .unlinkBase id base => Reply.summary <$> Model.unlinkBase fuel id base
  | .declareParams id params binder =>
    (fun _ => .done) <$> Model.declareParams fuel id params binder
  | .call id a => Reply.value <$> Model.call fuel held id a
  | .selectInstance id a => Reply.handle <$> Model.selectInstance fuel held id a
  | .readFrom id name => Reply.value <$> Model.readFrom fuel held id name
  | .putInput id args v => (fun _ => .done) <$> Model.putInput id args v
  | .takeInput id args => Reply.flag <$> Model.takeInput id args
  | .forgetCells id => Reply.count <$> Model.forgetCells id
  | .forgetAt id args => Reply.count <$> Model.forgetAt id args
  | .forgetWithin id => Reply.count <$> Model.forgetWithin id
  | .forgetAll => (fun _ => .done) <$> Model.forgetAll
  | .discardInstance id args => Reply.flag <$> Model.discardInstance fuel id args
  | .discardInstances id => Reply.count <$> Model.discardInstances id
  | .reclaim => Reply.count <$> update (Model.reclaim held)

/-- Carry requests out one after the other, whether they succeed or fail. -/
def runAll (fuel : Nat) (held : List Handle) : List Request → Model → Option Model
  | [], m => some m
  | q :: rest, m =>
    match q.run fuel held m with
    | some (_, m) => runAll fuel held rest m
    | none => none

end Request

structure Step where
  before : Model
  fuel : Nat
  held : List Handle
  request : Request
  outcome : Except Failure Reply
  after : Model

def Step.Sound (s : Step) : Prop :=
  s.request.run s.fuel s.held s.before = some (s.outcome, s.after)

inductive Becomes (allowed : Step → Prop) (start : Model) : Model → Prop
  | refl : Becomes allowed start start
  | step (s : Step) : Becomes allowed start s.before → s.Sound → allowed s →
      Becomes allowed start s.after

theorem Becomes.trans {allowed : Step → Prop} {m₁ m₂ m₃ : Model} (h : Becomes allowed m₁ m₂)
    (h' : Becomes allowed m₂ m₃) : Becomes allowed m₁ m₃ := by
  induction h' with
  | refl => exact h
  | step s _ hsound hallowed ih => exact .step s ih hsound hallowed

theorem Becomes.mono {allowed allowed' : Step → Prop} {m m' : Model} (h : Becomes allowed m m')
    (le : ∀ s, allowed s → allowed' s) : Becomes allowed' m m' := by
  induction h with
  | refl => exact .refl
  | step s _ hsound hallowed ih => exact .step s ih hsound (le s hallowed)

theorem Request.steps_of_runAll {fuel : Nat} {held : List Handle} (l : List Request)
    {m m' : Model} (h : runAll fuel held l m = some m') :
    Becomes (fun s => s.request ∈ l) m m' := by
  induction l generalizing m with
  | nil =>
    cases h
    exact .refl
  | cons q rest ih =>
    unfold runAll at h
    split at h
    next r m₁ hrun =>
      have hfirst : Becomes (fun s => s.request ∈ q :: rest) m m₁ :=
        .step ⟨m, fuel, held, q, r, m₁⟩ .refl hrun List.mem_cons_self
      exact hfirst.trans ((ih h).mono fun _ => List.mem_cons_of_mem q)
    next => contradiction

theorem Request.becomes_of_runAll {fuel : Nat} {held : List Handle} (l : List Request)
    {m m' : Model} (h : runAll fuel held l m = some m') : Becomes (fun _ => True) m m' :=
  (steps_of_runAll l h).mono fun _ _ => trivial

/-- A model that a host makes: a new one, or one rebuilt from a snapshot. -/
inductive Born : Model → Prop
  | new (name : String) (config : Config) (order : WalkOrder := .bySlot) :
      Born { name, config, order }
  | rebuilt {fuel : Nat} {load : Loader} {s : Snapshot} {order : WalkOrder} {m : Model} :
      Model.ofSnapshot fuel load s order = some (.ok m) → Born m

/-- A model that a host can have between two requests. -/
def Reachable (m : Model) : Prop := ∃ start, Born start ∧ Becomes (fun _ => True) start m

end Recalc
