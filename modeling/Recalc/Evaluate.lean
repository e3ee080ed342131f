import Recalc.Binding
import Recalc.Invalidate
import Recalc.Replica

set_option autoImplicit false

/-!
# Evaluation

A call of cells binds its arguments to a key and answers from what the cells hold for it;
otherwise the node goes on the stack, its formula runs, and the result is stored. What a node reads
while it is on top of the stack becomes an edge. A call of a parameterised space finds or makes the
instance for its key. Fuel bounds the number of formulas that run inside one another.
-/

namespace Recalc.Model

open Recalc.Action

def noteRead (n : Node) (m : Model) : Model :=
  match m.stack.top? with
  | some top => { m with graph := m.graph.record top n }
  | none => m

/-- A failure raised in a body is wrapped with the stack as it stands; one that already carries
its trace goes on unchanged. -/
def wrap (m : Model) (e : Failure) : Failure :=
  if e.unwindsUnchanged then e else .inFormula e m.trace

/-- Whether a cells object may be empty: its own setting, else that of the nearest space with one
around its static counterpart, else the model's. -/
def mayBeEmpty (m : Model) (id : CellId) : Bool :=
  match m.cells.get? id with
  | none => m.config.allowNone
  | some c =>
    match c.allowNone with
    | some flag => flag
    | none =>
      match m.counterpart c.space with
      | .error _ => m.config.allowNone
      | .ok start =>
        ((m.ancestry start).findSome? fun s => (m.spaces.get? s).bind (·.allowNone)).getD
          m.config.allowNone

def bindCells (m : Model) (id : CellId) (a : Arguments) : Except Failure Key := do
  let c ← m.cell id
  match c.formula with
  | some f => Key.ofValues (← matchArguments f.params a (m.cellsName id))
  | none =>
    if a.named.isEmpty then Key.ofValues a.positional
    else throw (.invalidArguments (m.cellsName id)
      "cells without a formula take positional arguments only")

/-- The parameters of a space, or of its counterpart. -/
def signature (m : Model) (id : SpaceId) : Except Failure Signature := do
  let source ← m.space (← m.counterpart id)
  match source.signature with
  | some spec => return spec
  | none => throw (.invalidArguments (m.dottedName id) "space does not declare parameters")

abbrev RunFormula := SpaceId → Formula → List Value → Action Value

/-- Put a node on the stack, unless the stack is full or the node is on it. -/
def enter (n : Node) : Action Unit := do
  let m ← get
  if m.config.maxDepth ≤ m.stack.depth then
    fail (.tooDeep (m.stack.depth + 1) m.config.maxDepth)
  else
    match m.stack.push? n with
    | none => fail (.circular ((m.stack.downTo n).reverse.map m.labelOf))
    | some stack => modify fun m => { m with stack }

def leave : Action Unit := modify fun m => { m with stack := m.stack.pop }

/-- The outcome of a node whose formula ended with `r`: failures are wrapped, and an empty value
needs permission. -/
def outcome (id : CellId) (n : Node) (r : Except Failure Value) (m : Model) :
    Except Failure Value :=
  match r with
  | .error e => .error (m.wrap e)
  | .ok v => if v.isEmpty && !m.mayBeEmpty id then .error (.noneReturned (m.labelOf n)) else .ok v

def runCells (run : RunFormula) (id : CellId) (c : Cells) (key : Key) :
    Action (Except Failure Value) := do
  let r ← attempt (match c.formula with
    | some f => run c.space f key.values
    | none => pure .empty)
  let m ← get
  return outcome id (.cells id key) r m

/-- Store a result, or forget what a failed node read. -/
def finish (id : CellId) (key : Key) (r : Except Failure Value) : Action Value := do
  let n := Node.cells id key
  match r with
  | .error e =>
    modify fun m => { m with graph := m.graph.dropReads n }
    fail e
  | .ok v =>
    let c ← read (·.cell id)
    match c.contents.store? key v with
    | none => fail (.inputOverwritten ((← get).labelOf n))
    | some contents =>
      modify fun m => noteRead n (m.modifyCell id fun c => { c with contents })
      return v

/-- Compute the value of a cells object at a key where nothing is stored. -/
def compute (run : RunFormula) (id : CellId) (c : Cells) (key : Key) : Action Value := do
  enter (.cells id key)
  let r ← runCells run id c key
  leave
  finish id key r

def evaluateKey (run : RunFormula) (id : CellId) (key : Key) : Action Value := do
  let c ← read (·.cell id)
  match c.contents.get? key with
  | some v =>
    modify (noteRead (.cells id key))
    return v
  | none => compute run id c key

def evaluate (run : RunFormula) (id : CellId) (a : Arguments) : Action Value := do
  evaluateKey run id (← read fun m => m.bindCells id a)

/-- The canonical arguments among what a binder gave and what it was given. -/
def canonicalArguments (spec : Signature) (target : String) (bound : List Value) (given : Value) :
    Except Failure (List Value) :=
  let count := spec.params.length
  let other :=
    if count = 1 then .ok [given]
    else .error (.invalidArguments target ("binder returned " ++ given.display ++
      ", expected a tuple of " ++ toString count ++ " values"))
  match given with
  | .empty => .ok bound
  | .tuple items | .list items => if items.length = count then .ok items else other
  | _ => other

def itemKey (run : RunFormula) (id : SpaceId) (a : Arguments) : Action Key := do
  let spec ← read (·.signature id)
  let bound ← read fun m => matchArguments spec.params a (m.dottedName id)
  match spec.binder with
  | none => ofExcept (Key.ofValues bound)
  | some binder =>
    match ← attempt (run id binder bound) with
    | .error e => read fun m => .error (m.wrap e)
    | .ok given =>
      read fun m => do Key.ofValues (← canonicalArguments spec (m.dottedName id) bound given)

def ensureItem (id : SpaceId) (key : Key) : Action Handle := do
  let s ← read (·.space id)
  let m ← get
  match (s.instances.get? key).filter m.spaces.contains with
  | some item =>
    modify (noteRead (.item id key))
    read (·.handleTo item)
  | none =>
    let item ← makeItem id key
    modify fun m => noteRead (.item id key)
      (m.modifySpace id fun s => { s with instances := s.instances.insert key item })
    read (·.handleTo item)

def instantiate (run : RunFormula) (id : SpaceId) (a : Arguments) : Action Handle := do
  ensureItem id (← itemKey run id a)

def handleValue (target : Place) : Action Value := do
  let id ← ensurePlace target
  return .space (← read (·.handleTo id))

/-- Call the value that a name stands for, when arguments are given. Only spaces are callable. -/
def applyCall (run : RunFormula) (name : String) (call : Option Arguments) (v : Value) :
    Action Value :=
  match call, v with
  | none, v => pure v
  | some a, .space h => do return .space (← instantiate run h.id a)
  | some _, _ => fail (.invalidArguments name "not callable")

def readName (run : RunFormula) (id : SpaceId) (name : String) (call : Option Arguments) :
    Action Value := do
  match ← read (·.meaning id name) with
  | .cells c => evaluate run c (call.getD {})
  | .space target => applyCall run name call (← handleValue target)
  | .ref r target =>
    modify (noteRead (.ref r))
    match target with
    | .value v => applyCall run name call v
    | .space target => applyCall run name call (← handleValue target)
  | .param v => applyCall run name call v
  | .model => applyCall run name call (.text (← get).name)

/-- The arguments of an instance root; other spaces have none. -/
def argValues (m : Model) (id : SpaceId) : Except Failure (Option (List Value)) := do
  return match (← m.space id).kind with
    | .item _ _ args _ => some args.values
    | _ => none

def answer (run : RunFormula) (id : SpaceId) : Query → Action Value
  | .lookup place name call => readName run ((place.map Handle.id).getD id) name call
  | .item h args => do return .space (← instantiate run h.id { positional := args })
  | .argValues h => do
    return match ← read (·.argValues h.id) with
      | some vs => .tuple vs
      | none => .empty
  | .here => do return .space (← read (·.handleTo id))
  | .modelName => do return .text (← get).name
  | .depth => do return .int (← get).stack.depth.toInt64

def runBody (ask : Query → Action Value) : Body Value → Action Value
  | .done r => ofExcept r
  | .ask q resume => do
    let r ← attempt (ask q)
    runBody ask (resume r)

/-- Run a formula, with at most `fuel` formulas inside one another. -/
def runFormula : Nat → RunFormula
  | 0 => fun _ _ _ => exhausted
  | fuel + 1 => fun id f args =>
    match f.rule with
    | .constant v => pure v
    | .computed body _ => do
      modify fun m => { m with runs := m.runs + 1 }
      runBody (answer (runFormula fuel) id) (body args)

end Recalc.Model
