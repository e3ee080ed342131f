import Recalc.Key

set_option autoImplicit false

/-!
# Formulas

A formula has declared parameters and a rule. The rule is a constant or a body. A body is a tree:
it ends with a result, or it asks the model one question and goes on with the answer, which is a
value or the failure of the question. So a body can do nothing but look at its arguments and at
the answers it gets. Two formulas are the same when their identities agree, whatever they compute.
-/

namespace Recalc

structure Param where
  name : String
  default : Option Value := none

instance : BEq Param := ⟨fun a b => a.name == b.name && a.default == b.default⟩

/-- Call arguments: positional ones, and named ones in the order given. -/
structure Arguments where
  positional : List Value := []
  named : List (String × Value) := []

inductive Query where
  /-- Read a name, from the body's own space or from another one, and call what it names when
  arguments are given. -/
  | lookup (place : Option Handle) (name : String) (call : Option Arguments)
  /-- The instance of a parameterised space for these arguments. -/
  | item (space : Handle) (args : List Value)
  /-- The arguments of an instance root, as a tuple. -/
  | argValues (space : Handle)
  /-- The space the body runs in. -/
  | here
  | modelName
  /-- The number of nodes being evaluated. -/
  | depth

/-- A computation that asks questions. -/
inductive Body (α : Type) where
  | done (result : Except Failure α)
  | ask (query : Query) (resume : Except Failure Value → Body α)

namespace Body

variable {α β : Type}

def bind : Body α → (α → Body β) → Body β
  | .done (.ok a), f => f a
  | .done (.error e), _ => .done (.error e)
  | .ask q resume, f => .ask q fun answer => (resume answer).bind f

instance : Monad Body where
  pure a := .done (.ok a)
  bind := bind

instance : LawfulMonad Body := by
  refine LawfulMonad.mk' Body ?_ ?_ ?_
  · intro α x
    induction x with
    | done r => cases r <;> rfl
    | ask q resume ih => exact congrArg (Body.ask q) (funext ih)
  · intros
    rfl
  · intro α β γ x f g
    induction x with
    | done r => cases r <;> rfl
    | ask q resume ih => exact congrArg (Body.ask q) (funext ih)

def fail (e : Failure) : Body α := .done (.error e)

def ofExcept (r : Except Failure α) : Body α := .done r

def attempt : Body α → Body (Except Failure α)
  | .done r => .done (.ok r)
  | .ask q resume => .ask q fun answer => (resume answer).attempt

def query (q : Query) : Body Value := .ask q .done

end Body

inductive Rule where
  | constant (v : Value)
  /-- A body over the bound arguments, with the handles it keeps as long as it exists. -/
  | computed (body : List Value → Body Value) (kept : List Handle)

structure Formula where
  ident : Nat
  params : List Param
  rule : Rule
  /-- The key under which the formula is stored. -/
  source : Option String := none

namespace Formula

def constant (ident : Nat) (v : Value) : Formula := ⟨ident, [], .constant v, none⟩

def storedAs (f : Formula) (source : String) : Formula := { f with source := some source }

def names (f : Formula) : List String := f.params.map (·.name)

/-- Formulas are compared by identity. -/
def same (f g : Formula) : Bool := f.ident == g.ident

end Formula

def paramHandles (params : List Param) : List Handle :=
  params.flatMap fun p => (p.default.map Value.handles).getD []

def Rule.handles : Rule → List Handle
  | .constant v => v.handles
  | .computed _ kept => kept

def Formula.handles (f : Formula) : List Handle := paramHandles f.params ++ f.rule.handles

end Recalc
