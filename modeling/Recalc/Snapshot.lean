import Recalc.Model

set_option autoImplicit false

/-!
# Snapshots

A snapshot holds what the host authored: the tree of static spaces with bases, parameters, cells,
references, inputs and documentation, and the model-level references. Computed values, instances
and the graph are not part of it. A formula is stored by its source key and its parameters.
-/

namespace Recalc

structure StoredFormula where
  source : String
  params : List Param

structure StoredInput where
  args : List Value
  value : Value

structure StoredCells where
  name : String
  /-- Derived cells come back by inheritance; only their inputs are stored. -/
  derived : Bool := false
  formula : Option StoredFormula := none
  inputs : List StoredInput := []
  allowNone : Option Bool := none

/-- The value of a reference; a space is stored by its dotted path. -/
inductive StoredValue where
  | value (v : Value)
  | space (path : String)

structure StoredRef where
  name : String
  value : StoredValue
  mode : RefMode := .auto

structure StoredSpace where
  name : String
  /-- The space was created by derivation. -/
  derived : Bool := false
  /-- The dotted paths of the explicit bases, in declaration order. -/
  bases : List String := []
  /-- The parameters set on this space; inherited ones are not stored. -/
  params : Option (List Param) := none
  binder : Option StoredFormula := none
  cells : List StoredCells := []
  refs : List StoredRef := []
  children : List StoredSpace := []
  allowNone : Option Bool := none
  doc : Option String := none

structure Snapshot where
  name : String
  config : Config := {}
  spaces : List StoredSpace := []
  globals : List StoredRef := []

/-! Snapshots are equal when they agree up to equality of values. -/

instance : BEq StoredFormula := ⟨fun a b => a.source == b.source && a.params == b.params⟩

instance : BEq StoredInput := ⟨fun a b => a.args == b.args && a.value == b.value⟩

instance : BEq StoredCells := ⟨fun a b =>
  a.name == b.name && a.derived == b.derived && a.formula == b.formula && a.inputs == b.inputs &&
    a.allowNone == b.allowNone⟩

def StoredValue.same : StoredValue → StoredValue → Bool
  | .value a, .value b => a == b
  | .space a, .space b => a == b
  | _, _ => false

instance : BEq StoredValue := ⟨StoredValue.same⟩

instance : BEq StoredRef := ⟨fun a b =>
  a.name == b.name && a.value == b.value && a.mode == b.mode⟩

mutual

def StoredSpace.same : StoredSpace → StoredSpace → Bool
  | ⟨name, derived, bases, params, binder, cells, refs, children, allowNone, doc⟩, b =>
    name == b.name && derived == b.derived && bases == b.bases && params == b.params &&
      binder == b.binder && cells == b.cells && refs == b.refs &&
      sameChildren children b.children && allowNone == b.allowNone && doc == b.doc

def sameChildren : List StoredSpace → List StoredSpace → Bool
  | [], [] => true
  | a :: as, b :: bs => a.same b && sameChildren as bs
  | _, _ => false

end

instance : BEq StoredSpace := ⟨StoredSpace.same⟩

instance : BEq Snapshot := ⟨fun a b =>
  a.name == b.name && a.config == b.config && a.spaces == b.spaces && a.globals == b.globals⟩

end Recalc
