set_option autoImplicit false

/-!
# Failures

One constructor for each way in which an operation on a model can fail. Entities inside a failure
are labels such as `Outer.Inner.cell(1, 2)`, so a failure keeps its meaning when the entity is
gone.
-/

namespace Recalc

inductive Failure where
  /-- A node was requested while it was being evaluated; the labels of the call stack from its
  earlier occurrence to the top. -/
  | circular (cycle : List String)
  /-- A formula body failed; the labels of the call stack at that point, outermost first. -/
  | inFormula (cause : Failure) (trace : List String)
  | noneReturned (node : String)
  | tooDeep (depth max : Nat)
  | unknownName (name scope : String)
  | inheritanceConflict (name space reason : String)
  | inputOverwritten (node : String)
  | unhashable (detail : String)
  | deleted (what : String)
  /-- Raised from inside a formula body. -/
  | raised (message : String)
  | invalidArguments (target detail : String)
  | readOnly (space : String)
  | duplicateName (name space : String)
  | derivedMember (name space : String)
  | cyclicInheritance (space base : String)
  | persistence (detail : String)
  deriving DecidableEq, Repr

namespace Failure

inductive Kind where
  | circular
  | inFormula
  | noneReturned
  | tooDeep
  | unknownName
  | inheritanceConflict
  | inputOverwritten
  | unhashable
  | deleted
  | raised
  | invalidArguments
  | readOnly
  | duplicateName
  | derivedMember
  | cyclicInheritance
  | persistence
  deriving DecidableEq, Repr

def Kind.name : Kind → String
  | .circular => "CircularReference"
  | .inFormula => "FormulaExecution"
  | .noneReturned => "NoneReturned"
  | .tooDeep => "DeepReference"
  | .unknownName => "NameNotFound"
  | .inheritanceConflict => "InheritanceConflict"
  | .inputOverwritten => "OverriddenInput"
  | .unhashable => "UnhashableArgument"
  | .deleted => "DeletedObject"
  | .raised => "Raised"
  | .invalidArguments => "InvalidArguments"
  | .readOnly => "ReadOnlySpace"
  | .duplicateName => "DuplicateName"
  | .derivedMember => "DerivedMember"
  | .cyclicInheritance => "CyclicInheritance"
  | .persistence => "Persistence"

def kind : Failure → Kind
  | .circular _ => .circular
  | .inFormula _ _ => .inFormula
  | .noneReturned _ => .noneReturned
  | .tooDeep _ _ => .tooDeep
  | .unknownName _ _ => .unknownName
  | .inheritanceConflict _ _ _ => .inheritanceConflict
  | .inputOverwritten _ => .inputOverwritten
  | .unhashable _ => .unhashable
  | .deleted _ => .deleted
  | .raised _ => .raised
  | .invalidArguments _ _ => .invalidArguments
  | .readOnly _ => .readOnly
  | .duplicateName _ _ => .duplicateName
  | .derivedMember _ _ => .derivedMember
  | .cyclicInheritance _ _ => .cyclicInheritance
  | .persistence _ => .persistence

/-- The frames of a trace, each behind its depth. -/
def traceLines (trace : List String) : List String :=
  trace.mapIdx fun depth frame => toString depth ++ ": " ++ frame

def message : Failure → String
  | .circular cycle => "circular reference detected: " ++ String.intercalate " -> " cycle
  | .inFormula cause trace =>
    "error in formula: " ++ cause.message ++ "\nformula traceback:\n" ++
      String.intercalate "\n" (traceLines trace)
  | .noneReturned node => node ++ " returned None"
  | .tooDeep depth max =>
    "formula chain too deep: depth " ++ toString depth ++ " exceeds the limit of " ++ toString max
  | .unknownName name scope => "name '" ++ name ++ "' is not defined in " ++ scope
  | .inheritanceConflict name space reason =>
    "cannot inherit '" ++ name ++ "' into " ++ space ++ ": " ++ reason
  | .inputOverwritten node =>
    node ++ " is an input and cannot be overwritten by a computed value"
  | .unhashable detail => "unhashable argument: " ++ detail
  | .deleted what => what ++ " has been deleted"
  | .raised message => message
  | .invalidArguments target detail => "invalid arguments for " ++ target ++ ": " ++ detail
  | .readOnly space => space ++ " is a dynamic space and cannot be modified"
  | .duplicateName name space => "'" ++ name ++ "' already exists in " ++ space
  | .derivedMember name space =>
    "'" ++ name ++ "' in " ++ space ++ " is inherited and cannot be changed this way"
  | .cyclicInheritance space base =>
    "making " ++ base ++ " a base of " ++ space ++ " would create an inheritance cycle"
  | .persistence detail => "snapshot error: " ++ detail

/-- The innermost failure, looking through formula bodies. -/
def innermost : Failure → Failure
  | .inFormula cause _ => cause.innermost
  | f => f

def cause? : Failure → Option Failure
  | .inFormula cause _ => some cause
  | _ => none

/-- Failures that unwind the call stack unchanged instead of being wrapped at a formula. -/
def unwindsUnchanged : Failure → Bool
  | .circular _ | .inFormula _ _ | .tooDeep _ _ | .noneReturned _ => true
  | _ => false

end Failure

end Recalc
