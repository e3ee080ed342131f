import Recalc.Contents
import Recalc.Formula
import Recalc.NameMap

set_option autoImplicit false

/-!
# Entity records

A space is static, the root of an instance, or a child inside an instance. Static spaces are
authored by the host; the other two are replicas of a static counterpart. They hold copies of its
cells and no references of their own.
-/

namespace Recalc

/-- What a reference to a space means where it is inherited. -/
inductive RefMode where
  /-- Relative when the target is static and shares the root of the referencing space. This is
  decided when the value is bound. -/
  | auto
  | absolute
  | relative
  deriving DecidableEq, Repr

/-- A cells object: named cells of a space, one for each key. -/
structure Cells where
  name : String
  space : SpaceId
  formula : Option Formula
  derived : Bool
  allowNone : Option Bool := none
  contents : Contents := .empty

structure Reference where
  name : String
  /-- Model-level references have no owner. -/
  owner : Option SpaceId
  value : Value
  mode : RefMode
  /-- The mode in force, once `auto` is decided. -/
  relative : Bool
  /-- The space the reference was authored in; relative references are replayed from there. -/
  origin : Option SpaceId
  derived : Bool

/-- The parameters of a space, with the formula that turns bound arguments into the key. -/
structure Signature where
  params : List Param
  binder : Option Formula

def equalFormulas : Option Formula → Option Formula → Bool
  | some f, some g => f.same g
  | none, none => true
  | _, _ => false

def Signature.same (a b : Signature) : Bool :=
  a.params == b.params && equalFormulas a.binder b.binder

def Signature.handles (s : Signature) : List Handle :=
  paramHandles s.params ++ (s.binder.map Formula.handles).getD []

inductive SpaceKind where
  /-- An authored space, or one created by derivation. The implicit bases are the children of the
  same name in the bases of the parent. -/
  | static (bases implicitBases : List SpaceId) (derived : Bool)
  /-- The root of an instance of `owner`. Its enclosing instances are those it lies in, the
  innermost first. -/
  | item (owner counterpart : SpaceId) (args : Key) (enclosing : List SpaceId)
  /-- A child inside the instance with the given root. -/
  | dynamic (counterpart root : SpaceId)

structure Space where
  name : String
  parent : Option SpaceId
  kind : SpaceKind
  cells : NameMap CellId := .empty
  spaces : NameMap SpaceId := .empty
  refs : NameMap RefId := .empty
  signature : Option Signature := none
  /-- The signature was set on this space rather than inherited. -/
  ownSignature : Bool := false
  /-- The instances of this space, by key. -/
  instances : Table Key SpaceId := .empty
  allowNone : Option Bool := none
  doc : Option String := none

namespace Space

def fresh (name : String) (parent : Option SpaceId) (derived : Bool) : Space :=
  { name, parent, kind := .static [] [] derived }

def isStatic (s : Space) : Bool :=
  match s.kind with
  | .static .. => true
  | _ => false

def isDerived (s : Space) : Bool :=
  match s.kind with
  | .static _ _ derived => derived
  | _ => false

def bases (s : Space) : List SpaceId :=
  match s.kind with
  | .static bases _ _ => bases
  | _ => []

def implicitBases (s : Space) : List SpaceId :=
  match s.kind with
  | .static _ implicit _ => implicit
  | _ => []

def defines (s : Space) (name : String) : Bool :=
  s.cells.contains name || s.spaces.contains name || s.refs.contains name

def setBases (f : List SpaceId → List SpaceId) (s : Space) : Space :=
  match s.kind with
  | .static bases implicit derived => { s with kind := .static (f bases) implicit derived }
  | _ => s

def setImplicitBases (f : List SpaceId → List SpaceId) (s : Space) : Space :=
  match s.kind with
  | .static bases implicit derived => { s with kind := .static bases (f implicit) derived }
  | _ => s

def setDerived (flag : Bool) (s : Space) : Space :=
  match s.kind with
  | .static bases implicit _ => { s with kind := .static bases implicit flag }
  | _ => s

/-- The instances an item lies in; no other space keeps an instance alive. -/
def enclosing (s : Space) : List SpaceId :=
  match s.kind with
  | .item _ _ _ enclosing => enclosing
  | _ => []

def handles (s : Space) : List Handle :=
  (s.signature.map Signature.handles).getD [] ++
    s.instances.keys.flatMap Key.handles ++
    match s.kind with
    | .item _ _ args _ => args.handles
    | _ => []

end Space

def Cells.handles (c : Cells) : List Handle :=
  (c.formula.map Formula.handles).getD [] ++ c.contents.handles

end Recalc
