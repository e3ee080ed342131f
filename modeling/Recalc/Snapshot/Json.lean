import Recalc.Json.Parser
import Recalc.Json.Printer
import Recalc.Snapshot
import Recalc.Value.Json

set_option autoImplicit false

/-!
# Stored snapshots

The JSON form of snapshots. Records are written as objects with their fields in order; some
optional fields are left out when they are absent. Reading also takes arrays of fields, ignores
members that no field asks for, and lets fields with a default be missing.
-/

namespace Recalc

namespace Json

def ofList {α : Type} (item : α → Except Failure Json) (l : List α) : Except Failure Json := do
  return .array (← l.mapM item)

def optionalMember {α : Type} (name : String) (item : α → Except Failure Json) :
    Option α → Except Failure (List (String × Json))
  | none => return []
  | some a => return [(name, ← item a)]

end Json

open Json

namespace Param

def toJson (p : Param) : Except Failure Json := do
  let default ← match p.default with
    | some v => v.toJson
    | none => pure .null
  return .ofMembers [("name", .ofText p.name), ("default", default)]

def ofJson? : Nat → Json → Option Param :=
  readRecord? ["name", "default"] fun room fields => do
    let [name, default] := fields | none
    return { name := ← required? readText? name
             default := ← optional? (Value.ofJson? room) default }

end Param

namespace StoredFormula

def toJson (f : StoredFormula) : Except Failure Json := do
  return .ofMembers [("source", .ofText f.source), ("params", ← ofList Param.toJson f.params)]

def ofJson? : Nat → Json → Option StoredFormula :=
  readRecord? ["source", "params"] fun room fields => do
    let [source, params] := fields | none
    return { source := ← required? readText? source
             params := ← required? (readList? Param.ofJson? room) params }

end StoredFormula

namespace StoredInput

def toJson (i : StoredInput) : Except Failure Json := do
  return .ofMembers [("args", ← ofList Value.toJson i.args), ("value", ← i.value.toJson)]

def ofJson? : Nat → Json → Option StoredInput :=
  readRecord? ["args", "value"] fun room fields => do
    let [args, value] := fields | none
    return { args := ← required? (readList? Value.ofJson? room) args
             value := ← required? (Value.ofJson? room) value }

end StoredInput

namespace StoredCells

def toJson (c : StoredCells) : Except Failure Json := do
  let formula ← optionalMember "formula" StoredFormula.toJson c.formula
  let inputs ← ofList StoredInput.toJson c.inputs
  let allowNone ← optionalMember "allow_none" (pure ∘ .bool) c.allowNone
  return .ofMembers ([("name", .ofText c.name), ("derived", .bool c.derived)] ++ formula ++
    [("inputs", inputs)] ++ allowNone)

def ofJson? : Nat → Json → Option StoredCells :=
  readRecord? ["name", "derived", "formula", "inputs", "allow_none"] fun room fields => do
    let [name, derived, formula, inputs, allowNone] := fields | none
    return { name := ← required? readText? name
             derived := ← orDefault? false readBool? derived
             formula := ← optional? (StoredFormula.ofJson? room) formula
             inputs := ← orDefault? [] (readList? StoredInput.ofJson? room) inputs
             allowNone := ← optional? readBool? allowNone }

end StoredCells

namespace StoredValue

def toJson : StoredValue → Except Failure Json
  | .value v => return .tagged "value" (← v.toJson)
  | .space path => return .tagged "space" (.ofText path)

def ofJson? : Nat → Json → Option StoredValue
  | room + 1, .object [(some tag, content)] =>
    if tag = "value" then (Value.ofJson? room content).map .value
    else if tag = "space" then content.readText?.map .space
    else none
  | _, _ => none

end StoredValue

def RefMode.stored : RefMode → String
  | .auto => "auto"
  | .absolute => "absolute"
  | .relative => "relative"

def RefMode.ofStored? (s : String) : Option RefMode :=
  [RefMode.auto, .absolute, .relative].find? (·.stored == s)

/-- A mode is its name, or an object that gives the name the content null. -/
def RefMode.ofJson? : Nat → Json → Option RefMode
  | _, .text (some s) => RefMode.ofStored? s
  | _ + 1, .object [(some s, .null)] => RefMode.ofStored? s
  | _, _ => none

namespace StoredRef

def toJson (r : StoredRef) : Except Failure Json := do
  return .ofMembers [("name", .ofText r.name), ("value", ← r.value.toJson),
    ("mode", .ofText r.mode.stored)]

def ofJson? : Nat → Json → Option StoredRef :=
  readRecord? ["name", "value", "mode"] fun room fields => do
    let [name, value, mode] := fields | none
    return { name := ← required? readText? name
             value := ← required? (StoredValue.ofJson? room) value
             mode := ← orDefault? .auto (RefMode.ofJson? room) mode }

end StoredRef

namespace StoredSpace

mutual

def toJson : StoredSpace → Except Failure Json
  | ⟨name, derived, bases, params, binder, cells, refs, children, allowNone, doc⟩ => do
    let params ← optionalMember "params" (ofList Param.toJson) params
    let binder ← optionalMember "binder" StoredFormula.toJson binder
    let cells ← ofList StoredCells.toJson cells
    let refs ← ofList StoredRef.toJson refs
    let children ← childrenToJson children
    let allowNone ← optionalMember "allow_none" (pure ∘ .bool) allowNone
    let doc ← optionalMember "doc" (pure ∘ .ofText) doc
    return .ofMembers ([("name", .ofText name), ("derived", .bool derived),
      ("bases", .array (bases.map .ofText))] ++ params ++ binder ++
      [("cells", cells), ("refs", refs), ("children", .array children)] ++ allowNone ++ doc)

def childrenToJson : List StoredSpace → Except Failure (List Json)
  | [] => .ok []
  | s :: rest => do
    let first ← toJson s
    let more ← childrenToJson rest
    return first :: more

end

def fieldNames : List String :=
  ["name", "derived", "bases", "params", "binder", "cells", "refs", "children", "allow_none",
    "doc"]

/-- A space from its fields, with a reader for the array of its children. -/
def build (readChildren : Json → Option (List StoredSpace)) (room : Nat)
    (fields : List (Option Json)) : Option StoredSpace := do
  let [name, derived, bases, params, binder, cells, refs, children, allowNone, doc] := fields | none
  return { name := ← required? readText? name
           derived := ← orDefault? false readBool? derived
           bases := ← orDefault? [] (readList? (fun _ => readText?) room) bases
           params := ← optional? (readList? Param.ofJson? room) params
           binder := ← optional? (StoredFormula.ofJson? room) binder
           cells := ← orDefault? [] (readList? StoredCells.ofJson? room) cells
           refs := ← orDefault? [] (readList? StoredRef.ofJson? room) refs
           children := ← orDefault? [] readChildren children
           allowNone := ← optional? readBool? allowNone
           doc := ← optional? readText? doc }

def ofJson? : Nat → Json → Option StoredSpace
  | 0, _ => none
  | 1, j => (j.fields? fieldNames).bind (build (fun _ => none) 0)
  | room + 2, j =>
    (j.fields? fieldNames).bind
      (build (readList? (fun _ => ofJson? room) (room + 1)) (room + 1))

end StoredSpace

namespace Config

def toJson (c : Config) : Json :=
  .ofMembers [("max_depth", .ofNat c.maxDepth), ("allow_none", .bool c.allowNone),
    ("reclaim_on_call", .bool c.reclaimOnCall)]

/-- Settings that are not given have their defaults. -/
def ofJson? : Nat → Json → Option Config :=
  readRecord? ["max_depth", "allow_none", "reclaim_on_call"] fun _ fields => do
    let [maxDepth, allowNone, reclaimOnCall] := fields | none
    let default : Config := {}
    return { maxDepth := ← orDefault? default.maxDepth readNat64? maxDepth
             allowNone := ← orDefault? default.allowNone readBool? allowNone
             reclaimOnCall := ← orDefault? default.reclaimOnCall readBool? reclaimOnCall }

def render (c : Config) : String := c.toJson.render .compact

def parse? (s : String) : Option Config := (Json.parse? s).bind (ofJson? nestingLimit)

end Config

namespace Value

def render (v : Value) : Except Failure String := return (← v.toJson).render .compact

def parse? (s : String) : Option Value := (Json.parse? s).bind (ofJson? nestingLimit)

end Value

namespace Snapshot

def toJson (s : Snapshot) : Except Failure Json := do
  return .ofMembers [("name", .ofText s.name), ("config", s.config.toJson),
    ("spaces", ← ofList StoredSpace.toJson s.spaces),
    ("globals", ← ofList StoredRef.toJson s.globals)]

def ofJson? : Nat → Json → Option Snapshot :=
  readRecord? ["name", "config", "spaces", "globals"] fun room fields => do
    let [name, config, spaces, globals] := fields | none
    return { name := ← required? readText? name
             config := ← orDefault? {} (Config.ofJson? room) config
             spaces := ← orDefault? [] (readList? StoredSpace.ofJson? room) spaces
             globals := ← orDefault? [] (readList? StoredRef.ofJson? room) globals }

/-- The text of a snapshot. It fails when a default of a parameter has no stored form. -/
def render (s : Snapshot) : Except Failure String := return (← s.toJson).render .pretty

def parse (text : String) : Except Failure Snapshot :=
  match (Json.parse? text).bind (ofJson? nestingLimit) with
  | some s => .ok s
  | none => .error (.persistence "the text is not a snapshot")

end Snapshot

end Recalc
