import Mathlib.Data.List.Basic
import Recalc.Proofs.JsonTexts
import Recalc.Snapshot.Json

set_option autoImplicit false

/-!
# Snapshots are read back

What has a stored form is read back from it as it was: values without numbers, records with their
optional fields left out or not, and whole snapshots. The reader enters a limited number of nested
arrays and objects, and what nests no deeper has room.
-/

namespace Recalc

namespace Json

/-! ## Nesting -/

mutual

def nesting : Json → Nat
  | .array items => itemNesting items + 1
  | .object members => memberNesting members + 1
  | _ => 0

def itemNesting : List Json → Nat
  | [] => 0
  | item :: items => max (nesting item) (itemNesting items)

def memberNesting : List (Option String × Json) → Nat
  | [] => 0
  | (_, value) :: members => max (nesting value) (memberNesting members)

end

theorem memberNesting_le {members : List (Option String × Json)} {room : Nat} :
    memberNesting members ≤ room ↔ ∀ m ∈ members, m.2.nesting ≤ room := by
  induction members with
  | nil => simp [memberNesting]
  | cons m members ih =>
    rw [memberNesting, Nat.max_le, ih, List.forall_mem_cons]

/-! ## Records -/

/-- The members of a record, without the fields that are left out. -/
def present (fields : List (String × Option Json)) : List (String × Json) :=
  fields.filterMap fun f => f.2.map (f.1, ·)

theorem filter_present (fields : List (String × Option Json)) (name : String) :
    ((present fields).map fun m => (some m.1, m.2)).filter (·.1 == some name) =
      (present (fields.filter (·.1 == name))).map fun m => (some m.1, m.2) := by
  induction fields with
  | nil => rfl
  | cons f fields ih =>
    obtain ⟨n, f⟩ := f
    by_cases hn : n = name
    · cases f <;> simpa [present, hn] using ih
    · cases f <;> simpa [present, hn] using ih

theorem filter_name {fields : List (String × Option Json)} {name : String} {f : Option Json}
    (hnodup : (fields.map Prod.fst).Nodup) (hf : (name, f) ∈ fields) :
    fields.filter (·.1 == name) = [(name, f)] := by
  induction fields with
  | nil => cases hf
  | cons g fields ih =>
    rw [List.map_cons, List.nodup_cons] at hnodup
    rcases List.mem_cons.1 hf with rfl | hf
    · have hrest : fields.filter (·.1 == name) = [] := by
        refine List.filter_eq_nil_iff.2 fun g hg => ?_
        rw [beq_iff_eq]
        exact fun heq => hnodup.1 (List.mem_map.2 ⟨g, hg, heq⟩)
      simp [hrest]
    · have hne : g.1 ≠ name := fun heq => hnodup.1 (List.mem_map.2 ⟨_, hf, heq.symm⟩)
      simp [hne, ih hnodup.2 hf]

theorem member?_present {fields : List (String × Option Json)} {name : String} {f : Option Json}
    (hnodup : (fields.map Prod.fst).Nodup) (hf : (name, f) ∈ fields) :
    member? ((present fields).map fun m => (some m.1, m.2)) name = some f := by
  unfold member?
  rw [filter_present, filter_name hnodup hf]
  cases f <;> rfl

/-- The fields of a record are found in what is written of them. -/
theorem fields?_present {fields : List (String × Option Json)}
    (hnodup : (fields.map Prod.fst).Nodup) :
    fields? (fields.map Prod.fst) (ofMembers (present fields)) = some (fields.map Prod.snd) := by
  have hmapM : ∀ l : List (String × Option Json), (∀ f ∈ l, f ∈ fields) →
      (l.map Prod.fst).mapM (member? ((present fields).map fun m => (some m.1, m.2))) =
        some (l.map Prod.snd) := by
    intro l hl
    induction l with
    | nil => rfl
    | cons f l ih =>
      have hf := member?_present hnodup (hl f List.mem_cons_self)
      have htail := ih fun g hg => hl g (List.mem_cons_of_mem _ hg)
      simp only [List.map_cons, List.mapM_cons, hf, htail, Option.bind_eq_bind, Option.bind_some,
        Option.pure_def]
  have hnames : ((present fields).map fun m => (some m.1, m.2)).all (·.1.isSome) = true := by
    simp
  simp only [fields?, ofMembers, hnames, if_true]
  exact hmapM fields fun _ h => h

/-! ## Reading back -/

/-- The stored form `j` is read as `a` where there is room for it. -/
structure Recovers {α : Type} (read : Nat → Json → Option α) (j : Json) (a : α) : Prop where
  wellFormed : j.WellFormed
  /-- Null stands for what is missing. -/
  ne_null : j ≠ .null
  read : ∀ room, j.nesting ≤ room → read room j = some a

def Restores {α : Type} (store : α → Except Failure Json) (read : Nat → Json → Option α) (a : α) :
    Prop :=
  ∃ j, store a = .ok j ∧ Recovers read j a

section Restoring

variable {α : Type} {store : α → Except Failure Json} {read : Nat → Json → Option α}

theorem restores_items {l : List α} (h : ∀ a ∈ l, Restores store read a) :
    ∃ items, l.mapM store = .ok items ∧ (∀ j ∈ items, j.WellFormed) ∧
      ∀ room, itemNesting items ≤ room → items.mapM (read room) = some l := by
  induction l with
  | nil => exact ⟨[], rfl, by simp, fun _ _ => rfl⟩
  | cons a l ih =>
    obtain ⟨j, hstore, hj⟩ := h a List.mem_cons_self
    obtain ⟨items, hstores, hwell, hitems⟩ := ih fun b hb => h b (List.mem_cons_of_mem _ hb)
    refine ⟨j :: items, ?_, ?_, fun room hroom => ?_⟩
    · rw [List.mapM_cons, hstore, hstores]
      rfl
    · rintro i (- | ⟨-, hi⟩)
      · exact hj.wellFormed
      · exact hwell i hi
    · obtain ⟨hfirst, hrest⟩ := Nat.max_le.1 hroom
      rw [List.mapM_cons, hj.read room hfirst, hitems room hrest]
      rfl

theorem restores_list {l : List α} (h : ∀ a ∈ l, Restores store read a) :
    Restores (ofList store) (readList? read) l := by
  obtain ⟨items, hstores, hwell, hitems⟩ := restores_items h
  refine ⟨.array items, by rw [ofList, hstores]; rfl, .array hwell, Json.noConfusion, ?_⟩
  intro room hroom
  cases room with
  | zero => simp [nesting] at hroom
  | succ room => exact hitems room (Nat.le_of_succ_le_succ hroom)

theorem WellFormed.field {j : Json} (hj : j.WellFormed) : ∀ i ∈ some j, i.WellFormed := by
  rintro _ ⟨⟩
  exact hj

/-- A record is read from its fields, when all of them are where they have to be. -/
theorem recovers_record {a : α} {build : Nat → List (Option Json) → Option α}
    (fields : List (String × Option Json)) (hnodup : (fields.map Prod.fst).Nodup)
    (hread : ∀ room j, read (room + 1) j = (j.fields? (fields.map Prod.fst)).bind (build room))
    (hwell : fields.Forall fun f => ∀ j ∈ f.2, j.WellFormed)
    (hbuild : ∀ room, (fields.Forall fun f => ∀ j ∈ f.2, j.nesting ≤ room) →
      build room (fields.map Prod.snd) = some a) :
    Recovers read (ofMembers (present fields)) a where
  wellFormed := by
    refine .object fun m hm => ?_
    obtain ⟨x, hx, rfl⟩ := List.mem_map.1 hm
    obtain ⟨f, hf, hfx⟩ := List.mem_filterMap.1 hx
    obtain ⟨j, hj, rfl⟩ := Option.map_eq_some_iff.1 hfx
    exact List.forall_iff_forall_mem.1 hwell f hf j hj
  ne_null := Json.noConfusion
  read room hroom := by
    cases room with
    | zero => simp [ofMembers, nesting] at hroom
    | succ room =>
      rw [hread, fields?_present hnodup]
      refine hbuild room (List.forall_iff_forall_mem.2 fun f hf j hj => ?_)
      have hmembers := memberNesting_le.1 (Nat.le_of_succ_le_succ hroom)
      have hmem : (f.1, j) ∈ present fields :=
        List.mem_filterMap.2 ⟨f, hf, by rw [Option.mem_def.1 hj]; rfl⟩
      exact hmembers (some f.1, j) (List.mem_map.2 ⟨_, hmem, rfl⟩)

/-- What is read as something is not missing. -/
theorem optional?_some {j : Json} {item : Json → Option α} (hj : j ≠ .null) :
    optional? item (some j) = (item j).map some := by
  cases j <;> first | exact absurd rfl hj | rfl

/-- An optional field is left out, or read back. -/
theorem optionalMember_restores {o : Option α} (name : String)
    (h : ∀ a ∈ o, Restores store read a) :
    ∃ f : Option Json, optionalMember name store o = .ok (present [(name, f)]) ∧
      (∀ j ∈ f, j.WellFormed) ∧
      ∀ room, (∀ j ∈ f, j.nesting ≤ room) → optional? (read room) f = some o := by
  cases o with
  | none => exact ⟨none, rfl, by simp, fun _ _ => rfl⟩
  | some a =>
    obtain ⟨j, hstore, hj⟩ := h a rfl
    refine ⟨some j, by rw [optionalMember, hstore]; rfl, ?_, fun room hroom => ?_⟩
    · rintro _ ⟨⟩
      exact hj.wellFormed
    · rw [optional?_some hj.ne_null, hj.read room (hroom j rfl), Option.map_some]

theorem restores_bool (b : Bool) : Restores (pure ∘ .bool) (fun _ => readBool?) b :=
  ⟨_, rfl, .bool b, Json.noConfusion, fun _ _ => rfl⟩

theorem restores_text (s : String) : Restores (pure ∘ .ofText) (fun _ => readText?) s :=
  ⟨_, rfl, .text _, Json.noConfusion, fun _ _ => rfl⟩

/-- An alternative with its content is read with room for its object. -/
theorem recovers_tagged {a : α} {tag : String} {content : Json} (hcontent : content.WellFormed)
    (hread : ∀ room, content.nesting ≤ room → read (room + 1) (.tagged tag content) = some a) :
    Recovers read (.tagged tag content) a where
  wellFormed := .object fun m hm => by
    cases List.mem_singleton.1 hm
    exact hcontent
  ne_null := Json.noConfusion
  read room hroom := by
    cases room with
    | zero => simp [Json.tagged, ofMembers, nesting] at hroom
    | succ room =>
      refine hread room ?_
      simp only [Json.tagged, ofMembers, List.map_cons, List.map_nil, nesting,
        memberNesting] at hroom
      omega

end Restoring

end Json

open Json

/-! ## Values -/

namespace Value

/-- The value has neither a number nor a handle nor a host object in it. -/
inductive Plain : Value → Prop
  | empty : Plain .empty
  | bool (b : Bool) : Plain (.bool b)
  | int (i : Int64) : Plain (.int i)
  | text (s : String) : Plain (.text s)
  | tuple {items : List Value} : (∀ v ∈ items, Plain v) → Plain (.tuple items)
  | list {items : List Value} : (∀ v ∈ items, Plain v) → Plain (.list items)

theorem itemsToJson_eq (vs : List Value) : itemsToJson vs = vs.mapM toJson := by
  induction vs with
  | nil => rfl
  | cons v vs ih =>
    rw [itemsToJson, ih, List.mapM_cons]

theorem readInt64?_ofInt (i : Int64) : readInt64? (Json.ofInt i.toInt) = some i := by
  have hread : (Json.ofInt i.toInt).readInt? = some i.toInt := Numeral.toInt?_ofInt i.toInt
  have hrange : Int64.minValue.toInt ≤ i.toInt ∧ i.toInt ≤ Int64.maxValue.toInt :=
    ⟨Int64.minValue_le_toInt i, Int64.toInt_le i⟩
  rw [readInt64?, hread, Option.bind_some, if_pos hrange]
  exact congrArg some (Int64.ofInt_toInt i)

theorem ofJson?_scalar {tag : String} {content : Json} {v : Value}
    (htag : tag ≠ "Tuple" ∧ tag ≠ "List") (hread : ofScalar? tag content = some v) (room : Nat) :
    ofJson? (room + 1) (.tagged tag content) = some v := by
  have hopen : ofJson? (room + 1) (.object [(some tag, content)]) = ofScalar? tag content := by
    rw [ofJson?.eq_def]
    simp [htag.1, htag.2]
  exact hopen.trans hread

theorem ofJson?_sequence {tag : String} {items : List Json} {vs : List Value}
    (htag : tag = "Tuple" ∨ tag = "List")
    (hread : ∀ room, itemNesting items ≤ room → items.mapM (ofJson? room) = some vs) (room : Nat)
    (hroom : (Json.array items).nesting ≤ room) :
    ofJson? (room + 1) (.tagged tag (.array items)) =
      some (if tag = "Tuple" then .tuple vs else .list vs) := by
  cases room with
  | zero => simp [nesting] at hroom
  | succ inner =>
    have hopen : ofJson? (inner + 2) (.object [(some tag, .array items)]) =
        (items.mapM (ofJson? inner)).map fun vs =>
          if tag = "Tuple" then .tuple vs else .list vs := by
      rw [ofJson?.eq_def]
      simp [htag]
    rw [hread inner (Nat.le_of_succ_le_succ hroom), Option.map_some] at hopen
    exact hopen

theorem Plain.restores {v : Value} (h : v.Plain) : Restores toJson ofJson? v := by
  induction h with
  | empty => exact ⟨_, rfl, .text _, Json.noConfusion, fun room _ => by cases room <;> rfl⟩
  | bool b =>
    exact ⟨_, rfl, recovers_tagged (.bool b) fun room _ => ofJson?_scalar (by decide) rfl room⟩
  | int i =>
    have hread : ofScalar? "Int" (Json.ofInt i.toInt) = some (.int i) :=
      congrArg (Option.map Value.int) (readInt64?_ofInt i)
    exact ⟨_, rfl, recovers_tagged (.numeral (Numeral.wellFormed_ofInt _)) fun room _ =>
      ofJson?_scalar (by decide) hread room⟩
  | text s =>
    exact ⟨_, rfl, recovers_tagged (.text _) fun room _ => ofJson?_scalar (by decide) rfl room⟩
  | tuple _ ih =>
    obtain ⟨items, hstores, hwell, hitems⟩ := restores_items ih
    exact ⟨_, by rw [toJson, itemsToJson_eq, hstores]; rfl, recovers_tagged (.array hwell)
      (ofJson?_sequence (.inl rfl) hitems)⟩
  | list _ ih =>
    obtain ⟨items, hstores, hwell, hitems⟩ := restores_items ih
    exact ⟨_, by rw [toJson, itemsToJson_eq, hstores]; rfl, recovers_tagged (.array hwell)
      (ofJson?_sequence (.inr rfl) hitems)⟩

end Value

/-! ## Records of a snapshot -/

namespace Param

def values (p : Param) : List Value := p.default.toList

/-- A default that is missing is stored as null, and the empty value is not. -/
theorem restores {p : Param} (h : ∀ v ∈ p.values, v.Plain) : Restores toJson ofJson? p := by
  obtain ⟨name, default⟩ := p
  have hdefault : ∃ d,
      toJson ⟨name, default⟩ =
        .ok (ofMembers (present [("name", some (.ofText name)), ("default", some d)])) ∧
      d.WellFormed ∧ ∀ room, d.nesting ≤ room →
        optional? (Value.ofJson? room) (some d) = some default := by
    cases default with
    | none => exact ⟨.null, rfl, .null, fun _ _ => rfl⟩
    | some v =>
      obtain ⟨j, hstore, hj⟩ := (h v List.mem_cons_self).restores
      refine ⟨j, by simp only [toJson, hstore]; rfl, hj.wellFormed, fun room hroom => ?_⟩
      rw [optional?_some hj.ne_null, hj.read room hroom, Option.map_some]
  obtain ⟨d, hstore, hwell, hd⟩ := hdefault
  refine ⟨_, hstore, recovers_record _ (by simp) (fun _ _ => rfl)
    ⟨(WellFormed.text _).field, hwell.field⟩ ?_⟩
  rintro room ⟨-, hdefault⟩
  simp [required?, ofText, readText?, hd room (hdefault d rfl)]

end Param

namespace StoredFormula

def values (f : StoredFormula) : List Value := f.params.flatMap Param.values

theorem restores {f : StoredFormula} (h : ∀ v ∈ f.values, v.Plain) :
    Restores toJson ofJson? f := by
  obtain ⟨source, params⟩ := f
  obtain ⟨p, hparams, hp⟩ := restores_list (l := params) fun p hp =>
    Param.restores fun v hv => h v (List.mem_flatMap.2 ⟨p, hp, hv⟩)
  refine ⟨_, by simp only [toJson, hparams]; rfl, recovers_record
    [("source", some (.ofText source)), ("params", some p)] (by simp) (fun _ _ => rfl)
    ⟨(WellFormed.text _).field, hp.wellFormed.field⟩ ?_⟩
  rintro room ⟨-, hparams⟩
  simp [required?, ofText, readText?, hp.read room (hparams p rfl)]

end StoredFormula

namespace StoredInput

def values (i : StoredInput) : List Value := i.value :: i.args

theorem restores {i : StoredInput} (h : ∀ v ∈ i.values, v.Plain) : Restores toJson ofJson? i := by
  obtain ⟨args, value⟩ := i
  obtain ⟨a, hargs, ha⟩ := restores_list (l := args) fun v hv =>
    (h v (List.mem_cons_of_mem _ hv)).restores
  obtain ⟨j, hvalue, hj⟩ := (h value List.mem_cons_self).restores
  refine ⟨_, by simp only [toJson, hargs, hvalue]; rfl, recovers_record
    [("args", some a), ("value", some j)] (by simp) (fun _ _ => rfl)
    ⟨ha.wellFormed.field, hj.wellFormed.field⟩ ?_⟩
  rintro room ⟨hargs, hvalue⟩
  simp [required?, ha.read room (hargs a rfl), hj.read room (hvalue j rfl)]

end StoredInput

namespace StoredCells

def values (c : StoredCells) : List Value :=
  c.formula.toList.flatMap StoredFormula.values ++ c.inputs.flatMap StoredInput.values

theorem restores {c : StoredCells} (h : ∀ v ∈ c.values, v.Plain) : Restores toJson ofJson? c := by
  obtain ⟨name, derived, formula, inputs, allowNone⟩ := c
  obtain ⟨f, hformula, hfwell, hf⟩ := optionalMember_restores (o := formula) "formula" fun g hg =>
    StoredFormula.restores fun v hv => h v (List.mem_append_left _
      (List.mem_flatMap.2 ⟨g, Option.mem_toList.2 hg, hv⟩))
  obtain ⟨i, hinputs, hi⟩ := restores_list (l := inputs) fun i hi =>
    StoredInput.restores fun v hv => h v (List.mem_append_right _
      (List.mem_flatMap.2 ⟨i, hi, hv⟩))
  obtain ⟨a, hallow, hawell, ha⟩ := optionalMember_restores (o := allowNone) "allow_none"
    fun b _ => restores_bool b
  refine ⟨ofMembers (present [("name", some (.ofText name)), ("derived", some (.bool derived)),
    ("formula", f), ("inputs", some i), ("allow_none", a)]), ?_,
    recovers_record _ (by simp) (fun _ _ => rfl)
      ⟨(WellFormed.text _).field, (WellFormed.bool _).field, hfwell, hi.wellFormed.field, hawell⟩
      ?_⟩
  · simp only [toJson, hformula, hinputs, hallow]
    cases f <;> cases a <;> rfl
  · rintro room ⟨-, -, hformula, hinputs, hallow⟩
    simp [required?, orDefault?, ofText, readText?, readBool?, hf room hformula,
      hi.read room (hinputs i rfl), ha room hallow]

end StoredCells

namespace StoredValue

def values : StoredValue → List Value
  | .value v => [v]
  | .space _ => []

theorem restores {s : StoredValue} (h : ∀ v ∈ s.values, v.Plain) : Restores toJson ofJson? s := by
  cases s with
  | value v =>
    obtain ⟨j, hstore, hj⟩ := (h v List.mem_cons_self).restores
    refine ⟨_, by simp only [toJson, hstore]; rfl, recovers_tagged hj.wellFormed ?_⟩
    intro room hroom
    exact congrArg (Option.map StoredValue.value) (hj.read room hroom)
  | space path => exact ⟨_, rfl, recovers_tagged (.text _) fun room _ => rfl⟩

end StoredValue

theorem RefMode.ofJson?_stored (mode : RefMode) (room : Nat) :
    RefMode.ofJson? room (.ofText mode.stored) = some mode := by
  cases mode <;> rfl

namespace StoredRef

def values (r : StoredRef) : List Value := r.value.values

theorem restores {r : StoredRef} (h : ∀ v ∈ r.values, v.Plain) : Restores toJson ofJson? r := by
  obtain ⟨name, value, mode⟩ := r
  obtain ⟨j, hvalue, hj⟩ := StoredValue.restores h
  refine ⟨_, by simp only [toJson, hvalue]; rfl, recovers_record
    [("name", some (.ofText name)), ("value", some j), ("mode", some (.ofText mode.stored))]
    (by simp) (fun _ _ => rfl)
    ⟨(WellFormed.text _).field, hj.wellFormed.field, (WellFormed.text _).field⟩ ?_⟩
  rintro room ⟨-, hvalue, -⟩
  simp [required?, orDefault?, readText?, hj.read room (hvalue j rfl), RefMode.ofJson?_stored]
  rfl

end StoredRef

namespace StoredSpace

mutual

def values : StoredSpace → List Value
  | ⟨_, _, _, params, binder, cells, refs, children, _, _⟩ =>
    (params.getD []).flatMap Param.values ++ binder.toList.flatMap StoredFormula.values ++
      cells.flatMap StoredCells.values ++ refs.flatMap StoredRef.values ++ childrenValues children

def childrenValues : List StoredSpace → List Value
  | [] => []
  | s :: rest => values s ++ childrenValues rest

end

theorem childrenToJson_eq (l : List StoredSpace) : childrenToJson l = l.mapM toJson := by
  induction l with
  | nil => rfl
  | cons s l ih => rw [childrenToJson, ih, List.mapM_cons]

theorem ofList_pure (g : String → Json) (l : List String) :
    ofList (pure ∘ g) l = .ok (.array (l.map g)) := by
  have hitems : l.mapM (fun s => (pure (g s) : Except Failure Json)) = pure (l.map g) :=
    List.mapM_pure
  simp only [ofList, Function.comp_def, hitems]
  rfl

/-- A space is written with its children as a list. -/
theorem toJson_eq (s : StoredSpace) : s.toJson = do
    let params ← optionalMember "params" (ofList Param.toJson) s.params
    let binder ← optionalMember "binder" StoredFormula.toJson s.binder
    let cells ← ofList StoredCells.toJson s.cells
    let refs ← ofList StoredRef.toJson s.refs
    let children ← ofList toJson s.children
    let allowNone ← optionalMember "allow_none" (pure ∘ .bool) s.allowNone
    let doc ← optionalMember "doc" (pure ∘ .ofText) s.doc
    return .ofMembers ([("name", .ofText s.name), ("derived", .bool s.derived),
      ("bases", .array (s.bases.map .ofText))] ++ params ++ binder ++
      [("cells", cells), ("refs", refs), ("children", children)] ++ allowNone ++ doc) := by
  obtain ⟨name, derived, bases, params, binder, cells, refs, children, allowNone, doc⟩ := s
  simp only [toJson, childrenToJson_eq, ofList, bind_assoc, pure_bind]

/-- Children are read like any other list. -/
theorem ofJson?_succ (room : Nat) (j : Json) :
    ofJson? (room + 1) j = (j.fields? fieldNames).bind (build (readList? ofJson? room) room) := by
  cases room with
  | zero => rfl
  | succ room =>
    have hread : readList? (fun _ => ofJson? room) (room + 1) = readList? ofJson? (room + 1) := by
      funext j
      cases j <;> rfl
    rw [← hread]
    rfl

/-- A space is read back from its fields, when its children are. -/
theorem restores_of_children {s : StoredSpace} (h : ∀ v ∈ s.values, v.Plain)
    (hchildren : ∀ t ∈ s.children, Restores toJson ofJson? t) : Restores toJson ofJson? s := by
  obtain ⟨name, derived, bases, params, binder, cells, refs, children, allowNone, doc⟩ := s
  simp only [values, List.mem_append] at h
  obtain ⟨p, hparams, hpwell, hp⟩ := optionalMember_restores (o := params) "params"
    fun l hl => restores_list fun p hp => Param.restores fun v hv =>
      h v (.inl (.inl (.inl (.inl (List.mem_flatMap.2 ⟨p, by rw [hl]; exact hp, hv⟩)))))
  obtain ⟨f, hbinder, hfwell, hf⟩ := optionalMember_restores (o := binder) "binder"
    fun g hg => StoredFormula.restores fun v hv =>
      h v (.inl (.inl (.inl (.inr (List.mem_flatMap.2 ⟨g, Option.mem_toList.2 hg, hv⟩)))))
  obtain ⟨c, hcells, hc⟩ := restores_list (l := cells) fun c hc => StoredCells.restores fun v hv =>
    h v (.inl (.inl (.inr (List.mem_flatMap.2 ⟨c, hc, hv⟩))))
  obtain ⟨r, hrefs, hr⟩ := restores_list (l := refs) fun r hr => StoredRef.restores fun v hv =>
    h v (.inl (.inr (List.mem_flatMap.2 ⟨r, hr, hv⟩)))
  obtain ⟨b, hbases, hb⟩ := restores_list (l := bases) fun s _ => restores_text s
  obtain ⟨k, hkids, hk⟩ := restores_list hchildren
  obtain ⟨a, hallow, hawell, ha⟩ := optionalMember_restores (o := allowNone) "allow_none"
    fun b _ => restores_bool b
  obtain ⟨d, hdoc, hdwell, hd⟩ := optionalMember_restores (o := doc) "doc"
    fun s _ => restores_text s
  refine ⟨ofMembers (present [("name", some (.ofText name)), ("derived", some (.bool derived)),
    ("bases", some b), ("params", p), ("binder", f), ("cells", some c), ("refs", some r),
    ("children", some k), ("allow_none", a), ("doc", d)]), ?_,
    recovers_record _ (by simp) ofJson?_succ ⟨(WellFormed.text _).field, (WellFormed.bool _).field,
      hb.wellFormed.field, hpwell, hfwell, hc.wellFormed.field, hr.wellFormed.field,
      hk.wellFormed.field, hawell, hdwell⟩ ?_⟩
  · rw [ofList_pure] at hbases
    cases hbases
    simp only [toJson_eq, hparams, hbinder, hcells, hrefs, hkids, hallow, hdoc]
    cases p <;> cases f <;> cases a <;> cases d <;> rfl
  · rintro room ⟨-, -, hbases, hparams, hbinder, hcells, hrefs, hkids, hallow, hdoc⟩
    simp [build, required?, orDefault?, ofText, readText?, readBool?, hb.read room (hbases b rfl),
      hp room hparams, hf room hbinder, hc.read room (hcells c rfl), hr.read room (hrefs r rfl),
      hk.read room (hkids k rfl), ha room hallow, hd room hdoc]

mutual

theorem restores : (s : StoredSpace) → (∀ v ∈ s.values, v.Plain) → Restores toJson ofJson? s
  | ⟨name, derived, bases, params, binder, cells, refs, children, allowNone, doc⟩, h =>
    restores_of_children h (restores_children children fun v hv => h v (by
      simp only [values, List.mem_append]
      exact .inr hv))

theorem restores_children : (l : List StoredSpace) → (∀ v ∈ childrenValues l, v.Plain) →
    ∀ s ∈ l, Restores toJson ofJson? s
  | [], _ => by simp
  | s :: rest, h => by
    intro t ht
    rcases List.mem_cons.1 ht with heq | ht
    · rw [heq]
      exact restores s fun v hv => h v (List.mem_append_left _ hv)
    · exact restores_children rest (fun v hv => h v (List.mem_append_right _ hv)) t ht

end

end StoredSpace

namespace Snapshot

def values (s : Snapshot) : List Value :=
  StoredSpace.childrenValues s.spaces ++ s.globals.flatMap StoredRef.values

end Snapshot

namespace Config

theorem recovers_of_depth {c : Config} {depth : Json} (hwell : depth.WellFormed)
    (hread : readNat64? depth = some c.maxDepth) :
    Recovers ofJson? (ofMembers (present [("max_depth", some depth),
      ("allow_none", some (.bool c.allowNone)),
      ("reclaim_on_call", some (.bool c.reclaimOnCall))])) c := by
  refine recovers_record _ (by simp) (fun _ _ => rfl)
    ⟨hwell.field, (WellFormed.bool _).field, (WellFormed.bool _).field⟩ ?_
  rintro room -
  simp [orDefault?, readBool?, hread]

theorem recovers_toJson {c : Config} (h : c.maxDepth < UInt64.size) :
    Recovers ofJson? c.toJson c := by
  have hread : (Json.ofNat c.maxDepth).readInt? = some (c.maxDepth : Int) :=
    Numeral.toInt?_ofInt c.maxDepth
  have hrange : (0 : Int) ≤ c.maxDepth ∧ (c.maxDepth : Int) < UInt64.size := by omega
  refine recovers_of_depth (.numeral (Numeral.wellFormed_ofInt _)) ?_
  rw [readNat64?, hread, Option.bind_some, if_pos hrange, Int.toNat_natCast]

end Config

namespace Snapshot

theorem restores {s : Snapshot} (h : ∀ v ∈ s.values, v.Plain)
    (hdepth : s.config.maxDepth < UInt64.size) : Restores toJson ofJson? s := by
  obtain ⟨name, config, spaces, globals⟩ := s
  have hc := Config.recovers_toJson hdepth
  obtain ⟨k, hspaces, hk⟩ := restores_list (StoredSpace.restores_children spaces
    fun v hv => h v (List.mem_append_left _ hv))
  obtain ⟨g, hglobals, hg⟩ := restores_list (l := globals) fun r hr => StoredRef.restores
    fun v hv => h v (List.mem_append_right _ (List.mem_flatMap.2 ⟨r, hr, hv⟩))
  refine ⟨_, by simp only [toJson, hspaces, hglobals]; rfl, recovers_record
    [("name", some (.ofText name)), ("config", some config.toJson), ("spaces", some k),
      ("globals", some g)] (by simp) (fun _ _ => rfl) ⟨(WellFormed.text _).field,
      hc.wellFormed.field, hk.wellFormed.field, hg.wellFormed.field⟩ ?_⟩
  rintro room ⟨-, hconfig, hspaces, hglobals⟩
  simp [required?, orDefault?, ofText, readText?, hc.read room (hconfig _ rfl),
    hk.read room (hspaces k rfl), hg.read room (hglobals g rfl)]

/-- A snapshot without numbers, handles and host objects is read back as it was, unless it nests
deeper than the reader goes. -/
theorem parse_render {s : Snapshot} (h : ∀ v ∈ s.values, v.Plain)
    (hdepth : s.config.maxDepth < UInt64.size)
    (hnesting : ∀ j, s.toJson = .ok j → j.nesting ≤ nestingLimit) :
    ∃ text, s.render = .ok text ∧ Snapshot.parse text = .ok s := by
  obtain ⟨j, hstore, hj⟩ := restores h hdepth
  refine ⟨j.render .pretty, by rw [render, hstore]; rfl, ?_⟩
  have hread := hj.read nestingLimit (hnesting j hstore)
  unfold parse
  rw [parse?_render hj.wellFormed, Option.bind_some, hread]

end Snapshot

/-- Texts that need escapes, the limits of the integers, sequences in one another, a default that is
the empty value beside one that is missing, and optional fields that are there and not there. -/
def awkwardSnapshot : Snapshot where
  name := "m \"\\\n\x01 é𝄞"
  config := { maxDepth := 18446744073709551615, allowNone := true }
  spaces := [{
    name := "A"
    params := some [{ name := "x", default := some .empty }, { name := "y" }]
    binder := some ⟨"lambda x, y: x", [{ name := "x", default := some (.int Int64.minValue) }]⟩
    cells := [{
      name := "a"
      inputs := [⟨[.tuple [.int Int64.maxValue, .list []], .text "\\u0041"], .list [.bool true]⟩]
      allowNone := some false }]
    refs := [⟨"r", .space "A.B", .relative⟩, ⟨"s", .value (.text "A.B"), .auto⟩]
    children := [{ name := "B", derived := true, bases := ["A"], doc := some "\t" }] }]

theorem awkward_parse_render :
    ∃ text, awkwardSnapshot.render = .ok text ∧ Snapshot.parse text = .ok awkwardSnapshot := by
  have hnesting : awkwardSnapshot.toJson.toOption.all (·.nesting ≤ nestingLimit) = true := by
    decide +kernel
  refine Snapshot.parse_render (s := awkwardSnapshot) ?_ (by decide) fun j hj => ?_
  · intro v hv
    simp [Snapshot.values, awkwardSnapshot, StoredSpace.childrenValues, StoredSpace.values,
      Param.values, StoredFormula.values, StoredCells.values, StoredInput.values, StoredRef.values,
      StoredValue.values] at hv
    rcases hv with rfl | rfl | rfl | rfl | rfl | rfl
    · exact .empty
    · exact .int _
    · exact .list (by simp [Value.Plain.bool])
    · have hnone : (Value.list []).Plain := .list (by simp)
      exact .tuple (by simp [Value.Plain.int, hnone])
    · exact .text _
    · exact .text _
  · simpa [hj, Except.toOption] using hnesting

end Recalc
