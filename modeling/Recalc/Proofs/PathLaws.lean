import Recalc.Proofs.RelativeReferences

set_option autoImplicit false

/-!
# Paths and names

The name of a static space is read upwards, along its parents, and a path is walked downwards,
through the maps of children. Both are the one way from a root to the space. A path can be cut at
its dots to give that way back as long as there is no dot in a name on it.
-/

namespace Recalc

namespace Path

open Model (nameBelow)

/-! ## Splitting and joining -/

theorem pieces_of_undotted {cs : List Char} (h : '.' ∉ cs) : pieces cs = [cs] := by
  induction cs with
  | nil => rfl
  | cons c rest ih =>
    obtain ⟨hc, hrest⟩ := List.ne_and_not_mem_of_not_mem_cons h
    simp only [pieces, if_neg (Ne.symm hc), ih hrest]

theorem pieces_append {cs : List Char} (ds : List Char) (h : '.' ∉ cs) :
    pieces (cs ++ '.' :: ds) = cs :: pieces ds := by
  induction cs with
  | nil => rfl
  | cons c rest ih =>
    obtain ⟨hc, hrest⟩ := List.ne_and_not_mem_of_not_mem_cons h
    simp only [List.cons_append, pieces, if_neg (Ne.symm hc), ih hrest]

/-- Names without dots are the pieces of the path that they make up. -/
theorem pieces_intercalate {first : List Char} {rest : List (List Char)}
    (h : ∀ cs ∈ first :: rest, '.' ∉ cs) :
    pieces (List.intercalate ['.'] (first :: rest)) = first :: rest := by
  induction rest generalizing first with
  | nil =>
    rw [List.intercalate_singleton]
    exact pieces_of_undotted (h first List.mem_cons_self)
  | cons second rest ih =>
    obtain ⟨hfirst, hrest⟩ := List.forall_mem_cons.1 h
    rw [List.intercalate_cons_cons, List.append_assoc, List.singleton_append,
      pieces_append _ hfirst, ih hrest]

theorem toList_nameBelow (first : String) (rest : List String) :
    (nameBelow first rest).toList = List.intercalate ['.'] ((first :: rest).map String.toList) := by
  induction rest generalizing first with
  | nil => simp only [nameBelow, List.foldl_nil, List.map_cons, List.map_nil,
      List.intercalate_singleton]
  | cons second rest ih =>
    have hjoined : (first ++ "." ++ second).toList = first.toList ++ ['.'] ++ second.toList := by
      rw [String.toList_append, String.toList_append]
      rfl
    have hstep : nameBelow first (second :: rest) = nameBelow (first ++ "." ++ second) rest := rfl
    rw [hstep, ih]
    simp only [List.map_cons, hjoined]
    cases rest with
    | nil => simp only [List.map_nil, List.intercalate_singleton, List.intercalate_cons_cons]
    | cons third rest =>
      simp only [List.map_cons, List.intercalate_cons_cons, List.append_assoc]

theorem split_nameBelow {first : String} {rest : List String}
    (h : ∀ name ∈ first :: rest, '.' ∉ name.toList) :
    split (nameBelow first rest) = (first, rest) := by
  have hpieces : pieces (nameBelow first rest).toList = (first :: rest).map String.toList := by
    rw [toList_nameBelow, List.map_cons]
    refine pieces_intercalate ?_
    rw [← List.map_cons, List.forall_mem_map]
    exact h
  have hnames : ((first :: rest).map String.toList).map String.ofList = first :: rest := by
    simp only [List.map_map, Function.comp_def, String.ofList_toList, List.map_id']
  rw [split, hpieces, hnames]

theorem nameBelow_split (path : String) : nameBelow (split path).1 (split path).2 = path := by
  obtain ⟨first, rest, hpieces⟩ := List.exists_cons_of_ne_nil (pieces_ne_nil path.toList)
  have hsplit : split path = (String.ofList first, rest.map String.ofList) := by
    rw [split, hpieces, List.map_cons]
  have hback : (rest.map String.ofList).map String.toList = rest := by
    simp only [List.map_map, Function.comp_def, String.toList_ofList, List.map_id']
  rw [hsplit, ← String.toList_inj, toList_nameBelow, List.map_cons, hback, String.toList_ofList,
    ← hpieces, intercalate_pieces]

end Path

namespace Model

variable {m : Model} {first path : String} {rest : List String} {id x : SpaceId}

/-! ## Ways from the roots -/

def Locates (m : Model) (first : String) (rest : List String) (x : SpaceId) : Prop :=
  ∃ r, m.roots.get? first = some r ∧ m.endOf rest r = some x

theorem Locates.child {s : Space} {name : String} (h : m.Locates first rest id)
    (hs : m.spaces.get? id = some s) (hchild : s.spaces.get? name = some x) :
    m.Locates first (rest ++ [name]) x := by
  obtain ⟨r, hr, hway⟩ := h
  refine ⟨r, hr, ?_⟩
  rw [endOf_append, hway, Option.bind_some]
  exact endOf_cons.2 ⟨s, x, hs, hchild, rfl⟩

theorem spaceBelow_eq_ok : m.spaceBelow rest id = .ok x ↔ m.endOf rest id = some x := by
  induction rest generalizing id with
  | nil => simp only [spaceBelow, endOf, Except.ok.injEq, Option.some.injEq]
  | cons name rest ih =>
    rw [endOf_cons, spaceBelow, except_bind_eq_ok]
    constructor
    · rintro ⟨s, hs, h⟩
      split at h
      next child hchild => exact ⟨s, child, space_eq_ok.1 hs, hchild, ih.1 h⟩
      next => contradiction
    · rintro ⟨s, child, hs, hchild, hrest⟩
      refine ⟨s, space_eq_ok.2 hs, ?_⟩
      simp only [hchild]
      exact ih.2 hrest

theorem locate_eq_ok : m.locate path = .ok x ↔
    m.Locates (Path.split path).1 (Path.split path).2 x := by
  unfold locate Locates
  cases hr : m.roots.get? (Path.split path).1 with
  | none => simp only [hr, reduceCtorEq, false_and, exists_false]
  | some r => simp only [hr, Option.some.injEq, exists_eq_left', spaceBelow_eq_ok]

theorem liveName_eq_ok : m.liveName id = .ok path ↔
    (∃ s, m.spaces.get? id = some s) ∧ m.dottedName id = path := by
  unfold liveName
  rw [except_bind_eq_ok]
  simp only [space_eq_ok, exists_and_right]
  exact and_congr_right fun _ => ⟨Except.ok.inj, congrArg _⟩

/-! ## Names along a way -/

section Names

variable {sites : SpaceId → Prop} (hm : m.Faithful sites)
include hm

theorem Faithful.dottedName_root {r : SpaceId} (hr : m.roots.get? first = some r) :
    m.dottedName r = first := by
  obtain ⟨t, ht, hstatic, hparent, rfl⟩ := hm.owned.root_of_listed hr
  unfold Space.isStatic at hstatic
  split at hstatic
  next hk => simp only [dottedName, dottedNameFrom, ht, hk, hparent]
  next => contradiction

theorem Faithful.dottedName_way (hway : m.endOf rest id = some x) :
    m.dottedName x = nameBelow (m.dottedName id) rest := by
  induction rest generalizing id with
  | nil =>
    cases hway
    rfl
  | cons name rest ih =>
    obtain ⟨s, child, hs, hchild, hrest⟩ := endOf_cons.1 hway
    rw [ih hrest, hm.dottedName_child hs hchild]
    rfl

theorem Locates.dottedName (h : m.Locates first rest x) :
    m.dottedName x = nameBelow first rest := by
  obtain ⟨r, hr, hway⟩ := h
  rw [hm.dottedName_way hway, hm.dottedName_root hr]

end Names

section Owned

variable (hm : m.Owned)
include hm

theorem Locates.static (h : m.Locates first rest x) : m.Static x := by
  obtain ⟨r, hr, hway⟩ := h
  obtain ⟨t, ht, hstatic, -, -⟩ := hm.root_of_listed hr
  exact hm.static_of_way ⟨t, ht, hstatic⟩ hway

/-- There is a way to every static space. -/
theorem Owned.exists_locates (hx : m.Static x) : ∃ first rest, m.Locates first rest x := by
  obtain ⟨s, hs, hstatic⟩ := hx
  have hgrounded := hm.grounded x s hs
  -- the parents come to an end, and each of them lists the next one down
  induction hgrounded generalizing s with
  | intro x t ht _ ih =>
    cases ht.symm.trans hs
    cases hp : t.parent with
    | none => exact ⟨t.name, [], x, hm.root_listed ht hstatic hp, rfl⟩
    | some p =>
      obtain ⟨q, hq, hup, hlisted⟩ := hm.static_holder ht hstatic hp
      obtain ⟨first, rest, hway⟩ := ih p ((home_space?_of_static hstatic).trans hp) q hq hup
      exact ⟨first, rest ++ [t.name], hway.child hq hlisted⟩

end Owned

/-! ## Names without dots -/

def Undotted (m : Model) : Prop :=
  ∀ id s, m.spaces.get? id = some s → s.isStatic = true → '.' ∉ s.name.toList

theorem Undotted.way (h : m.Undotted) (hm : m.Owned) (hstatic : m.Static id)
    (hway : m.endOf rest id = some x) : ∀ name ∈ rest, '.' ∉ name.toList := by
  induction rest generalizing id with
  | nil => exact fun _ hname => absurd hname List.not_mem_nil
  | cons name rest ih =>
    obtain ⟨s, child, hs, hchild, hrest⟩ := endOf_cons.1 hway
    obtain ⟨t, ht, hbelow, -, rfl⟩ := hm.static_of_listed hs (hstatic.isStatic hs) hchild
    exact List.forall_mem_cons.2 ⟨h child t ht hbelow, ih ⟨t, ht, hbelow⟩ hrest⟩

theorem Undotted.locates (h : m.Undotted) (hm : m.Owned) (hx : m.Locates first rest x) :
    ∀ name ∈ first :: rest, '.' ∉ name.toList := by
  obtain ⟨r, hr, hway⟩ := hx
  obtain ⟨t, ht, hstatic, -, rfl⟩ := hm.root_of_listed hr
  exact List.forall_mem_cons.2 ⟨h r t ht hstatic, h.way hm ⟨t, ht, hstatic⟩ hway⟩

end Model

open Model

/-- What holds of paths and names between two requests. -/
structure PathsSound (m : Model) : Prop where
  /-- The name of a static space is a path to it. -/
  located : ∀ id, m.Static id → ∃ path, m.liveName id = .ok path ∧ m.locate path = .ok id
  /-- What lies at a path is static, and the path is its name. -/
  named : ∀ path id, m.locate path = .ok id → m.Static id ∧ m.liveName id = .ok path
  distinct : ∀ id id', m.Static id → m.Static id' → m.liveName id = m.liveName id' → id = id'

variable {m : Model}

theorem Model.Faithful.located {sites : SpaceId → Prop} (hm : m.Faithful sites)
    (undotted : m.Undotted) {id : SpaceId} (hid : m.Static id) :
    ∃ path, m.liveName id = .ok path ∧ m.locate path = .ok id := by
  obtain ⟨first, rest, hway⟩ := hm.owned.exists_locates hid
  obtain ⟨s, hs, -⟩ := hid
  refine ⟨nameBelow first rest, liveName_eq_ok.2 ⟨⟨s, hs⟩, hway.dottedName hm⟩, ?_⟩
  rw [locate_eq_ok, Path.split_nameBelow (undotted.locates hm.owned hway)]
  exact hway

theorem Model.Faithful.named {sites : SpaceId → Prop} (hm : m.Faithful sites) {path : String}
    {id : SpaceId} (h : m.locate path = .ok id) : m.Static id ∧ m.liveName id = .ok path := by
  have hway := locate_eq_ok.1 h
  obtain ⟨s, hs, hstatic⟩ := hway.static hm.owned
  refine ⟨⟨s, hs, hstatic⟩, liveName_eq_ok.2 ⟨⟨s, hs⟩, ?_⟩⟩
  rw [hway.dottedName hm, Path.nameBelow_split]

theorem Model.Faithful.paths {sites : SpaceId → Prop} (hm : m.Faithful sites)
    (undotted : m.Undotted) : PathsSound m where
  located _ hid := hm.located undotted hid
  named _ _ h := hm.named h
  distinct id id' hid hid' heq := by
    obtain ⟨path, hname, hlocate⟩ := hm.located undotted hid
    obtain ⟨path', hname', hlocate'⟩ := hm.located undotted hid'
    rw [heq, hname'] at hname
    cases hname
    exact Except.ok.inj (hlocate.symm.trans hlocate')

/-- In a reachable model without dots in its names, with room for its identities, paths and names
of static spaces are inverse to each other. -/
theorem Reachable.pathsSound (h : Reachable m) (room : m.Addressable) (undotted : m.Undotted) :
    PathsSound m :=
  (h.orderly.proper room).paths undotted

/-- A base with a child that has a child, and a heir that inherits both. -/
def nestedRequests : List Request :=
  [.createSpace none "Base", .createSpace (some ⟨0, 0⟩) "Shelf", .createSpace (some ⟨1, 0⟩) "Box",
    .createSpace none "Heir", .linkBase ⟨3, 0⟩ ⟨0, 0⟩]

theorem undotted_of_entries (h : ∀ e ∈ m.spaces.entries, '.' ∉ e.2.name.toList) : m.Undotted :=
  fun id s hs _ => h (id, s) (Pool.mem_entries_of_get? hs)

theorem nested_pathsSound : ∃ m, Request.runAll 9 [] nestedRequests Shop.start = some m ∧
    m.Addressable ∧ m.Undotted ∧ m.spaces.population = 6 ∧
      m.liveName ⟨5, 0⟩ = .ok "Heir.Shelf.Box" ∧ PathsSound m := by
  have hrun : ((Request.runAll 9 [] nestedRequests Shop.start).any fun m =>
      decide (m.Addressable ∧ (∀ e ∈ m.spaces.entries, '.' ∉ e.2.name.toList) ∧
        m.spaces.population = 6 ∧ (m.liveName ⟨5, 0⟩).toOption = some "Heir.Shelf.Box")) = true := by
    decide +kernel
  obtain ⟨m, hm, hfacts⟩ := (Option.any_eq_true _ _).1 hrun
  obtain ⟨room, hnames, hspaces, hname⟩ := of_decide_eq_true hfacts
  have undotted := undotted_of_entries hnames
  exact ⟨m, hm, room, undotted, hspaces, toOption_eq_some.1 hname, Reachable.pathsSound
    ⟨_, .new "doc" {}, Request.becomes_of_runAll nestedRequests hm⟩ room undotted⟩

end Recalc
