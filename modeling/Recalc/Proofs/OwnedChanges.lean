import Recalc.Proofs.Ownership
import Recalc.Proofs.TrackedEvaluation

set_option autoImplicit false

/-!
# Changes of owned models

How the elementary changes of a model act on homes and listings: forgetting, changing a record in
place, listing an entity or taking it off its listing, and adding a new one.
-/

namespace Recalc.Model

/-- Every identity has room for its slot. -/
structure Addressable (m : Model) : Prop where
  spaces : m.spaces.Addressable
  cells : m.cells.Addressable
  refs : m.refs.Addressable

instance (m : Model) : Decidable m.Addressable :=
  decidable_of_iff (m.spaces.slots.size ≤ UInt32.size ∧ m.cells.slots.size ≤ UInt32.size ∧
    m.refs.slots.size ≤ UInt32.size)
    ⟨fun ⟨spaces, cells, refs⟩ => ⟨spaces, cells, refs⟩,
      fun ⟨spaces, cells, refs⟩ => ⟨spaces, cells, refs⟩⟩

/-- The models differ in what cells hold, in the graph and in the stack only. -/
structure Alike (m m' : Model) : Prop where
  spaces : m'.spaces = m.spaces
  refs : m'.refs = m.refs
  roots : m'.roots = m.roots
  globals : m'.globals = m.globals
  cells : ∀ id, (m'.cells.get? id).map Cells.bare = (m.cells.get? id).map Cells.bare
  slots : m'.cells.slots.size = m.cells.slots.size
  tidy : m.cells.Tidy → m'.cells.Tidy

instance : Action.Frame Alike where
  refl _ := ⟨rfl, rfl, rfl, rfl, fun _ => rfl, rfl, fun h => h⟩
  trans h h' := ⟨h'.spaces.trans h.spaces, h'.refs.trans h.refs, h'.roots.trans h.roots,
    h'.globals.trans h.globals, fun id => (h'.cells id).trans (h.cells id),
    h'.slots.trans h.slots, fun ht => h'.tidy (h.tidy ht)⟩

theorem Loses.alike {gone : Node → Bool} {m m' : Model} (h : Loses gone m m') : Alike m m' := by
  refine ⟨h.spaces, h.refs, h.roots, h.globals, fun id => ?_, h.slots, fun ht => ?_⟩
  · cases hc : m.cells.get? id with
    | none => rw [h.absent id hc]
    | some c =>
      obtain ⟨c', hc', hbare, -⟩ := h.cells id c hc
      rw [hc', Option.map_some, Option.map_some, hbare]
  · refine ⟨fun i hi => ?_, ?_⟩
    · rw [h.free] at hi
      rw [h.slots]
      obtain ⟨hlt, hnone⟩ := ht.vacant i hi
      exact ⟨hlt, fun g => h.absent _ (hnone g)⟩
    · rw [h.free]
      exact ht.nodup

theorem ForgetsSome.alike {m m' : Model} (h : ForgetsSome m m') : Alike m m' :=
  h.choose_spec.toLoses.alike

theorem alike_prune (m : Model) (e : Entity) : Alike m (m.prune e) :=
  ⟨rfl, rfl, rfl, rfl, fun _ => rfl, rfl, fun h => h⟩

theorem alike_noteRead (m : Model) (n : Node) : Alike m (noteRead n m) := by
  unfold noteRead
  split
  · exact ⟨rfl, rfl, rfl, rfl, fun _ => rfl, rfl, fun h => h⟩
  · exact Action.Frame.refl m

theorem alike_modifyCell (m : Model) (id : CellId) (f : Cells → Cells)
    (hf : ∀ c, (f c).bare = c.bare) : Alike m (m.modifyCell id f) := by
  refine ⟨rfl, rfl, rfl, rfl, fun other => ?_, Pool.size_modify _ _ _, Pool.tidy_modify _ _ _⟩
  have hget := Pool.get?_modify m.cells id other f
  change ((m.cells.modify id f).get? other).map Cells.bare = _
  rw [hget]
  split
  next h =>
    subst h
    rw [Option.map_map]
    congr 1
    funext c
    exact hf c
  next => rfl

namespace Alike

variable {m m' : Model}

theorem record (h : Alike m m') (e : Entity) : m'.record? e = m.record? e := by
  cases e with
  | space id => simp only [record?, h.spaces]
  | cells id => simp only [record?, h.cells]
  | ref id => simp only [record?, h.refs]

theorem home (h : Alike m m') (e : Entity) : m'.home? e = m.home? e := by
  unfold home?
  rw [h.record]

theorem listed (h : Alike m m') (a : Address) : m'.listed a = m.listed a := by
  have htop : m'.listsTop a = m.listsTop a := by
    unfold listsTop
    rw [h.roots, h.globals]
  unfold Model.listed
  rw [h.spaces, htop]

theorem addressable (h : Alike m m') : m'.Addressable ↔ m.Addressable := by
  constructor
  · rintro ⟨hs, hc, hr⟩
    rw [h.spaces] at hs
    rw [h.refs] at hr
    refine ⟨hs, ?_, hr⟩
    show m.cells.slots.size ≤ _
    rw [← h.slots]
    exact hc
  · rintro ⟨hs, hc, hr⟩
    refine ⟨?_, ?_, ?_⟩
    · rwa [h.spaces]
    · show m'.cells.slots.size ≤ _
      rw [h.slots]
      exact hc
    · rwa [h.refs]

theorem tidy' (h : Alike m m') (ht : m.Tidy) : m'.Tidy := by
  refine ⟨?_, h.tidy ht.cells, ?_⟩
  · rw [h.spaces]
    exact ht.spaces
  · rw [h.refs]
    exact ht.refs

theorem linked {loose : Entity → Prop} (h : Alike m m') (hm : m.Linked loose) :
    m'.Linked loose := hm.congr h.home h.listed

theorem owned (h : Alike m m') (hm : m.Owned) : m'.Owned := by
  refine hm.transfer (h.tidy' hm.tidy) (h.linked hm.linked) (fun id s s' hs hs' => ?_)
    fun id s' hs' hs => ?_
  · rw [h.spaces, hs] at hs'
    cases hs'
    exact .refl s
  · rw [h.spaces, hs] at hs'
    contradiction

end Alike

/-! ## Listing and unlisting -/

section Relisting

variable {m : Model} {id : SpaceId} {f : Space → Space}

theorem tidy_modifySpace (h : m.Tidy) (id : SpaceId) (f : Space → Space) :
    (m.modifySpace id f).Tidy :=
  ⟨Pool.tidy_modify _ _ _ h.spaces, h.cells, h.refs⟩

theorem get?_modifySpace {s : Space} (hs : m.spaces.get? id = some s) (f : Space → Space)
    (other : SpaceId) : (m.modifySpace id f).spaces.get? other =
      if id = other then some (f s) else m.spaces.get? other := by
  refine (Pool.get?_modify m.spaces id other f).trans ?_
  rw [hs, Option.map_some]

theorem home?_modifySpace (home : ∀ s, (f s).home = s.home) (e : Entity) :
    (m.modifySpace id f).home? e = m.home? e := by
  cases e with
  | cells _ => rfl
  | ref _ => rfl
  | space other =>
    have hget := Pool.get?_modify m.spaces id other f
    show Option.map _ (Option.map _ ((m.spaces.modify id f).get? other)) =
      Option.map _ (Option.map _ (m.spaces.get? other))
    rw [hget]
    split
    next h =>
      subst h
      cases m.spaces.get? id with
      | none => rfl
      | some s => exact congrArg some (home s)
    next => rfl

theorem listed_modifySpace_of_ne {a : Address} (ha : a.space? ≠ some id) :
    (m.modifySpace id f).listed a = m.listed a := by
  unfold Model.listed
  split
  next other hother =>
    have hne : ¬ id = other := fun h => ha (by rw [hother, h])
    change ((m.spaces.modify id f).get? other).bind _ = _
    rw [Pool.get?_modify, if_neg hne]
  next => rfl

/-- What a space lists at one place changes. -/
theorem relists_modifySpace {s : Space} {a : Address} {v : Option Entity}
    (hs : m.spaces.get? id = some s) (ha : a.space? = some id) (home : ∀ s, (f s).home = s.home)
    (same : (f s).lists a = v)
    (other : ∀ b, b.space? = some id → ¬ a.Same b → (f s).lists b = s.lists b) :
    Relists m (m.modifySpace id f) a v := by
  have hself : (m.modifySpace id f).spaces.get? id = some (f s) := by
    rw [get?_modifySpace hs, if_pos rfl]
  refine ⟨home?_modifySpace home, fun b hab => ?_, fun b hab => ?_⟩
  · rw [listed_of_space (hab.space?.symm.trans ha) hself, ← lists_congr hab]
    exact same
  · by_cases hb : b.space? = some id
    · rw [listed_of_space hb hself, listed_of_space hb hs]
      exact other b hb hab
    · exact listed_modifySpace_of_ne hb

variable {s : Space} {name : String} (hs : m.spaces.get? id = some s)
include hs

theorem relists_cells {g : NameMap CellId → NameMap CellId} {c : Option CellId}
    (hg : ∀ t n, (g t).get? n = if name = n then c else t.get? n) :
    Relists m (m.modifySpace id fun s => { s with cells := g s.cells }) (.cells id name)
      (c.map .cells) := by
  refine relists_modifySpace hs rfl (fun _ => by rfl) ?_ fun b hb hab => ?_
  · simp [Space.lists, hg]
  · cases b with
    | cells t n =>
      cases hb
      have hne : ¬ name = n := fun h => hab (h ▸ .refl _)
      simp [Space.lists, hg, hne]
    | _ => rfl

theorem relists_refs {g : NameMap RefId → NameMap RefId} {r : Option RefId}
    (hg : ∀ t n, (g t).get? n = if name = n then r else t.get? n) :
    Relists m (m.modifySpace id fun s => { s with refs := g s.refs }) (.ref id name)
      (r.map .ref) := by
  refine relists_modifySpace hs rfl (fun _ => by rfl) ?_ fun b hb hab => ?_
  · simp [Space.lists, hg]
  · cases b with
    | ref t n =>
      cases hb
      have hne : ¬ name = n := fun h => hab (h ▸ .refl _)
      simp [Space.lists, hg, hne]
    | _ => rfl

theorem relists_children {g : NameMap SpaceId → NameMap SpaceId} {c : Option SpaceId}
    (hg : ∀ t n, (g t).get? n = if name = n then c else t.get? n) :
    Relists m (m.modifySpace id fun s => { s with spaces := g s.spaces }) (.child id name)
      (c.map .space) := by
  refine relists_modifySpace hs rfl (fun _ => by rfl) ?_ fun b hb hab => ?_
  · simp [Space.lists, hg]
  · cases b with
    | child t n =>
      cases hb
      have hne : ¬ name = n := fun h => hab (h ▸ .refl _)
      simp [Space.lists, hg, hne]
    | _ => rfl

theorem relists_items {key : Key} {g : Table Key SpaceId → Table Key SpaceId} {i : Option SpaceId}
    (hg : ∀ t k, (g t).get? k = if key == k then i else t.get? k) :
    Relists m (m.modifySpace id fun s => { s with instances := g s.instances }) (.item id key)
      (i.map .space) := by
  refine relists_modifySpace hs rfl (fun _ => by rfl) ?_ fun b hb hab => ?_
  · simp [Space.lists, hg]
  · cases b with
    | item t k =>
      cases hb
      have hne : (key == k) = false := Bool.eq_false_iff.2 fun h => hab (.keys _ h)
      simp [Space.lists, hg, hne]
    | _ => rfl

omit hs

theorem relists_roots {g : NameMap SpaceId → NameMap SpaceId} {c : Option SpaceId}
    (hg : ∀ t n, (g t).get? n = if name = n then c else t.get? n) :
    Relists m { m with roots := g m.roots } (.root name) (c.map .space) := by
  refine ⟨fun _ => rfl, fun b hb => ?_, fun b hb => ?_⟩
  · cases hb
    simp [Model.listed, Address.space?, listsTop, hg]
  · cases b with
    | root n =>
      have hne : ¬ name = n := fun h => hb (h ▸ .refl _)
      simp [Model.listed, Address.space?, listsTop, hg, hne]
    | _ => rfl

theorem relists_globals {g : NameMap RefId → NameMap RefId} {r : Option RefId}
    (hg : ∀ t n, (g t).get? n = if name = n then r else t.get? n) :
    Relists m { m with globals := g m.globals } (.global name) (r.map .ref) := by
  refine ⟨fun _ => rfl, fun b hb => ?_, fun b hb => ?_⟩
  · cases hb
    simp [Model.listed, Address.space?, listsTop, hg]
  · cases b with
    | global n =>
      have hne : ¬ name = n := fun h => hb (h ▸ .refl _)
      simp [Model.listed, Address.space?, listsTop, hg, hne]
    | _ => rfl

end Relisting

/-! ## New entities -/

section Insertion

variable {m : Model}

theorem home_bare (c : Cells) : c.bare.home = c.home := rfl

theorem inserts_cells {c : Cells} (fresh : m.cells.Fresh (m.cells.insert c).2 (m.cells.insert c).1 c) :
    Inserts m { m with cells := (m.cells.insert c).2 } (.cells (m.cells.insert c).1) c.home := by
  obtain ⟨hnone, hget⟩ := fresh
  refine ⟨?_, ?_, fun e he => ?_, fun _ => rfl⟩
  · simp [home?, record?, hnone]
  · exact home?_cells (by rw [hget, if_pos rfl])
  · cases e with
    | cells other =>
      have hne : ¬ (m.cells.insert c).1 = other := fun h => he (h ▸ rfl)
      simp only [home?, record?, hget, if_neg hne]
    | _ => rfl

theorem inserts_ref {r : Reference} (fresh : m.refs.Fresh (m.refs.insert r).2 (m.refs.insert r).1 r) :
    Inserts m { m with refs := (m.refs.insert r).2 } (.ref (m.refs.insert r).1) r.home := by
  obtain ⟨hnone, hget⟩ := fresh
  refine ⟨?_, ?_, fun e he => ?_, fun _ => rfl⟩
  · simp [home?, record?, hnone]
  · exact home?_ref (by rw [hget, if_pos rfl])
  · cases e with
    | ref other =>
      have hne : ¬ (m.refs.insert r).1 = other := fun h => he (h ▸ rfl)
      simp only [home?, record?, hget, if_neg hne]
    | _ => rfl

/-- A space without members is added. -/
theorem inserts_space {s : Space}
    (fresh : m.spaces.Fresh (m.spaces.insert s).2 (m.spaces.insert s).1 s)
    (empty : ∀ a, s.lists a = none) :
    Inserts m { m with spaces := (m.spaces.insert s).2 } (.space (m.spaces.insert s).1) s.home := by
  obtain ⟨hnone, hget⟩ := fresh
  refine ⟨?_, ?_, fun e he => ?_, fun a => ?_⟩
  · simp [home?, record?, hnone]
  · exact home?_space (by rw [hget, if_pos rfl])
  · cases e with
    | space other =>
      have hne : ¬ (m.spaces.insert s).1 = other := fun h => he (h ▸ rfl)
      simp only [home?, record?, hget, if_neg hne]
    | _ => rfl
  · unfold Model.listed
    split
    next id _ =>
      change ((m.spaces.insert s).2.get? id).bind _ = _
      rw [hget]
      split
      next h =>
        rw [← h, hnone, Option.bind_some, empty]
        rfl
      next => rfl
    next => rfl

end Insertion

/-! ## Entities that go -/

section Removal

variable (m : Model)

theorem removes_eraseCells (id : CellId) :
    Removes m { m with cells := m.cells.erase id } (.cells id) := by
  have hget := Pool.get?_erase m.cells id
  refine ⟨?_, fun e he => ?_, fun b hb => ?_, fun _ _ => rfl⟩
  · simp [home?, record?, hget]
  · cases e with
    | cells other =>
      have hne : ¬ id = other := fun h => he (h ▸ rfl)
      simp only [home?, record?, hget, if_neg hne]
    | _ => rfl
  · obtain ⟨s, -, hs⟩ := Option.map_eq_some_iff.1 hb
    cases hs

theorem removes_eraseRef (id : RefId) :
    Removes m { m with refs := m.refs.erase id } (.ref id) := by
  have hget := Pool.get?_erase m.refs id
  refine ⟨?_, fun e he => ?_, fun b hb => ?_, fun _ _ => rfl⟩
  · simp [home?, record?, hget]
  · cases e with
    | ref other =>
      have hne : ¬ id = other := fun h => he (h ▸ rfl)
      simp only [home?, record?, hget, if_neg hne]
    | _ => rfl
  · obtain ⟨s, -, hs⟩ := Option.map_eq_some_iff.1 hb
    cases hs

theorem removes_eraseSpace (id : SpaceId) :
    Removes m { m with spaces := m.spaces.erase id } (.space id) := by
  have hget := Pool.get?_erase m.spaces id
  refine ⟨?_, fun e he => ?_, fun b hb => ?_, fun b hb => ?_⟩
  · simp [home?, record?, hget]
  · cases e with
    | space other =>
      have hne : ¬ id = other := fun h => he (h ▸ rfl)
      simp only [home?, record?, hget, if_neg hne]
    | _ => rfl
  · obtain ⟨s, hs, heq⟩ := Option.map_eq_some_iff.1 hb
    cases heq
    unfold Model.listed
    simp only [hs, hget, if_pos, Option.bind_none]
  · unfold Model.listed
    split
    next other hother =>
      have hne : ¬ id = other := by
        rintro rfl
        exact hb (by rw [hother]; rfl)
      change ((m.spaces.erase id).get? other).bind _ = _
      rw [hget, if_neg hne]
    next => rfl

end Removal

end Recalc.Model
