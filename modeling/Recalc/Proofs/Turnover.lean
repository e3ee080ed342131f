import Recalc.Proofs.EditLaws
import Recalc.Proofs.OwnedAdditions

set_option autoImplicit false

/-!
# The turnover of cells

A slot of a pool counts how often it was freed. Steps of an edit that bring no cells free each slot
once at most, so that a round of an edit takes a slot at most one generation further. Cells that are
found under one identity before and after are then the same cells, with the same inputs, unless the
rounds use up the 32 bits of a generation.
-/

namespace Recalc

namespace Pool

variable {family : Family} {α β : Type} (f : α → β) {a b c : Pool family α}

/-- Nothing comes and nothing goes. Everything keeps its `f`. -/
structure Stays (a b : Pool family α) : Prop where
  tidy : a.Tidy → b.Tidy
  generation : ∀ i, b.generation? i = a.generation? i
  kept : ∀ id, (b.get? id).map f = (a.get? id).map f

/-- Slots are freed, each once at most, and nothing comes. What stays keeps its `f`. -/
structure Trims (a b : Pool family α) : Prop where
  tidy : a.Tidy → b.Tidy
  slot : ∀ i, (b.generation? i = a.generation? i ∧
      ∀ id : Id family, id.index.toNat = i → (b.get? id).map f = (a.get? id).map f) ∨
    ∃ id v, id.index.toNat = i ∧ a.get? id = some v ∧
      b.generation? i = some (id.generation + 1) ∧
        ∀ other : Id family, other.index.toNat = i → b.get? other = none

/-- Slots are freed `n` times each at most. What was not freed keeps its `f`. -/
structure Turns (n : Nat) (a b : Pool family α) : Prop where
  tidy : b.Tidy
  slot : ∀ i g, a.generation? i = some g → ∃ j ≤ n, b.generation? i = some (g + UInt32.ofNat j) ∧
    (j = 0 → ∀ (id : Id family) v, id.index.toNat = i → a.get? id = some v →
      (b.get? id).map f = some (f v))

variable {f}

namespace Stays

theorem refl (a : Pool family α) : Stays f a a := ⟨id, fun _ => rfl, fun _ => rfl⟩

theorem trans (h : Stays f a b) (h' : Stays f b c) : Stays f a c :=
  ⟨fun ht => h'.tidy (h.tidy ht), fun i => (h'.generation i).trans (h.generation i),
    fun id => (h'.kept id).trans (h.kept id)⟩

theorem modify (a : Pool family α) (id : Id family) {g : α → α}
    (hg : ∀ v, a.get? id = some v → f (g v) = f v) : Stays f a (a.modify id g) := by
  refine ⟨tidy_modify a id g, generation?_modify a id g, fun other => ?_⟩
  rw [get?_modify]
  split
  next heq =>
    subst heq
    cases hv : a.get? id with
    | none => rfl
    | some v => exact congrArg some (hg v hv)
  next => rfl

theorem trims (h : Stays f a b) : Trims f a b :=
  ⟨h.tidy, fun i => .inl ⟨h.generation i, fun id _ => h.kept id⟩⟩

theorem turns (h : Stays f a b) (ht : a.Tidy) : Turns f 0 a b := by
  refine ⟨h.tidy ht, fun i g hg => ⟨0, Nat.le_refl 0, ?_, fun _ id v _ hv => ?_⟩⟩
  · rw [h.generation, hg]
    exact congrArg some (UInt32.add_zero g).symm
  · rw [h.kept, hv, Option.map_some]

end Stays

namespace Trims

theorem trans (h : Trims f a b) (h' : Trims f b c) : Trims f a c := by
  refine ⟨fun ht => h'.tidy (h.tidy ht), fun i => ?_⟩
  rcases h.slot i with ⟨hgen, hkept⟩ | ⟨id, v, hi, hv, hgen, hgone⟩
  · rcases h'.slot i with ⟨hgen', hkept'⟩ | ⟨id, v, hi, hv, hgen', hgone'⟩
    · exact .inl ⟨hgen'.trans hgen, fun id hi => (hkept' id hi).trans (hkept id hi)⟩
    · have hsame := hkept id hi
      rw [hv, Option.map_some, eq_comm] at hsame
      obtain ⟨w, hw, -⟩ := Option.map_eq_some_iff.1 hsame
      exact .inr ⟨id, w, hi, hw, hgen', hgone'⟩
  · rcases h'.slot i with ⟨hgen', hkept'⟩ | ⟨other, w, hother, hw, -, -⟩
    · refine .inr ⟨id, v, hi, hv, hgen'.trans hgen, fun other hother => ?_⟩
      have hsame := hkept' other hother
      rwa [hgone other hother, Option.map_none, Option.map_eq_none_iff] at hsame
    · rw [hgone other hother] at hw
      contradiction

theorem erase (a : Pool family α) (id : Id family) : Trims f a (a.erase id) := by
  cases hv : a.get? id with
  | none =>
    rw [erase_of_get?_none a id hv]
    exact (Stays.refl a).trims
  | some v =>
    refine ⟨tidy_erase a id, fun i => ?_⟩
    rw [generation?_erase hv]
    split
    next hi =>
      refine .inr ⟨id, v, hi, hv, rfl, fun other hother => ?_⟩
      rw [get?_erase]
      split
      next => rfl
      next hne =>
        cases hw : a.get? other with
        | none => rfl
        | some w =>
          exact absurd (eq_of_index_eq hv hw (UInt32.toNat_inj.1 (hi.trans hother.symm))) hne
    next hi =>
      refine .inl ⟨rfl, fun other hother => ?_⟩
      rw [get?_erase, if_neg]
      rintro rfl
      exact hi hother

/-- What is found afterwards was there, with the same `f`. -/
theorem of_get? (h : Trims f a b) {id : Id family} {w : α} (hw : b.get? id = some w) :
    ∃ v, a.get? id = some v ∧ f w = f v := by
  rcases h.slot id.index.toNat with ⟨-, hkept⟩ | ⟨-, -, -, -, -, hgone⟩
  · have hsame := hkept id rfl
    rw [hw, Option.map_some, eq_comm] at hsame
    obtain ⟨v, hv, heq⟩ := Option.map_eq_some_iff.1 hsame
    exact ⟨v, hv, heq.symm⟩
  · rw [hgone id rfl] at hw
    contradiction

end Trims

namespace Turns

variable {n k : Nat}

theorem mono (h : Turns f n a b) (le : n ≤ k) : Turns f k a b := by
  refine ⟨h.tidy, fun i g hg => ?_⟩
  obtain ⟨j, hj, hrest⟩ := h.slot i g hg
  exact ⟨j, Nat.le_trans hj le, hrest⟩

theorem trans (h : Turns f n a b) (h' : Turns f k b c) : Turns f (n + k) a c := by
  refine ⟨h'.tidy, fun i g hg => ?_⟩
  obtain ⟨j, hj, hgen, hkept⟩ := h.slot i g hg
  obtain ⟨j', hj', hgen', hkept'⟩ := h'.slot i _ hgen
  refine ⟨j + j', Nat.add_le_add hj hj', ?_, fun hzero id v hi hv => ?_⟩
  · rw [hgen', UInt32.add_assoc, UInt32.ofNat_add]
  · have hmiddle := hkept (by omega) id v hi hv
    obtain ⟨w, hw, heq⟩ := Option.map_eq_some_iff.1 hmiddle
    rw [hkept' (by omega) id w hi hw, heq]

/-- Steps that bring nothing take a slot one generation further at most. -/
theorem of_trims (h : Trims f a b) (ht : a.Tidy) : Turns f 1 a b := by
  refine ⟨h.tidy ht, fun i g hg => ?_⟩
  rcases h.slot i with ⟨hgen, hkept⟩ | ⟨id, v, hi, hv, hgen, -⟩
  · refine ⟨0, Nat.zero_le 1, ?_, fun _ id v hi hv => by rw [hkept id hi, hv, Option.map_some]⟩
    rw [hgen, hg]
    exact congrArg some (UInt32.add_zero g).symm
  · subst hi
    rw [generation?_of_get? hv] at hg
    cases hg
    exact ⟨1, Nat.le_refl 1, hgen, fun hone => absurd hone (by decide)⟩

theorem insert (ht : a.Tidy) (v : α) : Turns f 0 a (a.insert v).2 := by
  refine ⟨tidy_insert ht v, fun i g hg => ⟨0, Nat.le_refl 0, ?_, fun _ id w _ hw => ?_⟩⟩
  · rw [generation?_insert hg]
    exact congrArg some (UInt32.add_zero g).symm
  rcases insert_cases ht v with ⟨hnone, hget⟩ | hget
  · rw [hget, if_neg, hw, Option.map_some]
    rintro rfl
    rw [hnone] at hw
    contradiction
  · rw [hget, hw, Option.map_some]

/-- What is found under one identity before and after has the same `f`, unless the generation of its
slot went all the way around. -/
theorem eq_of_get? (h : Turns f n a b) (room : n < UInt32.size) {id : Id family} {v w : α}
    (hv : a.get? id = some v) (hw : b.get? id = some w) : f w = f v := by
  obtain ⟨j, hj, hgen, hkept⟩ := h.slot _ _ (generation?_of_get? hv)
  rw [generation?_of_get? hw, Option.some.injEq] at hgen
  have hzero := congrArg UInt32.toNat (UInt32.left_eq_add.1 hgen)
  rw [UInt32.toNat_ofNat_of_lt' (Nat.lt_of_le_of_lt hj room)] at hzero
  have hsame := hkept hzero id v rfl hv
  rwa [hw, Option.map_some, Option.some.injEq] at hsame

end Turns

end Pool

namespace Model

open Recalc.Action

def TrimsCells (m m' : Model) : Prop := Pool.Trims (·.contents.inputs) m.cells m'.cells

def TurnsCells (n : Nat) (m m' : Model) : Prop :=
  m.cells.Tidy → Pool.Turns (·.contents.inputs) n m.cells m'.cells

def StaysCells (m m' : Model) : Prop := Pool.Stays (·.contents.inputs) m.cells m'.cells

instance : Frame StaysCells where
  refl m := Pool.Stays.refl m.cells
  trans h h' := Pool.Stays.trans h h'

instance : Frame TrimsCells where
  refl m := (Pool.Stays.refl m.cells).trims
  trans h h' := Pool.Trims.trans h h'

instance : Graded TurnsCells where
  refl m := (Pool.Stays.refl m.cells).turns
  trans h h' ht := (h ht).trans (h' (h ht).tidy)
  mono le h ht := (h ht).mono le

section Steps

variable {m m' : Model}

theorem StaysCells.trimsCells (h : StaysCells m m') : TrimsCells m m' := Pool.Stays.trims h

theorem StaysCells.turnsCells (h : StaysCells m m') : TurnsCells 0 m m' := Pool.Stays.turns h

theorem staysCells_of_eq (h : m'.cells = m.cells) : StaysCells m m' := by
  unfold StaysCells
  rw [h]
  exact Pool.Stays.refl m.cells

theorem Loses.staysCells {gone : Node → Bool} (h : Loses gone m m') : StaysCells m m' := by
  refine ⟨fun ht => ⟨fun i hi => ?_, by rw [h.free]; exact ht.nodup⟩, h.generations, fun id => ?_⟩
  · rw [h.free] at hi
    rw [h.slots]
    exact ⟨(ht.vacant i hi).1, fun g => h.absent _ ((ht.vacant i hi).2 g)⟩
  · cases hc : m.cells.get? id with
    | none => rw [h.absent id hc]
    | some c =>
      obtain ⟨c', hc', -, hinputs, -⟩ := h.cells id c hc
      rw [hc', Option.map_some, Option.map_some, hinputs]

theorem ForgetsSome.staysCells (h : ForgetsSome m m') : StaysCells m m' :=
  h.choose_spec.toLoses.staysCells

variable (m)

theorem staysCells_modifyCell (id : CellId) {f : Cells → Cells}
    (hf : ∀ c, m.cells.get? id = some c → (f c).contents.inputs = c.contents.inputs) :
    StaysCells m (m.modifyCell id f) :=
  Pool.Stays.modify m.cells id hf

theorem staysCells_redefine (id : CellId) {f : Cells → Cells}
    (hf : ∀ c, (f c).contents = c.contents) :
    StaysCells m ((m.modifyCell id f).invalidateCells id).2 :=
  Frame.trans (staysCells_modifyCell m id fun c _ => by rw [hf])
    (forgetsAll_invalidateCells _ id).forgetsSome.staysCells

theorem staysCells_invalidate (n : Node) : StaysCells m (m.invalidate n).2 :=
  (forgetsAll_invalidate m n).forgetsSome.staysCells

theorem trimsCells_destroyCells (id : CellId) : TrimsCells m (m.destroyCells id) := by
  have hforget := (forgetsAll_invalidateCells m id).forgetsSome.staysCells
  exact Frame.trans hforget.trimsCells (Pool.Trims.erase (m.invalidateCells id).2.cells id)

theorem trimsCells_destroyReference (id : RefId) : TrimsCells m (m.destroyReference id) :=
  (Frame.trans (staysCells_invalidate m (.ref id)) (staysCells_of_eq rfl)).trimsCells

theorem trimsCells_destroyTree (fuel : Nat) (id : SpaceId) :
    TrimsCells m (destroyTree fuel m id) := by
  induction fuel generalizing m id with
  | zero => exact Frame.refl m
  | succ fuel ih =>
    unfold destroyTree
    split
    next => exact Frame.refl m
    next s spaces _ =>
      have hcut : StaysCells m { m with spaces } := staysCells_of_eq rfl
      refine foldl_keeps (P := TrimsCells m) (fun m' c h => Frame.trans h (ih m' c)) _ ?_
      refine foldl_keeps (P := TrimsCells m)
        (fun m' r h => Frame.trans h (trimsCells_destroyReference m' r)) _ ?_
      refine foldl_keeps (P := TrimsCells m)
        (fun m' c h => Frame.trans h (trimsCells_destroyCells m' c)) _ ?_
      refine foldl_keeps (P := TrimsCells m) (fun m' e h => ?_) s.instances.entries hcut.trimsCells
      have hforget := (staysCells_invalidate m' (.item id e.1)).trimsCells
      exact Frame.trans h (Frame.trans hforget (ih _ e.2))

theorem trimsCells_removeInstance (owner : SpaceId) (key : Key) :
    TrimsCells m (m.removeInstance owner key).2 := by
  unfold removeInstance
  split
  next => exact Frame.refl m
  next item _ =>
    have hcut : StaysCells m (m.modifySpace owner fun s =>
        { s with instances := s.instances.erase key }) := staysCells_of_eq rfl
    have hforget := staysCells_invalidate (m.modifySpace owner fun s =>
      { s with instances := s.instances.erase key }) (.item owner key)
    exact Frame.trans (Frame.trans hcut hforget).trimsCells (trimsCells_destroyTree _ _ item)

/-- New cells come into a slot that is free. -/
theorem turnsCells_addCells (c : Cells) : TurnsCells 0 m (m.addCells c).2 := fun ht =>
  Pool.Turns.insert ht c

end Steps

/-- Every edit turns the slots of cells over in rounds. -/
theorem roundFrame_cells : RoundFrame TrimsCells TurnsCells where
  frame := inferInstance
  forget h := h.staysCells.trimsCells
  addSpace _ _ _ _ := (staysCells_of_eq rfl).trimsCells
  addRef m r := (staysCells_of_eq (cells_addRef m r)).trimsCells
  modifySpace _ _ _ _ := (staysCells_of_eq rfl).trimsCells
  declare _ _ _ _ := (staysCells_of_eq rfl).trimsCells
  permit _ _ _ := (staysCells_of_eq rfl).trimsCells
  listings _ _ _ := (staysCells_of_eq rfl).trimsCells
  recast m id _ := (staysCells_modifyCell m id fun _ _ => by rfl).trimsCells
  redefine m id _ hf := (staysCells_redefine m id hf).trimsCells
  rebind m id f := (staysCells_invalidate (m.modifyRef id f) (.ref id)).trimsCells
  destroyCells := trimsCells_destroyCells
  destroyReference := trimsCells_destroyReference
  destroySpace m id := trimsCells_destroyTree m _ id
  removeInstance := trimsCells_removeInstance
  graded := inferInstance
  round h ht := .of_trims h ht
  within h := h.staysCells.turnsCells
  arrive m c _ := turnsCells_addCells m c
  amend m id _ hf := (staysCells_redefine m id hf).turnsCells

end Model

end Recalc
