import Recalc.Proofs.Culling
import Recalc.Proofs.InStepWaves

set_option autoImplicit false

/-!
# How much a derivation takes

A derivation puts no more members of a kind into their pool than the space inherits, and it reuses
slots that are free before it takes new ones. So a pool needs at most as many slots as it had in
use, and one for each inherited member.
-/

namespace Recalc

structure Load where
  capacity : Nat
  free : Nat
  population : Nat

namespace Load

/-- At most `n` insertions lead from one load to the other, among any number of removals. -/
structure Takes (n : Nat) (a b : Load) : Prop where
  used : b.capacity + a.free ≤ a.capacity + b.free + n
  high : b.capacity ≤ a.capacity ∨ b.capacity + a.free ≤ a.capacity + n
  /-- No slot is lost: it is free, or something is in it. -/
  spare : b.capacity + a.free + a.population ≤ a.capacity + b.free + b.population

theorem Takes.refl (a : Load) : a.Takes 0 a := ⟨by omega, by omega, by omega⟩

theorem Takes.trans {i j : Nat} {a b c : Load} (h : a.Takes i b) (h' : b.Takes j c) :
    a.Takes (i + j) c := by
  obtain ⟨hused, hhigh, hspare⟩ := h
  obtain ⟨hused', hhigh', hspare'⟩ := h'
  exact ⟨by omega, by omega, by omega⟩

theorem Takes.mono {i j : Nat} {a b : Load} (h : a.Takes i b) (hle : i ≤ j) : a.Takes j b := by
  obtain ⟨hused, hhigh, hspare⟩ := h
  exact ⟨by omega, by omega, hspare⟩

end Load

namespace Pool

variable {family : Family} {α : Type} (a : Pool family α)

def load : Load := ⟨a.capacity, a.free.length, a.population⟩

theorem load_modify (id : Id family) (f : α → α) : (a.modify id f).load = a.load := by
  unfold load capacity
  rw [size_modify, free_modify, population_modify]

theorem takes_erase (id : Id family) : a.load.Takes 0 (a.erase id).load := by
  cases h : a.get? id with
  | none =>
    rw [erase_of_get?_none a id h]
    exact .refl _
  | some v =>
    have hsize : (a.erase id).load.capacity = a.load.capacity := size_erase a id
    have hfree : (a.erase id).load.free = a.load.free + 1 := by
      simp only [load, erase, remove?, h, List.length_cons]
    have hpopulation : (a.erase id).load.population + 1 = a.load.population := population_erase h
    exact ⟨by omega, by omega, by omega⟩

variable {a}

theorem takes_insert (tidy : a.Tidy) (v : α) : a.load.Takes 1 (a.insert v).2.load := by
  have hpopulation : (a.insert v).2.load.population = a.load.population + 1 :=
    population_insert tidy v
  cases hf : a.free with
  | nil =>
    have hcapacity : (a.insert v).2.load.capacity = a.load.capacity + 1 := by
      simp [load, capacity, insert_of_no_free hf]
    have hfree : (a.insert v).2.load.free = 0 := by simp [load, insert_of_no_free hf, hf]
    have hnone : a.load.free = 0 := by simp [load, hf]
    exact ⟨by omega, by omega, by omega⟩
  | cons i rest =>
    obtain ⟨-, hrest, hsize, -⟩ := insert_of_free (v := v) tidy hf
    have hcapacity : (a.insert v).2.load.capacity = a.load.capacity := hsize
    have hfree : (a.insert v).2.load.free + 1 = a.load.free := by simp [load, hrest, hf]
    exact ⟨by omega, by omega, by omega⟩

end Pool

def MemberKind.share (own kind : MemberKind) : Nat := if kind = own then 1 else 0

def Heritage.names (h : Heritage) : MemberKind → List String
  | .cells => h.cells.names
  | .reference => h.refs.names
  | .space => h.spaces.names

namespace Model

open Recalc.Action

def load (m : Model) : MemberKind → Load
  | .cells => m.cells.load
  | .reference => m.refs.load
  | .space => m.spaces.load

structure Takes (kind : MemberKind) (n : Nat) (m m' : Model) : Prop where
  tidy : m.Tidy → m'.Tidy
  load : m.Tidy → (m.load kind).Takes n (m'.load kind)

variable {kind : MemberKind}

instance : Graded (Takes kind) where
  refl _ := ⟨fun h => h, fun _ => .refl _⟩
  trans h h' := ⟨fun ht => h'.tidy (h.tidy ht), fun ht => (h.load ht).trans (h'.load (h.tidy ht))⟩
  mono hle h := ⟨h.tidy, fun ht => (h.load ht).mono hle⟩

/-! ## Steps -/

section Steps

variable (m : Model)

/-- Nothing happens to the pools but that entities change in place. -/
theorem takes_of_loads {m m' : Model} (tidy : m.Tidy → m'.Tidy)
    (spaces : m'.spaces.load = m.spaces.load) (cells : m'.cells.load = m.cells.load)
    (refs : m'.refs.load = m.refs.load) : Takes kind 0 m m' := by
  refine ⟨tidy, fun _ => ?_⟩
  have hload : m'.load kind = m.load kind := by
    cases kind with
    | cells => exact cells
    | reference => exact refs
    | space => exact spaces
  rw [hload]
  exact .refl _

theorem takes_modifySpace (id : SpaceId) (f : Space → Space) :
    Takes kind 0 m (m.modifySpace id f) :=
  takes_of_loads (fun h => tidy_modifySpace h id f) (Pool.load_modify _ id f) rfl rfl

theorem takes_modifyCell (id : CellId) (f : Cells → Cells) : Takes kind 0 m (m.modifyCell id f) :=
  takes_of_loads (fun h => ⟨h.spaces, Pool.tidy_modify _ _ _ h.cells, h.refs⟩) rfl
    (Pool.load_modify _ id f) rfl

theorem takes_modifyRef (id : RefId) (f : Reference → Reference) :
    Takes kind 0 m (m.modifyRef id f) :=
  takes_of_loads (fun h => ⟨h.spaces, h.cells, Pool.tidy_modify _ _ _ h.refs⟩) rfl rfl
    (Pool.load_modify _ id f)

theorem takes_graph (graph : Graph) : Takes kind 0 m { m with graph } :=
  takes_of_loads (fun h => ⟨h.spaces, h.cells, h.refs⟩) rfl rfl rfl

theorem takes_forget (n : Node) : Takes kind 0 m (m.forget n) := by
  unfold forget
  split
  · exact Frame.trans (takes_graph m _) (takes_modifyCell _ _ _)
  · exact takes_graph m _

theorem takes_eraseSpace (id : SpaceId) :
    Takes kind 0 m { m with spaces := m.spaces.erase id } := by
  refine ⟨fun h => ⟨Pool.tidy_erase _ _ h.spaces, h.cells, h.refs⟩, fun _ => ?_⟩
  cases kind with
  | space => exact m.spaces.takes_erase id
  | cells | reference => exact .refl _

theorem takes_eraseCells (id : CellId) : Takes kind 0 m { m with cells := m.cells.erase id } := by
  refine ⟨fun h => ⟨h.spaces, Pool.tidy_erase _ _ h.cells, h.refs⟩, fun _ => ?_⟩
  cases kind with
  | cells => exact m.cells.takes_erase id
  | space | reference => exact .refl _

theorem takes_eraseRef (id : RefId) : Takes kind 0 m { m with refs := m.refs.erase id } := by
  refine ⟨fun h => ⟨h.spaces, h.cells, Pool.tidy_erase _ _ h.refs⟩, fun _ => ?_⟩
  cases kind with
  | reference => exact m.refs.takes_erase id
  | space | cells => exact .refl _

theorem removalFrame_takes : RemovalFrame (Takes kind 0) where
  frame := inferInstance
  forget := takes_forget
  prune m _ := takes_graph m _
  eraseSpace := takes_eraseSpace
  eraseCells := takes_eraseCells
  eraseRef := takes_eraseRef
  eraseInstance m owner _ := takes_modifySpace m owner _

theorem Takes.listed {m m₁ : Model} {n : Nat} (h : Takes kind n m m₁) (id : SpaceId)
    (f : Space → Space) : Takes kind n m (m₁.modifySpace id f) :=
  Graded.mono (Nat.le_of_eq (Nat.add_zero n)) (Graded.trans h (takes_modifySpace m₁ id f))

theorem takes_addCells (c : Cells) :
    Takes kind (MemberKind.share .cells kind) m (m.addCells c).2 := by
  have hinsert : Takes kind (MemberKind.share .cells kind) m
      { m with cells := (m.cells.insert c).2 } := by
    refine ⟨fun h => ⟨h.spaces, Pool.tidy_insert h.cells c, h.refs⟩, fun h => ?_⟩
    cases kind with
    | cells => exact Pool.takes_insert h.cells c
    | space | reference => exact .refl _
  exact hinsert.listed _ _

theorem takes_addRef (r : Reference) {owner : SpaceId} (howner : r.owner = some owner) :
    Takes kind (MemberKind.share .reference kind) m (m.addRef r).2 := by
  have hinsert : Takes kind (MemberKind.share .reference kind) m
      { m with refs := (m.refs.insert r).2 } := by
    refine ⟨fun h => ⟨h.spaces, h.cells, Pool.tidy_insert h.refs r⟩, fun h => ?_⟩
    cases kind with
    | reference => exact Pool.takes_insert h.refs r
    | space | cells => exact .refl _
  rw [addRef_of_owner m howner]
  exact hinsert.listed _ _

theorem takes_addChild (parent : SpaceId) (s : Space) :
    Takes kind (MemberKind.share .space kind) m (m.addChild parent s).2 := by
  have hinsert : Takes kind (MemberKind.share .space kind) m (m.addSpace s).2 := by
    refine ⟨fun h => ⟨Pool.tidy_insert h.spaces s, h.cells, h.refs⟩, fun h => ?_⟩
    cases kind with
    | space => exact Pool.takes_insert h.spaces s
    | cells | reference => exact .refl _
  exact hinsert.listed _ _

theorem takes_unlinkDeadBases : Takes kind 0 m m.unlinkDeadBases.2 :=
  foldl_obeys (R := Takes kind 0) (fun m id => takes_modifySpace m id _) _ m

end Steps

/-! ## Derivation -/

section Derivation

variable {id : SpaceId} {heritage : Heritage}

theorem takes_collect {α : Type} {f : α → Action Changes} {n : Nat}
    (h : ∀ a, Obeys (Takes kind n) (f a)) (l : List α) :
    Obeys (Takes kind (l.length * n)) (collect f l) := by
  induction l with
  | nil => exact obeys_any (obeys_pure _)
  | cons a l ih =>
    refine obeys_seq (h a) (fun _ => obeys_last ih fun _ => obeys_pure _) ?_
    rw [List.length_cons, Nat.succ_mul, Nat.add_comm]

theorem takes_deriveCells (id : SpaceId) (name : String) (source : CellId) :
    Obeys (Takes kind (MemberKind.share .cells kind)) (deriveCells id name source) := by
  refine obeys_first (obeys_read _) fun src => obeys_first (obeys_read _) fun s => ?_
  split
  · refine obeys_last (obeys_modify fun m => ?_) fun _ => obeys_pure _
    exact Graded.trans (takes_addCells m _) (removalFrame_takes.hideGlobal _ name)
  · refine obeys_any (obeys_bind (obeys_read _) fun current => ?_)
    split
    · refine obeys_bind (obeys_modify fun m => ?_) fun _ => obeys_pure _
      exact Frame.trans (takes_modifyCell m _ _) (removalFrame_takes.invalidateCells _ _)
    · exact obeys_pure _

theorem takes_dropCells (id : SpaceId) (heritage : Heritage) (e : String × CellId) :
    Obeys (Takes kind 0) (dropCells id heritage e) := by
  unfold dropCells
  split
  · exact obeys_pure _
  · refine obeys_bind (obeys_read _) fun c => ?_
    split
    · refine obeys_bind (obeys_modify fun m => ?_) fun _ => obeys_pure _
      exact Frame.trans (takes_modifySpace m id _) (removalFrame_takes.destroyCells _ _)
    · exact obeys_pure _

theorem takes_deriveRef (id : SpaceId) (name : String) (source : RefId) :
    Obeys (Takes kind (MemberKind.share .reference kind)) (deriveRef id name source) := by
  refine obeys_first (obeys_read _) fun src => obeys_first (obeys_read _) fun s => ?_
  split
  · refine obeys_last (obeys_modify fun m => ?_) fun _ => obeys_pure _
    exact Graded.trans (takes_addRef m _ rfl) (removalFrame_takes.hideGlobal _ name)
  · refine obeys_any (obeys_bind (obeys_read _) fun current => ?_)
    split
    · refine obeys_bind (obeys_modify fun m => ?_) fun _ => obeys_pure _
      exact Frame.trans (takes_modifyRef m _ _) (removalFrame_takes.invalidate _ _)
    · exact obeys_pure _

theorem takes_dropRef (id : SpaceId) (heritage : Heritage) (e : String × RefId) :
    Obeys (Takes kind 0) (dropRef id heritage e) := by
  unfold dropRef
  split
  · exact obeys_pure _
  · refine obeys_bind (obeys_read _) fun r => ?_
    split
    · refine obeys_bind (obeys_modify fun m => ?_) fun _ => obeys_pure _
      exact Frame.trans (takes_modifySpace m id _) (removalFrame_takes.destroyReference _ _)
    · exact obeys_pure _

theorem takes_deriveChild (id : SpaceId) (name : String) (sources : List SpaceId) :
    Obeys (Takes kind (MemberKind.share .space kind)) (deriveChild id name sources) := by
  refine obeys_first (obeys_read _) fun s => ?_
  split
  · refine obeys_last (obeys_update fun m => takes_addChild m id _) fun child => ?_
    exact obeys_bind (obeys_modify fun m => removalFrame_takes.hideGlobal m name) fun _ =>
      obeys_pure _
  · refine obeys_any (obeys_bind (obeys_read _) fun c => ?_)
    split
    · exact obeys_bind (obeys_modify fun m => takes_modifySpace m _ _) fun _ => obeys_pure _
    · exact obeys_pure _

theorem takes_dropChild (id : SpaceId) (heritage : Heritage) (e : String × SpaceId) :
    Obeys (Takes kind 0) (dropChild id heritage e) := by
  unfold dropChild
  split
  · exact obeys_pure _
  · refine obeys_bind (obeys_read _) fun c => ?_
    split
    · refine obeys_bind (obeys_modify fun m => ?_) fun _ => obeys_pure _
      exact Frame.trans (takes_modifySpace m id _) (removalFrame_takes.destroyTree _ _ _)
    · split
      · exact obeys_bind (obeys_modify fun m => takes_modifySpace m _ _) fun _ => obeys_pure _
      · exact obeys_pure _

theorem takes_deriveSignature (id : SpaceId) (heritage : Heritage) :
    Obeys (Takes kind 0) (deriveSignature id heritage) := by
  refine obeys_bind (obeys_read _) fun s => ?_
  split
  · exact obeys_bind (obeys_modify fun m => takes_modifySpace m id _) fun _ => obeys_pure _
  · exact obeys_pure _

theorem takes_settle (id : SpaceId) (changes : Changes) :
    Obeys (Takes kind 0) (settle id changes) := by
  refine obeys_bind (obeys_modify (removalFrame_takes.dropStale id changes)) fun _ => ?_
  split
  · exact obeys_update takes_unlinkDeadBases
  · exact obeys_pure _

/-- No more members come than are inherited. -/
theorem takes_deriveMembers (id : SpaceId) (heritage : Heritage) :
    Obeys (Takes kind (heritage.names kind).length) (deriveMembers id heritage) := by
  have hcells : Obeys (Takes kind _) _ :=
    takes_collect (fun e => takes_deriveCells id e.1 e.2) heritage.cells.entries
  have hrefs : Obeys (Takes kind _) _ :=
    takes_collect (fun e => takes_deriveRef id e.1 e.2) heritage.refs.entries
  have hspaces : Obeys (Takes kind _) _ :=
    takes_collect (fun e => takes_deriveChild id e.1 e.2) heritage.spaces.entries
  have hcount : heritage.cells.entries.length * (MemberKind.share .cells kind) +
      (heritage.refs.entries.length * (MemberKind.share .reference kind) +
        heritage.spaces.entries.length * (MemberKind.share .space kind)) =
      (heritage.names kind).length := by
    cases kind <;> simp [Heritage.names, NameMap.names, MemberKind.share]
  rw [← hcount]
  refine obeys_seq hcells (fun _ => obeys_first (obeys_read _) fun s => ?_) (Nat.le_refl _)
  refine obeys_first (obeys_collect (takes_dropCells id heritage) _) fun _ => ?_
  refine obeys_seq hrefs (fun _ => obeys_first (obeys_read _) fun s => ?_) (Nat.le_refl _)
  refine obeys_first (obeys_collect (takes_dropRef id heritage) _) fun _ => ?_
  refine obeys_last hspaces fun _ => obeys_bind (obeys_read _) fun s => ?_
  refine obeys_bind (obeys_collect (takes_dropChild id heritage) _) fun _ => ?_
  exact obeys_bind (takes_deriveSignature id heritage) fun _ => obeys_pure _

end Derivation

end Model

end Recalc
