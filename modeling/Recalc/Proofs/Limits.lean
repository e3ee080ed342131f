import Recalc.Proofs.Evaluations

set_option autoImplicit false

/-!
# Models with another limit

The limit on depth is looked at where a node goes on the stack and where a relative reference walks
through the tree of spaces. Everything else, the reclamation of instances included, does the same to
a model under any limit.
-/

namespace Recalc.Model

open Recalc.Action

def withLimit (m : Model) (limit : Nat) : Model :=
  { m with config := { m.config with maxDepth := limit } }

variable {m m' : Model} {α β : Type} {limit : Nat}

section Views

variable (m limit)

@[simp]
theorem withLimit_spaces : (m.withLimit limit).spaces = m.spaces := rfl

@[simp]
theorem withLimit_cells : (m.withLimit limit).cells = m.cells := rfl

@[simp]
theorem withLimit_refs : (m.withLimit limit).refs = m.refs := rfl

@[simp]
theorem withLimit_graph : (m.withLimit limit).graph = m.graph := rfl

@[simp]
theorem withLimit_stack : (m.withLimit limit).stack = m.stack := rfl

@[simp]
theorem withLimit_maxDepth : (m.withLimit limit).config.maxDepth = limit := rfl

end Views

/-! ## Names and labels -/

theorem ancestryFrom_of_spaces (h : m'.spaces = m.spaces) (fuel : Nat) (id : SpaceId) :
    m'.ancestryFrom fuel id = m.ancestryFrom fuel id := by
  induction fuel generalizing id with
  | zero => rfl
  | succ fuel ih =>
    unfold ancestryFrom
    rw [h]
    simp only [ih]

theorem ancestry_of_spaces (h : m'.spaces = m.spaces) (id : SpaceId) :
    m'.ancestry id = m.ancestry id := by
  unfold ancestry
  rw [h, ancestryFrom_of_spaces h]

theorem dottedNameFrom_of_spaces (h : m'.spaces = m.spaces) (fuel : Nat) (id : SpaceId) :
    m'.dottedNameFrom fuel id = m.dottedNameFrom fuel id := by
  induction fuel generalizing id with
  | zero => rfl
  | succ fuel ih =>
    unfold dottedNameFrom
    rw [h]
    simp only [ih]

theorem dottedName_of_spaces (h : m'.spaces = m.spaces) (id : SpaceId) :
    m'.dottedName id = m.dottedName id := by
  unfold dottedName
  rw [h, dottedNameFrom_of_spaces h]

/-- Labels are about the records of entities. -/
theorem labelOf_of_pools (hspaces : m'.spaces = m.spaces) (hcells : m'.cells = m.cells)
    (hrefs : m'.refs = m.refs) : m'.labelOf = m.labelOf := by
  funext n
  unfold labelOf
  simp only [hcells, hrefs, dottedName_of_spaces hspaces]

theorem labelOf_withLimit (m : Model) (limit : Nat) : (m.withLimit limit).labelOf = m.labelOf :=
  labelOf_of_pools rfl rfl rfl

theorem trace_withLimit (m : Model) (limit : Nat) : (m.withLimit limit).trace = m.trace := by
  unfold trace
  rw [labelOf_withLimit]
  rfl

theorem cellsName_withLimit (m : Model) (limit : Nat) (id : CellId) :
    (m.withLimit limit).cellsName id = m.cellsName id := by
  unfold cellsName
  simp only [withLimit_cells, dottedName_of_spaces (withLimit_spaces m limit)]

/-! ## Look-ups -/

theorem mayBeEmpty_withLimit (m : Model) (limit : Nat) (id : CellId) :
    (m.withLimit limit).mayBeEmpty id = m.mayBeEmpty id := by
  unfold mayBeEmpty
  simp only [ancestry_of_spaces (withLimit_spaces m limit)]
  rfl

theorem wrap_withLimit (m : Model) (limit : Nat) (e : Failure) :
    (m.withLimit limit).wrap e = m.wrap e := by
  unfold wrap
  rw [trace_withLimit]

theorem outcome_withLimit (m : Model) (limit : Nat) (id : CellId) (n : Node)
    (r : Except Failure Value) : outcome id n r (m.withLimit limit) = outcome id n r m := by
  unfold outcome
  rw [mayBeEmpty_withLimit, labelOf_withLimit]
  simp only [wrap_withLimit]

theorem bindCells_withLimit (m : Model) (limit : Nat) (id : CellId) (a : Arguments) :
    (m.withLimit limit).bindCells id a = m.bindCells id a := by
  unfold bindCells
  rw [cellsName_withLimit]
  rfl

theorem signature_withLimit (m : Model) (limit : Nat) (id : SpaceId) :
    (m.withLimit limit).signature id = m.signature id := by
  unfold signature
  rw [dottedName_of_spaces (withLimit_spaces m limit)]
  rfl

theorem boundArgument_withLimit (m : Model) (limit : Nat) (id : SpaceId) (name : String) :
    (m.withLimit limit).boundArgument id name = m.boundArgument id name := by
  have hfrom : ∀ fuel item, (m.withLimit limit).boundArgumentFrom name fuel item =
      m.boundArgumentFrom name fuel item := by
    intro fuel
    induction fuel with
    | zero => exact fun item => by cases item <;> rfl
    | succ fuel ih =>
      intro item
      cases item with
      | none => rfl
      | some item =>
        unfold boundArgumentFrom
        simp only [ih]
        rfl
  exact hfrom _ _

theorem climb_withLimit (m : Model) (limit count : Nat) (id : SpaceId) :
    (m.withLimit limit).climb count id = m.climb count id := by
  induction count generalizing id with
  | zero => rfl
  | succ count ih =>
    unfold climb
    simp only [ih]
    rfl

theorem descend_withLimit (m : Model) (limit : Nat) (path : List String) (id : SpaceId) :
    (m.withLimit limit).descend path id = m.descend path id := by
  induction path generalizing id with
  | nil => rfl
  | cons name rest ih =>
    unfold descend
    simp only [ih]
    rfl

/-- The second result is the first one, unless that one is a walk which was too long. -/
def Reaches (r r' : Except Failure α) : Prop :=
  (∀ depth max, r ≠ .error (.tooDeep depth max)) → r' = r

theorem Reaches.refl (r : Except Failure α) : Reaches r r := fun _ => rfl

theorem Reaches.bind {r r' : Except Failure α} {f f' : α → Except Failure β} (h : Reaches r r')
    (hf : ∀ a, Reaches (f a) (f' a)) : Reaches (r >>= f) (r' >>= f') := by
  intro hr
  cases r with
  | error e =>
    rw [h fun depth max he => hr depth max (by cases he; rfl)]
    rfl
  | ok a =>
    rw [h fun depth max he => nomatch he]
    exact hf a hr

section Raised

variable (hraise : m.config.maxDepth ≤ limit)
include hraise

theorem reaches_replay (origin target current : SpaceId) :
    Reaches (m.replay origin target current)
      ((m.withLimit limit).replay origin target current) := by
  unfold replay
  rw [ancestry_of_spaces (withLimit_spaces m limit), ancestry_of_spaces (withLimit_spaces m limit)]
  simp only [climb_withLimit, descend_withLimit, withLimit_spaces, withLimit_maxDepth]
  split
  · exact .refl _
  split
  · exact .refl _
  next common _ =>
    split
    next hlong => exact fun h => absurd rfl (h _ _)
    next hshort =>
      rw [if_neg fun hlong => hshort (Nat.lt_of_le_of_lt hraise hlong)]
      exact .refl _

theorem reaches_refMeaning (id : RefId) (current : SpaceId) :
    Reaches (m.refMeaning id current) ((m.withLimit limit).refMeaning id current) := by
  refine .bind (.refl (m.reference id)) fun r => ?_
  split
  · exact .bind (reaches_replay hraise _ _ _) fun _ => .refl _
  · exact .refl _

theorem reaches_memberMeaning (id : SpaceId) (name : String) :
    Reaches (m.memberMeaning id name) ((m.withLimit limit).memberMeaning id name) := by
  refine .bind (.refl (m.space id)) fun s => ?_
  split
  · exact .refl _
  split
  · exact .refl _
  refine .bind (.refl (m.counterpart id)) fun counterpart =>
    .bind (.refl (m.space counterpart)) fun source => ?_
  split
  · exact .refl _
  split
  · exact .bind (reaches_refMeaning hraise _ id) fun _ => .refl _
  · exact .refl _

/-- A name means the same under a higher limit, unless finding its meaning takes a longer walk. -/
theorem reaches_meaning (id : SpaceId) (name : String) :
    Reaches (m.meaning id name) ((m.withLimit limit).meaning id name) := by
  refine .bind (.refl (m.space id)) fun s => ?_
  rw [dottedName_of_spaces (withLimit_spaces m limit)]
  split
  · exact .refl _
  · exact .refl _
  · exact .refl _
  · refine .bind (reaches_memberMeaning hraise id name) fun found => ?_
    split
    · exact .refl _
    · rw [boundArgument_withLimit]
      exact .refl _

end Raised

/-! ## Changes -/

theorem noteRead_withLimit (m : Model) (limit : Nat) (n : Node) :
    noteRead n (m.withLimit limit) = (noteRead n m).withLimit limit := by
  unfold noteRead
  rw [withLimit_stack]
  cases m.stack.top? <;> rfl

theorem copyCells_withLimit (m : Model) (limit : Nat) (replica counterpart : SpaceId) :
    (m.withLimit limit).copyCells replica counterpart =
      (m.copyCells replica counterpart).withLimit limit := by
  unfold copyCells
  rw [withLimit_spaces]
  cases m.spaces.get? counterpart with
  | none => rfl
  | some source => exact List.foldl_hom (Model.withLimit · limit) fun _ _ => rfl

theorem addReplica_withLimit (m : Model) (limit : Nat) (s : Space) (counterpart : SpaceId) :
    (m.withLimit limit).addReplica s counterpart =
      ((m.addReplica s counterpart).1, (m.addReplica s counterpart).2.withLimit limit) :=
  Prod.ext rfl (copyCells_withLimit (m.addSpace s).2 limit (m.addSpace s).1 counterpart)

/-! ## Reclamation -/

section Removal

variable (m limit)

def Sweep.withLimit (s : Sweep) (limit : Nat) : Sweep :=
  { s with model := s.model.withLimit limit }

theorem forget_withLimit (n : Node) :
    (m.withLimit limit).forget n = (m.forget n).withLimit limit := by
  unfold forget
  dsimp only
  cases n.entity <;> rfl

theorem step_withLimit (s : Sweep) :
    (s.withLimit limit).step = s.step.map (Sweep.withLimit · limit) := by
  unfold Sweep.step Sweep.withLimit
  dsimp only
  split
  · rfl
  · simp only [forget_withLimit]
    rfl

theorem run_withLimit (fuel : Nat) (s : Sweep) :
    (s.withLimit limit).run fuel = (s.run fuel).withLimit limit := by
  induction fuel generalizing s with
  | zero => rfl
  | succ fuel ih =>
    unfold Sweep.run
    rw [step_withLimit]
    cases s.step with
    | none => rfl
    | some s' => exact ih s'

theorem invalidate_withLimit (n : Node) : (m.withLimit limit).invalidate n =
    ((m.invalidate n).1, (m.invalidate n).2.withLimit limit) := by
  have hrun := run_withLimit limit (m.graph.reads.size + 1) (Sweep.start m n)
  have hcount := congrArg Sweep.count hrun
  have hmodel := congrArg Sweep.model hrun
  exact Prod.ext hcount hmodel

/-- What is done item by item does not depend on the limit when no step does. -/
theorem foldl_withLimit {β : Type} {f : Model → β → Model}
    (step : ∀ m b, f (m.withLimit limit) b = (f m b).withLimit limit) (l : List β) :
    l.foldl f (m.withLimit limit) = (l.foldl f m).withLimit limit :=
  List.foldl_hom (Model.withLimit · limit) step

theorem foldl_counted_withLimit {β : Type} {f : Nat × Model → β → Nat × Model}
    (step : ∀ n m b, f (n, m.withLimit limit) b =
      ((f (n, m) b).1, (f (n, m) b).2.withLimit limit)) (l : List β) (n : Nat) :
    l.foldl f (n, m.withLimit limit) =
      ((l.foldl f (n, m)).1, (l.foldl f (n, m)).2.withLimit limit) := by
  induction l generalizing n m with
  | nil => rfl
  | cons b l ih =>
    rw [List.foldl_cons, List.foldl_cons, step]
    exact ih _ _

theorem invalidateAll_withLimit (nodes : List Node) : (m.withLimit limit).invalidateAll nodes =
    ((m.invalidateAll nodes).1, (m.invalidateAll nodes).2.withLimit limit) :=
  foldl_counted_withLimit m limit (fun _ m n => by simp only [invalidate_withLimit]) nodes 0

theorem destroyCells_withLimit (id : CellId) :
    (m.withLimit limit).destroyCells id = (m.destroyCells id).withLimit limit := by
  unfold destroyCells invalidateCells
  have hnodes : (m.withLimit limit).nodesOfCells id = m.nodesOfCells id := rfl
  rw [hnodes, invalidateAll_withLimit]
  rfl

theorem destroyReference_withLimit (id : RefId) :
    (m.withLimit limit).destroyReference id = (m.destroyReference id).withLimit limit := by
  unfold destroyReference
  rw [invalidate_withLimit]
  rfl

theorem destroyTree_withLimit (fuel : Nat) (id : SpaceId) :
    destroyTree fuel (m.withLimit limit) id = (destroyTree fuel m id).withLimit limit := by
  induction fuel generalizing m id with
  | zero => rfl
  | succ fuel ih =>
    unfold destroyTree
    rw [withLimit_spaces]
    cases m.spaces.remove? id with
    | none => rfl
    | some p =>
      obtain ⟨s, spaces⟩ := p
      have hinstances := foldl_withLimit { m with spaces } limit
        (f := fun m (e : Key × SpaceId) => destroyTree fuel (m.invalidate (.item id e.1)).2 e.2)
        (fun m e => by rw [invalidate_withLimit, ih]) s.instances.entries
      have hcells := fun m => foldl_withLimit m limit
        (fun m c => destroyCells_withLimit m limit c) s.cells.values
      have hrefs := fun m => foldl_withLimit m limit
        (fun m r => destroyReference_withLimit m limit r) s.refs.values
      have hchildren := fun m => foldl_withLimit m limit (fun m child => ih m child) s.spaces.values
      dsimp only
      rw [← hchildren, ← hrefs, ← hcells]
      exact congrArg (fun m : Model => List.foldl _ (List.foldl _ (List.foldl _
        (m.prune (.space id)) _) _) _) hinstances

theorem removeInstance_withLimit (owner : SpaceId) (key : Key) :
    (m.withLimit limit).removeInstance owner key =
      ((m.removeInstance owner key).1, (m.removeInstance owner key).2.withLimit limit) := by
  unfold removeInstance
  rw [withLimit_spaces]
  cases (m.spaces.get? owner).bind (·.instances.get? key) with
  | none => rfl
  | some item =>
    have hcut : (m.withLimit limit).modifySpace owner
        (fun s => { s with instances := s.instances.erase key }) =
        (m.modifySpace owner fun s => { s with instances := s.instances.erase key }).withLimit
          limit := rfl
    dsimp only
    rw [hcut, invalidate_withLimit]
    unfold destroySpace
    rw [destroyTree_withLimit]
    rfl

theorem removeInstances_withLimit (dead : List (SpaceId × Key)) :
    (m.withLimit limit).removeInstances dead =
      ((m.removeInstances dead).1, (m.removeInstances dead).2.withLimit limit) :=
  foldl_counted_withLimit m limit (fun _ m i => by simp only [removeInstance_withLimit]) dead 0

theorem reclaimRounds_withLimit (held : List Handle) (fuel count : Nat) :
    reclaimRounds held fuel count (m.withLimit limit) =
      ((reclaimRounds held fuel count m).1, (reclaimRounds held fuel count m).2.withLimit limit) := by
  induction fuel generalizing count m with
  | zero => rfl
  | succ fuel ih =>
    unfold reclaimRounds
    have hfree : (m.withLimit limit).freeInstances held = m.freeInstances held := rfl
    rw [hfree]
    cases m.freeInstances held with
    | nil => rfl
    | cons i dead =>
      dsimp only
      rw [removeInstances_withLimit]
      exact ih _ _

/-- The same instances are reclaimed under any limit. -/
theorem ready_withLimit (held : List Handle) :
    (m.withLimit limit).ready held = (m.ready held).withLimit limit := by
  unfold ready
  have hreclaim : ((m.withLimit limit).reclaim held).2 = (m.reclaim held).2.withLimit limit :=
    congrArg Prod.snd (reclaimRounds_withLimit m limit held _ 0)
  rw [hreclaim]
  change (if m.stack.isEmpty && m.config.reclaimOnCall then _ else _) = _
  split <;> rfl

end Removal

end Recalc.Model
