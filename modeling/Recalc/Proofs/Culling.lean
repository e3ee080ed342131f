import Recalc.Proofs.Backing

set_option autoImplicit false

/-!
# What is left is what was stored

Reclamation writes nothing: each value, key and handle that it leaves is one that was stored before,
in the same place. So a model whose handles are as they were issued stays one.
-/

namespace Recalc

theorem Cells.handles_subset {c c' : Cells} (hformula : c'.formula = c.formula)
    (hinputs : c'.contents.inputs = c.contents.inputs)
    (hvalues : c'.contents.values.entries ⊆ c.contents.values.entries) :
    c'.handles ⊆ c.handles := by
  unfold Cells.handles Contents.handles
  rw [hformula, hinputs]
  refine List.append_subset.2 ⟨List.subset_append_left _ _, fun a ha => ?_⟩
  obtain ⟨e, he, ha⟩ := List.mem_flatMap.1 ha
  refine List.mem_append_right _ (List.mem_flatMap.2 ⟨e, ?_, ha⟩)
  exact (List.mem_append.1 he).elim (fun he => List.mem_append_left _ (hvalues he))
    (List.mem_append_right _)

theorem Space.handles_subset {s s' : Space} (hkind : s'.kind = s.kind)
    (hsig : s'.signature = s.signature) (hitems : s'.instances.entries ⊆ s.instances.entries) :
    s'.handles ⊆ s.handles := by
  unfold Space.handles
  rw [hkind, hsig]
  refine List.append_subset.2 ⟨List.append_subset.2 ⟨?_, fun a ha => ?_⟩,
    List.subset_append_right _ _⟩
  · exact List.subset_append_of_subset_left _ (List.subset_append_left _ _)
  · obtain ⟨k, hk, ha⟩ := List.mem_flatMap.1 ha
    obtain ⟨i, hi⟩ := Table.mem_keys_iff.1 hk
    exact List.mem_append_left _ (List.mem_append_right _
      (List.mem_flatMap.2 ⟨k, Table.mem_keys_iff.2 ⟨i, hitems hi⟩, ha⟩))

namespace Model

open Recalc.Action

/-- Every step that the removal of an instance is made of obeys the relation. -/
structure RemovalFrame (R : Model → Model → Prop) : Prop where
  frame : Frame R
  forget : ∀ m n, R m (m.forget n)
  prune : ∀ m e, R m (m.prune e)
  eraseSpace : ∀ m id, R m { m with spaces := m.spaces.erase id }
  eraseCells : ∀ m id, R m { m with cells := m.cells.erase id }
  eraseRef : ∀ m id, R m { m with refs := m.refs.erase id }
  eraseInstance : ∀ m owner key,
    R m (m.modifySpace owner fun s => { s with instances := s.instances.erase key })

namespace RemovalFrame

variable {R : Model → Model → Prop} (H : RemovalFrame R)
include H

theorem invalidate (m : Model) (n : Node) : R m (m.invalidate n).2 := by
  have := H.frame
  refine Sweep.run_keeps (P := fun s => R m s.model) (fun s s' h hstep => ?_)
    (m.graph.reads.size + 1) (Frame.refl m)
  obtain ⟨a, -, -, -, -, hr⟩ := Sweep.step_cases hstep
  rw [(Prod.mk.inj hr).2]
  exact Frame.trans h (H.forget s.model a)

theorem invalidateCells (m : Model) (id : CellId) : R m (m.invalidateCells id).2 := by
  have := H.frame
  exact foldl_keeps (P := fun r : Nat × Model => R m r.2)
    (f := fun r n => (r.1 + (r.2.invalidate n).1, (r.2.invalidate n).2))
    (fun r n h => Frame.trans h (H.invalidate r.2 n)) (m.nodesOfCells id) (b := (0, m))
    (Frame.refl m)

theorem destroyCells (m : Model) (id : CellId) : R m (m.destroyCells id) :=
  H.frame.trans (H.invalidateCells m id)
    (H.frame.trans (H.prune _ (.cells id)) (H.eraseCells _ id))

theorem destroyReference (m : Model) (id : RefId) : R m (m.destroyReference id) :=
  H.frame.trans (H.invalidate m (.ref id))
    (H.frame.trans (H.prune _ (.ref id)) (H.eraseRef _ id))

theorem destroyTree (fuel : Nat) (m : Model) (id : SpaceId) : R m (destroyTree fuel m id) := by
  have := H.frame
  induction fuel generalizing m id with
  | zero => exact Frame.refl m
  | succ fuel ih =>
    unfold Model.destroyTree
    split
    next => exact Frame.refl m
    next s spaces hremove =>
      obtain ⟨-, rfl⟩ := (Pool.remove?_eq_some _ _).1 hremove
      have hinstances := foldl_obeys (R := R) (fun m (e : Key × SpaceId) =>
        Frame.trans (H.invalidate m (.item id e.1)) (ih _ e.2)) s.instances.entries
      exact Frame.trans (H.eraseSpace m id) (Frame.trans (hinstances _)
        (Frame.trans (H.prune _ (.space id))
          (Frame.trans (foldl_obeys H.destroyCells s.cells.values _)
            (Frame.trans (foldl_obeys H.destroyReference s.refs.values _)
              (foldl_obeys ih s.spaces.values _)))))

theorem removeInstance (m : Model) (owner : SpaceId) (key : Key) :
    R m (m.removeInstance owner key).2 := by
  have := H.frame
  unfold Model.removeInstance
  split
  next => exact Frame.refl m
  next item _ =>
    exact Frame.trans (H.eraseInstance m owner key)
      (Frame.trans (H.invalidate _ (.item owner key)) (H.destroyTree _ _ item))

theorem removeEveryInstance (m : Model) (id : SpaceId) : R m (m.removeEveryInstance id).2 := by
  have := H.frame
  unfold Model.removeEveryInstance
  split
  next => exact Frame.refl m
  next s _ =>
    exact foldl_keeps (P := fun r : Nat × Model => R m r.2)
      (f := fun r key => (if (r.2.removeInstance id key).1 then r.1 + 1 else r.1,
        (r.2.removeInstance id key).2))
      (fun r key h => Frame.trans h (H.removeInstance r.2 id key)) s.instances.keys (b := (0, m))
      (Frame.refl m)

theorem dropStaleInstances (m : Model) (id : SpaceId) : R m (m.dropStaleInstances id) := by
  have := H.frame
  exact foldl_obeys H.removeEveryInstance _ m

theorem invalidateSpace (m : Model) (id : SpaceId) : R m (m.invalidateSpace id).2 := by
  have := H.frame
  unfold Model.invalidateSpace
  split
  next s _ =>
    exact foldl_keeps (P := fun r : Nat × Model => R m r.2)
      (f := fun r c => (r.1 + (r.2.invalidateCells c).1, (r.2.invalidateCells c).2))
      (fun r c h => Frame.trans h (H.invalidateCells r.2 c)) s.cells.values (b := (0, m))
      (Frame.refl m)
  next => exact Frame.refl m

theorem hideGlobal (m : Model) (name : String) : R m (m.hideGlobal name) := by
  unfold Model.hideGlobal
  split
  · exact H.invalidate m _
  · exact H.frame.refl m

theorem dropStale (id : SpaceId) (changes : Changes) (m : Model) :
    R m (dropStale id changes m) := by
  have := H.frame
  have hinvalidate : R m (if changes.structural then (m.invalidateSpace id).2 else m) := by
    split
    · exact H.invalidateSpace m id
    · exact Frame.refl m
  unfold Model.dropStale
  dsimp only
  split
  · exact Frame.trans hinvalidate (H.dropStaleInstances _ id)
  · exact hinvalidate

end RemovalFrame

/-- What is left was there before, stored as it is now. -/
structure Culls (m m' : Model) : Prop where
  cells : ∀ id c', m'.cells.get? id = some c' → ∃ c, m.cells.get? id = some c ∧
    c'.formula = c.formula ∧ c'.contents.inputs = c.contents.inputs ∧
    c'.contents.values.entries ⊆ c.contents.values.entries
  spaces : ∀ id s', m'.spaces.get? id = some s' → ∃ s, m.spaces.get? id = some s ∧
    s'.kind = s.kind ∧ s'.signature = s.signature ∧ s'.instances.entries ⊆ s.instances.entries
  refs : ∀ id r, m'.refs.get? id = some r → m.refs.get? id = some r
  graph : ∀ P, m.graph.Keyed P → m'.graph.Keyed P
  stack : m'.stack = m.stack

instance : Frame Culls where
  refl _ := ⟨fun _ c h => ⟨c, h, rfl, rfl, List.Subset.refl _⟩,
    fun _ s h => ⟨s, h, rfl, rfl, List.Subset.refl _⟩, fun _ _ h => h, fun _ h => h, rfl⟩
  trans h h' := by
    refine ⟨fun id c₃ hc₃ => ?_, fun id s₃ hs₃ => ?_, fun id r hr => h.refs id r (h'.refs id r hr),
      fun P hP => h'.graph P (h.graph P hP), h'.stack.trans h.stack⟩
    · obtain ⟨c₂, hc₂, hformula₂, hinputs₂, hvalues₂⟩ := h'.cells id c₃ hc₃
      obtain ⟨c₁, hc₁, hformula₁, hinputs₁, hvalues₁⟩ := h.cells id c₂ hc₂
      exact ⟨c₁, hc₁, hformula₂.trans hformula₁, hinputs₂.trans hinputs₁,
        List.Subset.trans hvalues₂ hvalues₁⟩
    · obtain ⟨s₂, hs₂, hkind₂, hsig₂, hitems₂⟩ := h'.spaces id s₃ hs₃
      obtain ⟨s₁, hs₁, hkind₁, hsig₁, hitems₁⟩ := h.spaces id s₂ hs₂
      exact ⟨s₁, hs₁, hkind₂.trans hkind₁, hsig₂.trans hsig₁, List.Subset.trans hitems₂ hitems₁⟩

variable {m m' : Model}

/-! ## Removal -/

theorem culls_graph {graph : Graph} (h : ∀ P, m.graph.Keyed P → graph.Keyed P) :
    Culls m { m with graph } :=
  ⟨fun _ c hc => ⟨c, hc, rfl, rfl, List.Subset.refl _⟩,
    fun _ s hs => ⟨s, hs, rfl, rfl, List.Subset.refl _⟩, fun _ _ hr => hr, h, rfl⟩

theorem culls_evict (m : Model) (id : CellId) (key : Key) :
    Culls m (m.modifyCell id fun c => { c with contents := c.contents.evict key }) := by
  refine ⟨fun other c' hc' => ?_, fun _ s hs => ⟨s, hs, rfl, rfl, List.Subset.refl _⟩,
    fun _ _ hr => hr, fun _ h => h, rfl⟩
  rw [get?_modifyContents m id fun contents => contents.evict key] at hc'
  obtain ⟨c, hc, heq⟩ := Option.map_eq_some_iff.1 hc'
  refine ⟨c, hc, ?_⟩
  split at heq
  next =>
    cases heq
    exact ⟨rfl, rfl, fun e he => Table.mem_entries_of_erase he⟩
  next =>
    cases heq
    exact ⟨rfl, rfl, List.Subset.refl _⟩

theorem culls_eraseInstance (m : Model) (owner : SpaceId) (key : Key) :
    Culls m (m.modifySpace owner fun s => { s with instances := s.instances.erase key }) := by
  refine ⟨fun _ c hc => ⟨c, hc, rfl, rfl, List.Subset.refl _⟩, fun other s' hs' => ?_,
    fun _ _ hr => hr, fun _ h => h, rfl⟩
  replace hs' := (Pool.get?_modify m.spaces owner other _).symm.trans hs'
  split at hs'
  next heq =>
    obtain ⟨s, hs, rfl⟩ := Option.map_eq_some_iff.1 hs'
    exact ⟨s, heq ▸ hs, rfl, rfl, fun e he => Table.mem_entries_of_erase he⟩
  next => exact ⟨s', hs', rfl, rfl, List.Subset.refl _⟩

theorem culls_eraseSpace (m : Model) (id : SpaceId) :
    Culls m { m with spaces := m.spaces.erase id } := by
  refine ⟨fun _ c hc => ⟨c, hc, rfl, rfl, List.Subset.refl _⟩, fun other s hs => ?_,
    fun _ _ hr => hr, fun _ h => h, rfl⟩
  replace hs := (Pool.get?_erase m.spaces id other).symm.trans hs
  split at hs
  next => contradiction
  next => exact ⟨s, hs, rfl, rfl, List.Subset.refl _⟩

theorem culls_eraseCells (m : Model) (id : CellId) :
    Culls m { m with cells := m.cells.erase id } := by
  refine ⟨fun other c hc => ?_, fun _ s hs => ⟨s, hs, rfl, rfl, List.Subset.refl _⟩,
    fun _ _ hr => hr, fun _ h => h, rfl⟩
  replace hc := (Pool.get?_erase m.cells id other).symm.trans hc
  split at hc
  next => contradiction
  next => exact ⟨c, hc, rfl, rfl, List.Subset.refl _⟩

theorem culls_eraseRef (m : Model) (id : RefId) :
    Culls m { m with refs := m.refs.erase id } := by
  refine ⟨fun _ c hc => ⟨c, hc, rfl, rfl, List.Subset.refl _⟩,
    fun _ s hs => ⟨s, hs, rfl, rfl, List.Subset.refl _⟩, fun other r hr => ?_, fun _ h => h, rfl⟩
  replace hr := (Pool.get?_erase m.refs id other).symm.trans hr
  split at hr
  next => contradiction
  next => exact hr

theorem culls_forget (m : Model) (n : Node) : Culls m (m.forget n) := by
  have hdrop : Culls m { m with graph := m.graph.dropReads n } :=
    culls_graph fun _ h => h.dropReads n
  unfold forget
  split
  · exact Frame.trans hdrop (culls_evict _ _ _)
  · exact hdrop

theorem removalFrame_culls : RemovalFrame Culls where
  frame := inferInstance
  forget := culls_forget
  prune _ e := culls_graph fun _ h => h.prune e
  eraseSpace := culls_eraseSpace
  eraseCells := culls_eraseCells
  eraseRef := culls_eraseRef
  eraseInstance := culls_eraseInstance

theorem culls_removeInstance (m : Model) (owner : SpaceId) (key : Key) :
    Culls m (m.removeInstance owner key).2 :=
  removalFrame_culls.removeInstance m owner key

theorem culls_reclaim (held : List Handle) (m : Model) : Culls m (m.reclaim held).2 :=
  reclaim_obeys culls_removeInstance held m

/-! ## What follows -/

variable {issue : SpaceId → List SpaceId}

theorem Culls.stocked (h : Culls m m') (hm : m.Stocked issue) : m'.Stocked issue := by
  refine ⟨fun id c' hc' => ?_, fun id r hr => hm.refs id r (h.refs id r hr), fun id s' hs' => ?_,
    h.graph _ hm.graph, ?_⟩
  · obtain ⟨c, hc, hformula, hinputs, hvalues⟩ := h.cells id c' hc'
    exact (hm.cells id c hc).subset (Cells.handles_subset hformula hinputs hvalues)
  · obtain ⟨s, hs, hkind, hsig, hitems⟩ := h.spaces id s' hs'
    exact (hm.spaces id s hs).subset (Space.handles_subset hkind hsig hitems)
  · rw [h.stack]
    exact hm.stack

/-- A value that is left is the one that was stored. -/
theorem Culls.value (h : Culls m m') {id : CellId} {c c' : Cells} {key : Key} {v : Value}
    (hc : m.cells.get? id = some c) (hc' : m'.cells.get? id = some c')
    (hv : c.contents.values.get? key = some v) (hleft : c'.contents.hasComputed key = true) :
    c'.contents.values.get? key = some v := by
  obtain ⟨d, hd, -, -, hvalues⟩ := h.cells id c' hc'
  cases hc.symm.trans hd
  rw [Contents.hasComputed, Table.contains_eq_isSome] at hleft
  obtain ⟨w, hw⟩ := Option.isSome_iff_exists.1 hleft
  obtain ⟨key', hentry, hkey⟩ := Table.mem_entries_of_get? hw
  have hold := Table.get?_of_mem_entries (hvalues hentry)
  rw [Table.get?_congr _ hkey, hv] at hold
  rw [hw, hold]

end Model

end Recalc
