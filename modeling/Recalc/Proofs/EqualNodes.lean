import Recalc.Proofs.AkinModels
import Recalc.Proofs.Backing
import Recalc.Proofs.Provenance

set_option autoImplicit false

/-!
# Equal nodes

Argument lists that bind to equal keys address one node. Equality of keys folds zeros, all that is
not a number and the pins of handles, while the body of a formula is run on the key as it was bound.
Where every formula respects equality, evaluations on equal keys run side by side, from the same
model to akin ones, and end with equal values or failures of one kind. Where a body tells two zeros
apart they need not; it cannot when the numbers in both keys are canonical and the handles are as
they were issued, since equal keys are then identical.
-/

namespace Recalc

open Recalc.Model

namespace Value

mutual

def isCanonical : Value → Bool
  | .number x => x.canonical == x
  | .tuple items | .list items => areCanonical items
  | _ => true

def areCanonical : List Value → Bool
  | [] => true
  | v :: vs => isCanonical v && areCanonical vs

end

variable {issue : SpaceId → List SpaceId}

theorem handle_eq_of_same {h h' : Handle} (heq : (h == h') = true)
    (hissued : h.pins = issue h.id) (hissued' : h'.pins = issue h'.id) : h = h' := by
  have hid : (h.id == h'.id) = true := heq
  cases h
  cases h'
  simp only [beq_iff_eq] at hid hissued hissued'
  subst hid
  rw [hissued, hissued']

mutual

/-- Equal values with canonical numbers and with handles as they were issued are identical. -/
theorem eq_of_same : (v w : Value) → same v w = true → v.isCanonical = true →
    w.isCanonical = true → Issued issue v.handles → Issued issue w.handles → v = w
  | .empty, w, h, _, _, _, _ => by cases w <;> simp [same] at h ⊢
  | .bool _, w, h, _, _, _, _ => by
    cases w <;> simp [same] at h ⊢
    exact h
  | .int _, w, h, _, _, _, _ => by
    cases w <;> simp [same] at h ⊢
    exact h
  | .text _, w, h, _, _, _, _ => by
    cases w <;> simp [same] at h ⊢
    exact h
  | .host _, w, h, _, _, _, _ => by
    cases w <;> simp [same] at h ⊢
    exact h
  | .number x, w, h, hv, hw, _, _ => by
    cases w with
    | number y =>
      simp only [same, Number.same, beq_iff_eq] at h
      simp only [isCanonical, beq_iff_eq] at hv hw
      have hfold : x.canonical = y.canonical := congrArg Number.mk h
      rw [← hv, ← hw, hfold]
    | _ => simp [same] at h
  | .tuple vs, w, h, hv, hw, hi, hi' => by
    cases w with
    | tuple ws => rw [eq_of_sameItems vs ws h hv hw hi hi']
    | _ => simp [same] at h
  | .list vs, w, h, hv, hw, hi, hi' => by
    cases w with
    | list ws => rw [eq_of_sameItems vs ws h hv hw hi hi']
    | _ => simp [same] at h
  | .space a, w, h, _, _, hi, hi' => by
    cases w with
    | space b =>
      rw [handle_eq_of_same h (hi a (List.mem_singleton.2 rfl)) (hi' b (List.mem_singleton.2 rfl))]
    | _ => simp [same] at h

theorem eq_of_sameItems : (vs ws : List Value) → sameItems vs ws = true →
    areCanonical vs = true → areCanonical ws = true → Issued issue (itemHandles vs) →
    Issued issue (itemHandles ws) → vs = ws
  | [], ws, h, _, _, _, _ => by cases ws <;> simp [sameItems] at h ⊢
  | v :: vs, ws, h, hv, hw, hi, hi' => by
    cases ws with
    | nil => simp [sameItems] at h
    | cons w ws =>
      simp only [sameItems, areCanonical, Bool.and_eq_true] at h hv hw
      rw [eq_of_same v w h.1 hv.1 hw.1 (fun a ha => hi a (List.mem_append_left _ ha))
          (fun a ha => hi' a (List.mem_append_left _ ha)),
        eq_of_sameItems vs ws h.2 hv.2 hw.2 (fun a ha => hi a (List.mem_append_right _ ha))
          (fun a ha => hi' a (List.mem_append_right _ ha))]

end

end Value

/-! ## Actions side by side -/

/-- Related results in akin models, or the fuel was not enough for either. -/
inductive AkinOutcome {α β : Type} (R : α → β → Prop) :
    Option (Except Failure α × Model) → Option (Except Failure β × Model) → Prop
  | exhausted : AkinOutcome R none none
  | ended {r : Except Failure α} {r' : Except Failure β} {m m' : Model} :
      AkinResult R r r' → m.Akin m' → AkinOutcome R (some (r, m)) (some (r', m'))

namespace Action

variable {α β γ δ : Type} {R : α → β → Prop} {S : γ → δ → Prop}

def Akin (R : α → β → Prop) (x : Action α) (x' : Action β) : Prop :=
  ∀ m m', m.Akin m' → AkinOutcome R (x m) (x' m')

theorem akin_pure {a : α} {b : β} (h : R a b) : Akin R (pure a) (pure b) :=
  fun _ _ hm => .ended (.ok h) hm

theorem akin_fail {e e' : Failure} (h : e.Akin e') : Akin R (fail e) (fail e') :=
  fun _ _ hm => .ended (.error h) hm

theorem akin_ofExcept {r : Except Failure α} {r' : Except Failure β} (h : AkinResult R r r') :
    Akin R (ofExcept r) (ofExcept r') := fun _ _ hm => .ended h hm

theorem akin_read {f : Model → Except Failure α} {f' : Model → Except Failure β}
    (h : ∀ m m', m.Akin m' → AkinResult R (f m) (f' m')) : Akin R (read f) (read f') :=
  fun m m' hm => .ended (h m m' hm) hm

theorem akin_get : Akin Model.Akin get get := fun _ _ hm => .ended (.ok hm) hm

theorem akin_modify {f f' : Model → Model} (h : ∀ m m', m.Akin m' → (f m).Akin (f' m')) :
    Akin Eq (modify f) (modify f') := fun m m' hm => .ended (.ok rfl) (h m m' hm)

theorem akin_update {f : Model → α × Model} {f' : Model → β × Model}
    (h : ∀ m m', m.Akin m' → R (f m).1 (f' m').1 ∧ (f m).2.Akin (f' m').2) :
    Akin R (update f) (update f') :=
  fun m m' hm => .ended (.ok (h m m' hm).1) (h m m' hm).2

theorem akin_exhausted : Akin R exhausted exhausted := fun _ _ _ => .exhausted

theorem Akin.bind {x : Action α} {x' : Action β} {k : α → Action γ} {k' : β → Action δ}
    (h : Akin R x x') (hk : ∀ a b, R a b → Akin S (k a) (k' b)) :
    Akin S (x >>= k) (x' >>= k') := by
  intro m m' hm
  have hx := h m m' hm
  rw [bind_apply, bind_apply]
  generalize x m = o, x' m' = o' at hx
  cases hx with
  | exhausted => exact .exhausted
  | ended hr hm =>
    cases hr with
    | ok hab => exact hk _ _ hab _ _ hm
    | error he => exact .ended (.error he) hm

theorem Akin.attempt {x : Action α} {x' : Action β} (h : Akin R x x') :
    Akin (AkinResult R) (attempt x) (attempt x') := by
  intro m m' hm
  have hx := h m m' hm
  unfold Action.attempt
  generalize x m = o, x' m' = o' at hx
  cases hx with
  | exhausted => exact .exhausted
  | ended hr hm => exact .ended (.ok hr) hm

end Action

namespace Model

open Recalc.Action

variable {m m' : Model}

section Stacks

variable {n n' : Node}

theorem contains_akin (hn : (n == n') = true) {l l' : List Node}
    (h : List.Forall₂ (fun n n' => (n == n') = true) l l') : l'.contains n' = l.contains n := by
  induction h with
  | nil => rfl
  | cons hab _ ih =>
    rw [List.contains_cons, List.contains_cons, ih, BEq.congr_left hn, BEq.congr_right hab]

/-- Equal nodes are entered side by side. -/
theorem akin_enter (hn : (n == n') = true) : Action.Akin Eq (enter n) (enter n') := by
  unfold enter
  refine akin_get.bind fun m m' hm => ?_
  rw [hm.config, m.stack.depth_eq, m'.stack.depth_eq, hm.stack.length_eq]
  split
  · exact akin_fail (.tooDeep ..)
  have hcontains := contains_akin hn hm.stack
  cases hpush : m.stack.push? n with
  | none =>
    rw [Stack.push?_eq_none_iff, ← hcontains, ← Stack.push?_eq_none_iff] at hpush
    rw [hpush]
    exact akin_fail (.circular ..)
  | some stack =>
    cases hpush' : m'.stack.push? n' with
    | none =>
      rw [Stack.push?_eq_none_iff, hcontains, ← Stack.push?_eq_none_iff, hpush] at hpush'
      contradiction
    | some stack' =>
      refine akin_modify fun _ _ h => { h with stack := ?_ }
      rw [Stack.nodes_of_push? hpush, Stack.nodes_of_push? hpush']
      exact .cons hn hm.stack

theorem akin_leave : Action.Akin Eq leave leave := by
  refine akin_modify fun m m' h => { h with stack := ?_ }
  have hstack := h.stack
  rw [Stack.nodes_pop, Stack.nodes_pop]
  generalize m.stack.nodes = l, m'.stack.nodes = l' at hstack
  cases hstack with
  | nil => exact .nil
  | cons _ hrest => exact hrest

end Stacks

section Nodes

variable {id : CellId} {key key' : Key} {r r' : Except Failure Value}

theorem akin_wrap (m m' : Model) {e e' : Failure} (he : e.Akin e') :
    (m.wrap e).Akin (m'.wrap e') := by
  unfold Model.wrap
  rw [he.unwindsUnchanged]
  split
  · exact he
  · exact he.inFormula _ _

theorem Akin.outcome (h : m.Akin m') (id : CellId) (n n' : Node)
    (hr : AkinResult Value.Akin r r') :
    AkinResult Value.Akin (outcome id n r m) (Model.outcome id n' r' m') := by
  cases hr with
  | error he => exact .error (akin_wrap m m' he)
  | ok hv =>
    unfold Model.outcome
    dsimp only
    rw [hv.isEmpty, h.mayBeEmpty id]
    split
    · exact .error (.noneReturned ..)
    · exact .ok hv

/-- Equal values are stored for equal keys. -/
theorem akin_finish (hkey : (key == key') = true) (hr : AkinResult Value.Akin r r') :
    Action.Akin Value.Akin (finish id key r) (finish id key' r') := by
  unfold finish
  cases hr with
  | error he => exact (akin_modify fun _ _ h => h.graph _ _).bind fun _ _ _ => akin_fail he
  | @ok v w hv =>
    refine (akin_read fun _ _ h => h.cell id).bind fun c d hcd => ?_
    have hstore := hcd.contents.store? hkey hv
    generalize c.contents.store? key v = o, d.contents.store? key' w = o' at hstore
    cases hstore with
    | none => exact akin_get.bind fun _ _ _ => akin_fail (.inputOverwritten ..)
    | @some contents contents' hcontents =>
      refine Action.Akin.bind (akin_modify fun m m' h => ?_) fun _ _ _ => akin_pure hv
      refine (h.modifyCell id fun c d hcd => ?_).noteRead _ _
      exact ⟨congrArg (fun x : Cells => { x with contents := contents' }) hcd.record, hcontents,
        hcd.formula⟩

end Nodes

section Places

theorem akin_ensureChild (parent : SpaceId) (name : String) :
    Action.Akin Eq (ensureChild parent name) (ensureChild parent name) := by
  unfold ensureChild
  refine (akin_read fun _ _ h => h.space parent).bind fun s t hst => ?_
  rw [hst.record]
  dsimp only
  cases s.spaces.get? name with
  | some child => exact akin_pure rfl
  | none =>
    refine akin_get.bind fun m m' h => ?_
    rw [h.instanceRoot? parent]
    cases m.instanceRoot? parent with
    | none => exact akin_fail (.unknownName ..)
    | some root =>
      refine Action.Akin.bind (R := Space.Akin) (akin_read fun m m' h => ?_) fun s t hst => ?_
      · rw [h.counterpart parent]
        exact AkinResult.bind (.refl (R := Eq) (fun _ => rfl) _) fun c _ hc => hc ▸ h.space c
      · rw [hst.record]
        dsimp only
        cases s.spaces.get? name with
        | none => exact akin_fail (.unknownName ..)
        | some c =>
          refine akin_update fun m m' h => ?_
          have hrecord : Space.Akin { name, parent := some parent, kind := .dynamic c root }
              { name, parent := some parent, kind := .dynamic c root } :=
            ⟨rfl, .refl _, fun _ => rfl, fun _ _ hspec => nomatch hspec⟩
          obtain ⟨hid, hadded⟩ := h.addReplica hrecord c
          dsimp only
          rw [hid]
          exact ⟨rfl, hadded.modifySpace parent fun s t hst => hst.listSpace name _⟩

theorem akin_ensurePath (path : List String) (id : SpaceId) :
    Action.Akin Eq (ensurePath path id) (ensurePath path id) := by
  induction path generalizing id with
  | nil => exact akin_pure rfl
  | cons name rest ih => exact (akin_ensureChild id name).bind fun x _ hx => hx ▸ ih x

theorem akin_handleTo (id : SpaceId) :
    Action.Akin Eq (Action.read (·.handleTo id)) (Action.read (·.handleTo id)) := by
  refine akin_read fun m m' h => ?_
  rw [h.handleTo id]
  exact .refl (fun _ => rfl) _

theorem akin_handleValue (target : Place) :
    Action.Akin Value.Akin (handleValue target) (handleValue target) := by
  have hplace : Action.Akin Eq (ensurePlace target) (ensurePlace target) := by
    cases target with
    | existing id => exact (akin_read fun _ _ h => h.space id).bind fun _ _ _ => akin_pure rfl
    | pending start path => exact akin_ensurePath path start
  exact hplace.bind fun id _ hid => hid ▸ (akin_handleTo id).bind fun _ _ heq =>
    akin_pure (heq ▸ BEq.rfl)

/-- Equal keys select the same instance, which is there in both models or made in both. -/
theorem akin_ensureItem (id : SpaceId) {key key' : Key} (hkey : (key == key') = true) :
    Action.Akin Eq (ensureItem id key) (ensureItem id key') := by
  unfold ensureItem
  refine (akin_read fun _ _ h => h.space id).bind fun s t hst => akin_get.bind fun m m' h => ?_
  rw [hst.instances key', ← Table.get?_congr _ hkey,
    show m'.spaces.contains = m.spaces.contains from funext h.spaces.contains]
  cases (s.instances.get? key).filter m.spaces.contains with
  | some item =>
    exact (akin_modify fun _ _ h => h.noteRead _ _).bind fun _ _ _ => akin_handleTo item
  | none =>
    have hmade : Action.Akin Eq (makeItem id key) (makeItem id key') := by
      unfold makeItem
      refine Action.Akin.bind (R := Eq) (akin_read fun m m' h => ?_) fun c _ hc => ?_
      · rw [h.counterpart id]
        exact .refl (fun _ => rfl) _
      subst hc
      refine (akin_read fun _ _ h => h.space id).bind fun s t hst => akin_update fun m m' h => ?_
      rw [hst.record, h.pinsOf id]
      have hrecord : Space.Akin
          { name := s.name, parent := s.parent, kind := .item id c key (m.pinsOf id) }
          { name := s.name, parent := s.parent, kind := .item id c key' (m.pinsOf id) } :=
        ⟨rfl, .item hkey, fun _ => rfl, fun _ _ hspec => nomatch hspec⟩
      obtain ⟨hid, hadded⟩ := h.addReplica hrecord c
      exact ⟨hid.symm, hadded⟩
    refine hmade.bind fun item _ heq => ?_
    subst heq
    refine Action.Akin.bind (akin_modify fun m m' h => ?_) fun _ _ _ => akin_handleTo item
    exact (h.modifySpace id fun s t hst => hst.listItem hkey item).noteRead _ _

end Places

def RunsAkin (run : RunFormula) : Prop :=
  ∀ id f vs ws, f.Respectful → List.Forall₂ Value.Akin vs ws →
    Action.Akin Value.Akin (run id f vs) (run id f ws)

section Evaluation

variable {run : RunFormula} (hrun : RunsAkin run)
include hrun

theorem RunsAkin.compute (id : CellId) {c d : Cells} (hcd : c.Akin d) {key key' : Key}
    (hkey : (key == key') = true) :
    Action.Akin Value.Akin (compute run id c key) (compute run id d key') := by
  unfold Model.compute
  have hnode : (Node.cells id key == Node.cells id key') = true := by
    rw [Graph.node_beq_iff, Bool.and_eq_true]
    exact ⟨beq_self_eq_true _, hkey⟩
  refine (akin_enter hnode).bind fun _ _ _ => ?_
  have hcells : Action.Akin (AkinResult Value.Akin) (runCells run id c key)
      (runCells run id d key') := by
    unfold runCells
    rw [hcd.record]
    refine Action.Akin.bind (Action.Akin.attempt (R := Value.Akin) ?_) fun r r' hr =>
      akin_get.bind fun m m' h => akin_pure (h.outcome id _ _ hr)
    cases hf : c.formula with
    | none => exact akin_pure BEq.rfl
    | some f => exact hrun c.space f _ _ (hcd.formula f hf) (Value.sameItems_iff.1 hkey)
  exact hcells.bind fun r r' hr => akin_leave.bind fun _ _ _ => akin_finish hkey hr

theorem RunsAkin.evaluateKey (id : CellId) {key key' : Key} (hkey : (key == key') = true) :
    Action.Akin Value.Akin (evaluateKey run id key) (evaluateKey run id key') := by
  unfold Model.evaluateKey
  refine (akin_read fun _ _ h => h.cell id).bind fun c d hcd => ?_
  have hstored := hcd.contents.get? key
  rw [d.contents.get?_congr hkey] at hstored
  generalize c.contents.get? key = o, d.contents.get? key' = o' at hstored
  cases hstored with
  | none => exact hrun.compute id hcd hkey
  | some hv =>
    exact (akin_modify fun _ _ h => h.noteRead _ _).bind fun _ _ _ => akin_pure hv

theorem RunsAkin.evaluate (id : CellId) {a b : Arguments} (hab : a.Akin b) :
    Action.Akin Value.Akin (evaluate run id a) (evaluate run id b) := by
  unfold Model.evaluate
  exact (akin_read fun _ _ h => h.bindCells id hab).bind fun _ _ hkey => hrun.evaluateKey id hkey

theorem RunsAkin.itemKey (id : SpaceId) {a b : Arguments} (hab : a.Akin b) :
    Action.Akin (fun k k' => (k == k') = true) (itemKey run id a) (itemKey run id b) := by
  unfold Model.itemKey
  refine (akin_read fun _ _ h => h.signature id).bind fun _ spec ⟨hspec, hbinder⟩ => ?_
  subst hspec
  refine (akin_read fun m m' _ => akin_matchArguments hab spec.params (m.dottedName id)
    (m'.dottedName id)).bind fun bound bound' hbound => ?_
  cases hf : spec.binder with
  | none => exact akin_ofExcept (Key.akin_ofValues hbound)
  | some binder =>
    refine (hrun id binder _ _ (hbinder binder hf) hbound).attempt.bind fun r r' hr => ?_
    cases hr with
    | error he => exact akin_read fun m m' _ => .error (akin_wrap m m' he)
    | ok hgiven =>
      exact akin_read fun _ _ _ => (akin_canonicalArguments spec _ _ hbound hgiven).bind
        fun _ _ hvalues => Key.akin_ofValues hvalues

theorem RunsAkin.instantiate (id : SpaceId) {a b : Arguments} (hab : a.Akin b) :
    Action.Akin Eq (instantiate run id a) (instantiate run id b) :=
  (hrun.itemKey id hab).bind fun _ _ hkey => akin_ensureItem id hkey

theorem RunsAkin.applyCall (name : String) {call call' : Option Arguments}
    (hcall : Option.Rel Arguments.Akin call call') {v w : Value} (hv : v.Akin w) :
    Action.Akin Value.Akin (applyCall run name call v) (applyCall run name call' w) := by
  cases hcall with
  | none => exact akin_pure hv
  | some hab =>
    cases v with
    | space a =>
      cases w with
      | space b =>
        rw [Model.applyCall, Model.applyCall, Handle.beq_iff.1 hv]
        exact (hrun.instantiate b.id hab).bind fun _ _ heq => akin_pure (heq ▸ BEq.rfl)
      | _ => cases hv
    | _ => cases w <;> first | exact akin_fail (.invalidArguments ..) | cases hv

theorem RunsAkin.readName (id : SpaceId) (name : String) {call call' : Option Arguments}
    (hcall : Option.Rel Arguments.Akin call call') :
    Action.Akin Value.Akin (readName run id name call) (readName run id name call') := by
  have hplace : ∀ target, Action.Akin Value.Akin
      (handleValue target >>= Model.applyCall run name call)
      (handleValue target >>= Model.applyCall run name call') := fun target =>
    (akin_handleValue target).bind fun v w hv => hrun.applyCall name hcall hv
  unfold Model.readName
  refine (akin_read fun _ _ h => h.meaning id name).bind fun found found' hfound => ?_
  cases hfound with
  | param hv => exact hrun.applyCall name hcall hv
  | refl found =>
    cases found with
    | cells c =>
      refine hrun.evaluate c ?_
      cases hcall with
      | none => exact .refl {}
      | some hab => exact hab
    | space target => exact hplace target
    | ref r target =>
      refine (akin_modify fun _ _ h => h.noteRead _ _).bind fun _ _ _ => ?_
      cases target with
      | value v => exact hrun.applyCall name hcall BEq.rfl
      | space target => exact hplace target
    | param v => exact hrun.applyCall name hcall BEq.rfl
    | model =>
      refine akin_get.bind fun m m' h => hrun.applyCall name hcall ?_
      rw [h.name]
      exact BEq.rfl

theorem RunsAkin.answer (id : SpaceId) {q q' : Query} (hq : q.Akin q') :
    Action.Akin Value.Akin (answer run id q) (answer run id q') := by
  cases hq with
  | @lookup place place' name call call' hplace hcall =>
    have hspace : (place'.map Handle.id).getD id = (place.map Handle.id).getD id := by
      cases hplace with
      | none => rfl
      | some h => exact (Handle.beq_iff.1 h).symm
    rw [Model.answer, Model.answer, hspace]
    exact hrun.readName _ name hcall
  | @item a b args args' hab hargs =>
    rw [Model.answer, Model.answer, Handle.beq_iff.1 hab]
    exact (hrun.instantiate b.id (.of_positional hargs)).bind fun _ _ heq =>
      akin_pure (heq ▸ BEq.rfl)
  | @argValues a b hab =>
    rw [Model.answer, Model.answer, Handle.beq_iff.1 hab]
    refine (akin_read fun _ _ h => h.argValues b.id).bind fun o o' ho => ?_
    cases ho with
    | none => exact akin_pure BEq.rfl
    | some hvs => exact akin_pure (Value.sameItems_iff.2 hvs)
  | here =>
    refine Action.Akin.bind (R := Eq) (akin_read fun _ _ h => ?_) fun _ _ heq =>
      akin_pure (heq ▸ BEq.rfl)
    rw [h.handleTo]
    exact .refl (fun _ => rfl) _
  | modelName =>
    refine akin_get.bind fun m m' h => akin_pure ?_
    rw [h.name]
    exact BEq.rfl
  | depth =>
    refine akin_get.bind fun m m' h => akin_pure ?_
    rw [m.stack.depth_eq, m'.stack.depth_eq, h.stack.length_eq]
    exact BEq.rfl

theorem RunsAkin.runBody (id : SpaceId) {body body' : Body Value}
    (h : Body.Akin Value.Akin body body') :
    Action.Akin Value.Akin (runBody (Model.answer run id) body)
      (runBody (Model.answer run id) body') := by
  induction h with
  | done hr => exact akin_ofExcept hr
  | ask hq _ ih => exact (hrun.answer id hq).attempt.bind fun r r' hr => ih r r' hr

end Evaluation

/-- Whatever the fuel, formulas that respect equality run side by side. -/
theorem runsAkin_runFormula (fuel : Nat) : RunsAkin (runFormula fuel) := by
  induction fuel with
  | zero => exact fun _ _ _ _ _ _ => akin_exhausted
  | succ fuel ih =>
    intro id f vs ws hf hvs
    unfold Formula.Respectful at hf
    unfold runFormula
    cases hrule : f.rule with
    | constant v => exact akin_pure BEq.rfl
    | computed body kept =>
      rw [hrule] at hf
      refine Action.Akin.bind (akin_modify fun m m' h => ?_) fun _ _ _ =>
        ih.runBody id (hf vs ws hvs)
      exact { h with runs := congrArg (· + 1) h.runs }

end Model

/-! ## One result -/

/-- The key has numbers in canonical form, and handles as they were issued. -/
structure Key.Settled (issue : SpaceId → List SpaceId) (k : Key) : Prop where
  canonical : Value.areCanonical k.values = true
  issued : Issued issue k.handles

theorem Key.Settled.eq {issue : SpaceId → List SpaceId} {k k' : Key} (hk : k.Settled issue)
    (hk' : k'.Settled issue) (h : (k == k') = true) : k = k' := by
  obtain ⟨vs, hvs⟩ := k
  obtain ⟨ws, hws⟩ := k'
  have hvalues : vs = ws :=
    Value.eq_of_sameItems vs ws h hk.canonical hk'.canonical hk.issued hk'.issued
  subst hvalues
  rfl

namespace Model

variable {m m' : Model}

def SameStored (m m' : Model) : Prop :=
  ∀ id key, Option.Rel Value.Akin ((m.cells.get? id).bind (·.contents.get? key))
    ((m'.cells.get? id).bind (·.contents.get? key))

theorem Akin.sameStored (h : m.Akin m') : SameStored m m' := by
  intro id key
  have hcells := h.cells.get? id
  generalize m.cells.get? id = o, m'.cells.get? id = o' at hcells
  cases hcells with
  | none => exact .none
  | some hcd => exact hcd.contents.get? key

theorem SameStored.refl (m : Model) : SameStored m m := by
  intro id key
  generalize (m.cells.get? id).bind (·.contents.get? key) = o
  cases o with
  | none => exact .none
  | some v => exact .some BEq.rfl

/-- Equal values or failures of one kind, with equal values stored, or no outcome. -/
def SameOutcome (o o' : Option (Except Failure Value × Model)) : Prop :=
  Option.Rel (fun x y => AkinResult Value.Akin x.1 y.1 ∧ SameStored x.2 y.2) o o'

/-- Arguments that bind to equal keys have one result and leave equal values behind, whichever of
them are used, when all formulas respect equality or the keys are settled. -/
theorem evaluate_of_equalKeys {fuel : Nat} {id : CellId} {a a' : Arguments} {k k' : Key}
    (hk : m.bindCells id a = .ok k) (hk' : m.bindCells id a' = .ok k') (h : (k == k') = true)
    (hrespects : m.Uses Formula.Respectful ∨ ∃ issue, k.Settled issue ∧ k'.Settled issue) :
    SameOutcome (evaluate (runFormula fuel) id a m) (evaluate (runFormula fuel) id a' m) := by
  unfold evaluate
  rw [Action.read_bind, Action.read_bind, hk, hk']
  dsimp only
  rcases hrespects with hm | ⟨issue, hsettled, hsettled'⟩
  · have hends := (runsAkin_runFormula fuel).evaluateKey id h m m (.refl hm)
    generalize evaluateKey (runFormula fuel) id k m = o,
      evaluateKey (runFormula fuel) id k' m = o' at hends
    cases hends with
    | exhausted => exact .none
    | ended hr hakin => exact .some ⟨hr, hakin.sameStored⟩
  · rw [hsettled.eq hsettled' h]
    cases evaluateKey (runFormula fuel) id k' m with
    | none => exact .none
    | some o => exact .some ⟨.refl (fun _ => BEq.rfl) _, .refl _⟩

end Model

def doubledFormula : Formula :=
  ⟨2, [{ name := "x" }], (Expr.apply .tuple [.arg 0, .call "echo" [.arg 0] []]).rule, none⟩

def echoFormula : Formula := ⟨1, [{ name := "x" }], (Expr.arg 0).rule, none⟩

def doubledRequests : List Request :=
  [.createSpace none "T", .defineCells ⟨0, 0⟩ "echo" (some echoFormula),
    .defineCells ⟨0, 0⟩ "doubled" (some doubledFormula)]

/-- The two zeros are one node of `doubled`, with one result. -/
theorem doubled_sameOutcome : ∃ m k k', Request.runAll 9 [] doubledRequests Shop.start = some m ∧
    m.bindCells ⟨1, 0⟩ { positional := [.number ⟨0⟩] } = .ok k ∧
    m.bindCells ⟨1, 0⟩ { positional := [.number ⟨0x8000000000000000⟩] } = .ok k' ∧
    (k == k') = true ∧ m.Uses Formula.Respectful ∧
    ((evaluate (runFormula 9) ⟨1, 0⟩ { positional := [.number ⟨0⟩] } m).any fun o =>
      o.1.isOk) = true ∧
    SameOutcome (evaluate (runFormula 9) ⟨1, 0⟩ { positional := [.number ⟨0⟩] } m)
      (evaluate (runFormula 9) ⟨1, 0⟩ { positional := [.number ⟨0x8000000000000000⟩] } m) := by
  have hrun : ((Request.runAll 9 [] doubledRequests Shop.start).any fun m =>
      (m.bindCells ⟨1, 0⟩ { positional := [.number ⟨0⟩] }).toOption.any fun k =>
        (m.bindCells ⟨1, 0⟩ { positional :=
            [.number ⟨0x8000000000000000⟩] }).toOption.any fun k' =>
          (k == k') &&
            (evaluate (runFormula 9) ⟨1, 0⟩ { positional := [.number ⟨0⟩] } m).any fun o =>
              o.1.isOk) = true := by decide +kernel
  obtain ⟨m, hm, hrun⟩ := (Option.any_eq_true _ _).1 hrun
  obtain ⟨k, hk, hrun⟩ := (Option.any_eq_true _ _).1 hrun
  obtain ⟨k', hk', hrun⟩ := (Option.any_eq_true _ _).1 hrun
  obtain ⟨hsame, hok⟩ := Bool.and_eq_true_iff.1 hrun
  have hk := Model.toOption_eq_some.1 hk
  have hk' := Model.toOption_eq_some.1 hk'
  have hrespects : m.Uses Formula.Respectful := by
    refine Request.uses_of_runAll hm fun f hf => ?_
    change f ∈ [echoFormula, doubledFormula] at hf
    simp only [List.mem_cons, List.not_mem_nil, or_false] at hf
    rcases hf with rfl | rfl
    · exact Expr.respectful_rule rfl (by decide)
    · exact Expr.respectful_rule rfl (by decide)
  exact ⟨m, k, k', hm, hk, hk', hsame, hrespects, hok,
    evaluate_of_equalKeys hk hk' hsame (.inl hrespects)⟩

def signFormula : Formula where
  ident := 1
  params := [{ name := "x" }]
  rule := .computed (fun args => match args with
    | [.tuple [.number x]] => Body.done (.ok (.bool x.negative))
    | _ => Body.done (.ok .empty)) []

def signRequests : List Request :=
  [.createSpace none "T", .defineCells ⟨0, 0⟩ "f" (some signFormula)]

/-- The two zeros are one node, and the body tells them apart. -/
theorem zeros_told_apart : ∃ m k k' v v' m₁ m₂, Reachable m ∧
    m.bindCells ⟨0, 0⟩ { positional := [.list [.number ⟨0⟩]] } = .ok k ∧
    m.bindCells ⟨0, 0⟩ { positional := [.list [.number ⟨0x8000000000000000⟩]] } = .ok k' ∧
    (k == k') = true ∧
    evaluate (runFormula 9) ⟨0, 0⟩ { positional := [.list [.number ⟨0⟩]] } m = some (.ok v, m₁) ∧
    evaluate (runFormula 9) ⟨0, 0⟩ { positional := [.list [.number ⟨0x8000000000000000⟩]] } m =
      some (.ok v', m₂) ∧ (v == v') = false := by
  have hrun : ((Request.runAll 9 [] signRequests Shop.start).any fun m =>
      (m.bindCells ⟨0, 0⟩ { positional := [.list [.number ⟨0⟩]] }).toOption.any fun k =>
        (m.bindCells ⟨0, 0⟩ { positional :=
            [.list [.number ⟨0x8000000000000000⟩]] }).toOption.any fun k' =>
          (evaluate (runFormula 9) ⟨0, 0⟩ { positional := [.list [.number ⟨0⟩]] } m).any fun o =>
            (evaluate (runFormula 9) ⟨0, 0⟩ { positional :=
                [.list [.number ⟨0x8000000000000000⟩]] } m).any fun o' =>
              o.1.toOption.any fun v => o'.1.toOption.any fun v' =>
                (k == k') && !(v == v')) = true := by decide +kernel
  obtain ⟨m, hm, hrun⟩ := (Option.any_eq_true _ _).1 hrun
  obtain ⟨k, hk, hrun⟩ := (Option.any_eq_true _ _).1 hrun
  obtain ⟨k', hk', hrun⟩ := (Option.any_eq_true _ _).1 hrun
  obtain ⟨⟨r, m₁⟩, hr, hrun⟩ := (Option.any_eq_true _ _).1 hrun
  obtain ⟨⟨r', m₂⟩, hr', hrun⟩ := (Option.any_eq_true _ _).1 hrun
  obtain ⟨v, hv, hrun⟩ := (Option.any_eq_true _ _).1 hrun
  obtain ⟨v', hv', hfacts⟩ := (Option.any_eq_true _ _).1 hrun
  rw [Bool.and_eq_true, Bool.not_eq_true'] at hfacts
  cases Model.toOption_eq_some.1 hv
  cases Model.toOption_eq_some.1 hv'
  exact ⟨m, k, k', v, v', m₁, m₂, ⟨_, .new "doc" {}, Request.becomes_of_runAll signRequests hm⟩,
    Model.toOption_eq_some.1 hk, Model.toOption_eq_some.1 hk', hfacts.1, hr, hr', hfacts.2⟩

end Recalc
