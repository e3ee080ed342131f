import Recalc.Proofs.Forwarding
import Recalc.Proofs.Limits
import Recalc.Proofs.Outright
import Recalc.Proofs.Provenance

set_option autoImplicit false

/-!
# A higher limit changes no outcome but that of a chain that is too deep

An evaluation and the same one under a higher limit run side by side. As long as the first one does
not come to a chain or a walk that is too deep, both do the same. When it comes to one it fails, and
as formulas forward failures nothing else is done with it: the whole evaluation fails that way.
-/

namespace Recalc

open Recalc.Action

namespace Model

variable {m m' : Model} {α β : Type} {limit : Nat}

/-- Unless the first action fails since something is too deep, the second one ends with the same
result under the other limit, and in the same model otherwise. -/
def Lifts (limit : Nat) (m : Model) (x y : Action α) : Prop :=
  ∀ r m', x m = some (r, m') → (∀ e, r = .error e → ¬ e.Deep) →
    y (m.withLimit limit) = some (r, m'.withLimit limit)

/-- A model whose formulas forward failures, with a limit that is not above the other one. -/
structure RaisesTo (limit : Nat) (m : Model) : Prop where
  tracked : m.Tracked fun _ => False
  forwards : m.Uses (Formula.Forwards fun _ => True)
  below : m.config.maxDepth ≤ limit

def RunsLift (limit : Nat) (run run' : RunFormula) : Prop :=
  ∀ id f args m, RaisesTo limit m → f.Forwards (fun _ => True) →
    Lifts limit m (run id f args) (run' id f args)

/-! ## Actions side by side -/

section Rules

theorem lifts_pure (a : α) : Lifts limit m (pure a) (pure a) := by
  intro r m' h _
  cases h
  rfl

theorem lifts_fail (e : Failure) : Lifts limit m (fail e : Action α) (fail e) := by
  intro r m' h _
  cases h
  rfl

theorem lifts_read {f f' : Model → Except Failure α}
    (hf : Reaches (f m) (f' (m.withLimit limit))) : Lifts limit m (read f) (read f') := by
  intro r m' h hr
  cases h
  have heq : f' (m.withLimit limit) = f m := hf fun depth max he => hr _ he ⟨depth, max, rfl⟩
  show some (f' (m.withLimit limit), _) = _
  rw [heq]

theorem Lifts.bind {x y : Action α} {k l : α → Action β} (h : Lifts limit m x y)
    (hk : ∀ a m₁, x m = some (.ok a, m₁) → Lifts limit m₁ (k a) (l a)) :
    Lifts limit m (x >>= k) (y >>= l) := by
  intro r m' hx hr
  rcases (bind_eq_some m).1 hx with ⟨a, m₁, hfirst, hrest⟩ | ⟨e, hfirst, rfl⟩
  · have hy := h _ _ hfirst fun e he => nomatch he
    exact (bind_eq_some _).2 (.inl ⟨a, _, hy, hk a m₁ hfirst r m' hrest hr⟩)
  · have hy := h _ _ hfirst fun e' he => by
      cases he
      exact hr e rfl
    exact (bind_eq_some _).2 (.inr ⟨e, hy, rfl⟩)

theorem Lifts.read_bind {f f' : Model → Except Failure α} {k l : α → Action β}
    (hf : Reaches (f m) (f' (m.withLimit limit)))
    (hk : ∀ a, f m = .ok a → Lifts limit m (k a) (l a)) :
    Lifts limit m (read f >>= k) (read f' >>= l) := by
  refine (lifts_read hf).bind fun a m₁ ha => ?_
  obtain ⟨hfound, rfl⟩ := Prod.mk.inj (Option.some.inj ha)
  exact hk a hfound

theorem Lifts.get_bind {k l : Model → Action β}
    (hk : Lifts limit m (k m) (l (m.withLimit limit))) :
    Lifts limit m (get >>= k) (get >>= l) := hk

theorem Lifts.modify_bind {f f' : Model → Model} {k l : Unit → Action β}
    (hf : f' (m.withLimit limit) = (f m).withLimit limit)
    (hk : Lifts limit (f m) (k ()) (l ())) :
    Lifts limit m (modify f >>= k) (modify f' >>= l) := by
  intro r m' h hr
  rw [Action.modify_bind, hf]
  exact hk r m' h hr

theorem lifts_update {f f' : Model → α × Model}
    (hf : f' (m.withLimit limit) = ((f m).1, (f m).2.withLimit limit)) :
    Lifts limit m (update f) (update f') := by
  intro r m' h _
  cases h
  unfold update
  rw [hf]

/-- A failure that is caught may be one that something is too deep. Then what follows has to fail
that way as well. -/
theorem Lifts.attempt_bind {x y : Action α} {k l : Except Failure α → Action β}
    (h : Lifts limit m x y)
    (hdeep : ∀ e m₁ r m', e.Deep → k (.error e) m₁ = some (r, m') → ∃ e', r = .error e' ∧ e'.Deep)
    (hk : ∀ r m₁, x m = some (r, m₁) → Lifts limit m₁ (k r) (l r)) :
    Lifts limit m (attempt x >>= k) (attempt y >>= l) := by
  intro r m' hx hr
  rw [Action.attempt_bind] at hx ⊢
  cases hfirst : x m with
  | none =>
    rw [hfirst] at hx
    contradiction
  | some o =>
    obtain ⟨q, m₁⟩ := o
    rw [hfirst] at hx
    have hq : ∀ e, q = .error e → ¬ e.Deep := by
      rintro e rfl he
      obtain ⟨e', rfl, he'⟩ := hdeep e m₁ r m' he hx
      exact hr e' rfl he'
    rw [h q m₁ hfirst hq]
    exact hk q m₁ hfirst r m' hx hr

end Rules

/-! ## What is not a formula -/

theorem lifts_ensureChild (parent : SpaceId) (name : String) :
    Lifts limit m (ensureChild parent name) (ensureChild parent name) := by
  unfold ensureChild
  refine .read_bind (.refl _) fun s _ => ?_
  cases s.spaces.get? name with
  | some child => exact lifts_pure child
  | none =>
    refine .get_bind ?_
    rw [dottedName_of_spaces (withLimit_spaces m limit)]
    have hroot : (m.withLimit limit).instanceRoot? parent = m.instanceRoot? parent := rfl
    rw [hroot]
    cases m.instanceRoot? parent with
    | none => exact lifts_fail _
    | some root =>
      refine .read_bind (.refl _) fun source _ => ?_
      cases source.spaces.get? name with
      | none => exact lifts_fail _
      | some counterpart =>
        refine lifts_update ?_
        rw [addReplica_withLimit]
        rfl

theorem lifts_handleValue (target : Place) :
    Lifts limit m (handleValue target) (handleValue target) := by
  have hpath : ∀ path id m, Lifts limit m (ensurePath path id) (ensurePath path id) := by
    intro path
    induction path with
    | nil => exact fun id m => lifts_pure id
    | cons name rest ih => exact fun id m => .bind (lifts_ensureChild id name) fun id m₁ _ => ih id m₁
  have hplace : Lifts limit m (ensurePlace target) (ensurePlace target) := by
    cases target with
    | existing id => exact .read_bind (.refl _) fun _ _ => lifts_pure id
    | pending start path => exact hpath path start m
  exact .bind hplace fun id m₁ _ => .read_bind (.refl _) fun h _ => lifts_pure _

theorem lifts_ensureItem (id : SpaceId) (key : Key) :
    Lifts limit m (ensureItem id key) (ensureItem id key) := by
  unfold ensureItem makeItem
  refine .read_bind (.refl _) fun s _ => .get_bind ?_
  rw [withLimit_spaces]
  cases (s.instances.get? key).filter m.spaces.contains with
  | some item =>
    exact .modify_bind (noteRead_withLimit m limit _) (lifts_read (.refl _))
  | none =>
    refine .bind ?_ fun item m₁ _ =>
      .modify_bind (noteRead_withLimit (m₁.listItem id key item) limit _) (lifts_read (.refl _))
    exact .read_bind (.refl _) fun c _ => .read_bind (.refl _) fun s _ =>
      lifts_update (addReplica_withLimit m limit _ c)

theorem lifts_enter (hraise : m.config.maxDepth ≤ limit) (n : Node) :
    Lifts limit m (enter n) (enter n) := by
  unfold enter
  refine .get_bind ?_
  rw [withLimit_maxDepth, withLimit_stack]
  by_cases hfull : m.config.maxDepth ≤ m.stack.depth
  · rw [if_pos hfull]
    intro r m' h hr
    cases h
    exact absurd ⟨_, _, rfl⟩ (hr _ rfl)
  · rw [if_neg hfull, if_neg fun hlimit => hfull (hraise.trans hlimit)]
    cases m.stack.push? n with
    | none =>
      dsimp only
      rw [labelOf_withLimit]
      exact lifts_fail _
    | some stack =>
      intro r m' h _
      cases h
      rfl

theorem lifts_finish (id : CellId) (key : Key) (r : Except Failure Value) :
    Lifts limit m (finish id key r) (finish id key r) := by
  unfold finish
  cases r with
  | error e => exact .modify_bind rfl (lifts_fail e)
  | ok v =>
    refine .read_bind (.refl _) fun c _ => ?_
    cases c.contents.store? key v with
    | none =>
      refine .get_bind ?_
      rw [labelOf_withLimit]
      exact lifts_fail _
    | some contents =>
      exact .modify_bind (noteRead_withLimit (m.modifyCell id fun c => { c with contents }) limit _)
        (lifts_pure v)

/-! ## Formulas -/

section Parts

theorem RaisesTo.next (h : RaisesTo limit m)
    (hnext : Under (Tracked fun _ => False) Reuses m m') : RaisesTo limit m' := by
  obtain ⟨htracked, hreuses⟩ := hnext h.tracked
  refine ⟨htracked, hreuses.uses h.forwards, ?_⟩
  rw [hreuses.steadies.config]
  exact h.below

theorem RaisesTo.pushed (h : RaisesTo limit m) {id : CellId} {c : Cells} {key : Key} {stack : Stack}
    (hpush : m.stack.push? (.cells id key) = some stack) (hc : m.cells.get? id = some c)
    (hnone : c.contents.get? key = none) : RaisesTo limit { m with stack } :=
  ⟨tracked_push h.tracked hpush hc hnone, ⟨h.forwards.cells, h.forwards.binders⟩, h.below⟩

theorem Failure.Deep.wrap {e : Failure} (he : e.Deep) (m : Model) : m.wrap e = e := by
  obtain ⟨depth, max, rfl⟩ := he
  rfl

variable {run run' : RunFormula} (hrun : RunsLift limit run run')
include hrun

theorem RaisesTo.compute (h : RaisesTo limit m) {id : CellId} {c : Cells} {key : Key}
    (hc : m.cells.get? id = some c) (hnone : c.contents.get? key = none) :
    Lifts limit m (compute run id c key) (compute run' id c key) := by
  unfold Model.compute
  refine .bind (lifts_enter h.below _) fun _ m₁ henter => ?_
  obtain ⟨-, stack, hpush, rfl⟩ := enter_eq_ok henter
  have hpushed := h.pushed hpush hc hnone
  unfold runCells
  simp only [bind_assoc]
  refine .attempt_bind ?_ (fun e m₂ r m' he hend => ?_) fun r m₂ _ => ?_
  · cases hf : c.formula with
    | none => exact lifts_pure _
    | some f => exact hrun c.space f key.values _ hpushed (h.forwards.cells id c f hc hf)
  · -- a node whose formula came to something too deep fails that way
    have hwrap := Failure.Deep.wrap he m₂
    simp only [get_bind, outcome, hwrap] at hend
    cases hend
    exact ⟨e, rfl, he⟩
  · refine .get_bind ?_
    rw [outcome_withLimit]
    exact .bind (lifts_pure _) fun q m₃ _ => .modify_bind rfl (lifts_finish id key q)

theorem RaisesTo.evaluate (h : RaisesTo limit m) (id : CellId) (a : Arguments) :
    Lifts limit m (evaluate run id a) (evaluate run' id a) := by
  unfold Model.evaluate
  refine .read_bind ?_ fun key _ => ?_
  · rw [bindCells_withLimit]
    exact .refl _
  unfold evaluateKey
  refine .read_bind (.refl _) fun c hc => ?_
  cases hv : c.contents.get? key with
  | some v => exact .modify_bind (noteRead_withLimit m limit _) (lifts_pure v)
  | none => exact h.compute hrun (cell_eq_ok.1 hc) hv

theorem RaisesTo.instantiate (h : RaisesTo limit m) (id : SpaceId) (a : Arguments) :
    Lifts limit m (instantiate run id a) (instantiate run' id a) := by
  refine .bind ?_ fun key m₁ _ => lifts_ensureItem id key
  unfold itemKey
  refine .read_bind ?_ fun spec hspec => .read_bind ?_ fun bound _ => ?_
  · rw [signature_withLimit]
    exact .refl _
  · rw [dottedName_of_spaces (withLimit_spaces m limit)]
    exact .refl _
  cases hbinder : spec.binder with
  | none =>
    intro r m' hend _
    cases hend
    rfl
  | some binder =>
    have hforwards := h.forwards.signature hspec hbinder
    refine .attempt_bind (hrun id binder bound m h hforwards) (fun e m₁ r m' he hend => ?_)
      fun r m₁ _ => ?_
    · have hwrap := Failure.Deep.wrap he m₁
      obtain ⟨rfl, -⟩ := Prod.mk.inj (Option.some.inj hend)
      exact ⟨e, congrArg Except.error hwrap, he⟩
    · cases r with
      | error e =>
        refine lifts_read ?_
        rw [wrap_withLimit]
        exact .refl _
      | ok given =>
        refine lifts_read ?_
        rw [dottedName_of_spaces (withLimit_spaces m₁ limit)]
        exact .refl _

theorem RaisesTo.applyCall (h : RaisesTo limit m) (name : String) (call : Option Arguments)
    (v : Value) : Lifts limit m (applyCall run name call v) (applyCall run' name call v) := by
  unfold Model.applyCall
  split
  · exact lifts_pure _
  · exact .bind (h.instantiate hrun _ _) fun _ m₁ _ => lifts_pure _
  · exact lifts_fail _

theorem RaisesTo.readName (h : RaisesTo limit m) (id : SpaceId) (name : String)
    (call : Option Arguments) :
    Lifts limit m (readName run id name call) (readName run' id name call) := by
  have hplace : ∀ {m : Model} (target : Place), RaisesTo limit m →
      Lifts limit m (handleValue target >>= Model.applyCall run name call)
        (handleValue target >>= Model.applyCall run' name call) := by
    intro m target h
    refine .bind (lifts_handleValue target) fun v m' hv => ?_
    exact (h.next (evaluationFrame_reuses.handleValue target m _ m' hv)).applyCall hrun _ _ v
  unfold Model.readName
  refine .read_bind (reaches_meaning h.below id name) fun found hfound => ?_
  cases found with
  | cells c => exact h.evaluate hrun c _
  | space target => exact hplace target h
  | ref r target =>
    obtain ⟨v, hv⟩ := refs_of_meaning hfound
    have hnoted := h.next (evaluationFrame_reuses.note m _ (isLive_ref_of_meaning hv))
    refine .modify_bind (noteRead_withLimit m limit _) ?_
    cases target with
    | value v => exact hnoted.applyCall hrun _ _ v
    | space target => exact hplace target hnoted
  | param v => exact h.applyCall hrun _ _ v
  | model => exact .get_bind (h.applyCall hrun _ _ _)

theorem RaisesTo.answer (h : RaisesTo limit m) (id : SpaceId) (q : Query) :
    Lifts limit m (answer run id q) (answer run' id q) := by
  cases q with
  | lookup place name call => exact h.readName hrun _ name call
  | item x args => exact .bind (h.instantiate hrun x.id _) fun _ m₁ _ => lifts_pure _
  | argValues x =>
    exact .read_bind (.refl _) fun vs _ => by cases vs <;> exact lifts_pure _
  | here => exact .read_bind (.refl _) fun _ _ => lifts_pure _
  | modelName => exact .get_bind (lifts_pure _)
  | depth => exact .get_bind (lifts_pure _)

theorem RaisesTo.runBody (hobeys : ∀ id f args, Obeys (Under (Tracked fun _ => False) Reuses)
    (run id f args)) (h : RaisesTo limit m) (id : SpaceId) {body : Body Value}
    (hbody : body.Forwards fun _ => True) :
    Lifts limit m (runBody (Model.answer run id) body) (runBody (Model.answer run' id) body) := by
  induction hbody generalizing m with
  | value v => exact lifts_pure v
  | failure => exact lifts_fail _
  | @ask q resume hforward _ ih =>
    refine .attempt_bind (h.answer hrun id q) (fun e m₁ r m' he hend => ?_) fun r m₁ hr => ?_
    · rw [hforward] at hend
      cases hend
      exact ⟨e, rfl, he⟩
    · cases r with
      | error e =>
        rw [hforward]
        exact lifts_fail e
      | ok v => exact ih v (h.next (evaluationFrame_reuses.answer hobeys id q m _ m₁ hr))

end Parts

/-- Formulas run under a higher limit as under the lower one, unless something is too deep. -/
theorem runsLift_runFormula (limit fuel : Nat) :
    RunsLift limit (runFormula fuel) (runFormula fuel) := by
  induction fuel with
  | zero =>
    intro id f args m h _ r m' hend
    contradiction
  | succ fuel ih =>
    intro id f args m h hf
    unfold runFormula
    cases hrule : f.rule with
    | constant v => exact lifts_pure v
    | computed body kept =>
      have hnext := h.next (evaluationFrame_reuses.start m)
      exact .modify_bind rfl (hnext.runBody ih (evaluationFrame_reuses.runFormula fuel) id
        (hf body kept hrule args))

end Model

end Recalc

namespace Recalc

open Recalc.Model Recalc.Action

variable {m m' : Model} {limit : Nat}

theorem Reachable.raises (h : Reachable m) (held : List Handle)
    (hforwards : m.Uses (Formula.Forwards fun _ => True)) (hraise : m.config.maxDepth ≤ limit) :
    RaisesTo limit (m.ready held) := by
  obtain ⟨-, hcalm, -⟩ := h.ready held
  refine ⟨hcalm.toTracked, (culls_ready m held).uses hforwards, ?_⟩
  rw [(sameSettings_ready m held).config]
  exact hraise

/-- Where formulas forward failures, a higher limit on depth changes no success and no failure other
than that something is too deep, and it leaves the same values, instances and edges behind. -/
theorem Reachable.raisedLimit (h : Reachable m)
    (hforwards : m.Uses (Formula.Forwards fun _ => True)) (hraise : m.config.maxDepth ≤ limit)
    {fuel : Nat} {held : List Handle} {e : Evaluation} {r : Except Failure Reply}
    (hrun : e.request.run fuel held m = some (r, m'))
    (hdeep : ∀ depth max, r ≠ .error (.tooDeep depth max)) :
    e.request.run fuel held (m.withLimit limit) = some (r, m'.withLimit limit) := by
  have hready := h.raises held hforwards hraise
  have hruns := runsLift_runFormula limit fuel
  have hother : ∀ f, r = .error f → ¬ f.Deep := by
    rintro f rfl ⟨depth, max, rfl⟩
    exact hdeep depth max rfl
  -- instances are reclaimed first, the same ones under both limits
  have hcall : ∀ {α : Type} {x : Action α} (reply : α → Reply), Lifts limit (m.ready held) x x →
      (reply <$> (reclaimFirst held >>= fun _ => x)) m = some (r, m') →
      (reply <$> (reclaimFirst held >>= fun _ => x)) (m.withLimit limit) =
        some (r, m'.withLimit limit) := by
    intro α x reply hlifts hx
    rw [← bind_pure_comp] at hx ⊢
    rw [bind_assoc, reclaimFirst_bind] at hx ⊢
    rw [ready_withLimit]
    exact hlifts.bind (fun a m₁ _ => lifts_pure (reply a)) r m' hx hother
  cases e with
  | call id a => exact hcall Reply.value (hready.evaluate hruns id a) hrun
  | selectInstance id a => exact hcall Reply.handle (hready.instantiate hruns id a) hrun
  | readFrom id name => exact hcall Reply.value (hready.readName hruns id name none) hrun

/-- A limit of three is enough for `a`, which reads `b`, which reads `c`. -/
theorem chain_raisedLimit : ∃ m v m', Request.runAll 2 [] chainRequests
      { name := "doc", config := { maxDepth := 3 } } = some m ∧
    m.Uses (Formula.Forwards fun _ => True) ∧ m.config.maxDepth ≤ 256 ∧
    (Evaluation.call ⟨0, 0⟩ {}).request.run 3 [] m = some (.ok (.value v), m') ∧
    (Evaluation.call ⟨0, 0⟩ {}).request.run 3 [] (m.withLimit 256) =
      some (.ok (.value v), m'.withLimit 256) := by
  have hrun : ((Request.runAll 2 [] chainRequests
      { name := "doc", config := { maxDepth := 3 } }).any fun m =>
      decide (m.config.maxDepth ≤ 256) &&
      (Model.call 3 [] ⟨0, 0⟩ {} m).any fun q => q.1.isOk) = true := by
    decide +kernel
  obtain ⟨m, hm, hfacts⟩ := (Option.any_eq_true _ _).1 hrun
  rw [Bool.and_eq_true, decide_eq_true_eq] at hfacts
  obtain ⟨hraise, hcall⟩ := hfacts
  obtain ⟨⟨r, m'⟩, hcall, hok⟩ := (Option.any_eq_true _ _).1 hcall
  obtain ⟨v, rfl⟩ : ∃ v, r = .ok v := by
    cases r with
    | error e => cases hok
    | ok v => exact ⟨v, rfl⟩
  have hforwards : m.Uses (Formula.Forwards fun _ => True) := by
    refine Request.uses_of_runAll hm fun f hf => ?_
    change f ∈ [readingFormula 1 "b", readingFormula 2 "c", .constant 3 (.int 1)] at hf
    simp only [List.mem_cons, List.not_mem_nil, or_false] at hf
    rcases hf with rfl | rfl | rfl
    · exact forwards_readingFormula _ 1 "b"
    · exact forwards_readingFormula _ 2 "c"
    · exact forwards_constant _ 3 _
  have hrequest : (Evaluation.call ⟨0, 0⟩ {}).request.run 3 [] m =
      some (.ok (.value v), m') := by
    show (Reply.value <$> Model.call 3 [] ⟨0, 0⟩ {}) m = _
    rw [← bind_pure_comp]
    exact (bind_eq_some m).2 (.inl ⟨v, m', hcall, rfl⟩)
  exact ⟨m, v, m', hm, hforwards, hraise, hrequest, Reachable.raisedLimit
    ⟨_, .new "doc" { maxDepth := 3 }, Request.becomes_of_runAll chainRequests hm⟩ hforwards hraise
    hrequest fun _ _ he => nomatch he⟩

end Recalc
