import Recalc.Proofs.Vouching

set_option autoImplicit false

/-!
# Discreet formulas know only what is kept alive

A formula that is discreet and runs on known handles asks about known spaces only, and what it
learns is known as well. So it holds of whole evaluations, however deep formulas nest and whichever
failures they catch: what evaluation records is vouched for.
-/

namespace Recalc.Model

open Recalc.Action

variable {issue : SpaceId → List SpaceId} {m m₁ m' : Model} {run : RunFormula}

theorem knows_space {h : Handle} (hh : m.Known issue h) :
    m.Knows issue (Value.handles (.space h)) := by
  intro a ha
  rw [Value.handles, List.mem_singleton] at ha
  rwa [ha]

/-- A handle that the model issues to a known space is known. -/
theorem known_handleTo {id : SpaceId} {h : Handle} (hm : m.Trusted issue) (hnear : m.Near issue id)
    (hh : m.handleTo id = .ok h) : m.Known issue h := by
  obtain ⟨s, hs, rfl⟩ := handleTo_eq_ok.1 hh
  exact ⟨hm.issuing.pins id s hs, hnear⟩

/-- A key of cells has the handles of the arguments and of the defaults. -/
theorem handles_bindCells {id : CellId} {c : Cells} {a : Arguments} {key : Key}
    (hc : m.cells.get? id = some c) (h : m.bindCells id a = .ok key) :
    key.handles ⊆ a.handles ++ c.handles := by
  obtain ⟨c', hc', h⟩ := except_bind_eq_ok.1 h
  cases hc.symm.trans (cell_eq_ok.1 hc')
  have hpositional : ∀ {key}, Key.ofValues a.positional = .ok key →
      key.handles ⊆ a.handles ++ c.handles := by
    intro key hkey
    rw [Key.handles_ofValues hkey]
    exact List.subset_append_of_subset_left _ (List.subset_append_left _ _)
  split at h
  next f hf =>
    obtain ⟨vs, hvs, hkey⟩ := except_bind_eq_ok.1 h
    rw [Key.handles_ofValues hkey]
    intro b hb
    refine (List.mem_append.1 (handles_matchArguments hvs hb)).elim
      (List.mem_append_left _) fun hb => List.mem_append_right _ ?_
    unfold Cells.handles
    rw [hf]
    exact List.mem_append_left _ (List.mem_append_left _ hb)
  next =>
    split at h
    next => exact hpositional h
    next => cases h

/-- The parameters that a space declares, or has from its counterpart, come from a static space. -/
theorem Faithful.signature {sites : SpaceId → Prop} (hm : m.Faithful sites) {id : SpaceId}
    {spec : Signature} (h : m.signature id = .ok spec) :
    ∃ c source, m.spaces.get? c = some source ∧ source.isStatic = true ∧
      source.signature = some spec := by
  unfold Model.signature at h
  obtain ⟨c, hc, h⟩ := except_bind_eq_ok.1 h
  obtain ⟨source, hsource, h⟩ := except_bind_eq_ok.1 h
  obtain ⟨s, hs⟩ : ∃ s, m.spaces.get? id = some s := by
    obtain ⟨s, hs, -⟩ := except_bind_eq_ok.1 hc
    exact ⟨s, space_eq_ok.1 hs⟩
  obtain ⟨t, ht, hstatic⟩ := (hm.reflects hs).counterpart hs hc
  have hsource := space_eq_ok.1 hsource
  cases hsource.symm.trans ht
  split at h
  next spec' hspec =>
    cases h
    exact ⟨c, source, hsource, hstatic, hspec⟩
  next => cases h

section Parts

variable (hruns : ∀ id f args, Obeys (Under Running Adds) (run id f args))
  (hknown : RunsKnown issue run) (hm : m.Trusted issue)
include hruns hknown hm

theorem leads_evaluateKey {id : CellId} {c : Cells} {key : Key} (hc : m.cells.get? id = some c)
    (hnear : m.Near issue c.space) (hkey : Issued issue key.handles) :
    Leads issue (evaluateKey run id key) m fun v m' => m'.Knows issue v.handles := by
  unfold Model.evaluateKey
  refine leads_read_bind hm fun d hd => ?_
  cases hc.symm.trans (cell_eq_ok.1 hd)
  cases hv : c.contents.get? key with
  | none => exact leads_compute hruns hknown hm hc hv hnear hkey
  | some v =>
    obtain ⟨hcells, -, -⟩ := pools_noteRead (.cells id key) m
    have hc' : (noteRead (.cells id key) m).cells.get? id = some c := by rw [hcells, hc]
    have hnoted := enriches_noteRead hm.running.tracked (.cells id key)
    refine leads_note_bind hm (isLive_of_stored hc hv) hkey (fun z hz other he => ?_) fun ht => ?_
    · cases he
      refine ⟨c, hc', fun i hi => ?_⟩
      exact (hnear z hz i hi).mono hnoted.carries fun b => hnoted.edges z b
    · refine leads_pure ht (knows_read hc' hv ht.stocked fun z hz => hasEdge_noteRead ?_ ?_)
      · rwa [stack_noteRead] at hz
      · exact hm.running.tracked.off_stack (isLive_of_stored hc hv)

theorem leads_evaluate {id : CellId} {c : Cells} {a : Arguments} (hc : m.cells.get? id = some c)
    (hnear : m.Near issue c.space) (ha : Issued issue a.handles) :
    Leads issue (evaluate run id a) m fun v m' => m'.Knows issue v.handles := by
  unfold Model.evaluate
  refine leads_read_bind hm fun key hkey => ?_
  refine leads_evaluateKey hruns hknown hm hc hnear fun b hb => ?_
  exact (List.mem_append.1 (handles_bindCells hc hkey hb)).elim (ha b) (hm.stocked.cells id c hc b)

theorem leads_itemKey {id : SpaceId} {a : Arguments} (hnear : m.Near issue id)
    (ha : m.Knows issue a.handles) :
    Leads issue (itemKey run id a) m fun key _ => Issued issue key.handles := by
  unfold Model.itemKey
  refine leads_read_bind hm fun spec hspec => leads_read_bind hm fun bound hbound => ?_
  obtain ⟨c, source, hsource, hstatic, hdeclared⟩ := hm.faithful.signature hspec
  have hsignature := knows_signature hm hsource hstatic hdeclared
  have hargs : m.Knows issue (Value.itemHandles bound) :=
    ((ha.append (hsignature.subset (List.subset_append_left _ _))).subset
      (handles_matchArguments hbound))
  cases hbinder : spec.binder with
  | none =>
    refine leads_ofExcept hm fun key hkey => ?_
    rw [Key.handles_ofValues hkey]
    exact hargs.issued
  | some binder =>
    have hkept : m.Knows issue binder.handles := hsignature.subset fun b hb =>
      List.mem_append_right _ (by rw [hbinder]; exact hb)
    have hrun := hknown id binder bound m hm hnear
      (hm.discreet.binders c source spec binder hsource hstatic hdeclared hbinder)
      (hkept.append hargs)
    refine Leads.bind hm (obeys_attempt (hruns id binder bound)) (fun q m₁ r m' _ hrest => ?_)
      hrun.attempt fun q m₁ hm₁ hvouched hstack hgiven => ?_
    · cases q <;> exact obeys_read _ _ _ _ hrest
    cases q with
    | error e => exact leads_read hm₁ fun _ h => nomatch h
    | ok given =>
      refine leads_read hm₁ fun key hkey => ?_
      obtain ⟨vs, hvs, hkey⟩ := except_bind_eq_ok.1 hkey
      rw [Key.handles_ofValues hkey]
      have hknows := (hargs.mono hvouched.enriches hstack).append (hgiven given rfl)
      exact (hknows.subset (handles_canonicalArguments hvs)).issued

theorem leads_instantiate {id : SpaceId} {a : Arguments} (hnear : m.Near issue id)
    (ha : m.Knows issue a.handles) :
    Leads issue (instantiate run id a) m fun h m' => m'.Known issue h := by
  have hkey : Leads issue (itemKey run id a) m fun key m' =>
      m'.KeyFits id key ∧ Issued issue key.handles := by
    intro r m' h hissuing
    obtain ⟨hvouched, hend⟩ := leads_itemKey hruns hknown hm hnear ha r m' h hissuing
    have hfits := (evaluationFrame_adds.itemKey hruns id a hm.running h).2
    exact ⟨hvouched, fun key hr => ⟨hfits key hr, hend key hr⟩⟩
  refine Leads.bind hm (fun m r m' h hrunning => ?_) (fun key m₁ r m' hx hrest => ?_) hkey
    fun key m₁ hm₁ _ _ hkey => leads_ensureItem hm₁ hkey.1 hkey.2
  · exact (evaluationFrame_adds.itemKey hruns id a hrunning h).1
  · have hfits := (evaluationFrame_adds.itemKey hruns id a hm.running hx).2 key rfl
    exact evaluationFrame_adds.item id key m₁ r m' hfits hrest

theorem leads_applyCall {name : String} {call : Option Arguments} {v : Value}
    (hcall : m.Knows issue ((call.map Arguments.handles).getD []))
    (hv : m.Knows issue v.handles) :
    Leads issue (applyCall run name call v) m fun v m' => m'.Knows issue v.handles := by
  unfold Model.applyCall
  split
  next => exact leads_pure hm hv
  next a h =>
    have hh := hv h List.mem_cons_self
    refine Leads.bind hm (evaluationFrame_adds.instantiate hruns h.id a)
      (fun b m₁ r m' _ hrest => obeys_pure _ _ _ _ hrest)
      (leads_instantiate hruns hknown hm hh.2 hcall) fun item m₁ hm₁ _ _ hitem => ?_
    exact leads_pure hm₁ (knows_space hitem)
  next => exact leads_fail hm

end Parts

theorem leads_ensurePath (path : List String) {id : SpaceId} (hm : m.Trusted issue)
    (hnear : m.Near issue id) :
    Leads issue (ensurePath path id) m fun id m' => m'.Near issue id := by
  induction path generalizing m id with
  | nil => exact leads_pure hm hnear
  | cons name rest ih =>
    exact Leads.bind hm (evaluationFrame_adds.child id name)
      (fun child m₁ r m' _ hrest => evaluationFrame_adds.ensurePath rest child m₁ r m' hrest)
      (leads_ensureChild hm hnear) fun child m₁ hm₁ _ _ hchild => ih hm₁ hchild

theorem leads_handleValue {target : Place} (hm : m.Trusted issue)
    (hplace : m.NearPlace issue target) :
    Leads issue (handleValue target) m fun v m' => m'.Knows issue v.handles := by
  have hensure : Leads issue (ensurePlace target) m fun id m' => m'.Near issue id := by
    cases target with
    | existing id => exact leads_read_bind hm fun _ _ => leads_pure hm hplace
    | pending start path => exact leads_ensurePath path hm hplace
  have hissue : ∀ (id : SpaceId) (m₁ : Model) (r : Except Failure Value) (m' : Model),
      (do return Value.space (← read (·.handleTo id)) : Action Value) m₁ = some (r, m') →
      Under Running Adds m₁ m' := fun id =>
    obeys_bind (obeys_read _) fun _ => obeys_pure _
  refine Leads.bind hm (evaluationFrame_adds.ensurePlace target)
    (fun id m₁ r m' _ => hissue id m₁ r m') hensure fun id m₁ hm₁ _ _ hnear => ?_
  exact leads_read_bind hm₁ fun h hh => leads_pure hm₁ (knows_space (known_handleTo hm₁ hnear hh))

section Bodies

variable (hruns : ∀ id f args, Obeys (Under Running Adds) (run id f args))
  (hknown : RunsKnown issue run)
include hruns hknown

/-- The space at a known place is handed out, and called. -/
theorem leads_handleCall {name : String} {call : Option Arguments} {target : Place}
    (hm : m.Trusted issue) (hcall : m.Knows issue ((call.map Arguments.handles).getD []))
    (hplace : m.NearPlace issue target) :
    Leads issue (handleValue target >>= applyCall run name call) m fun v m' =>
      m'.Knows issue v.handles := by
  refine Leads.bind hm (evaluationFrame_adds.handleValue target)
    (fun v m₁ r m' _ => evaluationFrame_adds.applyCall hruns name call v m₁ r m')
    (leads_handleValue hm hplace) fun v m₁ hm₁ hvouched hstack hv => ?_
  exact leads_applyCall hruns hknown hm₁ (hcall.mono hvouched.enriches hstack) hv

theorem leads_readName {id : SpaceId} {name : String} {call : Option Arguments}
    (hm : m.Trusted issue) (hnear : m.Near issue id)
    (hcall : m.Knows issue ((call.map Arguments.handles).getD [])) :
    Leads issue (readName run id name call) m fun v m' => m'.Knows issue v.handles := by
  unfold Model.readName
  refine leads_read_bind hm fun found hfound => ?_
  have hmeaning := hnear.meaning hm hfound
  cases found with
  | cells c =>
    obtain ⟨d, hd, hspace⟩ := hmeaning
    refine leads_evaluate hruns hknown hm hd hspace ?_
    cases call with
    | none => exact issued_nil
    | some a => exact hcall.issued
  | space target => exact leads_handleCall hruns hknown hm hcall hmeaning
  | ref q target =>
    obtain ⟨v, hv⟩ := refs_of_meaning hfound
    have hnoted := enriches_noteRead hm.running.tracked (.ref q)
    have hstack : (noteRead (.ref q) m).stack.nodes = m.stack.nodes := by rw [stack_noteRead]
    refine leads_note_bind hm (isLive_ref_of_meaning hv) issued_nil
      (fun z _ => backsRead_ref _ z q) fun ht => ?_
    have hcall := hcall.mono hnoted hstack
    cases target with
    | value v => exact leads_applyCall hruns hknown ht hcall (hmeaning.mono hnoted hstack)
    | space target =>
      exact leads_handleCall hruns hknown ht hcall (NearPlace.mono hmeaning hnoted hstack)
  | param v => exact leads_applyCall hruns hknown hm hcall hmeaning
  | model => exact leads_applyCall hruns hknown hm hcall knows_nil

theorem leads_answer {id : SpaceId} (hm : m.Trusted issue) (hnear : m.Near issue id) {q : Query}
    (hq : m.Knows issue q.handles) :
    Leads issue (answer run id q) m fun v m' => m'.Knows issue v.handles := by
  cases q with
  | lookup place name call =>
    refine leads_readName hruns hknown hm ?_ (hq.subset (List.subset_append_right _ _))
    cases place with
    | none => exact hnear
    | some h => exact (hq h List.mem_cons_self).2
  | item h args =>
    have hargs : m.Knows issue (Arguments.handles { positional := args }) := by
      rw [Arguments.handles, List.flatMap_nil, List.append_nil]
      exact hq.subset (List.subset_cons_self _ _)
    refine Leads.bind hm (evaluationFrame_adds.instantiate hruns h.id _)
      (fun b m₁ r m' _ hrest => obeys_pure _ _ _ _ hrest)
      (leads_instantiate hruns hknown hm (hq h List.mem_cons_self).2 hargs)
      fun item m₁ hm₁ _ _ hitem => leads_pure hm₁ (knows_space hitem)
  | argValues h =>
    refine leads_read_bind hm fun vs hvs => ?_
    unfold Model.argValues at hvs
    obtain ⟨s, hs, hvs⟩ := except_bind_eq_ok.1 hvs
    cases hk : s.kind with
    | item owner c args around =>
      rw [hk] at hvs
      cases hvs
      exact leads_pure hm ((hq h List.mem_cons_self).2.args hm (space_eq_ok.1 hs) hk)
    | static =>
      rw [hk] at hvs
      cases hvs
      exact leads_pure hm knows_nil
    | dynamic =>
      rw [hk] at hvs
      cases hvs
      exact leads_pure hm knows_nil
  | here =>
    exact leads_read_bind hm fun h hh => leads_pure hm (knows_space (known_handleTo hm hnear hh))
  | modelName => exact leads_pure hm knows_nil
  | depth => exact leads_pure hm knows_nil

omit hruns hknown in
/-- A discreet body that runs on known handles comes to know no other ones. -/
theorem leads_runBody {ask : Query → Action Value} {id : SpaceId}
    (hasks : ∀ q, Obeys (Under Running Adds) (ask q))
    (hanswers : ∀ m : Model, m.Trusted issue → m.Near issue id → ∀ q : Query,
      m.Knows issue q.handles → Leads issue (ask q) m fun v m' => m'.Knows issue v.handles)
    {known : List Handle} {body : Body Value} (hbody : body.Discreet known) (hm : m.Trusted issue)
    (hnear : m.Near issue id) (hknows : m.Knows issue known) :
    Leads issue (runBody ask body) m fun v m' => m'.Knows issue v.handles := by
  induction hbody generalizing m with
  | done hr =>
    refine leads_ofExcept hm fun v hv => ?_
    subst hv
    exact hknows.subset hr
  | @ask known q resume hq _ ih =>
    refine Leads.bind hm (obeys_attempt (hasks q))
      (fun r m₁ r' m' _ => EvaluationFrame.runBody hasks (resume r) m₁ r' m')
      (hanswers m hm hnear q (hknows.subset hq)).attempt fun r m₁ hm₁ hvouched hstack hr => ?_
    refine ih r hm₁ (hnear.mono hvouched.enriches hstack)
      ((hknows.mono hvouched.enriches hstack).append ?_)
    cases r with
    | error e => exact knows_nil
    | ok v => exact hr v rfl

end Bodies

/-- However deep formulas nest, they come to know only what is kept alive. -/
theorem runsKnown_runFormula (fuel : Nat) : RunsKnown issue (runFormula fuel) := by
  induction fuel with
  | zero =>
    intro id f args m _ _ _ _ r m' h
    cases h
  | succ fuel ih =>
    intro id f args m hm hnear hdiscreet hknows
    unfold Model.runFormula
    cases hrule : f.rule with
    | constant v =>
      refine leads_pure hm (hknows.subset (List.subset_append_of_subset_left _ ?_))
      unfold Formula.handles
      rw [hrule]
      exact List.subset_append_right _ _
    | computed body kept =>
      have hkept : kept ++ Value.itemHandles args ⊆ f.handles ++ Value.itemHandles args := by
        unfold Formula.handles
        rw [hrule]
        exact List.append_subset.2
          ⟨List.subset_append_of_subset_left _ (List.subset_append_right _ _),
            List.subset_append_right _ _⟩
      intro r m' h hissuing
      obtain ⟨hrunning, hadds⟩ := evaluationFrame_adds.start m hm.running
      have halike : Alike m { m with runs := m.runs + 1 } :=
        ⟨rfl, rfl, rfl, rfl, fun _ => rfl, rfl, fun h => h⟩
      have hvouched : Vouched issue m { m with runs := m.runs + 1 } :=
        ⟨hadds.enriches (halike.addressable.2 hm.issuing.room), hm.stocked.of_records rfl rfl rfl hm.stocked.graph
          hm.stocked.stack, fun _ _ h => .inl h⟩
      have hstarted := hvouched.trusted hm hrunning (halike.issuing.2 hm.issuing)
      obtain ⟨hrest, hend⟩ := leads_runBody (fun q => evaluationFrame_adds.answer (runs_adds fuel) id q)
        (fun m hm hnear q hq => leads_answer (runs_adds fuel) ih hm hnear hq)
        (hdiscreet body kept hrule args) hstarted (hnear.mono hvouched.enriches rfl)
        ((hknows.subset hkept).mono hvouched.enriches rfl) r m' h hissuing
      exact ⟨hvouched.trans hrest, hend⟩

end Recalc.Model
