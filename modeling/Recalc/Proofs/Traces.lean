import Recalc.Proofs.Forwarding
import Recalc.Proofs.Journal
import Recalc.Proofs.Limits
import Recalc.Proofs.Outright
import Recalc.Proofs.Provenance

set_option autoImplicit false

/-!
# The trace of a failure

Where formulas forward failures and make up none that unwinds by itself, a failure is wrapped once:
at the formula in whose body, or in a binder that it invoked, it came up first. At that time the
stack holds the nodes that are about to fail, and from then on nothing else is pushed. So the trace
lists the nodes that fail, from the one that was called inwards.
-/

namespace Recalc

open Recalc.Action

/-- A failure that unwinds the call stack without a trace. -/
def Failure.Bare (e : Failure) : Prop :=
  e.kind = .circular ∨ e.kind = .tooDeep ∨ e.kind = .noneReturned

theorem Failure.Bare.unwinds {e : Failure} (h : e.Bare) : e.unwindsUnchanged = true := by
  cases e <;> first | rfl | (rcases h with h | h | h <;> cases h)

/-- What was pushed ended well, except for the nodes of the chain, from the outermost to the
innermost. These ended last, the innermost first, and all with the same failure. -/
def Journal.Unwinds (j : Journal) (e : Failure) (chain : List Node) : Prop :=
  ∃ done failed, j.visits = done ++ failed ∧ (∀ v ∈ done, v.result.isOk = true) ∧
    (∀ v ∈ failed, v.result = .error e) ∧ failed.map Visit.node = chain.reverse

namespace Journal

/-- No node failed. -/
theorem Unwinds.nothing {j : Journal} (hj : ∀ v ∈ j.visits, v.result.isOk = true) (e : Failure) :
    j.Unwinds e [] :=
  ⟨j.visits, [], (List.append_nil _).symm, hj, fun _ h => absurd h List.not_mem_nil, rfl⟩

/-- As long as no node failed the failure can still be another one. -/
theorem Unwinds.exchange {j : Journal} {e e' : Failure} {chain : List Node}
    (h : j.Unwinds e chain) (hsame : chain ≠ [] → e' = e) : j.Unwinds e' chain := by
  obtain ⟨done, failed, hj, hdone, hfailed, hnodes⟩ := h
  refine ⟨done, failed, hj, hdone, fun v hv => ?_, hnodes⟩
  rw [hsame, hfailed v hv]
  rintro rfl
  rw [List.reverse_nil, List.map_eq_nil_iff] at hnodes
  rw [hnodes] at hv
  contradiction

/-- The node that ends last fails as well. -/
theorem Unwinds.leave {j : Journal} {e : Failure} {chain : List Node}
    (h : j.Unwinds e chain) (n : Node) (reads noted : List Node) (runs : List BodyRun) :
    Journal.Unwinds { reads := noted, visits := j.visits ++ [⟨n, reads, .error e⟩], runs } e
      (n :: chain) := by
  obtain ⟨done, failed, hj, hdone, hfailed, hnodes⟩ := h
  refine ⟨done, failed ++ [⟨n, reads, .error e⟩], ?_, hdone, fun v hv => ?_, ?_⟩
  · show j.visits ++ _ = _
    rw [hj, List.append_assoc]
  · rcases List.mem_append.1 hv with hv | hv
    · exact hfailed v hv
    · rw [List.mem_singleton.1 hv]
  · rw [List.map_append, hnodes, List.reverse_cons]
    rfl

end Journal

namespace Model

variable {m m₁ m' : Model} {α : Type}

/-- How a failure is on its way after the nodes of the chain failed, with the rest of the stack
still to come: it is not wrapped yet, or it has no trace, or its trace lists the whole stack as it
was. -/
inductive Surfaces (stack : List Node) (m' : Model) : List Node → Failure → Prop
  | raised {e : Failure} : e.unwindsUnchanged = false → Surfaces stack m' [] e
  | bare {chain : List Node} {e : Failure} : e.Bare → Surfaces stack m' chain e
  | traced {chain : List Node} {cause : Failure} : cause.unwindsUnchanged = false →
      Surfaces stack m' chain (.inFormula cause ((stack.reverse ++ chain).map m'.labelOf))

def Unwound (j : Journal) (m : Model) (r : Except Failure α) (m' : Model) : Prop :=
  match r with
  | .ok _ => ∀ v ∈ j.visits, v.result.isOk = true
  | .error e => ∃ chain, j.Unwinds e chain ∧ Surfaces m.stack.nodes m' chain e

/-- A model whose formulas forward failures and make up none that unwinds by itself. -/
structure Forwarding (m : Model) : Prop where
  tracked : m.Tracked fun _ => False
  forwards : m.Uses (Formula.Forwards fun e => e.unwindsUnchanged = false)

/-! ## Failures on their way -/

theorem surfaces_outright {stack : List Node} {e : Failure} (he : e.Outright) :
    Surfaces stack m' [] e := by
  rcases he with he | ⟨depth, max, rfl⟩
  · exact .raised he
  · exact .bare (.inr (.inl rfl))

/-- A failure that is wrapped now has the trace of the stack as it stands. -/
theorem Surfaces.wrap {chain : List Node} {e : Failure} (h : Surfaces m.stack.nodes m chain e) :
    Surfaces m.stack.nodes m chain (m.wrap e) ∧ (m.wrap e).unwindsUnchanged = true ∧
      (chain ≠ [] → m.wrap e = e) := by
  unfold Model.wrap
  cases h with
  | raised he =>
    rw [if_neg (by rw [he]; exact Bool.false_ne_true)]
    refine ⟨?_, rfl, fun hne => absurd rfl hne⟩
    have htraced : Surfaces m.stack.nodes m []
        (.inFormula e ((m.stack.nodes.reverse ++ []).map m.labelOf)) := .traced he
    rwa [List.append_nil] at htraced
  | bare he =>
    rw [if_pos he.unwinds]
    exact ⟨.bare he, he.unwinds, fun _ => rfl⟩
  | traced he => exact ⟨.traced he, rfl, fun _ => rfl⟩

/-- The node on top fails as well. -/
theorem Surfaces.leave {n : Node} {stack chain : List Node} {e : Failure}
    (h : Surfaces (n :: stack) m chain e) (he : e.unwindsUnchanged = true) :
    Surfaces stack m (n :: chain) e := by
  cases h with
  | raised hraised =>
    rw [hraised] at he
    contradiction
  | bare hbare => exact .bare hbare
  | traced hcause =>
    rw [List.reverse_cons, List.append_assoc]
    exact .traced hcause

theorem Surfaces.labels {stack chain : List Node} {e : Failure} (h : Surfaces stack m chain e)
    (hlabels : m'.labelOf = m.labelOf) : Surfaces stack m' chain e := by
  cases h with
  | raised he => exact .raised he
  | bare he => exact .bare he
  | traced he =>
    rw [← hlabels]
    exact .traced he

/-! ## Parts of an evaluation -/

theorem unwound_ok {j : Journal} (hj : j.visits = []) (a : α) : Unwound j m (.ok a) m' := by
  intro v hv
  rw [hj] at hv
  exact absurd hv List.not_mem_nil

/-- All that was pushed ended well, and what comes then is no failure of a formula. -/
theorem Unwound.outright {β : Type} {j : Journal} {a : α} {r : Except Failure β}
    (h : Unwound j m (.ok a) m₁) (hr : ∀ e, r = .error e → e.Outright) : Unwound j m r m' := by
  cases r with
  | ok b => exact h
  | error e => exact ⟨[], Journal.Unwinds.nothing h e, surfaces_outright (hr e rfl)⟩

/-- Nothing was pushed. -/
theorem unwound_outright {j : Journal} (hj : j.visits = []) {r : Except Failure α}
    (hr : ∀ e, r = .error e → e.Outright) : Unwound j m r m' := by
  have hok : Unwound j m (.ok () : Except Failure Unit) m := unwound_ok hj ()
  exact hok.outright hr

theorem unwound_error {j : Journal} (hj : j.visits = []) {e : Failure} (he : e.Outright) :
    Unwound j m (.error e : Except Failure α) m' :=
  unwound_outright hj fun e' h => by
    cases h
    exact he

/-- One part of an evaluation after the other. -/
theorem Unwound.append {β : Type} {j j' : Journal} {a : α} {r : Except Failure β}
    (h : Unwound j m (.ok a) m₁) (h' : Unwound j' m₁ r m')
    (hstack : m₁.stack.nodes = m.stack.nodes) : Unwound (j ++ j') m r m' := by
  cases r with
  | ok b =>
    intro v hv
    exact (List.mem_append.1 hv).elim (h v) (h' v)
  | error e =>
    obtain ⟨chain, ⟨done, failed, hj, hdone, hfailed, hnodes⟩, hsurfaces⟩ := h'
    rw [hstack] at hsurfaces
    refine ⟨chain, ⟨j.visits ++ done, failed, ?_, fun v hv => ?_, hfailed, hnodes⟩, hsurfaces⟩
    · show j.visits ++ j'.visits = _
      rw [hj, List.append_assoc]
    · exact (List.mem_append.1 hv).elim (h v) (hdone v)

/-- What comes after a failure is not done. -/
theorem Unwound.stop {β : Type} {j j' : Journal} {e : Failure}
    (h : Unwound j m (.error e : Except Failure α) m') (hj : j'.visits = []) :
    Unwound (j ++ j') m (.error e : Except Failure β) m' := by
  obtain ⟨chain, ⟨done, failed, heq, hrest⟩, hsurfaces⟩ := h
  refine ⟨chain, ⟨done, failed, ?_, hrest⟩, hsurfaces⟩
  show j.visits ++ j'.visits = _
  rw [hj, List.append_nil, heq]

theorem Forwarding.next (h : m.Forwarding) (hnext : Under (Tracked fun _ => False) Reuses m m') :
    m'.Forwarding ∧ m'.stack.nodes = m.stack.nodes := by
  obtain ⟨htracked, hreuses⟩ := hnext h.tracked
  exact ⟨⟨htracked, hreuses.uses h.forwards⟩, hreuses.steadies.retains.stack⟩

theorem Forwarding.pushed (h : m.Forwarding) {id : CellId} {c : Cells} {key : Key} {stack : Stack}
    (hpush : m.stack.push? (.cells id key) = some stack) (hc : m.cells.get? id = some c)
    (hnone : c.contents.get? key = none) : ({ m with stack } : Model).Forwarding :=
  ⟨tracked_push h.tracked hpush hc hnone, ⟨h.forwards.cells, h.forwards.binders⟩⟩

structure RunsUnwound (run : RunFormula) (log : FormulaJournal) : Prop where
  obeys : ∀ id f args, Obeys (Under (Tracked fun _ => False) Reuses) (run id f args)
  unwound : ∀ id f args m r m', m.Forwarding →
    f.Forwards (fun e => e.unwindsUnchanged = false) → run id f args m = some (r, m') →
    Unwound (log id f args m) m r m'

section Parts

variable {run : RunFormula} {log : FormulaJournal} (hrun : RunsUnwound run log)

theorem visits_itemJournal (id : SpaceId) (key : Key) (m : Model) :
    (itemJournal id key m).visits = [] := by
  unfold itemJournal
  split <;> rfl

theorem bare_of_enter {n : Node} {e : Failure} (h : enter n m = some (.error e, m')) : e.Bare := by
  unfold enter at h
  rw [get_bind] at h
  split at h
  next =>
    cases h
    exact .inr (.inl rfl)
  next =>
    cases hpush : m.stack.push? n with
    | none =>
      rw [hpush] at h
      cases h
      exact .inl rfl
    | some stack =>
      rw [hpush] at h
      cases h

/-- A node that was pushed is visited after all that the journal of its formula visits. -/
theorem exists_formulaJournal {id : CellId} {c : Cells} {key : Key} {r : Except Failure Value}
    {m₁ : Model} (henter : enter (.cells id key) m = some (.ok (), m₁))
    (h : compute run id c key m = some (r, m')) :
    ∃ j : Journal, (∀ f, c.formula = some f → j = log c.space f key.values m₁) ∧
      (c.formula = none → j = {}) ∧
      computeJournal run log id c key m =
        { reads := if r.isOk then [.cells id key] else []
          visits := j.visits ++ [⟨.cells id key, j.reads, r⟩]
          runs := j.runs } := by
  unfold computeJournal
  rw [henter, h]
  cases c.formula with
  | none => exact ⟨{}, fun _ hf => (nomatch hf), fun _ => rfl, rfl⟩
  | some f =>
    refine ⟨log c.space f key.values m₁, fun f' hf => ?_, fun hf => (nomatch hf), rfl⟩
    cases hf
    rfl

include hrun

/-- A node that was pushed ends well, or it is the outermost of the chain that failed. -/
theorem Forwarding.entered (hm : m.Forwarding) {id : CellId} {c : Cells} {key : Key}
    {stack : Stack} {r : Except Failure Value} (hc : m.cells.get? id = some c)
    (hnone : c.contents.get? key = none)
    (henter : enter (.cells id key) m = some (.ok (), { m with stack }))
    (h : compute run id c key m = some (r, m')) :
    (∃ v, r = .ok v ∧ Unwound (computeJournal run log id c key m) m r m') ∨
      ∃ e chain, r = .error e ∧
        (computeJournal run log id c key m).Unwinds e (.cells id key :: chain) ∧
        Surfaces m.stack.nodes m' (.cells id key :: chain) e ∧ e.unwindsUnchanged = true := by
  obtain ⟨j, hsome, hnothing, hjournal⟩ := exists_formulaJournal henter h
  rw [hjournal]
  rcases compute_cases h with ⟨-, e, hfail, -⟩ | ⟨stack', q, m₁, hpush, henter', hcells, hfinish⟩
  · rw [henter] at hfail
    cases hfail
  obtain rfl : stack' = stack := by
    rw [henter] at henter'
    exact (congrArg (fun o : Option (Except Failure Unit × Model) =>
      (o.map (·.2.stack)).getD default) henter').symm
  have hpushed := hm.pushed hpush hc hnone
  have hnodes := Stack.nodes_of_push? hpush
  -- what the formula gave, before its outcome is decided
  obtain ⟨q', hran, hstack, hm₁, rfl⟩ : ∃ q' : Except Failure Value,
      Unwound j { m with stack := stack' } q' m₁ ∧
      m₁.stack.nodes = .cells id key :: m.stack.nodes ∧ m₁.Forwarding ∧
      q = outcome id (.cells id key) q' m₁ := by
    rcases runCells_cases hcells with ⟨hf, rfl, hq⟩ | ⟨f, q', hf, hran, hq⟩
    · rw [hnothing hf]
      exact ⟨.ok .empty, unwound_ok rfl _, hnodes, hpushed, hq⟩
    · rw [hsome f hf]
      have hforwards := hm.forwards.cells id c f hc hf
      obtain ⟨hm₁, hstack⟩ := hpushed.next (hrun.obeys _ _ _ _ _ _ hran)
      exact ⟨q', hrun.unwound _ _ _ _ _ _ hpushed hforwards hran, hstack.trans hnodes, hm₁, hq⟩
  cases q' with
  | ok v =>
    unfold outcome at hfinish
    dsimp only at hfinish
    split at hfinish
    next =>
      cases hfinish
      refine .inr ⟨_, [], rfl, ?_, .bare (.inr (.inr rfl)), rfl⟩
      exact Journal.Unwinds.leave (j := j) ⟨_, [], (List.append_nil _).symm, hran,
        fun _ h => absurd h List.not_mem_nil, rfl⟩ _ _ _ _
    next =>
      -- nothing was stored for a node under evaluation, so the value can be stored
      obtain ⟨other, c₁, he, hc₁, hnone₁⟩ :=
        hm₁.tracked.waiting (.cells id key) (by rw [hstack]; exact List.mem_cons_self)
      cases he
      obtain ⟨contents, hstore⟩ : ∃ contents, c₁.contents.store? key v = some contents :=
        ⟨_, Contents.store?_eq_some.2
          ⟨Contents.inputs_eq_none_iff.1 (Option.or_eq_none_iff.1 hnone₁).1, rfl⟩⟩
      rw [finish_of_store (m := { m₁ with stack := m₁.stack.pop }) hc₁ hstore] at hfinish
      cases hfinish
      refine .inl ⟨v, rfl, fun e he => ?_⟩
      rcases List.mem_append.1 he with he | he
      · exact hran e he
      · rw [List.mem_singleton.1 he]
        rfl
  | error e =>
    obtain ⟨chain, hunwinds, hsurfaces⟩ := hran
    have hown : Surfaces m₁.stack.nodes m₁ chain e := by
      rw [hstack, ← hnodes]
      exact hsurfaces
    obtain ⟨hwrapped, hunchanged, hsame⟩ := hown.wrap
    rw [hstack] at hwrapped
    cases hfinish
    refine .inr ⟨_, chain, rfl, (hunwinds.exchange hsame).leave _ _ _ _, ?_, hunchanged⟩
    exact (hwrapped.leave hunchanged).labels (labelOf_of_pools rfl rfl rfl)

theorem Forwarding.compute (hm : m.Forwarding) {id : CellId} {c : Cells} {key : Key}
    {r : Except Failure Value} (hc : m.cells.get? id = some c)
    (hnone : c.contents.get? key = none) (h : compute run id c key m = some (r, m')) :
    Unwound (computeJournal run log id c key m) m r m' := by
  rcases compute_cases h with ⟨rfl, e, henter, rfl⟩ | ⟨stack, q, m₁, -, henter, -, -⟩
  · refine ⟨[], Journal.Unwinds.nothing ?_ e, .bare (bare_of_enter henter)⟩
    unfold computeJournal
    rw [henter]
    exact fun _ hv => absurd hv List.not_mem_nil
  · rcases hm.entered hrun hc hnone henter h with ⟨v, rfl, hok⟩ | ⟨e, chain, rfl, hunwinds, hs, -⟩
    · exact hok
    · exact ⟨_, hunwinds, hs⟩

theorem Forwarding.evaluate (hm : m.Forwarding) {id : CellId} {a : Arguments}
    {r : Except Failure Value} (h : evaluate run id a m = some (r, m')) :
    Unwound (evaluateJournal run log id a m) m r m' := by
  unfold Model.evaluate at h
  rw [read_bind] at h
  unfold evaluateJournal
  cases hkey : m.bindCells id a with
  | error e =>
    rw [hkey] at h
    cases h
    exact unwound_error rfl (outright_bindCells m id a e hkey)
  | ok key =>
    rw [hkey] at h
    dsimp only at h ⊢
    unfold evaluateKey at h
    rw [read_bind] at h
    unfold evaluateKeyJournal
    cases hc : m.cell id with
    | error e =>
      rw [hc] at h
      cases h
      exact unwound_error rfl (outright_cell m id e hc)
    | ok c =>
      rw [hc] at h
      dsimp only at h ⊢
      cases hv : c.contents.get? key with
      | some v =>
        rw [hv] at h
        cases h
        exact unwound_ok rfl v
      | none =>
        rw [hv] at h
        exact hm.compute hrun (cell_eq_ok.1 hc) hv h

theorem Forwarding.itemKey (hm : m.Forwarding) {id : SpaceId} {a : Arguments}
    {r : Except Failure Key} (h : itemKey run id a m = some (r, m')) :
    Unwound (binderJournal log id a m) m r m' ∧ m'.stack.nodes = m.stack.nodes := by
  unfold Model.itemKey at h
  rw [read_bind] at h
  unfold binderJournal
  cases hspec : m.signature id with
  | error e =>
    rw [hspec] at h
    cases h
    exact ⟨unwound_error rfl (outright_signature m id e hspec), rfl⟩
  | ok spec =>
    rw [hspec] at h
    simp only [read_bind] at h
    dsimp only
    cases hbound : matchArguments spec.params a (m.dottedName id) with
    | error e =>
      rw [hbound] at h
      cases h
      refine ⟨unwound_error ?_ (outright_matchArguments _ a _ e hbound), rfl⟩
      cases spec.binder <;> rfl
    | ok bound =>
      rw [hbound] at h
      cases hbinder : spec.binder with
      | none =>
        rw [hbinder] at h
        cases h
        exact ⟨unwound_outright rfl (outright_ofValues bound), rfl⟩
      | some binder =>
        rw [hbinder] at h
        simp only [attempt_bind] at h
        split at h
        next q m₁ hq =>
          have hforwards := hm.forwards.signature hspec hbinder
          have hran := hrun.unwound _ _ _ _ _ _ hm hforwards hq
          obtain ⟨-, hstack⟩ := hm.next (hrun.obeys _ _ _ _ _ _ hq)
          cases q with
          | ok given =>
            cases h
            refine ⟨?_, hstack⟩
            have hgiven := (outright_canonicalArguments spec (m'.dottedName id) bound given).bind
              fun vs => outright_ofValues vs
            exact hran.outright hgiven
          | error e =>
            cases h
            refine ⟨?_, hstack⟩
            obtain ⟨chain, hunwinds, hsurfaces⟩ := hran
            have hown : Surfaces m'.stack.nodes m' chain e := by
              rw [hstack]
              exact hsurfaces
            obtain ⟨hwrapped, -, hsame⟩ := hown.wrap
            rw [hstack] at hwrapped
            exact ⟨chain, hunwinds.exchange hsame, hwrapped⟩
        next => contradiction

theorem Forwarding.instantiate (hm : m.Forwarding) {id : SpaceId} {a : Arguments}
    {r : Except Failure Handle} (h : instantiate run id a m = some (r, m')) :
    Unwound (instantiateJournal run log id a m) m r m' := by
  unfold instantiateJournal recordAfter
  rcases (bind_eq_some m).1 h with ⟨key, m₁, hkey, hitem⟩ | ⟨e, hkey, rfl⟩
  · obtain ⟨hran, hstack⟩ := hm.itemKey hrun hkey
    rw [hkey]
    refine hran.append (unwound_outright (visits_itemJournal id key m₁) fun e he => ?_) hstack
    rw [he] at hitem
    exact outright_ensureItem id key m₁ e m' hitem
  · rw [hkey]
    exact (hm.itemKey hrun hkey).1.stop rfl

theorem Forwarding.applyCall (hm : m.Forwarding) {name : String} {call : Option Arguments}
    {v : Value} {r : Except Failure Value} (h : applyCall run name call v m = some (r, m')) :
    Unwound (applyJournal run log call v m) m r m' := by
  unfold Model.applyCall at h
  unfold applyJournal
  split at h
  next =>
    cases h
    exact unwound_ok rfl _
  next a handle =>
    rcases (bind_eq_some m).1 h with ⟨item, m₁, hitem, h⟩ | ⟨e, hitem, rfl⟩
    · cases h
      exact hm.instantiate hrun hitem
    · exact hm.instantiate hrun hitem
  next hspace =>
    cases h
    refine unwound_error ?_ (.inl rfl)
    split
    next a handle _ => exact (hspace handle rfl).elim
    next => rfl

/-- What a place stands for is found, and then called. -/
theorem Forwarding.callPlace (hm : m.Forwarding) {name : String} {call : Option Arguments}
    {target : Place} {r : Except Failure Value}
    (h : (handleValue target >>= Model.applyCall run name call) m = some (r, m')) :
    Unwound (recordAfter (handleValue target) (applyJournal run log call) m) m r m' := by
  unfold recordAfter
  rcases (bind_eq_some m).1 h with ⟨v, m₁, hvalue, h⟩ | ⟨e, hvalue, rfl⟩
  · obtain ⟨hm₁, hstack⟩ := hm.next (evaluationFrame_reuses.handleValue target _ _ _ hvalue)
    rw [hvalue]
    exact (unwound_ok (j := {}) rfl ()).append (hm₁.applyCall hrun h) hstack
  · rw [hvalue]
    exact unwound_error rfl (outright_handleValue target m e m' hvalue)

theorem Forwarding.readName (hm : m.Forwarding) {id : SpaceId} {name : String}
    {call : Option Arguments} {r : Except Failure Value}
    (h : readName run id name call m = some (r, m')) :
    Unwound (readNameJournal run log id name call m) m r m' := by
  unfold Model.readName at h
  rw [read_bind] at h
  unfold readNameJournal
  cases hfound : m.meaning id name with
  | error e =>
    rw [hfound] at h
    cases h
    exact unwound_error rfl (outright_meaning m id name e hfound)
  | ok found =>
    rw [hfound] at h
    dsimp only at h ⊢
    cases found with
    | cells c => exact hm.evaluate hrun h
    | space target => exact hm.callPlace hrun h
    | ref ref target =>
      obtain ⟨v, hv⟩ := refs_of_meaning hfound
      obtain ⟨hnoted, hstack⟩ :=
        hm.next (evaluationFrame_reuses.note m _ (isLive_ref_of_meaning hv))
      have hread : Unwound { reads := [.ref ref] } m (.ok () : Except Failure Unit)
        (noteRead (.ref ref) m) := unwound_ok rfl ()
      cases target with
      | value v => exact hread.append (hnoted.applyCall hrun h) hstack
      | space target => exact hread.append (hnoted.callPlace hrun h) hstack
    | param v => exact hm.applyCall hrun h
    | model =>
      have hcall := hm.applyCall hrun h
      cases call <;> exact hcall

theorem Forwarding.answer (hm : m.Forwarding) {id : SpaceId} {q : Query}
    {r : Except Failure Value} (h : answer run id q m = some (r, m')) :
    Unwound (answerJournal run log id q m) m r m' := by
  cases q with
  | lookup place name call => exact hm.readName hrun h
  | item handle args =>
    rcases (bind_eq_some m).1 h with ⟨item, m₁, hitem, h⟩ | ⟨e, hitem, rfl⟩
    · cases h
      exact hm.instantiate hrun hitem
    · exact hm.instantiate hrun hitem
  | argValues handle =>
    refine unwound_outright rfl fun e he => ?_
    have hraises : Raises Failure.Outright (Model.answer run id (.argValues handle)) :=
      raises_bind (raises_read fun m => outright_argValues m handle.id) fun vs => by
        cases vs <;> exact raises_pure _
    exact hraises m e m' (by rw [h, he])
  | here =>
    refine unwound_outright rfl fun e he => ?_
    have hraises : Raises Failure.Outright (Model.answer run id .here) :=
      raises_bind (raises_read fun m => outright_handleTo m id) fun _ => raises_pure _
    exact hraises m e m' (by rw [h, he])
  | modelName | depth =>
    cases h
    exact unwound_ok rfl _

theorem Forwarding.runBody (hm : m.Forwarding) {id : SpaceId} {body : Body Value}
    (hbody : body.Forwards fun e => e.unwindsUnchanged = false) {r : Except Failure Value}
    (h : runBody (Model.answer run id) body m = some (r, m')) :
    Unwound (bodyJournal (Model.answer run id) (answerJournal run log id) body m) m r m' := by
  induction hbody generalizing m with
  | value v =>
    cases h
    exact unwound_ok rfl v
  | failure he =>
    cases h
    exact unwound_error rfl (.inl he)
  | @ask q resume hforward _ ih =>
    unfold Model.runBody at h
    rw [attempt_bind] at h
    unfold bodyJournal
    split at h
    next answered m₁ hanswer =>
      rw [hanswer]
      have hasked := hm.answer hrun hanswer
      obtain ⟨hm₁, hstack⟩ :=
        hm.next (evaluationFrame_reuses.answer hrun.obeys id q _ _ _ hanswer)
      cases answered with
      | ok v => exact hasked.append (ih v hm₁ h) hstack
      | error e =>
        -- a question that failed is the end of the body
        rw [hforward] at h
        cases h
        dsimp only
        rw [hforward]
        exact hasked.stop rfl
    next => contradiction

end Parts

/-- Whatever formulas do that forward failures, they leave a journal of the chain that failed. -/
theorem runsUnwound_runFormula (fuel : Nat) :
    RunsUnwound (runFormula fuel) (formulaJournal fuel) := by
  induction fuel with
  | zero =>
    refine ⟨evaluationFrame_reuses.runFormula 0, fun id f args m r m' _ _ h => ?_⟩
    contradiction
  | succ fuel ih =>
    refine ⟨evaluationFrame_reuses.runFormula (fuel + 1), fun id f args m r m' hm hf h => ?_⟩
    unfold runFormula at h
    unfold formulaJournal
    cases hrule : f.rule with
    | constant v =>
      simp only [hrule] at h ⊢
      cases h
      exact unwound_ok rfl v
    | computed body kept =>
      simp only [hrule] at h ⊢
      rw [modify_bind] at h
      obtain ⟨hstarted, -⟩ := hm.next (evaluationFrame_reuses.start m)
      unfold ranJournal
      rw [h]
      exact hstarted.runBody ih (hf body kept hrule args) h

end Model

end Recalc

namespace Recalc

open Recalc.Model Recalc.Action

variable {m m' : Model}

theorem Reachable.forwarding (h : Reachable m) (held : List Handle)
    (hforwards : m.Uses (Formula.Forwards fun e => e.unwindsUnchanged = false)) :
    (m.ready held).Forwarding := by
  obtain ⟨-, hcalm, -⟩ := h.ready held
  exact ⟨hcalm.toTracked, (culls_ready m held).uses hforwards⟩

/-- A call of cells fails before their node is pushed: the arguments do not bind, which includes
that the cells are gone, or the limit on depth is zero. Otherwise the node is the outermost of a
chain that failed: the failure has no trace, or it is wrapped once and its trace is that chain. -/
theorem Reachable.failedCall (h : Reachable m)
    (hforwards : m.Uses (Formula.Forwards fun e => e.unwindsUnchanged = false)) {fuel : Nat}
    {held : List Handle} {id : CellId} {a : Arguments} {e : Failure}
    (hcall : Model.call fuel held id a m = some (.error e, m')) :
    (((Evaluation.call id a).journal fuel (m.ready held)).visits = [] ∧
      ((m.ready held).bindCells id a = .error e ∨ m.config.maxDepth = 0 ∧ e = .tooDeep 1 0)) ∨
    ∃ key chain, (m.ready held).bindCells id a = .ok key ∧
      ((Evaluation.call id a).journal fuel (m.ready held)).Unwinds e (.cells id key :: chain) ∧
      (e.Bare ∨ ∃ cause, cause.unwindsUnchanged = false ∧
        e = .inFormula cause ((.cells id key :: chain).map m'.labelOf)) := by
  have hready := h.forwarding held hforwards
  obtain ⟨-, hcalm, -⟩ := h.ready held
  have hidle : (m.ready held).stack.nodes = [] := hcalm.idle
  have hlimit : (m.ready held).config.maxDepth = m.config.maxDepth := by
    rw [(sameSettings_ready m held).config]
  rw [Model.call, reclaimFirst_bind] at hcall
  unfold Evaluation.journal
  generalize m.ready held = start at *
  unfold evaluate at hcall
  rw [read_bind] at hcall
  dsimp only
  unfold evaluateJournal
  cases hkey : start.bindCells id a with
  | error e' =>
    rw [hkey] at hcall
    cases hcall
    exact .inl ⟨rfl, .inl rfl⟩
  | ok key =>
    rw [hkey] at hcall
    obtain ⟨c, hc, -⟩ := except_bind_eq_ok.1 hkey
    dsimp only at hcall ⊢
    unfold evaluateKey at hcall
    unfold evaluateKeyJournal
    rw [read_bind, hc] at hcall
    rw [hc]
    dsimp only at hcall ⊢
    cases hv : c.contents.get? key with
    | some v =>
      rw [hv] at hcall
      cases hcall
    | none =>
      rw [hv] at hcall
      dsimp only at hcall
      rw [if_neg (by simp)]
      rcases compute_cases hcall with ⟨rfl, e', henter, he⟩ | ⟨stack, q, m₁, -, henter, -, -⟩
      · -- the stack is empty, so it is the limit that keeps the node off it
        cases he
        refine .inl ⟨?_, .inr ?_⟩
        · unfold computeJournal
          rw [henter]
        · have hdepth : m'.stack.depth = 0 := by rw [Stack.depth_eq, hidle, List.length_nil]
          unfold enter at henter
          rw [get_bind, hdepth] at henter
          split at henter
          next hfull =>
            cases henter
            have hzero : m'.config.maxDepth = 0 := Nat.le_zero.1 hfull
            exact ⟨hlimit ▸ hzero, by rw [hzero]⟩
          next =>
            cases hpush : m'.stack.push? (.cells id key) with
            | none =>
              rw [Stack.push?_eq_none_iff, hidle] at hpush
              contradiction
            | some stack =>
              rw [hpush] at henter
              cases henter
      · rcases hready.entered (runsUnwound_runFormula fuel) (cell_eq_ok.1 hc) hv henter hcall with
          ⟨v, hok, -⟩ | ⟨e', chain, he, hunwinds, hsurfaces, hunchanged⟩
        · cases hok
        cases he
        refine .inr ⟨key, chain, rfl, hunwinds, ?_⟩
        rw [hidle] at hsurfaces
        cases hsurfaces with
        | bare hbare => exact .inl hbare
        | traced hcause => exact .inr ⟨_, hcause, rfl⟩

def selectingFormula : Formula where
  ident := 1
  params := []
  rule := .computed (fun _ =>
    Body.query (.lookup none "S" (some { positional := [.int 1] }))) []

def noInstanceFormula : Formula where
  ident := 2
  params := [{ name := "n" }]
  rule := .computed (fun _ => Body.fail (.raised "no such instance")) []

/-- `a` reads `b`, which asks for an instance that the binder refuses. -/
def refusedRequests : List Request :=
  [.createSpace none "T", .createSpace (some ⟨0, 0⟩) "S",
    .declareParams ⟨1, 0⟩ [{ name := "n" }] (some noInstanceFormula),
    .defineCells ⟨0, 0⟩ "b" (some selectingFormula),
    .defineCells ⟨0, 0⟩ "a" (some (readingFormula 3 "b"))]

/-- The binder that `b` invoked fails, so the trace has `a` and `b`. -/
theorem refused_failedCall : ∃ m m', Request.runAll 9 [] refusedRequests Shop.start = some m ∧
    Model.call 9 [] ⟨1, 0⟩ {} m = some (.error (.inFormula (.raised "no such instance")
      ["T.a()", "T.b()"]), m') ∧
    ∃ chain, ((Evaluation.call ⟨1, 0⟩ {}).journal 9 (m.ready [])).Unwinds
        (.inFormula (.raised "no such instance") ["T.a()", "T.b()"]) chain ∧
      chain.map m'.labelOf = ["T.a()", "T.b()"] := by
  obtain ⟨m, e, m', hm, hcall, hfacts⟩ := Request.exists_rejection 9 refusedRequests Shop.start
    (Model.call 9 [] ⟨1, 0⟩ {}) (fun _ e _ => decide
      (e = .inFormula (.raised "no such instance") ["T.a()", "T.b()"])) (by decide +kernel)
  obtain rfl := of_decide_eq_true hfacts
  have hforwards : m.Uses (Formula.Forwards fun e => e.unwindsUnchanged = false) := by
    refine Request.uses_of_runAll hm fun f hf => ?_
    change f ∈ [noInstanceFormula, selectingFormula, readingFormula 3 "b"] at hf
    simp only [List.mem_cons, List.not_mem_nil, or_false] at hf
    rcases hf with rfl | rfl | rfl
    · intro body kept hrule args
      cases hrule
      exact .failure rfl
    · intro body kept hrule args
      cases hrule
      exact .query _
    · exact forwards_readingFormula _ 3 "b"
  refine ⟨m, m', hm, hcall, ?_⟩
  rcases Reachable.failedCall ⟨_, .new "doc" {}, Request.becomes_of_runAll refusedRequests hm⟩
      hforwards hcall with ⟨-, hbinds | ⟨-, hlimit⟩⟩ | ⟨key, chain, -, hunwinds, hbare | hwrapped⟩
  · rcases outright_bindCells _ _ _ _ hbinds with h | ⟨depth, max, h⟩ <;> cases h
  · cases hlimit
  · rcases hbare with h | h | h <;> cases h
  · obtain ⟨cause, -, heq⟩ := hwrapped
    exact ⟨_, hunwinds, ((Failure.inFormula.inj heq).2).symm⟩

end Recalc
