import Recalc.Proofs.Evaluations
import Recalc.Proofs.Nesting
import Recalc.Proofs.Outright

set_option autoImplicit false

/-!
# Requests of a node under evaluation

A formula that asks for cells which are under evaluation at the same key closes a cycle. While
there is room on the stack the request fails with the nodes from the earlier occurrence to the top.
The limit on depth is looked at first, so a cycle that fills the stack is reported as a chain that
is too deep. In turn a question that fails with a cycle closed it, or else a body that ran on the
way ended with it: a question of that body closed it, or the body made the failure up.
-/

namespace Recalc

theorem Stack.downTo_eq {s : Stack} {n again : Node} {inner outer : List Node}
    (hnodes : s.nodes = inner ++ again :: outer) (hsame : (again == n) = true) :
    s.downTo n = inner ++ [again] := by
  have hdistinct := s.distinct
  rw [hnodes, List.pairwise_append] at hdistinct
  have hinner : ∀ a ∈ inner, (a == n) = false := by
    intro a ha
    have hne := hdistinct.2.2 a ha again List.mem_cons_self
    refine Bool.eq_false_iff.2 fun han => ?_
    rw [BEq.trans han (BEq.symm hsame)] at hne
    contradiction
  have hidx : s.nodes.findIdx (· == n) = inner.length := by
    rw [hnodes, List.findIdx_append, List.findIdx_eq_length_of_false hinner,
      if_neg (Nat.lt_irrefl _), List.findIdx_cons, hsame]
    exact Nat.zero_add _
  rw [downTo, hidx, hnodes, List.take_append, List.take_of_length_le (Nat.le_succ _)]
  simp

namespace Model

open Recalc.Action

variable {m m' : Model} {α : Type} {cycle : List String}

/-! ## Nodes under evaluation -/

/-- The node is on the stack. The cycle lists the labels from its earlier occurrence to the top. -/
inductive Reenters (m : Model) (n : Node) : List String → Prop
  | mk (inner : List Node) (again : Node) (outer : List Node) :
      m.stack.nodes = inner ++ again :: outer → (again == n) = true →
      Reenters m n ((again :: inner.reverse).map m.labelOf)

inductive Requests (m : Model) (id : SpaceId) : Query → Node → Prop
  | mk {place : Option Handle} {name : String} {call : Option Arguments} {c : CellId} {key : Key} :
      m.meaning ((place.map Handle.id).getD id) name = .ok (.cells c) →
      m.bindCells c (call.getD {}) = .ok key →
      Requests m id (.lookup place name call) (.cells c key)

/-- A question for cells under evaluation, asked while there is room on the stack. -/
def Closes (m : Model) (id : SpaceId) (q : Query) (cycle : List String) : Prop :=
  m.stack.depth < m.config.maxDepth ∧ ∃ n, m.Requests id q n ∧ m.Reenters n cycle

def verdict (m : Model) (cycle : List String) : Failure :=
  if m.stack.depth < m.config.maxDepth then .circular cycle
  else .tooDeep (m.stack.depth + 1) m.config.maxDepth

section Entering

variable {n : Node}

theorem Reenters.contains (h : m.Reenters n cycle) : m.stack.nodes.contains n = true := by
  cases h with
  | mk inner again outer hnodes hsame =>
    refine List.contains_iff_exists_mem_beq.2 ⟨again, ?_, BEq.symm hsame⟩
    rw [hnodes]
    exact List.mem_append_right _ List.mem_cons_self

theorem Reenters.labels_downTo (h : m.Reenters n cycle) :
    (m.stack.downTo n).reverse.map m.labelOf = cycle := by
  cases h with
  | mk inner again outer hnodes hsame =>
    rw [Stack.downTo_eq hnodes hsame, List.reverse_append]
    rfl

theorem reenters_of_contains (h : m.stack.nodes.contains n = true) :
    m.Reenters n ((m.stack.downTo n).reverse.map m.labelOf) := by
  obtain ⟨again, hmem, hsame⟩ := List.contains_iff_exists_mem_beq.1 h
  obtain ⟨inner, outer, hnodes⟩ := List.append_of_mem hmem
  have hmk := Reenters.mk inner again outer hnodes (BEq.symm hsame)
  rwa [← hmk.labels_downTo] at hmk

theorem enter_of_reenters (h : m.Reenters n cycle) :
    enter n m = some (.error (m.verdict cycle), m) := by
  unfold enter verdict
  rw [get_bind]
  split
  next hfull => rw [if_neg (Nat.not_lt.2 hfull)]; rfl
  next hroom =>
    rw [if_pos (Nat.lt_of_not_le hroom), (Stack.push?_eq_none_iff _ n).2 h.contains]
    exact congrArg (fun l => some (Except.error (Failure.circular l), m)) h.labels_downTo

theorem reenters_of_enter {m' : Model} (h : enter n m = some (.error (.circular cycle), m')) :
    m' = m ∧ m.Reenters n cycle ∧ m.stack.depth < m.config.maxDepth := by
  unfold enter at h
  rw [get_bind] at h
  split at h
  next => cases h
  next hroom =>
    cases hpush : m.stack.push? n with
    | some stack =>
      rw [hpush] at h
      cases h
    | none =>
      rw [hpush] at h
      cases h
      exact ⟨rfl, reenters_of_contains ((Stack.push?_eq_none_iff _ n).1 hpush),
        Nat.lt_of_not_le hroom⟩

end Entering

section Failing

variable {run : RunFormula} {c : CellId} {key : Key}

/-- Nothing is stored for a node under evaluation. -/
theorem Tracked.waits {loose : Node → Prop} (hm : m.Tracked loose)
    (h : m.stack.nodes.contains (.cells c key) = true) :
    ∃ d, m.cells.get? c = some d ∧ d.contents.get? key = none := by
  obtain ⟨again, hmem, hsame⟩ := List.contains_iff_exists_mem_beq.1 h
  obtain ⟨other, d, he, hd, hnone⟩ := hm.waiting again hmem
  rw [Graph.node_beq_iff, Bool.and_eq_true, beq_iff_eq] at hsame
  obtain ⟨hentity, hkey⟩ := hsame
  cases hentity.trans he
  have hkey : (key == again.key) = true := hkey
  refine ⟨d, hd, ?_⟩
  rw [Contents.get?, Table.get?_congr _ hkey, Table.get?_congr _ hkey]
  exact hnone

theorem Tracked.evaluateKey_of_reenters {loose : Node → Prop} (hm : m.Tracked loose)
    (h : m.Reenters (.cells c key) cycle) :
    evaluateKey run c key m = some (.error (m.verdict cycle), m) := by
  obtain ⟨d, hd, hnone⟩ := hm.waits h.contains
  unfold evaluateKey
  rw [read_bind, cell_eq_ok.2 hd]
  simp only [hnone]
  exact (bind_eq_some m).2 (.inr ⟨_, enter_of_reenters h, rfl⟩)

end Failing

end Model

/-! ## Where a cycle comes from -/

/-- The body ended with the cycle. One of its questions closed it and was answered so, or no
question was answered with it and the body made the failure up. -/
def BodyRun.EndsWith (b : BodyRun) (cycle : List String) : Prop :=
  b.result = .error (.circular cycle) ∧
    ((∃ a ∈ b.asked, a.answer = .error (.circular cycle) ∧
        a.model.Closes b.space a.query cycle) ∨
      ∀ a ∈ b.asked, a.answer ≠ .error (.circular cycle))

/-- A body that ran ended with the cycle. -/
def Journal.Explains (j : Journal) (cycle : List String) : Prop := ∃ b ∈ j.runs, b.EndsWith cycle

section Journals

variable {j j' : Journal} {cycle : List String}

theorem Journal.Explains.left (h : j.Explains cycle) : (j ++ j').Explains cycle :=
  h.imp fun _ => And.imp_left (List.mem_append_left _)

theorem Journal.Explains.right (h : j'.Explains cycle) : (j ++ j').Explains cycle :=
  h.imp fun _ => And.imp_left (List.mem_append_right _)

end Journals

namespace Model

open Recalc.Action

section Outcomes

variable {m m' : Model} {α : Type} {cycle : List String} {e : Failure}

theorem Failure.Outright.ne_circular (he : e.Outright) (cycle : List String) :
    e ≠ .circular cycle := by
  rintro rfl
  rcases he with he | ⟨depth, max, he⟩ <;> cases he

/-- A look-up does not end with a cycle. -/
theorem Outright.ne_circular {r : Except Failure α} (h : Outright r) :
    r ≠ .error (.circular cycle) := by
  rintro rfl
  exact Failure.Outright.ne_circular (h _ rfl) cycle rfl

theorem ne_circular_of_raises {x : Action α} (h : Raises Failure.Outright x) :
    x m ≠ some (.error (.circular cycle), m') :=
  fun hx => Failure.Outright.ne_circular (h m _ m' hx) cycle rfl

theorem circular_of_wrap (h : m.wrap e = .circular cycle) : e = .circular cycle := by
  unfold wrap at h
  split at h
  · exact h
  · cases h

theorem circular_of_outcome {id : CellId} {n : Node} {r : Except Failure Value}
    (h : outcome id n r m = .error (.circular cycle)) : r = .error (.circular cycle) := by
  unfold outcome at h
  split at h
  next e => exact congrArg Except.error (circular_of_wrap (Except.error.inj h))
  next =>
    split at h
    · cases h
    · cases h

theorem circular_of_finish {id : CellId} {key : Key} {r : Except Failure Value}
    (h : finish id key r m = some (.error (.circular cycle), m')) :
    r = .error (.circular cycle) := by
  unfold finish at h
  cases r with
  | error e => exact congrArg Except.error (Except.error.inj (Prod.mk.inj (Option.some.inj h)).1)
  | ok v =>
    refine absurd h (ne_circular_of_raises ?_)
    refine raises_bind (raises_read fun m => outright_cell m id) fun c => ?_
    split
    · exact raises_bind raises_get fun _ => raises_fail (.inl rfl)
    · exact raises_bind (raises_modify _) fun _ => raises_pure v

end Outcomes

def Explained (run : RunFormula) (log : FormulaJournal) : Prop :=
  ∀ id f args m m' cycle, run id f args m = some (.error (.circular cycle), m') →
    (log id f args m).Explains cycle

section Explaining

variable {run : RunFormula} {log : FormulaJournal} (hrun : Explained run log)
  {m m' : Model} {cycle : List String} {id : SpaceId} {a : Arguments}
include hrun

theorem explains_itemKey (h : itemKey run id a m = some (.error (.circular cycle), m')) :
    (binderJournal log id a m).Explains cycle := by
  unfold itemKey at h
  rw [read_bind] at h
  unfold binderJournal
  cases hspec : m.signature id with
  | error e =>
    rw [hspec] at h
    cases h
    exact absurd hspec (outright_signature m id).ne_circular
  | ok spec =>
    rw [hspec] at h
    simp only [read_bind] at h
    dsimp only
    cases hbound : matchArguments spec.params a (m.dottedName id) with
    | error e =>
      rw [hbound] at h
      cases h
      exact absurd hbound (outright_matchArguments _ a _).ne_circular
    | ok bound =>
      rw [hbound] at h
      cases hbinder : spec.binder with
      | none =>
        rw [hbinder] at h
        exact absurd (Prod.mk.inj (Option.some.inj h)).1 (outright_ofValues bound).ne_circular
      | some binder =>
        rw [hbinder] at h
        simp only [attempt_bind] at h
        split at h
        next r m₁ hr =>
          cases r with
          | error e =>
            obtain ⟨he, rfl⟩ := Prod.mk.inj (Option.some.inj h)
            cases circular_of_wrap (Except.error.inj he)
            exact hrun _ _ _ _ _ _ hr
          | ok given =>
            exact absurd (Prod.mk.inj (Option.some.inj h)).1
              ((outright_canonicalArguments spec _ bound given).bind fun vs =>
                outright_ofValues vs).ne_circular
        next => contradiction

theorem explains_instantiate (h : instantiate run id a m = some (.error (.circular cycle), m')) :
    (instantiateJournal run log id a m).Explains cycle := by
  rcases (bind_eq_some m).1 h with ⟨key, m₁, -, hitem⟩ | ⟨e, hkey, he⟩
  · exact absurd hitem (ne_circular_of_raises (outright_ensureItem id key))
  · cases he
    exact (explains_itemKey hrun hkey).left

theorem explains_applyCall {name : String} {call : Option Arguments} {v : Value}
    (h : applyCall run name call v m = some (.error (.circular cycle), m')) :
    (applyJournal run log call v m).Explains cycle := by
  unfold applyCall at h
  unfold applyJournal
  split at h
  next => cases h
  next a handle =>
    rcases (bind_eq_some m).1 h with ⟨item, m₁, -, h⟩ | ⟨e, hitem, he⟩
    · cases h
    · cases he
      exact explains_instantiate hrun hitem
  next => exact absurd h (ne_circular_of_raises (raises_fail (.inl rfl)))

theorem explains_callPlace {name : String} {call : Option Arguments} {target : Place}
    (h : (handleValue target >>= applyCall run name call) m =
      some (.error (.circular cycle), m')) :
    (recordAfter (handleValue target) (applyJournal run log call) m).Explains cycle := by
  unfold recordAfter
  rcases (bind_eq_some m).1 h with ⟨v, m₁, hvalue, h⟩ | ⟨e, hvalue, he⟩
  · rw [hvalue]
    exact explains_applyCall hrun h
  · cases he
    exact absurd hvalue (ne_circular_of_raises (outright_handleValue target))

theorem explains_compute {c : CellId} {d : Cells} {key : Key}
    (h : compute run c d key m = some (.error (.circular cycle), m')) :
    (m' = m ∧ m.Reenters (.cells c key) cycle ∧ m.stack.depth < m.config.maxDepth) ∨
      (computeJournal run log c d key m).Explains cycle := by
  rcases compute_cases h with ⟨rfl, e, henter, he⟩ | ⟨stack, q, m₁, -, henter, hcells, hfinish⟩
  · cases he
    exact .inl (reenters_of_enter henter)
  · cases circular_of_finish hfinish
    unfold computeJournal
    rw [henter, h]
    rcases runCells_cases hcells with ⟨-, -, hq⟩ | ⟨f, r, hf, hran, hq⟩
    · cases circular_of_outcome hq.symm
    · cases circular_of_outcome hq.symm
      rw [hf]
      exact .inr (hrun _ _ _ _ _ _ hran)

theorem explains_evaluateKey {c : CellId} {key : Key}
    (h : evaluateKey run c key m = some (.error (.circular cycle), m')) :
    (m' = m ∧ m.Reenters (.cells c key) cycle ∧ m.stack.depth < m.config.maxDepth) ∨
      (evaluateKeyJournal run log c key m).Explains cycle := by
  unfold evaluateKey at h
  rw [read_bind] at h
  unfold evaluateKeyJournal
  cases hc : m.cell c with
  | error e =>
    rw [hc] at h
    cases h
    exact absurd hc (outright_cell m c).ne_circular
  | ok d =>
    rw [hc] at h
    dsimp only at h ⊢
    cases hv : d.contents.get? key with
    | some v =>
      rw [hv] at h
      cases h
    | none =>
      rw [hv] at h
      exact explains_compute hrun h

theorem explains_evaluate {c : CellId}
    (h : evaluate run c a m = some (.error (.circular cycle), m')) :
    (m' = m ∧ m.stack.depth < m.config.maxDepth ∧
      ∃ key, m.bindCells c a = .ok key ∧ m.Reenters (.cells c key) cycle) ∨
      (evaluateJournal run log c a m).Explains cycle := by
  unfold evaluate at h
  rw [read_bind] at h
  unfold evaluateJournal
  cases hkey : m.bindCells c a with
  | error e =>
    rw [hkey] at h
    cases h
    exact absurd hkey (outright_bindCells m c a).ne_circular
  | ok key =>
    rw [hkey] at h
    exact (explains_evaluateKey hrun h).imp_left fun ⟨heq, hreenters, hroom⟩ =>
      ⟨heq, hroom, key, rfl, hreenters⟩

/-- A question that fails with a cycle closed it, or a body that ran in answering it ended so. -/
theorem explains_answer {q : Query}
    (h : answer run id q m = some (.error (.circular cycle), m')) :
    (m' = m ∧ m.Closes id q cycle) ∨ (answerJournal run log id q m).Explains cycle := by
  cases q with
  | lookup place name call =>
    change readName run _ name call m = _ at h
    show _ ∨ (readNameJournal run log _ name call m).Explains cycle
    unfold readNameJournal
    cases hfound : m.meaning ((place.map Handle.id).getD id) name with
    | error e =>
      rw [readName_of_error hfound] at h
      cases h
      exact absurd hfound (outright_meaning m _ name).ne_circular
    | ok found =>
      cases found with
      | cells c =>
        rw [readName_of_cells hfound] at h
        exact (explains_evaluate hrun h).imp_left fun ⟨heq, hroom, key, hkey, hreenters⟩ =>
          ⟨heq, hroom, _, .mk hfound hkey, hreenters⟩
      | space target =>
        rw [readName_of_space hfound] at h
        exact .inr (explains_callPlace hrun h)
      | ref r target =>
        cases target with
        | value v =>
          rw [readName_of_value hfound] at h
          exact .inr (explains_applyCall hrun h).right
        | space target =>
          rw [readName_of_target hfound] at h
          exact .inr (explains_callPlace hrun h).right
      | param v =>
        rw [readName_of_param hfound] at h
        exact .inr (explains_applyCall hrun h)
      | model =>
        rw [readName_of_model hfound] at h
        exact absurd (explains_applyCall hrun h) (by
          cases call <;> exact fun ⟨_, hb, _⟩ => absurd hb List.not_mem_nil)
  | item x args =>
    rcases (bind_eq_some m).1 h with ⟨item, m₁, -, h⟩ | ⟨e, hitem, he⟩
    · cases h
    · cases he
      exact .inr (explains_instantiate hrun hitem)
  | argValues x =>
    refine absurd h (ne_circular_of_raises ?_)
    refine raises_bind (raises_read fun m => outright_argValues m x.id) fun vs => ?_
    cases vs <;> exact raises_pure _
  | here =>
    exact absurd h (ne_circular_of_raises (raises_bind (raises_read fun m =>
      outright_handleTo m id) fun _ => raises_pure _))
  | modelName => cases h
  | depth => cases h

end Explaining

section Running

variable {m m' : Model} {cycle : List String}

/-- Every question of a body was asked and answered so, and what ran in answering it is recorded. -/
theorem asked_of_mem {ask : Query → Action Value} (log : Query → Model → Journal)
    {body : Body Value} {a : Asked} (ha : a ∈ questions ask body m) :
    (∃ m', ask a.query a.model = some (a.answer, m')) ∧
      ∀ b ∈ (log a.query a.model).runs, b ∈ (bodyJournal ask log body m).runs := by
  induction body generalizing m with
  | done r => cases ha
  | ask q resume ih =>
    unfold questions at ha
    unfold bodyJournal
    split at ha
    next r m₁ hr =>
      rcases List.mem_cons.1 ha with rfl | ha
      · exact ⟨⟨m₁, hr⟩, fun b hb => List.mem_append_left _ hb⟩
      · exact (ih r ha).imp_right fun hinner b hb => List.mem_append_right _ (hinner b hb)
    next => cases ha

/-- By induction on how deep formulas run inside one another. -/
theorem explained_runFormula (fuel : Nat) : Explained (runFormula fuel) (formulaJournal fuel) := by
  induction fuel with
  | zero =>
    intro id f args m m' cycle h
    contradiction
  | succ fuel ih =>
    intro id f args m m' cycle h
    unfold runFormula at h
    unfold formulaJournal
    cases hrule : f.rule with
    | constant v =>
      simp only [hrule] at h
      cases h
    | computed body kept =>
      simp only [hrule] at h ⊢
      rw [modify_bind] at h
      unfold ranJournal
      rw [h]
      by_cases hasked : ∃ a ∈ questions (answer (runFormula fuel) id) (body args)
          { m with runs := m.runs + 1 }, a.answer = .error (.circular cycle)
      · obtain ⟨a, ha, hanswer⟩ := hasked
        obtain ⟨⟨m₁, hask⟩, hinner⟩ :=
          asked_of_mem (answerJournal (runFormula fuel) (formulaJournal fuel) id) ha
        rw [hanswer] at hask
        rcases explains_answer ih hask with ⟨-, hcloses⟩ | ⟨b, hb, hends⟩
        · exact ⟨_, List.mem_append_right _ List.mem_cons_self, rfl,
            .inl ⟨a, ha, hanswer, hcloses⟩⟩
        · exact ⟨b, List.mem_append_left _ (hinner b hb), hends⟩
      · exact ⟨_, List.mem_append_right _ List.mem_cons_self, rfl,
          .inr fun a ha hanswer => hasked ⟨a, ha, hanswer⟩⟩

theorem not_reenters_of_idle {n : Node} (hidle : m.stack.nodes = []) : ¬ m.Reenters n cycle := by
  intro hreenters
  have hcontains := hreenters.contains
  rw [hidle] at hcontains
  contradiction

theorem not_closes_of_idle {id : SpaceId} {q : Query} (hidle : m.stack.nodes = []) :
    ¬ m.Closes id q cycle := by
  intro hcloses
  obtain ⟨n, -, hreenters⟩ := hcloses.2
  exact not_reenters_of_idle hidle hreenters

/-- Nothing is under evaluation when the host asks, so a body ended with the cycle. -/
theorem explains_evaluation (e : Evaluation) {fuel : Nat} {held : List Handle}
    (hidle : (m.ready held).stack.nodes = [])
    (h : e.request.run fuel held m = some (.error (.circular cycle), m')) :
    (e.journal fuel (m.ready held)).Explains cycle := by
  have hexplained := explained_runFormula fuel
  cases e with
  | call id a =>
    replace h := map_eq_error.1 h
    rw [Model.call, reclaimFirst_bind] at h
    refine (explains_evaluate hexplained h).resolve_left fun hagain => ?_
    obtain ⟨key, -, hreenters⟩ := hagain.2.2
    exact not_reenters_of_idle hidle hreenters
  | selectInstance id a =>
    replace h := map_eq_error.1 h
    rw [Model.selectInstance, reclaimFirst_bind] at h
    exact explains_instantiate hexplained h
  | readFrom id name =>
    replace h := map_eq_error.1 h
    rw [Model.readFrom, reclaimFirst_bind] at h
    exact (explains_answer (q := .lookup none name none) hexplained h).resolve_left
      fun hagain => not_closes_of_idle hidle hagain.2

end Running

end Model

open Recalc.Model Recalc.Action

/-- The models in which formulas ask: from one between two requests on, nodes are put on the stack,
bodies start, reads are noted, children are made and questions are answered. -/
inductive Asking : Model → Prop
  | idle {m : Model} : Reachable m → Asking m
  | entered {m m' : Model} {id : CellId} {c : Cells} {key : Key} : Asking m →
      m.cells.get? id = some c → c.contents.get? key = none →
      enter (.cells id key) m = some (.ok (), m') → Asking m'
  | started {m : Model} : Asking m → Asking { m with runs := m.runs + 1 }
  | noted {m : Model} {n : Node} : Asking m → m.isLive n = true → Asking (noteRead n m)
  | made {m m' : Model} {parent : SpaceId} {name : String} {r : Except Failure SpaceId} :
      Asking m → ensureChild parent name m = some (r, m') → Asking m'
  | answered {m m' : Model} {fuel : Nat} {id : SpaceId} {q : Query} {r : Except Failure Value} :
      Asking m → answer (runFormula fuel) id q m = some (r, m') → Asking m'

theorem Asking.nests {m : Model} (h : Asking m) :
    Nests False m.config.maxDepth m.stack.depth m := by
  have hnext : ∀ {m m' : Model}, Nests False m.config.maxDepth m.stack.depth m →
      Under (Tracked fun _ => False) Steadies m m' →
      Nests False m'.config.maxDepth m'.stack.depth m' := by
    intro m m' h hstep
    have h' := h.next hstep
    rwa [← h'.maxDepth, ← h'.height] at h'
  induction h with
  | idle h =>
    refine ⟨h.calm.toTracked, rfl, rfl, ?_, False.elim⟩
    rw [Stack.depth_eq, h.calm.idle]
    exact Nat.zero_le _
  | entered _ hc hnone henter ih =>
    obtain ⟨hroom, stack, hpush, rfl⟩ := enter_eq_ok henter
    have h' := ih.pushed hroom hpush hc hnone
    rwa [← h'.height] at h'
  | started _ ih => exact hnext ih (evaluationFrame_steadies.start _)
  | noted _ hn ih => exact hnext ih (evaluationFrame_steadies.note _ _ hn)
  | made _ hmade ih => exact hnext ih (evaluationFrame_steadies.child _ _ _ _ _ hmade)
  | @answered _ _ fuel id q _ _ hanswer ih =>
    exact hnext ih (evaluationFrame_steadies.answer
      (evaluationFrame_steadies.runFormula fuel) id q _ _ _ hanswer)

/-- A request of a node under evaluation fails: with the cycle while there is room on the stack,
else because the chain is too deep. A question that fails with a cycle closed it, or else a body
that ran in answering it ended with the cycle: a question of that body closed it and was answered
so, or the body made the failure up. What the host has evaluated fails with a cycle for such a
body only. -/
theorem Asking.reentry {m : Model} (h : Asking m) (fuel : Nat) (id : SpaceId) (q : Query) :
    (∀ run n cycle, m.Requests id q n → m.Reenters n cycle → answer run id q m =
      some (.error (if m.stack.depth = m.config.maxDepth
        then .tooDeep (m.config.maxDepth + 1) m.config.maxDepth else .circular cycle), m)) ∧
    (∀ cycle m', answer (runFormula fuel) id q m = some (.error (.circular cycle), m') →
      (m' = m ∧ m.Closes id q cycle) ∨
      ∃ b ∈ (answerJournal (runFormula fuel) (formulaJournal fuel) id q m).runs,
        b.EndsWith cycle) ∧
    ∀ (e : Evaluation) held cycle m', Reachable m →
      e.request.run fuel held m = some (.error (.circular cycle), m') →
      ∃ b ∈ (e.journal fuel (m.ready held)).runs, b.EndsWith cycle := by
  refine ⟨fun run n cycle hrequests hreenters => ?_,
    fun cycle m' hanswer => explains_answer (explained_runFormula fuel) hanswer,
    fun e held cycle m' hreach hrun => explains_evaluation e (hreach.ready held).2.1.idle hrun⟩
  have hshallow := h.nests.shallow
  have hverdict : m.verdict cycle = if m.stack.depth = m.config.maxDepth
      then .tooDeep (m.config.maxDepth + 1) m.config.maxDepth else .circular cycle := by
    unfold verdict
    split
    next hlt => rw [if_neg (Nat.ne_of_lt hlt)]
    next hfull =>
      have heq : m.stack.depth = m.config.maxDepth := by omega
      rw [if_pos heq, heq]
  rw [← hverdict]
  cases hrequests with
  | @mk place name call c key hmeans hbinds =>
    change readName run _ name call m = _
    rw [readName_of_cells hmeans, evaluate, read_bind, hbinds]
    exact h.nests.tracked.evaluateKey_of_reenters hreenters

def ringRequests : List Request :=
  [.createSpace none "T", .defineCells ⟨0, 0⟩ "a" (some (readingFormula 1 "b")),
    .defineCells ⟨0, 0⟩ "b" (some (readingFormula 2 "a"))]

def Model.cellsMeant? (m : Model) (id : SpaceId) (name : String) : Option CellId :=
  match m.meaning id name with
  | .ok (.cells c) => some c
  | _ => none

theorem Model.cellsMeant?_eq_some {m : Model} {id : SpaceId} {name : String} {c : CellId} :
    m.cellsMeant? id name = some c ↔ m.meaning id name = .ok (.cells c) := by
  unfold cellsMeant?
  split
  next d hd => simp [hd]
  next hother =>
    exact ⟨fun h => absurd h (Option.some_ne_none c).symm, fun h => absurd h (hother c)⟩

theorem Model.exists_of_isOk {x : Option (Except Failure Unit × Model)}
    {P : Except Failure Unit × Model → Bool} (h : (x.any fun o => o.1.isOk && P o) = true) :
    ∃ m, x = some (.ok (), m) ∧ P (.ok (), m) = true := by
  obtain ⟨⟨r, m⟩, hx, hfacts⟩ := (Option.any_eq_true _ _).1 h
  obtain ⟨hok, hp⟩ := Bool.and_eq_true_iff.1 hfacts
  cases r with
  | error e => cases hok
  | ok u => exact ⟨m, hx, hp⟩

/-- While `b` runs inside `a` it asks for `a` again, and the call of `a` fails with that cycle. -/
theorem ring_reentry : ∃ m m₂ n m',
    Request.runAll 9 [] ringRequests { name := "doc", config := { maxDepth := 3 } } = some m ∧
    Asking m₂ ∧ m₂.Requests ⟨0, 0⟩ (.lookup none "a" none) n ∧
    m₂.Reenters n ["T.a()", "T.b()"] ∧
    answer (runFormula 9) ⟨0, 0⟩ (.lookup none "a" none) m₂ =
      some (.error (.circular ["T.a()", "T.b()"]), m₂) ∧
    Model.call 9 [] ⟨0, 0⟩ {} m = some (.error (.circular ["T.a()", "T.b()"]), m') ∧
    ∃ b ∈ ((Evaluation.call ⟨0, 0⟩ {}).journal 9 (m.ready [])).runs,
      b.EndsWith ["T.a()", "T.b()"] := by
  have hrun : ((Request.runAll 9 [] ringRequests
      { name := "doc", config := { maxDepth := 3 } }).any fun m =>
      (m.cells.get? ⟨0, 0⟩).any fun a => (m.cells.get? ⟨1, 0⟩).any fun b =>
        (a.contents.get? .empty).isNone && ((b.contents.get? .empty).isNone &&
        ((rejection? (Model.call 9 [] ⟨0, 0⟩ {}) m).any (·.1 == .circular ["T.a()", "T.b()"]) &&
        (enter (.cells ⟨0, 0⟩ .empty) m).any fun o => o.1.isOk &&
          (enter (.cells ⟨1, 0⟩ .empty) o.2).any fun o => o.1.isOk &&
            (o.2.stack.depth != o.2.config.maxDepth &&
              (o.2.cellsMeant? ⟨0, 0⟩ "a" == some ⟨0, 0⟩ &&
                ([Node.cells ⟨0, 0⟩ .empty, .cells ⟨1, 0⟩ .empty].map o.2.labelOf ==
                  ["T.a()", "T.b()"] &&
                (o.2.bindCells ⟨0, 0⟩ {}).toOption.any (Key.empty == ·))))))) = true := by
    decide +kernel
  obtain ⟨m, hm, hrun⟩ := (Option.any_eq_true _ _).1 hrun
  obtain ⟨a, ha, hrun⟩ := (Option.any_eq_true _ _).1 hrun
  obtain ⟨b, hb, hrun⟩ := (Option.any_eq_true _ _).1 hrun
  rw [Bool.and_eq_true, Bool.and_eq_true, Bool.and_eq_true, Option.isNone_iff_eq_none,
    Option.isNone_iff_eq_none] at hrun
  obtain ⟨hanone, hbnone, hcall, hrun⟩ := hrun
  obtain ⟨⟨e, m'⟩, hcall, he⟩ := (Option.any_eq_true _ _).1 hcall
  cases eq_of_beq he
  rw [rejection?_eq_some] at hcall
  obtain ⟨m₁, henter₁, hrun⟩ := exists_of_isOk hrun
  obtain ⟨m₂, henter₂, hrun⟩ := exists_of_isOk hrun
  simp only [Bool.and_eq_true, bne_iff_ne, beq_iff_eq] at hrun
  obtain ⟨hroom, hmeans, hlabels, hbinds⟩ := hrun
  obtain ⟨key, hkey, hempty⟩ := (Option.any_eq_true _ _).1 hbinds
  have hreach : Reachable m := ⟨_, .new "doc" _, Request.becomes_of_runAll ringRequests hm⟩
  have hask₁ : Asking m₁ := .entered (.idle hreach) ha hanone henter₁
  obtain ⟨-, stack₁, hpush₁, rfl⟩ := enter_eq_ok henter₁
  have hask₂ : Asking m₂ := .entered hask₁ hb hbnone henter₂
  obtain ⟨-, stack₂, hpush₂, rfl⟩ := enter_eq_ok henter₂
  have hnodes : stack₂.nodes = [.cells ⟨1, 0⟩ .empty] ++ .cells ⟨0, 0⟩ .empty :: [] := by
    rw [Stack.nodes_of_push? hpush₂, Stack.nodes_of_push? hpush₁, hreach.calm.idle]
    rfl
  have hrequests : Model.Requests _ ⟨0, 0⟩ (.lookup none "a" none) (.cells ⟨0, 0⟩ key) :=
    .mk (cellsMeant?_eq_some.1 hmeans) (toOption_eq_some.1 hkey)
  have hsame : (Node.cells ⟨0, 0⟩ .empty == .cells ⟨0, 0⟩ key) = true := by
    rw [node_beq_of_entity _ rfl]
    exact hempty
  have hreenters := Reenters.mk (m := { m with stack := stack₂ }) _ _ _ hnodes hsame
  rw [List.reverse_singleton, hlabels] at hreenters
  have hfails := (hask₂.reentry 9 ⟨0, 0⟩ (.lookup none "a" none)).1 (runFormula 9) _ _
    hrequests hreenters
  rw [if_neg hroom] at hfails
  have hreply : (Evaluation.call ⟨0, 0⟩ {}).request.run 9 [] m =
      some (.error (.circular ["T.a()", "T.b()"]), m') := map_eq_error.2 hcall
  exact ⟨m, _, _, m', hm, hask₂, hrequests, hreenters, hfails, hcall,
    ((Asking.idle hreach).reentry 9 ⟨0, 0⟩ .here).2.2 (.call ⟨0, 0⟩ {}) [] _ m' hreach hreply⟩

/-- The cycle is reported with a limit of three. With a limit of two it fills the stack and is
taken for a chain that is too deep. -/
theorem ring_too_deep : (∃ m m', Request.runAll 9 [] ringRequests
      { name := "doc", config := { maxDepth := 3 } } = some m ∧
      Model.call 9 [] ⟨0, 0⟩ {} m = some (.error (.circular ["T.a()", "T.b()"]), m')) ∧
    ∃ m m', Request.runAll 9 [] ringRequests
      { name := "doc", config := { maxDepth := 2 } } = some m ∧
      Model.call 9 [] ⟨0, 0⟩ {} m = some (.error (.tooDeep 3 2), m') := by
  have hends : ∀ (limit : Nat) (e : Failure), ((Request.runAll 9 [] ringRequests
      { name := "doc", config := { maxDepth := limit } }).any fun m =>
        (rejection? (Model.call 9 [] ⟨0, 0⟩ {}) m).any (·.1 == e)) = true →
      ∃ m m', Request.runAll 9 [] ringRequests
        { name := "doc", config := { maxDepth := limit } } = some m ∧
        Model.call 9 [] ⟨0, 0⟩ {} m = some (.error e, m') := by
    intro limit e h
    obtain ⟨m, e', m', hm, hcall, heq⟩ := Request.exists_rejection 9 ringRequests _ _
      (fun _ e' _ => e' == e) h
    exact ⟨m, m', hm, eq_of_beq heq ▸ hcall⟩
  exact ⟨hends 3 _ (by decide +kernel), hends 2 _ (by decide +kernel)⟩

end Recalc
