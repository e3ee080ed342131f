import Recalc.Proofs.Evaluations

set_option autoImplicit false

/-!
# Reads that fail are not recorded

What a formula read and got is a dependency of the value it computed, also when the formula caught
failures of other reads: the value goes when one of those nodes stands for something else. A read
that failed leaves nothing behind, so a value that was computed around it stays when the read would
succeed.
-/

namespace Recalc

open Recalc.Action Recalc.Model

def Request.alters : Request → Bool
  | .putInput .. | .takeInput .. => true
  | q => q.isEdit

namespace Model

section Inputs

variable {m : Model} {id : CellId} {key : Key}

/-- Nothing stored has read a node that gets an input. -/
theorem upholds_putInput (v : Value)
    (hfree : ∀ n, (Node.cells id key == n) = true → m.Untouched n) :
    Upholds m (m.modifyCell id fun c => { c with contents := c.contents.putInput key v }) := by
  have hget := get?_modifyContents m id (·.putInput key v)
  have hback : ∀ other c', (m.modifyCell id fun c =>
      { c with contents := c.contents.putInput key v }).cells.get? other = some c' →
      ∃ c, m.cells.get? other = some c ∧
        c' = if id = other then { c with contents := c.contents.putInput key v } else c := by
    intro other c' hc'
    obtain ⟨c, hc, heq⟩ := Option.map_eq_some_iff.1 ((hget other).symm.trans hc')
    exact ⟨c, hc, heq.symm⟩
  refine ⟨fun other c' k w hc' hw => ?_, fun _ _ _ h => h, fun _ _ h => h, fun a b x hab hx => ?_⟩
  · obtain ⟨c, hc, rfl⟩ := hback other c' hc'
    refine ⟨c, hc, ?_⟩
    split at hw
    next heq =>
      rw [if_pos heq]
      refine ⟨?_, rfl, rfl, rfl⟩
      replace hw := (Table.get?_erase c.contents.values key k).symm.trans hw
      split at hw
      · contradiction
      · exact hw
    next hne =>
      rw [if_neg hne]
      exact ⟨hw, rfl, rfl, rfl⟩
  · refine standing?_of_pools hx (fun other c' w he hc' hw => ?_)
      (fun _ s _ _ hs hi => ⟨s, hs, hi⟩) fun _ _ _ hr => hr
    obtain ⟨c, hc, rfl⟩ := hback other c' hc'
    refine ⟨c, hc, ?_⟩
    split at hw
    next heq =>
      subst heq
      have hne : (key == b.key) = false := Bool.eq_false_iff.2 fun hkey => by
        have hnode : (Node.cells id key == b) = true := (node_beq_of_entity key he).trans hkey
        have hedge : m.graph.hasEdge a b = true := hab.1
        rw [(hfree b hnode a).1] at hedge
        contradiction
      rw [Contents.get?_putInput, hne] at hw
      exact hw
    next => exact hw

/-- An input that is taken back is gone for every value that is still stored. -/
theorem upholds_dropInput (hm : m.Calm) (id : CellId) (key : Key) :
    Upholds m ((m.modifyCell id fun c =>
      { c with contents := c.contents.dropInput key }).invalidate (.cells id key)).2 := by
  have hindexed : (m.modifyCell id fun c =>
    { c with contents := c.contents.dropInput key }).graph.Indexed := hm.indexed
  have hforget := forgetsAll_invalidate (m.modifyCell id fun c =>
    { c with contents := c.contents.dropInput key }) (.cells id key)
  have h := hforget.forgetsSome.upholds hindexed
  have hget := get?_modifyContents m id (·.dropInput key)
  refine ⟨fun other c' k v hc' hv => ?_, h.reads, h.edges, fun a b x hab hx => ?_⟩
  · obtain ⟨c₁, hc₁, hv₁, hdefinition⟩ := h.stored other c' k v hc' hv
    obtain ⟨c, hc, rfl⟩ := Option.map_eq_some_iff.1 ((hget other).symm.trans hc₁)
    refine ⟨c, hc, ?_⟩
    split at hv₁ <;> rename_i heq
    · rw [if_pos heq] at hdefinition
      exact ⟨hv₁, hdefinition⟩
    · rw [if_neg heq] at hdefinition
      exact ⟨hv₁, hdefinition⟩
  · refine standing?_of_pools (h.standing a b x hab hx) (fun other c₁ w he hc₁ hw => ?_)
      (fun _ s _ _ hs hi => ⟨s, hs, hi⟩) fun _ _ _ hr => hr
    obtain ⟨c, hc, rfl⟩ := Option.map_eq_some_iff.1 ((hget other).symm.trans hc₁)
    refine ⟨c, hc, ?_⟩
    split at hw
    next heq =>
      subst heq
      -- what has read the input is not stored any more
      have hne : (key == b.key) = false := Bool.eq_false_iff.2 fun hkey => by
        have hnode : (Node.cells id key == b) = true := (node_beq_of_entity key he).trans hkey
        exact absurd hab.1 (by rw [(hforget.untouched hindexed hnode a).1]; simp)
      rwa [Contents.get?_dropInput hne] at hw
    next => exact hw

end Inputs

theorem calm_upholds_putInput (id : CellId) (args : List Value) (v : Value) :
    Obeys (Under Calm Upholds) (putInput id args v) := by
  refine obeys_bind (obeys_read _) fun key => obeys_modify fun m hm => ?_
  have hforget := forgetsAll_invalidate m (.cells id key)
  have hfree : ∀ n, (Node.cells id key == n) = true → (m.invalidate (.cells id key)).2.Untouched n :=
    fun n hn => hforget.untouched hm.indexed hn
  exact ⟨Calm.putInput (hforget.forgetsSome.calm hm) v hfree,
    Frame.trans (hforget.forgetsSome.upholds hm.indexed) (upholds_putInput v hfree)⟩

theorem calm_upholds_takeInput (id : CellId) (args : List Value) :
    Obeys (Under Calm Upholds) (takeInput id args) := by
  refine obeys_bind (obeys_read _) fun key => obeys_bind (obeys_read _) fun c => ?_
  split
  · refine obeys_bind (obeys_modify fun m hm => ?_) fun _ => obeys_pure _
    have hcalm := (forgetsAll_invalidate _ (.cells id key)).resting (resting_dropInput hm id key)
    exact ⟨hcalm.mono fun n hn => hn.2 hn.1, upholds_dropInput hm id key⟩
  · exact obeys_pure _

/-- Whatever the host alters, a value that stays stored was there, with the same reads. -/
theorem upholds_alters {q : Request} (halters : q.alters = true) (fuel : Nat)
    (held : List Handle) : Obeys (Under Calm Upholds) (q.run fuel held) := by
  cases q with
  | putInput id args v => exact obeys_map _ (calm_upholds_putInput id args v)
  | takeInput id args => exact obeys_map _ (calm_upholds_takeInput id args)
  | _ => exact editFrame_upholds.request fuel held halters

end Model

section Reads

variable {m m₁ m' : Model}

/-- What a formula read and got, whatever failures it caught, is a dependency of its value: an edit
or an input leaves the value stored only when all of it stands for what it stood for. -/
theorem Reachable.answered_upheld (h : Reachable m) {fuel : Nat} {held : List Handle}
    {e : Evaluation} {r : Except Failure Reply}
    (hrun : e.request.run fuel held m = some (r, m₁)) {n : Node} {visit : Visit} {v : Value}
    (hvisit : (e.journal fuel (m.ready held)).last? n = some visit) (hok : visit.result = .ok v)
    {q : Request} (halters : q.alters = true) {fuel' : Nat} {held' : List Handle}
    {r' : Except Failure Reply} (hq : q.run fuel' held' m₁ = some (r', m'))
    (hkept : m'.isComputed n = true) :
    m'.computed? n = some v ∧
      ∀ b ∈ visit.reads, ∃ x, m₁.standing? b = some x ∧ m'.standing? b = some x := by
  obtain ⟨hrunning, hcalm, -⟩ := h.ready held
  obtain ⟨ht₁, hretains, hsettles⟩ := (e.runs hrun).2 hrunning.tracked
  have hcalm₁ : m₁.Calm := ⟨ht₁, hretains.stack.trans hcalm.idle⟩
  obtain ⟨hvalue, hreads⟩ := hsettles.done n visit v hvisit hok
  obtain ⟨hcalm', hupholds⟩ := upholds_alters halters fuel' held' m₁ r' m' hq hcalm₁
  obtain ⟨id, c', he, hc', hk⟩ := isComputed_iff.1 hkept
  rw [Contents.hasComputed, Table.contains_eq_isSome, Option.isSome_iff_exists] at hk
  obtain ⟨w, hw⟩ := hk
  refine ⟨?_, fun b hb => ?_⟩
  · obtain ⟨c, hc, hw₁, -⟩ := hupholds.stored id c' n.key w hc' hw
    unfold computed? at hvalue ⊢
    simp only [he, hc, hc', Option.bind_some] at hvalue ⊢
    rw [hw, ← hw₁, hvalue]
  · have hread := hupholds.reads n b hkept (hreads b hb)
    have hlive := (hcalm'.read n b hread.1).resolve_right fun hf => hf
    rw [isLive_eq] at hlive
    obtain ⟨x, hx⟩ := Option.isSome_iff_exists.1 hlive
    exact ⟨x, hupholds.standing n b x hread hx, hx⟩

end Reads

def failingFormula : Formula where
  ident := 1
  params := []
  rule := .computed (fun _ => Body.fail (.raised "nope")) []

def guardedFormula : Formula where
  ident := 2
  params := []
  rule := .computed (fun _ => do
    let z ← Body.ofExcept (← Body.query (.lookup none "z" none)).toInt
    match ← Body.attempt (Body.query (.lookup none "y" none)) with
    | .ok y => return .int (z + (← Body.ofExcept y.toInt))
    | .error _ => return .int z) []

def guardedRequests : List Request :=
  [.createSpace none "T", .bindName ⟨0, 0⟩ "z" (.int 3) .auto,
    .defineCells ⟨0, 0⟩ "y" (some failingFormula), .defineCells ⟨0, 0⟩ "x" (some guardedFormula)]

theorem guarded_upheld : ∃ m m₁ m' r r' visit v,
    Request.runAll 9 [] guardedRequests Shop.start = some m ∧
    (Evaluation.call ⟨1, 0⟩ {}).request.run 9 [] m = some (r, m₁) ∧
    ((Evaluation.call ⟨1, 0⟩ {}).journal 9 (m.ready [])).last? (.cells ⟨1, 0⟩ .empty) = some visit ∧
    visit.result = .ok v ∧ visit.reads.length = 1 ∧
    (Request.redefine ⟨0, 0⟩ (.constant 3 (.int 5))).run 9 [] m₁ = some (r', m') ∧
    m'.isComputed (.cells ⟨1, 0⟩ .empty) = true ∧
    m'.computed? (.cells ⟨1, 0⟩ .empty) = some v ∧
      ∀ b ∈ visit.reads, ∃ x, m₁.standing? b = some x ∧ m'.standing? b = some x := by
  have hrun : ((Request.runAll 9 [] guardedRequests Shop.start).any fun m =>
      ((Evaluation.call ⟨1, 0⟩ {}).request.run 9 [] m).any fun o =>
        ((Request.redefine ⟨0, 0⟩ (.constant 3 (.int 5))).run 9 [] o.2).any fun o' =>
          (((Evaluation.call ⟨1, 0⟩ {}).journal 9 (m.ready [])).last? (.cells ⟨1, 0⟩ .empty)).any
            fun visit => visit.result.isOk && visit.reads.length == 1 &&
              o'.2.isComputed (.cells ⟨1, 0⟩ .empty)) = true := by decide +kernel
  obtain ⟨m, hm, hrun⟩ := (Option.any_eq_true _ _).1 hrun
  obtain ⟨⟨r, m₁⟩, hcall, hrun⟩ := (Option.any_eq_true _ _).1 hrun
  obtain ⟨⟨r', m'⟩, hedit, hrun⟩ := (Option.any_eq_true _ _).1 hrun
  obtain ⟨visit, hvisit, hfacts⟩ := (Option.any_eq_true _ _).1 hrun
  rw [Bool.and_eq_true, Bool.and_eq_true, beq_iff_eq] at hfacts
  obtain ⟨⟨hok, hcount⟩, hkept⟩ := hfacts
  cases hresult : visit.result with
  | error f =>
    rw [hresult] at hok
    cases hok
  | ok v =>
    have hreach : Reachable m := ⟨_, .new "doc" {}, Request.becomes_of_runAll guardedRequests hm⟩
    exact ⟨m, m₁, m', r, r', visit, v, hm, hcall, hvisit, hresult, hcount, hedit, hkept,
      Reachable.answered_upheld hreach hcall hvisit hresult rfl hedit hkept⟩

def Value.number? (v : Value) : Option Int64 := v.toInt.toOption

/-- The number that cells without arguments compute when nothing is stored. -/
def Model.afresh? (m : Model) (fuel : Nat) (id : CellId) : Option Int64 :=
  ((do
    forgetAll
    call fuel [] id {} : Action Value) m).bind (·.1.toOption.bind Value.number?)

/-- A failed read is not recorded: `T.x` caught the failure of `T.y` and stays stored when `T.y`
gets a value, although it would be another value now. -/
theorem caught_outlived : ∃ m summary m', Reachable m ∧
    redefine 9 ⟨0, 0⟩ (.constant 3 (.int 5)) m = some (.ok summary, m') ∧
      m.afresh? 9 ⟨0, 0⟩ = none ∧ m'.afresh? 9 ⟨0, 0⟩ = some 5 ∧
        (m'.computed? (.cells ⟨1, 0⟩ .empty)).bind Value.number? = some 3 ∧
          m'.afresh? 9 ⟨1, 0⟩ = some 8 := by
  have hrun : ((Request.runAll 9 [] (guardedRequests ++ [.call ⟨1, 0⟩ {}]) Shop.start).any fun m =>
      (redefine 9 ⟨0, 0⟩ (.constant 3 (.int 5)) m).any fun o => decide (o.1.toOption.isSome = true ∧
        m.afresh? 9 ⟨0, 0⟩ = none ∧ o.2.afresh? 9 ⟨0, 0⟩ = some 5 ∧
          (o.2.computed? (.cells ⟨1, 0⟩ .empty)).bind Value.number? = some 3 ∧
            o.2.afresh? 9 ⟨1, 0⟩ = some 8)) = true := by decide +kernel
  obtain ⟨m, hm, hrun⟩ := (Option.any_eq_true _ _).1 hrun
  obtain ⟨⟨r, m'⟩, hedit, hfacts⟩ := (Option.any_eq_true _ _).1 hrun
  obtain ⟨hok, hfacts⟩ := of_decide_eq_true hfacts
  cases r with
  | error e => cases hok
  | ok summary =>
    exact ⟨m, summary, m', ⟨_, .new "doc" {}, Request.becomes_of_runAll _ hm⟩, hedit, hfacts⟩

end Recalc
