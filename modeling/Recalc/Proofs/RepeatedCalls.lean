import Recalc.Proofs.Answering
import Recalc.Proofs.Provenance
import Recalc.Proofs.Recalling

set_option autoImplicit false

/-!
# Calls that are repeated

A call that gave a value gives it again, without any formula being run, when it is made once more
with arguments that bind to the same key. It does so although the instances that nothing holds are
reclaimed first: what the value rests on is not among them.
-/

namespace Recalc.Model

open Recalc.Action

variable {issue : SpaceId → List SpaceId} {held held' : List Handle} {m m' : Model}

/-- In a model where no instance can go, a call computes. -/
theorem Trusted.computes (hm : m.Trusted issue) (hcalm : m.Calm)
    (hexhausted : m.freeInstances held = []) {fuel : Nat} {id : CellId} {a : Arguments} {key : Key}
    {v : Value} (hkey : m.bindCells id a = .ok key) (ha : Issued issue a.handles)
    (h : evaluate (runFormula fuel) id a m = some (.ok v, m')) (hissuing : m'.Issuing issue) :
    Computes issue held m m' (.cells id key) := by
  have hruns := runs_adds fuel
  obtain ⟨hrunning', -⟩ := evaluationFrame_adds.evaluate hruns id a m _ m' h hm.running
  have hcalm' := obeys_calm_of_under (evaluationFrame_tracked.evaluate (runs_tracked fuel) id a)
    m _ m' h hcalm
  obtain ⟨c, k, hc, hk, hevaluated⟩ := exists_key_of_evaluate h
  cases hkey.symm.trans hk
  have hnear : m.Near issue c.space := by
    intro z hz
    rw [Stack.top?, hcalm.idle] at hz
    cases hz
  obtain ⟨hvouched, -⟩ :=
    leads_evaluate hruns (runsKnown_runFormula fuel) hm hc hnear ha _ m' h hissuing
  obtain ⟨c', hc', hv⟩ := stored_of_evaluateKey hevaluated
  refine ⟨hm, hcalm, hvouched.trusted hm hrunning' hissuing, hcalm', hvouched, hexhausted,
    ⟨id, c, rfl, hc⟩, ?_⟩
  simp only [isLive, Node.cells, hc', Option.any_some, hv, Option.isSome_some]

/-! ## The model that is ready for a call -/

theorem ready_of_calm (hcalm : m.Calm) (held : List Handle) :
    m.ready held = if m.config.reclaimOnCall then (m.reclaim held).2 else m := by
  unfold ready Stack.isEmpty
  rw [hcalm.idle]
  rfl

/-- What a call computed is stored when the next one is about to look for it. -/
theorem stored_ready (hcalm' : m'.Calm) {id : CellId} {c : Cells} {key : Key} {v : Value}
    (hcomputes : m'.config.reclaimOnCall = true → Computes issue held m m' (.cells id key))
    (hheld : held ⊆ held') (hc : m'.cells.get? id = some c)
    (hv : c.contents.get? key = some v) :
    ∃ c', (m'.ready held').cells.get? id = some c' ∧ c'.formula = c.formula ∧
      c'.contents.get? key = some v := by
  rw [ready_of_calm hcalm']
  split
  next hon =>
    have hcomputed := hcomputes hon
    have hspared := hcomputed.spared hheld
    have howned := (reclaim_obeys under_removeInstance held' m' hcomputed.after.faithful.owned).1
    obtain ⟨c', hc', hv'⟩ := hspared.stored hcomputed howned kept_self rfl hc hv
    obtain ⟨d, hd, hbare⟩ := hspared.drops.cells id c' hc'
    cases hc.symm.trans hd
    exact ⟨c', hc', (formula_of_bare hbare).1.symm, hv'⟩
  next => exact ⟨c, hc, rfl, hv⟩

theorem Drops.discreet (h : Drops m m') (hm : m.Discreet) : m'.Discreet := by
  refine ⟨fun id c' f hc' hf => ?_, fun id s' spec f hs' hstatic hspec hf => ?_⟩
  · obtain ⟨c, hc, hbare⟩ := h.cells id c' hc'
    exact hm.cells id c f hc ((formula_of_bare hbare).1.trans hf)
  · obtain ⟨s, hs, heq, -⟩ := h.space id s' hs'
    rw [heq] at hstatic hspec
    exact hm.binders id s spec f hs hstatic hspec hf

end Recalc.Model

namespace Recalc

open Recalc.Model Recalc.Action

variable {issue : SpaceId → List SpaceId} {held held' : List Handle} {m m' : Model}

theorem Reachable.trusted_ready (h : Reachable m) (room : m.Addressable) (hdiscreet : m.Discreet)
    (hissued : Issued issue m.handles) (hissuing : (m.ready held).Issuing issue) :
    (m.ready held).Trusted issue := by
  have hsifted := h.sifted room held
  obtain ⟨hrunning, -⟩ := h.ready held
  refine ⟨hrunning, hissuing, ?_, hsifted.drops.discreet hdiscreet⟩
  have hstocked := stocked_of_issued room hissued
  rcases ready_cases m held with heq | heq
  · rw [heq]
    exact hstocked
  · rw [heq]
    exact (culls_reclaim held m).stocked hstocked

/-- A call that gave a value gives it again when it is made once more, whatever is reclaimed in
between, and then no formula runs. -/
theorem Reachable.remembered (h : Reachable m) (hdiscreet : m.Discreet) {fuel fuel' : Nat}
    {id : CellId} {a a' : Arguments} {k k' : Key} {v : Value}
    (hcall : Model.call fuel held id a m = some (.ok v, m'))
    (hissued : Issued issue (m.handles ++ a.handles)) (hissuing : m'.Issuing issue)
    (hheld : held ⊆ held') (hk : m.bindCells id a = .ok k) (hk' : m'.bindCells id a' = .ok k')
    (hsame : (k == k') = true) :
    ∃ m'', Model.call fuel' held' id a' m' = some (.ok v, m'') ∧ m''.runs = m'.runs := by
  obtain ⟨hrunning, hcalm, hfits, -⟩ := h.ready held
  have hcalm' := calm_call fuel held id a m _ m' hcall h.calm
  have heval : evaluate (runFormula fuel) id a (m.ready held) = some (.ok v, m') := by
    rwa [Model.call, reclaimFirst_bind] at hcall
  obtain ⟨-, hadds⟩ := evaluationFrame_adds.evaluate (runs_adds fuel) id a _ _ m' heval hrunning
  have hbefore := hissuing.before hrunning hadds.grows
  have henriches := hadds.enriches hissuing.room
  have room := hfits.addressable hbefore.room
  have hsifted := h.sifted room held
  -- the cells have the same formula throughout, so arguments bind to the same keys
  obtain ⟨c, key, hc, hkey, hevaluated⟩ := exists_key_of_evaluate heval
  obtain ⟨d, hd, hbare⟩ := hsifted.drops.cells id c hc
  cases hkey.symm.trans (bindCells_eq_ok hd hc (formula_of_bare hbare).1.symm hk)
  obtain ⟨c', hc', hv⟩ := stored_of_evaluateKey hevaluated
  have hsettings := sameSettings_ready m' held'
  have hon : m'.config.reclaimOnCall = true → Computes issue held (m.ready held) m'
      (.cells id k) := by
    intro hon
    rw [henriches.config, (sameSettings_ready m held).config] at hon
    have hexhausted : (m.ready held).freeInstances held = [] := by
      rw [ready_of_calm h.calm, if_pos hon]
      exact (h.orderly.proper room).owned.freeInstances_reclaim room held
    have htrusted := h.trusted_ready room hdiscreet (hissued.subset (List.subset_append_left _ _))
      hbefore
    exact htrusted.computes hcalm hexhausted hkey (hissued.subset (List.subset_append_right _ _))
      heval hissuing
  obtain ⟨c'', hc'', hformula', hv'⟩ := stored_ready hcalm' hon hheld hc' hv
  have hkey' := bindCells_eq_ok hc' hc'' hformula' hk'
  rw [Contents.get?_congr _ hsame] at hv'
  have hready : (m'.ready held').Calm := by
    rcases ready_cases m' held' with heq | heq
    · rw [heq]
      exact hcalm'
    · rw [heq]
      exact calm_reclaim held' m' hcalm'
  have hanswer : evaluate (runFormula fuel') id a' (m'.ready held') = _ :=
    evaluate_of_stored hkey' hc'' hv'
  rw [noteRead_of_calm hready] at hanswer
  exact ⟨m'.ready held', hanswer, hsettings.runs⟩

def stuckFormula : Formula where
  ident := 1
  params := [{ name := "n" }]
  rule := .computed (fun args => do
    let _ ← Body.query (.lookup none "series" (some { positional := args }))
    Body.fail (.raised "no data")) []

def patientFormula : Formula where
  ident := 2
  params := [{ name := "n" }]
  rule := .computed (fun args => do
    let _ ← Body.attempt (Body.query (.lookup none "stuck" (some { positional := args })))
    return .text "no data") []

theorem discreet_stuckFormula : stuckFormula.Discreet := by
  intro body kept hrule args
  cases hrule
  refine .ask (by simp [Query.handles, Arguments.handles]) fun r => ?_
  cases r <;> exact .done (List.nil_subset _)

theorem discreet_patientFormula : patientFormula.Discreet := by
  intro body kept hrule args
  cases hrule
  exact .ask (by simp [Query.handles, Arguments.handles]) fun r => .done (List.nil_subset _)

def patientRequests : List Request :=
  [.createSpace none "Series", .declareParams ⟨0, 0⟩ [{ name := "n" }] none, .createSpace none "T",
    .bindName ⟨1, 0⟩ "series" (.space ⟨⟨0, 0⟩, []⟩) .auto,
    .defineCells ⟨1, 0⟩ "stuck" (some stuckFormula),
    .defineCells ⟨1, 0⟩ "patient" (some patientFormula)]

theorem Model.Uses.discreet {m : Model} (h : m.Uses Formula.Discreet) : m.Discreet :=
  ⟨h.cells, fun id s spec f hs _ => h.binders id s spec f hs⟩

/-- The first call leaves an instance that nothing holds, which is gone when the second one is
answered. -/
theorem patient_remembered : ∃ m v m', Request.runAll 9 [] patientRequests Shop.start = some m ∧
    Model.call 9 [] ⟨1, 0⟩ { positional := [.int 3] } m = some (.ok v, m') ∧
    m'.freeInstances [] ≠ [] ∧
    ∃ m'', Model.call 9 [] ⟨1, 0⟩ { named := [("n", .int 3)] } m' = some (.ok v, m'') ∧
      m''.runs = m'.runs := by
  have hrun : ((Request.runAll 9 [] patientRequests Shop.start).any fun m =>
      (Model.call 9 [] ⟨1, 0⟩ { positional := [.int 3] } m).any fun q =>
        q.1.isOk && !(q.2.freeInstances []).isEmpty &&
        decide q.2.Addressable &&
        m.handles.all (fun h => h.pins == q.2.pinsOf h.id) &&
        (m.bindCells ⟨1, 0⟩ { positional := [.int 3] }).toOption.any fun k =>
          (q.2.bindCells ⟨1, 0⟩ { named := [("n", .int 3)] }).toOption.any (k == ·)) = true := by
    decide +kernel
  obtain ⟨m, hm, hcall⟩ := (Option.any_eq_true _ _).1 hrun
  obtain ⟨⟨r, m'⟩, hq, hfacts⟩ := (Option.any_eq_true _ _).1 hcall
  simp only [Bool.and_eq_true, decide_eq_true_eq] at hfacts
  obtain ⟨⟨⟨⟨hok, hfree⟩, room⟩, hissued⟩, hkeys⟩ := hfacts
  obtain ⟨v, rfl⟩ : ∃ v, r = .ok v := by
    cases r with
    | error e => cases hok
    | ok v => exact ⟨v, rfl⟩
  obtain ⟨k, hk, hkeys⟩ := (Option.any_eq_true _ _).1 hkeys
  obtain ⟨k', hk', hsame⟩ := (Option.any_eq_true _ _).1 hkeys
  have hreach : Reachable m := ⟨_, .new "doc" {}, Request.becomes_of_runAll patientRequests hm⟩
  have hdiscreet : m.Discreet := by
    refine (Request.uses_of_runAll hm fun f hf => ?_).discreet
    change f ∈ [stuckFormula, patientFormula] at hf
    simp only [List.mem_cons, List.not_mem_nil, or_false] at hf
    rcases hf with rfl | rfl
    · exact discreet_stuckFormula
    · exact discreet_patientFormula
  have hstocked : Issued m'.pinsOf
      (m.handles ++ Arguments.handles { positional := [.int 3] }) := by
    have hnone : Arguments.handles { positional := [.int 3] } = [] := rfl
    rw [hnone, List.append_nil]
    exact fun h hh => beq_iff_eq.1 (List.all_eq_true.1 hissued h hh)
  have hleft : m'.freeInstances [] ≠ [] := by
    intro hnil
    rw [hnil] at hfree
    cases hfree
  have hissuing : m'.Issuing m'.pinsOf := ⟨room, fun _ _ _ => rfl⟩
  exact ⟨m, v, m', hm, hq, hleft, Reachable.remembered hreach hdiscreet hq hstocked hissuing
    (List.Subset.refl _) (toOption_eq_some.1 hk) (toOption_eq_some.1 hk') hsame⟩

end Recalc
