import Recalc.Proofs.Labels
import Recalc.Proofs.Vouching

set_option autoImplicit false

/-!
# What a call leaves behind

Cells that were called and gave a value have it stored under the key that the arguments bind to.
What is stored there is the answer to the next call, and no formula runs.
-/

namespace Recalc.Model

open Recalc.Action

variable {m m' : Model}

theorem stored_of_finish {id : CellId} {key : Key} {q : Except Failure Value} {v : Value}
    (h : finish id key q m = some (.ok v, m')) :
    ∃ c, m'.cells.get? id = some c ∧ c.contents.get? key = some v := by
  cases q with
  | error e => cases h
  | ok w =>
    cases hc : m.cells.get? id with
    | none =>
      simp only [finish, read_bind, cell, hc] at h
      cases h
    | some c =>
      cases hstore : c.contents.store? key w with
      | none =>
        simp only [finish, read_bind, cell_eq_ok.2 hc, hstore] at h
        cases h
      | some contents =>
        rw [finish_of_store hc hstore] at h
        cases h
        refine ⟨{ c with contents }, ?_, ?_⟩
        · rw [(pools_noteRead _ _).1, get?_modifyContents m id fun _ => contents, hc,
            Option.map_some, if_pos rfl]
        · show contents.get? key = some _
          rw [Contents.get?_store hstore, if_pos BEq.rfl]

theorem stored_of_evaluateKey {run : RunFormula} {id : CellId} {key : Key} {v : Value}
    (h : evaluateKey run id key m = some (.ok v, m')) :
    ∃ c, m'.cells.get? id = some c ∧ c.contents.get? key = some v := by
  unfold evaluateKey at h
  rw [read_bind] at h
  cases hc : m.cells.get? id with
  | none =>
    simp only [cell, hc] at h
    cases h
  | some c =>
    simp only [cell_eq_ok.2 hc] at h
    cases hv : c.contents.get? key with
    | none =>
      rw [hv] at h
      rcases compute_cases h with ⟨-, e, -, hr⟩ | ⟨stack, q, m₁, -, -, -, hfinish⟩
      · cases hr
      · exact stored_of_finish hfinish
    | some w =>
      rw [hv] at h
      cases h
      exact ⟨c, by rw [(pools_noteRead _ m).1, hc], hv⟩

/-- What is stored is the answer, and no formula runs. -/
theorem evaluate_of_stored {run : RunFormula} {id : CellId} {c : Cells} {a : Arguments} {key : Key}
    {v : Value} (hkey : m.bindCells id a = .ok key) (hc : m.cells.get? id = some c)
    (hv : c.contents.get? key = some v) :
    evaluate run id a m = some (.ok v, noteRead (.cells id key) m) := by
  unfold evaluate evaluateKey
  rw [read_bind, hkey]
  dsimp only
  rw [read_bind, cell_eq_ok.2 hc]
  dsimp only
  rw [hv]
  rfl

/-- What the host reads is read by no node. -/
theorem noteRead_of_calm (hcalm : m.Calm) (n : Node) : noteRead n m = m := by
  unfold noteRead Stack.top?
  rw [hcalm.idle]
  rfl

/-- A call that gives a value has bound its arguments to a key. -/
theorem exists_key_of_evaluate {run : RunFormula} {id : CellId} {a : Arguments} {v : Value}
    (h : evaluate run id a m = some (.ok v, m')) :
    ∃ c key, m.cells.get? id = some c ∧ m.bindCells id a = .ok key ∧
      evaluateKey run id key m = some (.ok v, m') := by
  unfold evaluate at h
  rw [read_bind] at h
  cases hkey : m.bindCells id a with
  | error e =>
    rw [hkey] at h
    cases h
  | ok key =>
    rw [hkey] at h
    obtain ⟨c, hc, -⟩ := except_bind_eq_ok.1 hkey
    exact ⟨c, key, cell_eq_ok.1 hc, rfl, h⟩

/-- Cells with the same formula bind arguments to the same key. -/
theorem bindCells_eq_ok {id : CellId} {c c' : Cells} {a : Arguments} {key : Key}
    (hc : m.cells.get? id = some c) (hc' : m'.cells.get? id = some c')
    (hformula : c'.formula = c.formula) (h : m.bindCells id a = .ok key) :
    m'.bindCells id a = .ok key := by
  have hmatches := matches_bindCells hc hc' hformula a
  rw [h] at hmatches
  generalize m'.bindCells id a = r at hmatches
  cases hmatches
  rfl

end Recalc.Model
