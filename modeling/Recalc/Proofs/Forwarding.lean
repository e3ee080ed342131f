import Recalc.Proofs.Culling
import Recalc.Proofs.Nesting

set_option autoImplicit false

/-!
# Bodies that pass failures on

A body forwards failures when a question that failed is the end of it: it fails as the question did.
A property that all the formulas of a model have stays one of all of them while formulas run, since
evaluation copies cells with their formulas and reclamation only takes away.
-/

namespace Recalc

open Recalc.Action

/-- A question that fails ends the body with the same failure, and a failure of the body's own
satisfies `own`. -/
inductive Body.Forwards (own : Failure → Prop) : Body Value → Prop
  | value (v : Value) : Forwards own (.done (.ok v))
  | failure {e : Failure} : own e → Forwards own (.done (.error e))
  | ask {q : Query} {resume : Except Failure Value → Body Value} :
      (∀ e, resume (.error e) = .done (.error e)) → (∀ v, Forwards own (resume (.ok v))) →
      Forwards own (.ask q resume)

def Formula.Forwards (own : Failure → Prop) (f : Formula) : Prop :=
  ∀ body kept, f.rule = .computed body kept → ∀ args, (body args).Forwards own

namespace Body.Forwards

variable {own : Failure → Prop}

theorem query (q : Query) : (Body.query q).Forwards own :=
  .ask (fun _ => rfl) fun v => .value v

end Body.Forwards

theorem forwards_readingFormula (own : Failure → Prop) (ident : Nat) (name : String) :
    (readingFormula ident name).Forwards own := by
  intro body kept hrule args
  cases hrule
  exact .query _

theorem forwards_constant (own : Failure → Prop) (ident : Nat) (v : Value) :
    (Formula.constant ident v).Forwards own := by
  intro body kept hrule
  cases hrule

namespace Model

variable {P : Formula → Prop} {m m' : Model}

/-- Every formula of the model has the property, those of cells and the binders of spaces. -/
structure Uses (P : Formula → Prop) (m : Model) : Prop where
  cells : ∀ id c f, m.cells.get? id = some c → c.formula = some f → P f
  binders : ∀ id s spec f, m.spaces.get? id = some s → s.signature = some spec →
    spec.binder = some f → P f

theorem Uses.signature (h : m.Uses P) {id : SpaceId} {spec : Signature} {f : Formula}
    (hspec : m.signature id = .ok spec) (hf : spec.binder = some f) : P f := by
  obtain ⟨c, -, hspec⟩ := except_bind_eq_ok.1 hspec
  obtain ⟨source, hs, hspec⟩ := except_bind_eq_ok.1 hspec
  cases hsource : source.signature with
  | none =>
    rw [hsource] at hspec
    cases hspec
  | some spec' =>
    rw [hsource] at hspec
    cases hspec
    exact h.binders c source _ f (space_eq_ok.1 hs) hsource hf

/-- What is left after a reclamation was there before. -/
theorem Culls.uses (h : Culls m m') (hm : m.Uses P) : m'.Uses P := by
  refine ⟨fun id c' f hc' hf => ?_, fun id s' spec f hs' hspec hf => ?_⟩
  · obtain ⟨c, hc, hformula, -⟩ := h.cells id c' hc'
    exact hm.cells id c f hc (hformula.symm.trans hf)
  · obtain ⟨s, hs, -, hsig, -⟩ := h.spaces id s' hs'
    exact hm.binders id s spec f hs (hsig.symm.trans hspec) hf

theorem culls_ready (m : Model) (held : List Handle) : Culls m (m.ready held) := by
  rcases ready_cases m held with heq | heq
  · rw [heq]
    exact Frame.refl m
  · rw [heq]
    exact culls_reclaim held m

/-! ## Evaluation uses no other formulas -/

/-- The stack and the settings are as they were, no space came with parameters, and the formula of
any cells is one that cells had before. -/
structure Reuses (m m' : Model) : Prop where
  steadies : Steadies m m'
  formulas : ∀ id c', m'.cells.get? id = some c' →
    ∃ x c, m.cells.get? x = some c ∧ c'.formula = c.formula

instance : Frame Reuses where
  refl m := ⟨Frame.refl m, fun id c hc => ⟨id, c, hc, rfl⟩⟩
  trans h h' := by
    refine ⟨Frame.trans h.steadies h'.steadies, fun id c₃ hc₃ => ?_⟩
    obtain ⟨x, c₂, hc₂, hformula₂⟩ := h'.formulas id c₃ hc₃
    obtain ⟨y, c₁, hc₁, hformula₁⟩ := h.formulas x c₂ hc₂
    exact ⟨y, c₁, hc₁, hformula₂.trans hformula₁⟩

theorem Reuses.uses (h : Reuses m m') (hm : m.Uses P) : m'.Uses P := by
  refine ⟨fun id c' f hc' hf => ?_, fun id s' spec f hs' hspec hf => ?_⟩
  · obtain ⟨x, c, hc, hformula⟩ := h.formulas id c' hc'
    exact hm.cells x c f hc (hformula.symm.trans hf)
  · obtain ⟨s, hs, hsig⟩ := h.steadies.declared id s' spec hs' hspec
    exact hm.binders id s spec f hs hsig hf

theorem reuses_of_cells (h : Steadies m m') (hcells : m'.cells = m.cells) : Reuses m m' := by
  refine ⟨h, fun id c hc => ⟨id, c, ?_, rfl⟩⟩
  rw [← hcells]
  exact hc

theorem reuses_noteRead (n : Node) (m : Model) : Reuses m (noteRead n m) :=
  reuses_of_cells (steadies_noteRead n m) (cells_noteRead n m)

theorem formula_of_addCells (ht : m.Tidy) {c d : Cells} {id : CellId}
    (hd : (m.addCells c).2.cells.get? id = some d) : d = c ∨ m.cells.get? id = some d := by
  rcases Pool.insert_cases ht.cells c with hfresh | hsame
  · have hget := (hfresh.2 id).symm.trans hd
    split at hget
    next =>
      cases hget
      exact .inl rfl
    next => exact .inr hget
  · exact .inr ((hsame id).symm.trans hd)

/-- Copies have the formula of what they were copied from. -/
theorem formula_of_copyEach {replica : SpaceId} {l : List Cells} (ht : m.Tidy) {id : CellId}
    {c : Cells} (hc : (m.copyEach replica l).cells.get? id = some c) :
    m.cells.get? id = some c ∨ ∃ d ∈ l, c.formula = d.formula := by
  induction l generalizing m with
  | nil => exact .inl hc
  | cons d l ih =>
    rcases ih (tidy_addCells ht (copyOf replica d)) hc with hc | ⟨e, he, hformula⟩
    · rcases formula_of_addCells ht hc with rfl | hc
      · exact .inr ⟨d, List.mem_cons_self, rfl⟩
      · exact .inl hc
    · exact .inr ⟨e, List.mem_cons_of_mem _ he, hformula⟩

theorem reuses_addReplica (ht : m.Tidy) {s : Space} (hs : s.signature = none)
    {counterpart id : SpaceId} (h : m.addReplica s counterpart = (id, m')) : Reuses m m' := by
  refine ⟨steadies_addReplica ht hs h, fun x c hc => ?_⟩
  obtain ⟨-, rfl⟩ : (m.addSpace s).1 = id ∧
      (m.addSpace s).2.copyCells (m.addSpace s).1 counterpart = m' := Prod.mk.inj h
  cases hsource : (m.addSpace s).2.spaces.get? counterpart with
  | none =>
    unfold copyCells at hc
    rw [hsource] at hc
    exact ⟨x, c, hc, rfl⟩
  | some source =>
    rw [copyCells_eq hsource] at hc
    rcases formula_of_copyEach ((widens_addSpace m s).tidy ht) hc with hc | ⟨d, hd, hformula⟩
    · exact ⟨x, c, hc, rfl⟩
    · obtain ⟨y, -, hy⟩ := List.mem_filterMap.1 hd
      exact ⟨y, d, hy, hformula⟩

theorem reuses_ensureChild {parent : SpaceId} {name : String} {r : Except Failure SpaceId}
    (ht : m.Tidy) (h : ensureChild parent name m = some (r, m')) : Reuses m m' := by
  rcases ensureChild_cases h with ⟨rfl, -⟩ |
      ⟨s, root, c, source, counterpart, child, m₁, -, -, -, -, -, -, hadd, rfl, -⟩
  · exact Frame.refl _
  · exact Frame.trans (reuses_addReplica ht rfl hadd)
      (reuses_of_cells (steadies_modifySpace m₁ parent _ fun _ => ⟨rfl, rfl⟩) rfl)

theorem reuses_ensureItem {id : SpaceId} {key : Key} {r : Except Failure Handle}
    (ht : m.Tidy) (h : ensureItem id key m = some (r, m')) : Reuses m m' := by
  rcases ensureItem_cases h with ⟨rfl, -⟩ | ⟨s, hs, ⟨item, hitem, rfl, -⟩ |
      ⟨c, item, m₁, -, -, hadd, rfl, -⟩⟩
  · exact Frame.refl _
  · exact reuses_noteRead _ m
  · have hlist : Reuses m₁ (m₁.listItem id key item) :=
      reuses_of_cells (steadies_modifySpace m₁ id _ fun _ => ⟨rfl, rfl⟩) rfl
    exact Frame.trans (reuses_addReplica ht rfl hadd) (Frame.trans hlist (reuses_noteRead _ _))

theorem reuses_compute {run : RunFormula} {id : CellId} {c : Cells} {key : Key}
    {r : Except Failure Value}
    (hrun : ∀ stack f q m₁, m.stack.push? (.cells id key) = some stack →
      run c.space f key.values { m with stack } = some (q, m₁) → Reuses { m with stack } m₁)
    (h : compute run id c key m = some (r, m')) : Reuses m m' := by
  refine ⟨steadies_compute (fun stack f q m₁ hpush hf => (hrun stack f q m₁ hpush hf).steadies) h,
    fun x d' hd' => ?_⟩
  rcases compute_cases h with ⟨rfl, -⟩ | ⟨stack, q, m₁, hpush, -, hcells, hfinish⟩
  · exact ⟨x, d', hd', rfl⟩
  have hran : Reuses { m with stack } m₁ := by
    rcases runCells_cases hcells with ⟨-, rfl, -⟩ | ⟨f, r, -, hf, -⟩
    · exact Frame.refl _
    · exact hrun stack f r m₁ hpush hf
  -- the end of the node stores a value at most
  have hbare := (alike_finish hfinish).1.cells x
  rw [hd', Option.map_some] at hbare
  obtain ⟨d, hd, hsame⟩ := Option.map_eq_some_iff.1 hbare.symm
  obtain ⟨y, e, he, hformula⟩ := hran.formulas x d hd
  exact ⟨y, e, he, (formula_of_bare hsame).1.trans hformula⟩

/-- Evaluation uses the formulas that there are. -/
theorem evaluationFrame_reuses : EvaluationFrame (Tracked fun _ => False) Reuses where
  frame := inferInstance
  start m h := ⟨(evaluationFrame_tracked.start m h).1,
    reuses_of_cells (steadies_of_spaces rfl rfl rfl) rfl⟩
  note m n hn h := ⟨(evaluationFrame_tracked.note m n hn h).1, reuses_noteRead n m⟩
  child parent name m r m' h ht :=
    ⟨(evaluationFrame_tracked.child parent name m r m' h ht).1, reuses_ensureChild ht.tidy h⟩
  signature _ _ h _ _ hspec := h.steadies.retains.signature hspec
  item id key m r m' hkey h ht :=
    ⟨(evaluationFrame_tracked.item id key m r m' hkey h ht).1, reuses_ensureItem ht.tidy h⟩
  node run hrun id c key m r m' hc hnone h ht := by
    have hretains : ∀ id f args, Obeys (Under (Tracked fun _ => False) Retains) (run id f args) :=
      fun id f args m r m' h ht => (hrun id f args m r m' h ht).imp_right (·.steadies.retains)
    exact ⟨(evaluationFrame_tracked.node run hretains id c key m r m' hc hnone h ht).1,
      reuses_compute (fun stack f q m₁ hpush hf =>
        (hrun _ _ _ _ _ _ hf (tracked_push ht hpush (cell_eq_ok.1 hc) hnone)).2) h⟩

end Model

end Recalc
