import Recalc.Proofs.Answering

set_option autoImplicit false

/-!
# Inputs change by input operations only

Evaluation, forgetting, reclamation and edits share the tables in which inputs are kept, and leave
them alone, whether they succeed or fail: cells found before and after a request have the same
inputs, except where the request puts an input in or takes one back. An input answers every call for
its key, and no formula runs.
-/

namespace Recalc

open Recalc.Action Recalc.Model

def Request.WritesInput (q : Request) (m : Model) (id : CellId) (k : Key) : Prop :=
  ∃ args key, m.keyOf id args = .ok key ∧ (key == k) = true ∧
    ((∃ v, q = .putInput id args v) ∨ q = .takeInput id args)

def Request.isInput : Request → Bool
  | .putInput .. | .takeInput .. => true
  | _ => false

namespace Model

/-! ## Evaluation -/

/-- The stack and the spaces are retained, no cells go, and cells keep their inputs. -/
structure RetainsCells (m m' : Model) : Prop extends Retains m m' where
  cells : TurnsCells 0 m m'

instance : Frame RetainsCells where
  refl m := ⟨Frame.refl m, Graded.refl m⟩
  trans h h' := ⟨Frame.trans h.toRetains h'.toRetains, Graded.trans h.cells h'.cells⟩

section Evaluation

variable {m m' : Model}

theorem staysCells_noteRead (n : Node) (m : Model) : StaysCells m (noteRead n m) :=
  staysCells_of_eq (pools_noteRead n m).1

theorem turnsCells_addReplica {m₁ : Model} {s : Space} {counterpart id : SpaceId}
    (h : m.addReplica s counterpart = (id, m₁)) : TurnsCells 0 m m₁ := by
  cases h
  have hspace : StaysCells m (m.addSpace s).2 := staysCells_of_eq rfl
  refine Frame.trans hspace.turnsCells ?_
  unfold copyCells
  split
  · exact Frame.refl _
  · exact foldl_obeys (fun m _ => turnsCells_addCells m _) _ _

theorem turnsCells_ensureChild {parent : SpaceId} {name : String} {r : Except Failure SpaceId}
    (h : ensureChild parent name m = some (r, m')) : TurnsCells 0 m m' := by
  rcases ensureChild_cases h with ⟨rfl, -⟩ |
      ⟨s, root, c, source, counterpart, child, m₁, -, -, -, -, -, -, hadd, rfl, -⟩
  · exact Frame.refl _
  · exact Frame.trans (turnsCells_addReplica hadd) (StaysCells.turnsCells (staysCells_of_eq rfl))

theorem turnsCells_ensureItem {id : SpaceId} {key : Key} {r : Except Failure Handle}
    (h : ensureItem id key m = some (r, m')) : TurnsCells 0 m m' := by
  rcases ensureItem_cases h with ⟨rfl, -⟩ | ⟨s, hs, ⟨item, hitem, rfl, -⟩ |
      ⟨c, item, m₁, -, -, hadd, rfl, -⟩⟩
  · exact Frame.refl _
  · exact (staysCells_noteRead _ m).turnsCells
  · have hlist : StaysCells m₁ (m₁.listItem id key item) := staysCells_of_eq rfl
    exact Frame.trans (turnsCells_addReplica hadd)
      (Frame.trans hlist.turnsCells (staysCells_noteRead _ _).turnsCells)

/-- Storing a value leaves the inputs alone. -/
theorem staysCells_finish {id : CellId} {key : Key} {q r : Except Failure Value}
    (h : finish id key q m = some (r, m')) : StaysCells m m' := by
  cases q with
  | error e =>
    cases h
    exact staysCells_of_eq rfl
  | ok v =>
    simp only [finish, read_bind] at h
    split at h
    next c hc =>
      cases hstore : c.contents.store? key v with
      | none =>
        simp only [hstore] at h
        cases h
        exact Frame.refl m
      | some contents =>
        simp only [hstore] at h
        cases h
        obtain ⟨-, rfl⟩ := Contents.store?_eq_some.1 hstore
        refine Frame.trans (staysCells_modifyCell m id fun d hd => ?_) (staysCells_noteRead _ _)
        cases (cell_eq_ok.1 hc).symm.trans hd
        rfl
    next =>
      cases h
      exact Frame.refl m

theorem turnsCells_compute {run : RunFormula} {id : CellId} {c : Cells} {key : Key}
    {r : Except Failure Value}
    (hrun : ∀ stack f q m₁, m.stack.push? (.cells id key) = some stack →
      run c.space f key.values { m with stack } = some (q, m₁) → TurnsCells 0 { m with stack } m₁)
    (h : compute run id c key m = some (r, m')) : TurnsCells 0 m m' := by
  rcases compute_cases h with ⟨rfl, -⟩ | ⟨stack, q, m₁, hpush, -, hcells, hfinish⟩
  · exact Frame.refl _
  have hran : TurnsCells 0 { m with stack } m₁ := by
    rcases runCells_cases hcells with ⟨-, rfl, -⟩ | ⟨f, r, -, hf, -⟩
    · exact Frame.refl _
    · exact hrun stack f r m₁ hpush hf
  exact Frame.trans hran (staysCells_finish hfinish).turnsCells

end Evaluation

theorem evaluationFrame_cells : EvaluationFrame (Tracked fun _ => False) RetainsCells where
  frame := inferInstance
  start m hm := by
    obtain ⟨ht, hr⟩ := evaluationFrame_tracked.start m hm
    exact ⟨ht, hr, StaysCells.turnsCells (staysCells_of_eq rfl)⟩
  note m n hn hm := by
    obtain ⟨ht, hr⟩ := evaluationFrame_tracked.note m n hn hm
    exact ⟨ht, hr, (staysCells_noteRead n m).turnsCells⟩
  child p name m r m' h hm := by
    obtain ⟨ht, hr⟩ := evaluationFrame_tracked.child p name m r m' h hm
    exact ⟨ht, hr, turnsCells_ensureChild h⟩
  signature _ _ h _ _ hspec := h.signature hspec
  item id key m r m' hkey h hm := by
    obtain ⟨ht, hr⟩ := evaluationFrame_tracked.item id key m r m' hkey h hm
    exact ⟨ht, hr, turnsCells_ensureItem h⟩
  node run hrun id c key m r m' hc hnone h hm := by
    have hc := cell_eq_ok.1 hc
    have hpushed : ∀ {stack}, m.stack.push? (.cells id key) = some stack →
        ({ m with stack } : Model).Tracked fun _ => False :=
      fun hpush => tracked_push hm hpush hc hnone
    obtain ⟨ht, hr⟩ := under_compute (fun stack f q m₁ hpush hf _ =>
      (hrun _ _ _ _ _ _ hf (hpushed hpush)).imp_right RetainsCells.toRetains) hc hnone h hm
    exact ⟨ht, hr, turnsCells_compute (fun stack f q m₁ hpush hf =>
      (hrun _ _ _ _ _ _ hf (hpushed hpush)).2.cells) h⟩

/-! ## Requests -/

section Requests

variable (fuel : Nat) (held : List Handle)

instance {R : Nat → Model → Model → Prop} [Graded R] (P : Model → Prop) :
    Graded fun n => Under P (R n) where
  refl m hm := ⟨hm, Graded.refl m⟩
  trans h h' hm := ⟨(h' (h hm).1).1, Graded.trans (h hm).2 (h' (h hm).1).2⟩
  mono le h hm := ⟨(h hm).1, Graded.mono le (h hm).2⟩

/-- Between requests, a change turns slots of cells over `n` times at most. -/
abbrev CalmTurns (n : Nat) : Model → Model → Prop := Under Calm (TurnsCells n)

theorem obeys_calmTurns {α : Type} {x : Action α}
    (h : Obeys (Under (Tracked fun _ => False) RetainsCells) x) : Obeys (CalmTurns 0) x := by
  intro m r m' hx hm
  obtain ⟨ht, hretains⟩ := h m r m' hx hm.toTracked
  exact ⟨⟨ht, hretains.stack.trans hm.idle⟩, hretains.cells⟩

theorem obeys_calmTurns_of_trims {α : Type} {x : Action α} (hcalm : Obeys (Keeps Calm) x)
    (h : Obeys TrimsCells x) : Obeys (CalmTurns 1) x :=
  fun m r m' hx hm => ⟨hcalm m r m' hx hm, roundFrame_cells.round (h m r m' hx)⟩

theorem runs_cells (id : SpaceId) (f : Formula) (args : List Value) :
    Obeys (Under (Tracked fun _ => False) RetainsCells) (runFormula fuel id f args) :=
  evaluationFrame_cells.runFormula fuel id f args

theorem trimsCells_reclaim (m : Model) : TrimsCells m (m.reclaim held).2 :=
  reclaim_obeys trimsCells_removeInstance held m

theorem turns_reclaimFirst : Obeys (CalmTurns 1) (reclaimFirst held) := by
  refine obeys_calmTurns_of_trims (calm_reclaimFirst held) (obeys_modify fun m => ?_)
  split
  · exact trimsCells_reclaim held m
  · exact Frame.refl m

theorem turns_discardInstance (id : SpaceId) (args : List Value) :
    Obeys (CalmTurns 1) (discardInstance fuel id args) := by
  have hkey : Obeys (CalmTurns 0) (itemKey (runFormula fuel) id { positional := args }) := by
    refine obeys_calmTurns fun m r m' h hm => ?_
    exact (evaluationFrame_cells.itemKey (runs_cells fuel) id _ hm h).1
  refine obeys_first hkey fun key => obeys_first (obeys_read _) fun _ => obeys_update fun m hm => ?_
  exact ⟨resting_removeInstance hm id key,
    roundFrame_cells.round (trimsCells_removeInstance m id key)⟩

theorem trims_forgetEach (ids : List SpaceId) : Obeys TrimsCells (forgetEach ids) := by
  induction ids with
  | nil => exact obeys_pure _
  | cons id rest ih => exact obeys_bind (roundFrame_cells.forgetWithin id) fun _ => ih

/-- Requests that do not handle inputs turn the slots of cells over in rounds. -/
theorem turns_request {q : Request} (hq : q.isInput = false) :
    Obeys (CalmTurns (roundsOf fuel)) (q.run fuel held) := by
  have hedit : q.isEdit = true → Obeys (CalmTurns (roundsOf fuel)) (q.run fuel held) :=
    fun hedit m r m' hrun hm => ⟨hostFrame_calm.request fuel held q m r m' hrun hm,
      roundFrame_cells.request fuel held hedit m r m' hrun⟩
  have hone : ∀ {α : Type} {x : Action α} (f : α → Reply), Obeys (CalmTurns 1) x →
      Obeys (CalmTurns (roundsOf fuel)) (f <$> x) := fun f h =>
    obeys_within (obeys_reply f h) (by rw [roundsOf]; omega)
  have htrim : ∀ {α : Type} {x : Action α} (f : α → Reply), Obeys (Keeps Calm) x →
      Obeys TrimsCells x → Obeys (CalmTurns (roundsOf fuel)) (f <$> x) := fun f hcalm h =>
    hone f (obeys_calmTurns_of_trims hcalm h)
  have hcall : ∀ {α : Type} {x : Action α} (f : α → Reply),
      Obeys (Under (Tracked fun _ => False) RetainsCells) x →
      Obeys (CalmTurns (roundsOf fuel)) (f <$> (do
        reclaimFirst held
        x)) := fun f h =>
    hone f (obeys_last (turns_reclaimFirst held) fun _ => obeys_calmTurns h)
  cases q with
  | putInput | takeInput => cases hq
  | childNamed id name =>
    refine obeys_reply _ (obeys_any ?_)
    refine obeys_bind (obeys_read _) fun s => ?_
    split
    · exact obeys_pure _
    · split
      · exact obeys_bind obeys_get fun _ => obeys_fail _
      · exact obeys_calmTurns (evaluationFrame_cells.child id name)
  | call id a => exact hcall _ (evaluationFrame_cells.evaluate (runs_cells fuel) id a)
  | selectInstance id a => exact hcall _ (evaluationFrame_cells.instantiate (runs_cells fuel) id a)
  | readFrom id name => exact hcall _ (evaluationFrame_cells.readName (runs_cells fuel) id name none)
  | forgetCells id =>
    exact htrim _ (hostFrame_calm.forgetCells id) (obeys_bind (obeys_read _) fun _ =>
      obeys_update fun m => roundFrame_cells.forget (forgetsAll_invalidateCells m _).forgetsSome)
  | forgetAt id args =>
    exact htrim _ (hostFrame_calm.forgetAt id args) (obeys_bind (obeys_read _) fun key =>
      obeys_update fun m => (staysCells_invalidate m (.cells id key)).trimsCells)
  | forgetWithin id =>
    exact htrim _ (hostFrame_calm.forgetWithin id) (roundFrame_cells.forgetWithin id)
  | forgetAll =>
    refine htrim _ calm_forgetAll (obeys_bind obeys_get fun m => ?_)
    refine obeys_bind (trims_forgetEach _) fun _ => obeys_modify fun m => ?_
    exact (staysCells_of_eq rfl).trimsCells
  | discardInstance id args => exact hone _ (turns_discardInstance fuel id args)
  | discardInstances id =>
    exact htrim _ (calm_discardInstances id) (obeys_bind (obeys_read _) fun _ =>
      obeys_update fun m => roundFrame_cells.removeEveryInstance m id)
  | reclaim =>
    exact htrim _ (obeys_update (calm_reclaim held)) (obeys_update (trimsCells_reclaim held))
  | _ => exact hedit rfl

/-- What a request that handles an input does: nothing, or it writes that input. -/
theorem inputs_of_input {q : Request} (hq : q.isInput = true) {m m' : Model}
    {r : Except Failure Reply} (h : q.run fuel held m = some (r, m')) : m' = m ∨
      ∃ id args key, m.keyOf id args = .ok key ∧
        ((∃ v, q = .putInput id args v) ∨ q = .takeInput id args) ∧
        ∀ other c c', m.cells.get? other = some c → m'.cells.get? other = some c' →
          (id ≠ other → c'.contents.inputs = c.contents.inputs) ∧
            ∀ k, (key == k) = false → c'.contents.inputs.get? k = c.contents.inputs.get? k := by
  cases q with
  | putInput id args v =>
    obtain ⟨x, h⟩ := exists_of_map h
    unfold putInput at h
    rw [read_bind] at h
    split at h
    next key hkey =>
      cases h
      refine .inr ⟨id, args, key, hkey, .inl ⟨v, rfl⟩, fun other c c' hc hc' => ?_⟩
      have hstays := (staysCells_invalidate m (.cells id key)).kept other
      rw [get?_modifyContents _ id (·.putInput key v)] at hc'
      obtain ⟨d, hd, rfl⟩ := Option.map_eq_some_iff.1 hc'
      rw [hd, hc, Option.map_some, Option.map_some, Option.some.injEq] at hstays
      split
      next heq =>
        refine ⟨fun hne => absurd heq hne, fun k hk => ?_⟩
        show (d.contents.inputs.insert key v).get? k = _
        rw [Table.get?_insert, hk, hstays]
        rfl
      next => exact ⟨fun _ => hstays, fun k _ => by rw [hstays]⟩
    next =>
      cases h
      exact .inl rfl
  | takeInput id args =>
    obtain ⟨x, h⟩ := exists_of_map h
    unfold takeInput at h
    rw [read_bind] at h
    split at h
    next key hkey =>
      rw [read_bind] at h
      split at h
      next d hd =>
        split at h
        next =>
          cases h
          refine .inr ⟨id, args, key, hkey, .inr rfl, fun other c c' hc hc' => ?_⟩
          have hstays := (staysCells_invalidate (m.modifyCell id fun c =>
            { c with contents := c.contents.dropInput key }) (.cells id key)).kept other
          rw [get?_modifyContents m id (·.dropInput key), hc, hc', Option.map_some, Option.map_some,
            Option.map_some, Option.some.injEq] at hstays
          rw [hstays]
          split
          next heq =>
            refine ⟨fun hne => absurd heq hne, fun k hk => ?_⟩
            show (c.contents.inputs.erase key).get? k = _
            rw [Table.get?_erase, hk]
            rfl
          next => exact ⟨fun _ => rfl, fun _ _ => rfl⟩
        next =>
          cases h
          exact .inl rfl
      next =>
        cases h
        exact .inl rfl
    next =>
      cases h
      exact .inl rfl
  | _ => cases hq

end Requests

/-- What holds of the inputs of a model between two requests. -/
structure InputsSound (m : Model) : Prop where
  /-- Cells found before and after a request have the same inputs, but for the one it writes. -/
  kept : ∀ (q : Request) fuel held r m', q.run fuel held m = some (r, m') →
    roundsOf fuel < UInt32.size → ∀ id c c', m.cells.get? id = some c →
      m'.cells.get? id = some c' →
      (∀ k, ¬ q.WritesInput m id k → c'.contents.inputs.get? k = c.contents.inputs.get? k) ∧
        ((∀ k, ¬ q.WritesInput m id k) → c'.contents.inputs = c.contents.inputs)
  /-- A call of static cells with an input for the key is answered by it. -/
  answers : m.Addressable → ∀ id c s a key v, m.cells.get? id = some c →
    m.spaces.get? c.space = some s → s.isStatic = true → m.bindCells id a = .ok key →
      c.contents.inputs.get? key = some v → ∀ fuel held,
        Model.call fuel held id a m = some (.ok v, m.ready held) ∧
          (m.ready held).runs = m.runs
  /-- So is a call that a formula makes, whatever the model is like by then. -/
  answersWithin : ∀ (run : RunFormula) (m₁ : Model) id c a key v, m₁.cells.get? id = some c →
    m₁.bindCells id a = .ok key → c.contents.inputs.get? key = some v →
      evaluate run id a m₁ = some (.ok v, noteRead (.cells id key) m₁) ∧
        (noteRead (.cells id key) m₁).runs = m₁.runs

theorem Contents.get?_of_input {c : Contents} {k : Key} {v : Value} (h : c.inputs.get? k = some v) :
    c.get? k = some v := by
  rw [Contents.get?, h, Option.some_or]

theorem runs_noteRead (n : Node) (m : Model) : (noteRead n m).runs = m.runs := by
  unfold noteRead
  split <;> rfl

end Model

theorem Reachable.inputsSound {m : Model} (h : Reachable m) : m.InputsSound where
  kept q fuel held r m' hrun room id c c' hc hc' := by
    cases hq : q.isInput with
    | false =>
      have hturns := (turns_request fuel held hq m r m' hrun h.calm).2 h.calm.tidy.cells
      have hsame := hturns.eq_of_get? room hc hc'
      exact ⟨fun k _ => by rw [hsame], fun _ => hsame⟩
    | true =>
      rcases inputs_of_input fuel held hq hrun with rfl | ⟨other, args, key, hkey, hwrites, hinputs⟩
      · cases hc.symm.trans hc'
        exact ⟨fun _ _ => rfl, fun _ => rfl⟩
      obtain ⟨hothers, hkeys⟩ := hinputs id c c' hc hc'
      by_cases heq : other = id
      · subst heq
        have hwritten : ∀ k, (key == k) = true → q.WritesInput m other k := fun k hk =>
          ⟨args, key, hkey, hk, hwrites⟩
        refine ⟨fun k hk => hkeys k ?_, fun hnone => absurd (hwritten key BEq.rfl) (hnone key)⟩
        exact Bool.eq_false_iff.2 fun hsame => hk (hwritten k hsame)
      · exact ⟨fun k _ => by rw [hothers heq], fun _ => hothers heq⟩
  answers room id c s a key v hc hs hstatic hkey hv fuel held := by
    obtain ⟨-, hcalm, -, hsame⟩ := h.ready held
    obtain ⟨c', hc', hbare, hinputs⟩ := (hsame room).cells id c s hc hs hstatic
    have hkey' := bindCells_eq_ok hc hc' (formula_of_bare hbare).1.symm hkey
    have hstored : c'.contents.get? key = some v := Contents.get?_of_input (by rw [hinputs, hv])
    refine ⟨?_, (sameSettings_ready m held).runs⟩
    rw [Model.call, reclaimFirst_bind, evaluate_of_stored hkey' hc' hstored,
      noteRead_of_calm hcalm]
  answersWithin _ m₁ id _ _ key _ hc hkey hv :=
    ⟨evaluate_of_stored hkey hc (Contents.get?_of_input hv), runs_noteRead _ _⟩

/-- `B` derives the cells `x` from `A`, and an input is put into the derived ones. -/
def suppliedRequests : List Request :=
  [.createSpace none "A", .defineCells ⟨0, 0⟩ "x" (some (Formula.constant 1 (.int 1))),
    .createSpace none "B", .linkBase ⟨1, 0⟩ ⟨0, 0⟩, .putInput ⟨1, 0⟩ [] (.int 7)]

/-- The derived cells follow the new formula of `A.x`, keep their input, and answered with it. -/
theorem supplied_inputsSound : ∃ m r m' c c' v,
    Request.runAll 9 [] suppliedRequests Shop.start = some m ∧
    (Request.redefine ⟨0, 0⟩ (Formula.constant 2 (.int 2))).run 9 [] m = some (r, m') ∧
    m.cells.get? ⟨1, 0⟩ = some c ∧ m'.cells.get? ⟨1, 0⟩ = some c' ∧
    c.formula.map (·.ident) = some 1 ∧ c'.formula.map (·.ident) = some 2 ∧
    c.contents.inputs.get? .empty = some v ∧ c'.contents.inputs = c.contents.inputs ∧
    Model.call 9 [] ⟨1, 0⟩ {} m = some (.ok v, m.ready []) := by
  have hrun : ((Request.runAll 9 [] suppliedRequests Shop.start).any fun m =>
      ((Request.redefine ⟨0, 0⟩ (Formula.constant 2 (.int 2))).run 9 [] m).any fun o =>
        (m.cells.get? ⟨1, 0⟩).any fun c => (o.2.cells.get? ⟨1, 0⟩).any fun c' =>
          (c.contents.inputs.get? .empty).any fun _ => (m.spaces.get? c.space).any fun s =>
            (m.bindCells ⟨1, 0⟩ {}).toOption.any fun k => decide (m.Addressable ∧
              s.isStatic = true ∧ c.formula.map (·.ident) = some 1 ∧
              c'.formula.map (·.ident) = some 2 ∧ k.values.isEmpty = true)) = true := by
    decide +kernel
  obtain ⟨m, hm, hrun⟩ := (Option.any_eq_true _ _).1 hrun
  obtain ⟨⟨r, m'⟩, hedit, hrun⟩ := (Option.any_eq_true _ _).1 hrun
  obtain ⟨c, hc, hrun⟩ := (Option.any_eq_true _ _).1 hrun
  obtain ⟨c', hc', hrun⟩ := (Option.any_eq_true _ _).1 hrun
  obtain ⟨v, hv, hrun⟩ := (Option.any_eq_true _ _).1 hrun
  obtain ⟨s, hs, hrun⟩ := (Option.any_eq_true _ _).1 hrun
  obtain ⟨k, hk, hfacts⟩ := (Option.any_eq_true _ _).1 hrun
  obtain ⟨room, hstatic, hbefore, hafter, hkey⟩ := of_decide_eq_true hfacts
  have hk : m.bindCells ⟨1, 0⟩ {} = .ok .empty := by
    rw [toOption_eq_some.1 hk]
    obtain ⟨values⟩ := k
    cases values with
    | nil => rfl
    | cons => cases hkey
  have hsound := Reachable.inputsSound
    ⟨_, .new "doc" {}, Request.becomes_of_runAll suppliedRequests hm⟩
  refine ⟨m, r, m', c, c', v, hm, hedit, hc, hc', hbefore, hafter, hv, ?_,
    (hsound.answers room _ c s _ _ v hc hs hstatic hk hv 9 []).1⟩
  refine (hsound.kept _ 9 [] r m' hedit (by decide) _ c c' hc hc').2 fun k hwrites => ?_
  obtain ⟨args, key, -, -, ⟨w, heq⟩ | heq⟩ := hwrites <;> cases heq

end Recalc
