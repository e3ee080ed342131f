import Recalc.Proofs.Journal
import Recalc.Proofs.Reclaiming

set_option autoImplicit false

/-!
# Evaluation changes no definition

A host that calls cells, selects an instance or reads a name gets an answer or a failure. Either
way the definitions of the model are the ones that were there, what was stored after the instances
that nothing holds were reclaimed is still stored, and each node that was pushed on the stack holds
the value of its last evaluation, or nothing and no reads when that one failed.
-/

namespace Recalc.Model

open Recalc.Action

/-! ## What reclamation leaves alone -/

structure SameSettings (m m' : Model) : Prop where
  name : m'.name = m.name
  config : m'.config = m.config
  stack : m'.stack = m.stack
  runs : m'.runs = m.runs

instance : Frame SameSettings where
  refl _ := ⟨rfl, rfl, rfl, rfl⟩
  trans h h' := ⟨h'.name.trans h.name, h'.config.trans h.config, h'.stack.trans h.stack,
    h'.runs.trans h.runs⟩

theorem ForgetsSome.sameSettings {m m' : Model} (h : ForgetsSome m m') : SameSettings m m' := by
  obtain ⟨gone, hloses⟩ := h
  exact ⟨hloses.name, hloses.config, hloses.stack, hloses.runs⟩

theorem sameSettings_destroyCells (m : Model) (id : CellId) :
    SameSettings m (m.destroyCells id) := by
  have hforget := (forgetsAll_invalidateCells m id).forgetsSome.sameSettings
  exact ⟨hforget.name, hforget.config, hforget.stack, hforget.runs⟩

theorem sameSettings_destroyReference (m : Model) (id : RefId) :
    SameSettings m (m.destroyReference id) := by
  have hforget := (forgetsAll_invalidate m (.ref id)).forgetsSome.sameSettings
  exact ⟨hforget.name, hforget.config, hforget.stack, hforget.runs⟩

theorem sameSettings_destroyTree (fuel : Nat) (m : Model) (id : SpaceId) :
    SameSettings m (destroyTree fuel m id) := by
  induction fuel generalizing m id with
  | zero => exact Frame.refl m
  | succ fuel ih =>
    unfold destroyTree
    split
    next => exact Frame.refl m
    next s spaces _ =>
      have hcut : SameSettings m { m with spaces } := ⟨rfl, rfl, rfl, rfl⟩
      have hprune : ∀ m : Model, SameSettings m (m.prune (.space id)) := fun _ =>
        ⟨rfl, rfl, rfl, rfl⟩
      have hinstances := foldl_obeys (R := SameSettings) (fun m (e : Key × SpaceId) =>
        Frame.trans (forgetsAll_invalidate m (.item id e.1)).forgetsSome.sameSettings (ih _ e.2))
        s.instances.entries
      exact Frame.trans hcut (Frame.trans (hinstances _) (Frame.trans (hprune _)
        (Frame.trans (foldl_obeys sameSettings_destroyCells s.cells.values _)
          (Frame.trans (foldl_obeys sameSettings_destroyReference s.refs.values _)
            (foldl_obeys ih s.spaces.values _)))))

theorem sameSettings_removeInstance (m : Model) (owner : SpaceId) (key : Key) :
    SameSettings m (m.removeInstance owner key).2 := by
  unfold removeInstance
  split
  next => exact Frame.refl m
  next item _ =>
    have hcut : SameSettings m (m.modifySpace owner fun s =>
      { s with instances := s.instances.erase key }) := ⟨rfl, rfl, rfl, rfl⟩
    exact Frame.trans hcut (Frame.trans
      (forgetsAll_invalidate _ (.item owner key)).forgetsSome.sameSettings
      (sameSettings_destroyTree _ _ item))

theorem sameSettings_reclaim (held : List Handle) (m : Model) :
    SameSettings m (m.reclaim held).2 :=
  reclaim_obeys sameSettings_removeInstance held m

/-! ## Definitions -/

/-- The definitions are the same: the static spaces with their bases, parameters and members, the
cells in them with their formulas, settings and inputs, and the references. -/
structure SameDefinitions (m m' : Model) : Prop where
  name : m'.name = m.name
  config : m'.config = m.config
  roots : m'.roots = m.roots
  globals : m'.globals = m.globals
  refs : ∀ id, m'.refs.get? id = m.refs.get? id
  /-- Only the instances of a static space can change. -/
  spaces : ∀ id s, m.spaces.get? id = some s → s.isStatic = true →
    ∃ instances, m'.spaces.get? id = some { s with instances }
  authored : ∀ id s', m'.spaces.get? id = some s' → s'.isStatic = true →
    ∃ s, m.spaces.get? id = some s ∧ s.isStatic = true
  cells : ∀ id c s, m.cells.get? id = some c → m.spaces.get? c.space = some s →
    s.isStatic = true → ∃ c', m'.cells.get? id = some c' ∧ c'.bare = c.bare ∧
      c'.contents.inputs = c.contents.inputs

variable {m m₁ m' : Model}

theorem SameDefinitions.refl (m : Model) : SameDefinitions m m where
  name := rfl
  config := rfl
  roots := rfl
  globals := rfl
  refs _ := rfl
  spaces _ s hs _ := ⟨s.instances, hs⟩
  authored _ s' hs' hstatic := ⟨s', hs', hstatic⟩
  cells _ c _ hc _ _ := ⟨c, hc, rfl, rfl⟩

theorem SameDefinitions.trans (h : SameDefinitions m m₁) (h' : SameDefinitions m₁ m') :
    SameDefinitions m m' where
  name := h'.name.trans h.name
  config := h'.config.trans h.config
  roots := h'.roots.trans h.roots
  globals := h'.globals.trans h.globals
  refs id := (h'.refs id).trans (h.refs id)
  spaces id s hs hstatic := by
    obtain ⟨instances, hs₁⟩ := h.spaces id s hs hstatic
    obtain ⟨instances', hs'⟩ := h'.spaces id _ hs₁ hstatic
    exact ⟨instances', hs'⟩
  authored id s' hs' hstatic := by
    obtain ⟨s₁, hs₁, hstatic₁⟩ := h'.authored id s' hs' hstatic
    exact h.authored id s₁ hs₁ hstatic₁
  cells id c s hc hs hstatic := by
    obtain ⟨c₁, hc₁, hbare₁, hinputs₁⟩ := h.cells id c s hc hs hstatic
    obtain ⟨instances, hs₁⟩ := h.spaces c.space s hs hstatic
    rw [← (Cells.mk.inj hbare₁).2.1] at hs₁
    obtain ⟨c', hc', hbare, hinputs⟩ := h'.cells id c₁ _ hc₁ hs₁ hstatic
    exact ⟨c', hc', hbare.trans hbare₁, hinputs.trans hinputs₁⟩

theorem Enriches.sameDefinitions (h : Enriches m m') : SameDefinitions m m' where
  name := h.name
  config := h.config
  roots := h.roots
  globals := h.globals
  refs id := by rw [h.refs]
  spaces id s hs hstatic := by
    obtain ⟨s', hs', hext⟩ := h.spaces id s hs
    refine ⟨s'.instances, hs'.trans ?_⟩
    rw [hext.same, hext.children hstatic]
  authored id s' hs' hstatic := by
    cases hs : m.spaces.get? id with
    | none =>
      rw [h.replicas id s' hs' hs] at hstatic
      contradiction
    | some s =>
      obtain ⟨t, ht, hext⟩ := h.spaces id s hs
      cases hs'.symm.trans ht
      exact ⟨s, rfl, hext.isStatic.symm.trans hstatic⟩
  cells id c s hc _ _ := by
    obtain ⟨c', hc', hext⟩ := h.cells id c hc
    exact ⟨c', hc', hext.bare, hext.inputs⟩

/-- The model in which a call by the host is evaluated. -/
def ready (m : Model) (held : List Handle) : Model :=
  if m.stack.isEmpty && m.config.reclaimOnCall then (m.reclaim held).2 else m

/-- A call by the host evaluates in the model that is ready for it. -/
theorem reclaimFirst_bind {α : Type} (held : List Handle) (x : Action α) (m : Model) :
    (reclaimFirst held >>= fun _ => x) m = x (m.ready held) := rfl

theorem exists_of_map {α β : Type} {f : α → β} {x : Action α} {m m' : Model}
    {r : Except Failure β} (h : (f <$> x) m = some (r, m')) : ∃ q, x m = some (q, m') := by
  rw [← bind_pure_comp] at h
  rcases (bind_eq_some m).1 h with ⟨a, m₁, hx, h⟩ | ⟨e, hx, -⟩
  · cases h
    exact ⟨_, hx⟩
  · exact ⟨_, hx⟩

theorem map_eq_error {α β : Type} {f : α → β} {x : Action α} {m m' : Model} {e : Failure} :
    (f <$> x) m = some (.error e, m') ↔ x m = some (.error e, m') := by
  rw [← bind_pure_comp, bind_eq_some]
  constructor
  · rintro (⟨a, m₁, -, h⟩ | ⟨e', hx, he⟩)
    · cases h
    · cases he
      exact hx
  · exact fun hx => .inr ⟨e, hx, rfl⟩

theorem ready_cases (m : Model) (held : List Handle) :
    m.ready held = m ∨ m.ready held = (m.reclaim held).2 := by
  unfold ready
  split
  · exact .inr rfl
  · exact .inl rfl

theorem sameSettings_ready (m : Model) (held : List Handle) : SameSettings m (m.ready held) := by
  rcases ready_cases m held with heq | heq
  · rw [heq]
    exact Frame.refl m
  · rw [heq]
    exact sameSettings_reclaim held m

end Recalc.Model

namespace Recalc

open Recalc.Model Recalc.Action

theorem Reclaimed.sameDefinitions {m m' : Model} (h : Reclaimed m m')
    (hsettings : SameSettings m m') : SameDefinitions m m' where
  name := hsettings.name
  config := hsettings.config
  roots := h.roots
  globals := h.globals
  refs := h.refs
  spaces id s hs hstatic := by
    obtain ⟨s', hs'⟩ := h.static id s hs hstatic
    obtain ⟨t, ht, heq, -⟩ := h.space id s' hs'
    cases hs.symm.trans ht
    exact ⟨s'.instances, hs'.trans (congrArg some heq)⟩
  authored id s' hs' hstatic := by
    obtain ⟨s, hs, heq, -⟩ := h.space id s' hs'
    rw [heq] at hstatic
    exact ⟨s, hs, hstatic⟩
  cells id c s hc hs hstatic := by
    have hcells := h.cells id c hc
    rwa [if_pos (Pool.contains_iff.2 (h.static c.space s hs hstatic))] at hcells

inductive Evaluation where
  | call (id : CellId) (a : Arguments)
  | selectInstance (id : SpaceId) (a : Arguments)
  | readFrom (id : SpaceId) (name : String)

namespace Evaluation

def request : Evaluation → Request
  | .call id a => .call id a
  | .selectInstance id a => .selectInstance id a
  | .readFrom id name => .readFrom id name

/-- What happens after the reclamation. -/
def journal (fuel : Nat) : Evaluation → Model → Journal
  | .call id a => evaluateJournal (runFormula fuel) (formulaJournal fuel) id a
  | .selectInstance id a => instantiateJournal (runFormula fuel) (formulaJournal fuel) id a
  | .readFrom id name => readNameJournal (runFormula fuel) (formulaJournal fuel) id name none

end Evaluation

/-- What an evaluation leaves behind that begins in the model `start`. -/
structure Evaluated (m start : Model) (j : Journal) (m' : Model) : Prop where
  definitions : SameDefinitions m m'
  enriches : Enriches start m'
  /-- A node that was pushed holds the value of its last evaluation. -/
  done : ∀ n e v, j.last? n = some e → e.result = .ok v → m'.computed? n = some v
  /-- A node whose last evaluation failed leaves no trace. -/
  failed : ∀ n e f, j.last? n = some e → e.result = .error f →
    m'.computed? n = none ∧ ∀ b, m'.graph.hasEdge n b = false
  /-- Nothing is computed that was not pushed. -/
  others : ∀ n, j.last? n = none →
    m'.computed? n = start.computed? n ∧ ∀ b, m'.graph.hasEdge n b = start.graph.hasEdge n b

section Running

variable {m m' : Model}

theorem Reachable.running (h : Reachable m) : m.Running := ⟨h.calm.toTracked, h.orderly⟩

theorem runs_adds (fuel : Nat) (id : SpaceId) (f : Formula) (args : List Value) :
    Obeys (Under Running Adds) (runFormula fuel id f args) :=
  evaluationFrame_adds.runFormula fuel id f args

/-- An evaluation runs in the model that is ready for it, and is recorded. -/
theorem Evaluation.runs {fuel : Nat} {held : List Handle} (e : Evaluation)
    {r : Except Failure Reply} (h : e.request.run fuel held m = some (r, m')) :
    Under Running Adds (m.ready held) m' ∧
      Records (e.journal fuel (m.ready held)) (m.ready held) m' := by
  have hruns := runs_adds fuel
  have hrecorded := recorded_runFormula fuel
  cases e with
  | call id a =>
    obtain ⟨q, hq⟩ := exists_of_map h
    exact ⟨evaluationFrame_adds.evaluate hruns id a _ _ _ hq, records_evaluate hrecorded hq⟩
  | selectInstance id a =>
    obtain ⟨q, hq⟩ := exists_of_map h
    exact ⟨evaluationFrame_adds.instantiate hruns id a _ _ _ hq, records_instantiate hrecorded hq⟩
  | readFrom id name =>
    obtain ⟨q, hq⟩ := exists_of_map h
    exact ⟨evaluationFrame_adds.readName hruns id name none _ _ _ hq,
      records_readName hrecorded hq⟩

/-- A model that is ready for a call is sound, and nothing but instances went. -/
theorem Reachable.ready (h : Reachable m) (held : List Handle) :
    (m.ready held).Running ∧ (m.ready held).Calm ∧ Fits m (m.ready held) ∧
      (m.Addressable → SameDefinitions m (m.ready held)) := by
  rcases ready_cases m held with heq | heq
  · rw [heq]
    exact ⟨h.running, h.calm, Frame.refl m, fun _ => .refl m⟩
  · rw [heq]
    have hcalm := calm_reclaim held m h.calm
    obtain ⟨hproper, hfits⟩ := proper_reclaim held m h.orderly.proper
    refine ⟨⟨hcalm.toTracked, hfits.tidy h.orderly.tidy, hproper⟩, hcalm, hfits, fun room => ?_⟩
    exact (h.orderly.reclaims h.calm room held).sameDefinitions (sameSettings_reclaim held m)

end Running

/-- Whatever is evaluated and however it ends, definitions stay and results are only added. -/
theorem Reachable.evaluated {m m' : Model} (h : Reachable m) {fuel : Nat} {held : List Handle}
    {e : Evaluation} {r : Except Failure Reply}
    (hrun : e.request.run fuel held m = some (r, m')) (room : m'.Addressable) :
    Evaluated m (m.ready held) (e.journal fuel (m.ready held)) m' := by
  obtain ⟨hrunning, hcalm, hfits, hsame⟩ := h.ready held
  obtain ⟨hadds, hrecords⟩ := e.runs hrun
  have hgrown := (hadds hrunning).2
  have henriches := hgrown.enriches room
  obtain ⟨-, -, hsettles⟩ := hrecords hrunning.tracked
  have hstart := hsame (hfits.addressable (hgrown.grows.fits.addressable room))
  refine ⟨hstart.trans henriches.sameDefinitions, henriches, 
    fun n e v hn hv => (hsettles.done n e v hn hv).1, hsettles.failed, fun n => hsettles.kept n ?_⟩
  -- nothing is under evaluation between two requests
  rw [hcalm.idle]
  rfl

def refusingFormula : Formula where
  ident := 1
  params := []
  rule := .computed (fun _ => do
    let _ ← Body.query (.lookup none "a" none)
    Body.fail (.raised "refused")) []

def catchingFormula : Formula where
  ident := 2
  params := []
  rule := .computed (fun _ => do
    let _ ← Body.attempt (Body.query (.lookup none "b" none))
    Body.fail (.raised "no luck either")) []

def caughtRequests : List Request :=
  [.createSpace none "T", .defineCells ⟨0, 0⟩ "a" (some (.constant 0 (.int 1))),
    .defineCells ⟨0, 0⟩ "b" (some refusingFormula), .defineCells ⟨0, 0⟩ "c" (some catchingFormula)]

/-- Inside two failed evaluations, one of them caught, the value of `a` stays. -/
theorem caught_evaluated : ∃ m r m', Request.runAll 9 [] caughtRequests Shop.start = some m ∧
    (Evaluation.call ⟨2, 0⟩ {}).request.run 9 [] m = some (r, m') ∧ m'.Addressable ∧
    ((Evaluation.call ⟨2, 0⟩ {}).journal 9 m).visits.map (·.result.isOk) = [true, false, false] ∧
    m'.isComputed (.cells ⟨0, 0⟩ .empty) = true ∧
    Evaluated m (m.ready []) ((Evaluation.call ⟨2, 0⟩ {}).journal 9 (m.ready [])) m' := by
  have hrun : ((Request.runAll 9 [] caughtRequests Shop.start).any fun m =>
      ((Evaluation.call ⟨2, 0⟩ {}).request.run 9 [] m).any fun q => decide (q.2.Addressable ∧
        ((Evaluation.call ⟨2, 0⟩ {}).journal 9 m).visits.map (·.result.isOk) = [true, false, false] ∧
        q.2.isComputed (.cells ⟨0, 0⟩ .empty) = true)) = true := by decide +kernel
  obtain ⟨m, hm, hcall⟩ := (Option.any_eq_true _ _).1 hrun
  obtain ⟨⟨r, m'⟩, hq, hfacts⟩ := (Option.any_eq_true _ _).1 hcall
  obtain ⟨room, hjournal, hkept⟩ := of_decide_eq_true hfacts
  have hreach : Reachable m := ⟨_, .new "doc" {}, Request.becomes_of_runAll caughtRequests hm⟩
  exact ⟨m, r, m', hm, hq, room, hjournal, hkept, Reachable.evaluated hreach hq room⟩

end Recalc
