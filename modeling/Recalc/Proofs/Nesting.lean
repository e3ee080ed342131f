import Recalc.Proofs.LazyReads
import Recalc.Proofs.RejectedEdits

set_option autoImplicit false

/-!
# How deep formulas nest

Cells that are asked for run their formula inside the one that asks, and so does the binder of a
space that is called. The limit on depth counts the nodes on the stack, which are those of cells:
however calls of cells and of spaces alternate, no formula starts while more nodes than the limit
allows are under evaluation, and cells that would be one too many fail. A binder has no node. Where
no space has one, formulas nest no deeper than the limit; where one has, they nest as deep as the
binder likes.
-/

namespace Recalc.Model

open Recalc.Action

variable {m m' : Model}

/-! ## What evaluation leaves as it is -/

structure Steadies (m m' : Model) : Prop where
  retains : Retains m m'
  config : m'.config = m.config
  declared : ∀ id s' spec, m'.spaces.get? id = some s' → s'.signature = some spec →
    ∃ s, m.spaces.get? id = some s ∧ s.signature = some spec

instance : Frame Steadies where
  refl m := ⟨Frame.refl m, rfl, fun _ s _ hs hspec => ⟨s, hs, hspec⟩⟩
  trans h h' := by
    refine ⟨Frame.trans h.retains h'.retains, h'.config.trans h.config,
      fun id s spec hs hspec => ?_⟩
    obtain ⟨s₁, hs₁, hspec₁⟩ := h'.declared id s spec hs hspec
    exact h.declared id s₁ spec hs₁ hspec₁

theorem Steadies.depth (h : Steadies m m') : m'.stack.depth = m.stack.depth := by
  rw [m'.stack.depth_eq, m.stack.depth_eq, h.retains.stack]

theorem steadies_of_spaces (hstack : m'.stack.nodes = m.stack.nodes)
    (hspaces : m'.spaces = m.spaces) (hconfig : m'.config = m.config) : Steadies m m' := by
  refine ⟨retains_of_spaces hstack hspaces, hconfig, fun id s spec hs hspec => ?_⟩
  rw [hspaces] at hs
  exact ⟨s, hs, hspec⟩

theorem steadies_noteRead (n : Node) (m : Model) : Steadies m (noteRead n m) := by
  refine steadies_of_spaces (by rw [stack_noteRead]) (spaces_noteRead n m) ?_
  unfold noteRead
  split <;> rfl

theorem steadies_modifySpace (m : Model) (id : SpaceId) (f : Space → Space)
    (hf : ∀ s, (f s).kind = s.kind ∧ (f s).signature = s.signature) :
    Steadies m (m.modifySpace id f) := by
  refine ⟨retains_modifySpace m id f hf, rfl, fun other s spec hs hspec => ?_⟩
  have hget := Pool.get?_modify m.spaces id other f
  by_cases h : id = other
  · subst h
    rw [if_pos rfl] at hget
    obtain ⟨t, ht, heq⟩ := Option.map_eq_some_iff.1 (hget.symm.trans hs)
    exact ⟨t, ht, (hf t).2.symm.trans ((congrArg Space.signature heq).trans hspec)⟩
  · rw [if_neg h] at hget
    exact ⟨s, hget.symm.trans hs, hspec⟩

theorem steadies_addSpace (ht : m.Tidy) {s : Space} (hs : s.signature = none) :
    Steadies m (m.addSpace s).2 := by
  refine ⟨retains_addSpace ht s, rfl, fun other t spec hother hspec => ?_⟩
  rcases Pool.insert_cases ht.spaces s with hfresh | hsame
  · have hget := (hfresh.2 other).symm.trans hother
    split at hget
    next =>
      cases hget
      rw [hs] at hspec
      contradiction
    next => exact ⟨t, hget, hspec⟩
  · exact ⟨t, (hsame other).symm.trans hother, hspec⟩

theorem steadies_copyCells (m : Model) (replica counterpart : SpaceId) :
    Steadies m (m.copyCells replica counterpart) := by
  unfold copyCells
  split
  · exact Frame.refl m
  · refine foldl_keeps (P := Steadies m) (fun m' c h => Frame.trans h ?_) _ (Frame.refl m)
    have hinsert : Steadies m' { m' with cells := (m'.cells.insert (copyOf replica c)).2 } :=
      steadies_of_spaces rfl rfl rfl
    exact Frame.trans hinsert (steadies_modifySpace _ _ _ fun s => ⟨rfl, rfl⟩)

theorem steadies_addReplica (ht : m.Tidy) {s : Space} (hs : s.signature = none)
    {counterpart id : SpaceId} (h : m.addReplica s counterpart = (id, m')) : Steadies m m' := by
  cases h
  exact Frame.trans (steadies_addSpace ht hs) (steadies_copyCells _ _ _)

theorem steadies_ensureChild {parent : SpaceId} {name : String} {r : Except Failure SpaceId}
    (ht : m.Tidy) (h : ensureChild parent name m = some (r, m')) : Steadies m m' := by
  rcases ensureChild_cases h with ⟨rfl, -⟩ |
      ⟨s, root, c, source, counterpart, child, m₁, -, -, -, -, -, -, hadd, rfl, -⟩
  · exact Frame.refl _
  · exact Frame.trans (steadies_addReplica ht rfl hadd)
      (steadies_modifySpace m₁ parent _ fun _ => ⟨rfl, rfl⟩)

theorem steadies_ensureItem {id : SpaceId} {key : Key} {r : Except Failure Handle}
    (ht : m.Tidy) (h : ensureItem id key m = some (r, m')) : Steadies m m' := by
  rcases ensureItem_cases h with ⟨rfl, -⟩ | ⟨s, hs, ⟨item, hitem, rfl, -⟩ |
      ⟨c, item, m₁, -, -, hadd, rfl, -⟩⟩
  · exact Frame.refl _
  · exact steadies_noteRead _ m
  · have hlist : Steadies m₁ (m₁.listItem id key item) :=
      steadies_modifySpace m₁ id _ fun _ => ⟨rfl, rfl⟩
    exact Frame.trans (steadies_addReplica ht rfl hadd)
      (Frame.trans hlist (steadies_noteRead _ _))

theorem config_finish {id : CellId} {key : Key} {q r : Except Failure Value}
    (h : finish id key q m = some (r, m')) : m'.config = m.config := by
  unfold finish at h
  cases q with
  | error e =>
    cases h
    rfl
  | ok v =>
    simp only [read_bind] at h
    cases hc : m.cell id with
    | error e =>
      rw [hc] at h
      cases h
      rfl
    | ok c =>
      cases hstore : c.contents.store? key v with
      | none =>
        simp only [hc, hstore] at h
        cases h
        rfl
      | some contents =>
        simp only [hc, hstore] at h
        cases h
        exact (steadies_noteRead _ _).config

theorem steadies_compute {run : RunFormula} {id : CellId} {c : Cells} {key : Key}
    {r : Except Failure Value}
    (hrun : ∀ stack f q m₁, m.stack.push? (.cells id key) = some stack →
      run c.space f key.values { m with stack } = some (q, m₁) → Steadies { m with stack } m₁)
    (h : compute run id c key m = some (r, m')) : Steadies m m' := by
  rcases compute_cases h with ⟨rfl, -⟩ | ⟨stack, q, m₁, hpush, -, hcells, hfinish⟩
  · exact Frame.refl _
  have hran : Steadies { m with stack } m₁ := by
    rcases runCells_cases hcells with ⟨-, rfl, -⟩ | ⟨f, r, -, hf, -⟩
    · exact Frame.refl _
    · exact hrun stack f r m₁ hpush hf
  obtain ⟨halike, hretains⟩ := alike_finish hfinish
  have hpop : m₁.stack.pop.nodes = m.stack.nodes := by
    rw [Stack.nodes_pop, hran.retains.stack, Stack.nodes_of_push? hpush, List.tail_cons]
  refine ⟨⟨hretains.stack.trans hpop, fun other s hs => ?_⟩,
    (config_finish hfinish).trans hran.config, fun other s spec hs hspec => ?_⟩
  · rw [halike.spaces]
    exact hran.retains.spaces other s hs
  · rw [halike.spaces] at hs
    exact hran.declared other s spec hs hspec

theorem evaluationFrame_steadies : EvaluationFrame (Tracked fun _ => False) Steadies where
  frame := inferInstance
  start m h := ⟨(evaluationFrame_tracked.start m h).1, steadies_of_spaces rfl rfl rfl⟩
  note m n hn h := ⟨(evaluationFrame_tracked.note m n hn h).1, steadies_noteRead n m⟩
  child parent name m r m' h ht :=
    ⟨(evaluationFrame_tracked.child parent name m r m' h ht).1, steadies_ensureChild ht.tidy h⟩
  signature _ _ h _ _ hspec := h.retains.signature hspec
  item id key m r m' hkey h ht :=
    ⟨(evaluationFrame_tracked.item id key m r m' hkey h ht).1, steadies_ensureItem ht.tidy h⟩
  node run hrun id c key m r m' hc hnone h ht := by
    have hretains : ∀ id f args, Obeys (Under (Tracked fun _ => False) Retains) (run id f args) :=
      fun id f args m r m' h ht => (hrun id f args m r m' h ht).imp_right (·.retains)
    exact ⟨(evaluationFrame_tracked.node run hretains id c key m r m' hc hnone h ht).1,
      steadies_compute (fun stack f q m₁ hpush hf =>
        (hrun _ _ _ _ _ _ hf (tracked_push ht hpush (cell_eq_ok.1 hc) hnone)).2) h⟩

/-! ## Formulas inside one another -/

/-- Formulas run as before, but there is no outcome when one starts while more nodes than the limit
allows are under evaluation. -/
def runShallow : Nat → RunFormula
  | 0 => fun _ _ _ => exhausted
  | fuel + 1 => fun id f args => do
    let m ← get
    if m.config.maxDepth < m.stack.depth then exhausted
    else
      match f.rule with
      | .constant v => pure v
      | .computed body _ => do
        modify fun m => { m with runs := m.runs + 1 }
        runBody (answer (runShallow fuel) id) (body args)

def Unbound (m : Model) : Prop :=
  ∀ id s spec, m.spaces.get? id = some s → s.signature = some spec → spec.binder = none

structure Nests (unbound : Prop) (limit depth : Nat) (m : Model) : Prop where
  tracked : m.Tracked fun _ => False
  maxDepth : m.config.maxDepth = limit
  height : m.stack.depth = depth
  shallow : depth ≤ limit
  unbound : unbound → m.Unbound

/-- Two outcomes are the same, and there is none only if the fuel was not enough. -/
inductive SameEnd (enough : Prop) {α : Type} :
    Option (Except Failure α × Model) → Option (Except Failure α × Model) → Prop
  | exhausted : ¬ enough → SameEnd enough none none
  | ended (o : Except Failure α × Model) : SameEnd enough (some o) (some o)

theorem Unbound.signature (h : m.Unbound) {id : SpaceId} {spec : Signature}
    (hspec : m.signature id = .ok spec) : spec.binder = none := by
  obtain ⟨c, -, hspec⟩ := except_bind_eq_ok.1 hspec
  obtain ⟨source, hs, hspec⟩ := except_bind_eq_ok.1 hspec
  cases hsource : source.signature with
  | none =>
    rw [hsource] at hspec
    cases hspec
  | some spec' =>
    rw [hsource] at hspec
    cases hspec
    exact h c source _ (space_eq_ok.1 hs) hsource

section Nesting

variable {unbound enough : Prop} {limit fuel depth : Nat} {α β : Type}

theorem Nests.next (h : Nests unbound limit depth m)
    (hnext : Under (Tracked fun _ => False) Steadies m m') : Nests unbound limit depth m' := by
  obtain ⟨htracked, hsteadies⟩ := hnext h.tracked
  refine ⟨htracked, ?_, hsteadies.depth.trans h.height, h.shallow, fun hu id s spec hs hspec => ?_⟩
  · rw [hsteadies.config, h.maxDepth]
  · obtain ⟨t, ht, htspec⟩ := hsteadies.declared id s spec hs hspec
    exact h.unbound hu id t spec ht htspec

theorem Nests.pushed (h : Nests unbound limit depth m) (hroom : m.stack.depth < m.config.maxDepth)
    {id : CellId} {c : Cells} {key : Key} {stack : Stack}
    (hpush : m.stack.push? (.cells id key) = some stack) (hc : m.cells.get? id = some c)
    (hnone : c.contents.get? key = none) : Nests unbound limit (depth + 1) { m with stack } where
  tracked := tracked_push h.tracked hpush hc hnone
  maxDepth := h.maxDepth
  height := by
    rw [stack.depth_eq, Stack.nodes_of_push? hpush, List.length_cons, ← m.stack.depth_eq, h.height]
  shallow := by
    rw [h.height, h.maxDepth] at hroom
    exact hroom
  unbound := h.unbound

theorem SameEnd.of_total {x : Action α} (hx : Total x) (m : Model) :
    SameEnd enough (x m) (x m) := by
  obtain ⟨r, m', hr⟩ := hx m
  rw [hr]
  exact .ended _

theorem SameEnd.bind {x y : Action α} {k l : α → Action β} (h : SameEnd enough (x m) (y m))
    (hk : ∀ a m', y m = some (.ok a, m') → SameEnd enough (k a m') (l a m')) :
    SameEnd enough ((x >>= k) m) ((y >>= l) m) := by
  rw [bind_apply, bind_apply]
  generalize x m = o, y m = o' at h hk
  cases h with
  | exhausted hshort => exact .exhausted hshort
  | ended o =>
    obtain ⟨e | a, m'⟩ := o
    · exact .ended _
    · exact hk a m' rfl

theorem SameEnd.read_bind {f : Model → Except Failure α} {k l : α → Action β}
    (hk : ∀ a, f m = .ok a → SameEnd enough (k a m) (l a m)) :
    SameEnd enough ((Action.read f >>= k) m) ((Action.read f >>= l) m) := by
  rw [Action.read_bind, Action.read_bind]
  cases hf : f m with
  | error e => exact .ended _
  | ok a => exact hk a hf

theorem SameEnd.attempt {x y : Action α} (h : SameEnd enough (x m) (y m)) :
    SameEnd enough (attempt x m) (attempt y m) := by
  unfold Action.attempt
  generalize x m = o, y m = o' at h
  cases h with
  | exhausted hshort => exact .exhausted hshort
  | ended o => exact .ended _

theorem SameEnd.mono {enough' : Prop} (h : enough' → enough)
    {o o' : Option (Except Failure α × Model)} (hsame : SameEnd enough o o') :
    SameEnd enough' o o' := by
  cases hsame with
  | exhausted hshort => exact .exhausted fun henough => hshort (h henough)
  | ended o => exact .ended o

theorem total_finish (id : CellId) (key : Key) (r : Except Failure Value) :
    Total (finish id key r) := by
  intro m
  unfold finish
  cases r with
  | error e => exact ⟨_, _, rfl⟩
  | ok v =>
    simp only [read_bind]
    cases m.cell id with
    | error e => exact ⟨_, _, rfl⟩
    | ok c =>
      cases hstore : c.contents.store? key v with
      | none =>
        simp only [hstore]
        exact ⟨_, _, rfl⟩
      | some contents =>
        simp only [hstore]
        exact ⟨_, _, rfl⟩

theorem total_ensureItem (id : SpaceId) (key : Key) : Total (ensureItem id key) := by
  unfold ensureItem
  refine (total_read _).bind fun s => Total.bind (fun m => ⟨.ok m, m, rfl⟩) fun m => ?_
  split
  · exact Total.bind (fun m => ⟨_, _, rfl⟩) fun _ => total_read _
  · refine Total.bind ?_ fun item => Total.bind (fun m => ⟨_, _, rfl⟩) fun _ => total_read _
    exact (total_read _).bind fun _ => (total_read _).bind fun _ m => ⟨_, _, rfl⟩

theorem total_enter (n : Node) : Total (enter n) := by
  intro m
  unfold enter
  rw [get_bind]
  split
  · exact ⟨_, _, rfl⟩
  · cases m.stack.push? n with
    | none => exact ⟨_, _, rfl⟩
    | some stack => exact ⟨_, _, rfl⟩

theorem enter_eq_ok {n : Node} {m' : Model} (h : enter n m = some (.ok (), m')) :
    m.stack.depth < m.config.maxDepth ∧ ∃ stack, m.stack.push? n = some stack ∧
      m' = { m with stack } := by
  rcases enter_cases h with ⟨-, e, he⟩ | ⟨stack, hpush, -, rfl⟩
  · cases he
  · refine ⟨Nat.lt_of_not_le fun hfull => ?_, stack, hpush, rfl⟩
    unfold enter at h
    rw [get_bind, if_pos hfull] at h
    cases h

end Nesting

section Runs

/-- Formulas end alike wherever no more nodes than the limit allows are under evaluation. -/
def RunsSame (unbound : Prop) (limit fuel : Nat) (run run' : RunFormula) : Prop :=
  ∀ id f args depth m, Nests unbound limit depth m →
    SameEnd (unbound ∧ limit < fuel + depth) (run id f args m) (run' id f args m)

variable {unbound : Prop} {limit fuel depth : Nat} {run run' : RunFormula}
  (hrun : RunsSame unbound limit fuel run run')
  (hobeys : ∀ id f args, Obeys (Under (Tracked fun _ => False) Steadies) (run' id f args))

include hrun

theorem Nests.compute (h : Nests unbound limit depth m) {id : CellId} {c : Cells}
    {key : Key} (hc : m.cells.get? id = some c) (hnone : c.contents.get? key = none) :
    SameEnd (unbound ∧ limit ≤ fuel + depth) (compute run id c key m)
      (compute run' id c key m) := by
  unfold Model.compute
  refine .bind (.of_total (total_enter _) m) fun _ m₁ henter => ?_
  obtain ⟨hroom, stack, hpush, rfl⟩ := enter_eq_ok henter
  have hpushed := h.pushed hroom hpush hc hnone
  have henough : unbound ∧ limit ≤ fuel + depth → unbound ∧ limit < fuel + (depth + 1) :=
    And.imp_right fun hle => by omega
  unfold runCells
  simp only [bind_assoc]
  refine .bind (.attempt ?_) fun r m₂ _ => ?_
  · cases c.formula with
    | none => exact .of_total (total_pure _) _
    | some f => exact (hrun c.space f key.values _ _ hpushed).mono henough
  · exact .of_total (fun m => total_finish id key (outcome id (.cells id key) r m)
      { m with stack := m.stack.pop }) m₂

theorem Nests.evaluateKey (h : Nests unbound limit depth m) (id : CellId) (key : Key) :
    SameEnd (unbound ∧ limit ≤ fuel + depth) (evaluateKey run id key m)
      (evaluateKey run' id key m) := by
  unfold Model.evaluateKey
  refine .read_bind fun c hc => ?_
  cases hv : c.contents.get? key with
  | some v => exact .of_total (fun m => ⟨_, _, rfl⟩) m
  | none => exact h.compute hrun (cell_eq_ok.1 hc) hv

theorem Nests.evaluate (h : Nests unbound limit depth m) (id : CellId) (a : Arguments) :
    SameEnd (unbound ∧ limit ≤ fuel + depth) (evaluate run id a m) (evaluate run' id a m) := by
  unfold Model.evaluate
  exact .read_bind fun key _ => h.evaluateKey hrun id key

theorem Nests.itemKey (h : Nests unbound limit depth m) (id : SpaceId) (a : Arguments) :
    SameEnd (unbound ∧ limit ≤ fuel + depth) (itemKey run id a m) (itemKey run' id a m) := by
  unfold Model.itemKey
  refine .read_bind fun spec hspec => .read_bind fun bound _ => ?_
  cases hbinder : spec.binder with
  | none => exact .of_total (fun m => ⟨_, _, rfl⟩) m
  | some binder =>
    have hno : ¬ unbound := by
      intro hu
      have hnone := (h.unbound hu).signature hspec
      rw [hbinder] at hnone
      contradiction
    refine .bind (.attempt ((hrun id binder bound depth m h).mono fun h => absurd h.1 hno))
      fun r m₁ _ => ?_
    cases r with
    | error e => exact .of_total (total_read _) m₁
    | ok given => exact .of_total (total_read _) m₁

theorem Nests.instantiate (h : Nests unbound limit depth m) (id : SpaceId) (a : Arguments) :
    SameEnd (unbound ∧ limit ≤ fuel + depth) (instantiate run id a m)
      (instantiate run' id a m) :=
  .bind (h.itemKey hrun id a) fun key m' _ => .of_total (total_ensureItem id key) m'

theorem Nests.applyCall (h : Nests unbound limit depth m) (name : String)
    (call : Option Arguments) (v : Value) : SameEnd (unbound ∧ limit ≤ fuel + depth)
      (applyCall run name call v m) (applyCall run' name call v m) := by
  unfold Model.applyCall
  split
  · exact .of_total (total_pure _) m
  · exact .bind (h.instantiate hrun _ _) fun _ m' _ => .of_total (total_pure _) m'
  · exact .of_total (total_fail _) m

theorem Nests.readName (h : Nests unbound limit depth m) (id : SpaceId) (name : String)
    (call : Option Arguments) : SameEnd (unbound ∧ limit ≤ fuel + depth)
      (readName run id name call m) (readName run' id name call m) := by
  have hplace : ∀ {m : Model} (target : Place), Nests unbound limit depth m →
      SameEnd (unbound ∧ limit ≤ fuel + depth)
        ((handleValue target >>= Model.applyCall run name call) m)
        ((handleValue target >>= Model.applyCall run' name call) m) := by
    intro m target h
    refine .bind (.of_total (total_handleValue target) m) fun v m' hv => ?_
    exact (h.next (evaluationFrame_steadies.handleValue target m _ m' hv)).applyCall hrun _ _ v
  unfold Model.readName
  refine .read_bind fun found hfound => ?_
  cases found with
  | cells c => exact h.evaluate hrun c _
  | space target => exact hplace target h
  | ref r target =>
    obtain ⟨v, hv⟩ := refs_of_meaning hfound
    have hnoted := h.next (evaluationFrame_steadies.note m _ (isLive_ref_of_meaning hv))
    cases target with
    | value v => exact hnoted.applyCall hrun _ _ v
    | space target => exact hplace target hnoted
  | param v => exact h.applyCall hrun _ _ v
  | model => exact h.applyCall hrun _ _ _

theorem Nests.answer (h : Nests unbound limit depth m) (id : SpaceId) (q : Query) :
    SameEnd (unbound ∧ limit ≤ fuel + depth) (answer run id q m) (answer run' id q m) := by
  cases q with
  | lookup place name call => exact h.readName hrun _ name call
  | item x args =>
    exact .bind (h.instantiate hrun x.id _) fun _ m' _ => .of_total (total_pure _) m'
  | argValues x =>
    exact .of_total ((total_read _).bind fun vs => by cases vs <;> exact total_pure _) m
  | here => exact .of_total ((total_read _).bind fun _ => total_pure _) m
  | modelName => exact .of_total (fun m => ⟨_, _, rfl⟩) m
  | depth => exact .of_total (fun m => ⟨_, _, rfl⟩) m

include hobeys

theorem Nests.runBody (h : Nests unbound limit depth m) (id : SpaceId) (body : Body Value) :
    SameEnd (unbound ∧ limit ≤ fuel + depth) (runBody (Model.answer run id) body m)
      (runBody (Model.answer run' id) body m) := by
  induction body generalizing m with
  | done r => exact .of_total (fun m => ⟨r, m, rfl⟩) m
  | ask q resume ih =>
    refine .bind (.attempt (h.answer hrun id q)) fun r m' hr => ih r (h.next ?_)
    exact obeys_attempt (evaluationFrame_steadies.answer hobeys id q) m _ m' hr

end Runs

/-- No formula starts while too many nodes are under evaluation. Where there is no binder, formulas
end when the fuel is as much as nodes can still be put on the stack. -/
theorem runsSame_shallow (unbound : Prop) (limit fuel : Nat) :
    RunsSame unbound limit fuel (runShallow fuel) (runFormula fuel) := by
  induction fuel with
  | zero =>
    intro id f args depth m h
    have := h.shallow
    exact .exhausted fun h => by omega
  | succ fuel ih =>
    intro id f args depth m h
    have henough : unbound ∧ limit < fuel + 1 + depth → unbound ∧ limit ≤ fuel + depth :=
      And.imp_right fun hlt => by omega
    have hshallow : ¬ m.config.maxDepth < m.stack.depth := by
      rw [h.maxDepth, h.height]
      exact Nat.not_lt.2 h.shallow
    unfold runShallow runFormula
    rw [get_bind, if_neg hshallow]
    cases f.rule with
    | constant v => exact .of_total (total_pure v) m
    | computed body kept =>
      have hnext := h.next (evaluationFrame_steadies.start m)
      have hbody := hnext.runBody ih (evaluationFrame_steadies.runFormula fuel) id (body args)
      exact hbody.mono henough

theorem SameEnd.map {enough : Prop} {α β : Type} {m : Model} {x y : Action α} (f : α → β)
    (h : SameEnd enough (x m) (y m)) : SameEnd enough ((f <$> x) m) ((f <$> y) m) := by
  rw [map_eq_pure_bind, map_eq_pure_bind]
  exact .bind h fun a m' _ => .of_total (total_pure _) m'

theorem SameEnd.eq {enough : Prop} {α : Type} {o o' : Option (Except Failure α × Model)}
    (h : SameEnd enough o o') : o = o' := by
  cases h <;> rfl

theorem SameEnd.exists {enough : Prop} {α : Type} {o o' : Option (Except Failure α × Model)}
    (h : SameEnd enough o o') (henough : enough) : ∃ r m', o' = some (r, m') := by
  cases h with
  | exhausted hshort => exact absurd henough hshort
  | ended o => exact ⟨o.1, o.2, rfl⟩

end Recalc.Model

namespace Recalc

open Recalc.Model Recalc.Action

inductive Demand where
  | call (id : CellId) (a : Arguments)
  | selectInstance (id : SpaceId) (a : Arguments)
  | readFrom (id : SpaceId) (name : String)
  | discardInstance (id : SpaceId) (args : List Value)

namespace Demand

def request : Demand → Request
  | .call id a => .call id a
  | .selectInstance id a => .selectInstance id a
  | .readFrom id name => .readFrom id name
  | .discardInstance id args => .discardInstance id args

def meet (run : RunFormula) (held : List Handle) : Demand → Action Reply
  | .call id a => Reply.value <$> (reclaimFirst held >>= fun _ => evaluate run id a)
  | .selectInstance id a => Reply.handle <$> (reclaimFirst held >>= fun _ => instantiate run id a)
  | .readFrom id name => Reply.value <$> (reclaimFirst held >>= fun _ => readName run id name none)
  | .discardInstance id args => Reply.flag <$> do
    let key ← itemKey run id { positional := args }
    let _ ← read (·.space id)
    update (·.removeInstance id key)

theorem run_request (fuel : Nat) (held : List Handle) (d : Demand) :
    d.request.run fuel held = d.meet (runFormula fuel) held := by
  cases d <;> rfl

end Demand

theorem Reachable.nests {m : Model} (h : Reachable m) :
    Nests m.Unbound m.config.maxDepth 0 m where
  tracked := h.calm.toTracked
  maxDepth := rfl
  height := by rw [Stack.depth_eq, h.calm.idle, List.length_nil]
  shallow := Nat.zero_le _
  unbound := id

theorem Reachable.nests_ready {m : Model} (h : Reachable m) (room : m.Addressable)
    (held : List Handle) : Nests m.Unbound m.config.maxDepth 0 (m.ready held) := by
  have hsifted := h.sifted room held
  refine ⟨hsifted.calm.toTracked, ?_, ?_, Nat.zero_le _, fun hu id s spec hs hspec => ?_⟩
  · rw [hsifted.settings.config]
  · rw [Stack.depth_eq, hsifted.calm.idle, List.length_nil]
  · obtain ⟨t, ht, heq, -⟩ := hsifted.drops.space id s hs
    rw [heq] at hspec
    exact hu id t spec ht hspec

/-- However cells and spaces call one another, no formula starts while more nodes than the limit
allows are under evaluation, and cells that would be one too many fail. Where no space has a binder,
formulas nest no deeper than the limit. -/
theorem Reachable.nesting {m : Model} (h : Reachable m) (room : m.Addressable) (fuel : Nat)
    (held : List Handle) (d : Demand) :
    d.request.run fuel held m = d.meet (runShallow fuel) held m ∧
    (m.Unbound → m.config.maxDepth ≤ fuel → ∃ r m', d.request.run fuel held m = some (r, m')) ∧
    ∀ (m₁ : Model) run id c key, m₁.cells.get? id = some c → c.contents.get? key = none →
      m₁.stack.depth = m₁.config.maxDepth → evaluateKey run id key m₁ =
        some (.error (.tooDeep (m₁.config.maxDepth + 1) m₁.config.maxDepth), m₁) := by
  have hsame : SameEnd (m.Unbound ∧ m.config.maxDepth ≤ fuel + 0)
      (d.meet (runShallow fuel) held m) (d.meet (runFormula fuel) held m) := by
    have hrun := runsSame_shallow m.Unbound m.config.maxDepth fuel
    have hready := h.nests_ready room held
    cases d with
    | call id a => exact .map _ (hready.evaluate hrun id a)
    | selectInstance id a => exact .map _ (hready.instantiate hrun id a)
    | readFrom id name => exact .map _ (hready.readName hrun id name none)
    | discardInstance id args =>
      refine .map _ (.bind (h.nests.itemKey hrun id _) fun key m' _ => .of_total ?_ m')
      exact (total_read _).bind fun _ m => ⟨_, _, rfl⟩
  rw [Demand.run_request]
  refine ⟨hsame.eq.symm, fun hu hfuel => hsame.exists ⟨hu, hfuel⟩,
    fun m₁ run id c key hc hnone hfull => ?_⟩
  unfold evaluateKey
  rw [read_bind, cell_eq_ok.2 hc]
  simp only [hnone]
  refine (bind_eq_some m₁).2 (.inr ⟨_, ?_, rfl⟩)
  unfold enter
  rw [get_bind, if_pos hfull.ge, hfull]
  rfl

theorem Model.unbound_of_entries {m : Model} (room : m.Addressable)
    (h : m.spaces.entries.all (fun e => (e.2.signature.bind (·.binder)).isNone) = true) :
    m.Unbound := by
  intro id s spec hs hspec
  have hnone := List.all_eq_true.1 h (id, s) ((Pool.mem_entries room.1).2 hs)
  simpa [hspec] using hnone

def readingFormula (ident : Nat) (name : String) : Formula where
  ident := ident
  params := []
  rule := .computed (fun _ => Body.query (.lookup none name none)) []

def chainRequests : List Request :=
  [.createSpace none "T", .defineCells ⟨0, 0⟩ "a" (some (readingFormula 1 "b")),
    .defineCells ⟨0, 0⟩ "b" (some (readingFormula 2 "c")),
    .defineCells ⟨0, 0⟩ "c" (some (.constant 3 (.int 1)))]

/-- With a limit of two, `a` and `b` run inside one another and `c` is one too many. -/
theorem chain_nesting : ∃ m m', Request.runAll 2 [] chainRequests
      { name := "doc", config := { maxDepth := 2 } } = some m ∧ m.Unbound ∧
    m.config.maxDepth ≤ 2 ∧
    (Demand.call ⟨0, 0⟩ {}).request.run 2 [] m = some (.error (.tooDeep 3 2), m') ∧
    (Demand.call ⟨0, 0⟩ {}).meet (runShallow 2) [] m = some (.error (.tooDeep 3 2), m') ∧
    (∃ r m', (Demand.call ⟨0, 0⟩ {}).request.run 2 [] m = some (r, m')) := by
  obtain ⟨m, e, m', hm, hrun, hfacts⟩ := Request.exists_rejection 2 chainRequests
    { name := "doc", config := { maxDepth := 2 } } ((Demand.call ⟨0, 0⟩ {}).request.run 2 [])
    (fun m e _ => decide (m.Addressable ∧ m.config.maxDepth ≤ 2 ∧ e = .tooDeep 3 2 ∧
      m.spaces.entries.all (fun e => (e.2.signature.bind (·.binder)).isNone) = true))
    (by decide +kernel)
  obtain ⟨room, hlimit, rfl, hentries⟩ := of_decide_eq_true hfacts
  have hunbound := unbound_of_entries room hentries
  obtain ⟨hshallow, hends, -⟩ := Reachable.nesting
    ⟨_, .new "doc" { maxDepth := 2 }, Request.becomes_of_runAll chainRequests hm⟩ room 2 []
    (.call ⟨0, 0⟩ {})
  exact ⟨m, m', hm, hunbound, hlimit, hrun, hshallow.symm.trans hrun, hends hunbound hlimit⟩

/-- A binder that selects an instance for each smaller number before its own. -/
def countdownFormula : Formula where
  ident := 1
  params := [{ name := "n" }]
  rule := .computed (fun args => do
    let n ← Body.ofExcept (args.getD 0 .empty).toInt
    if n == 0 then return .int n
    let here ← Body.query .here
    let _ ← Body.query (.item (← Body.ofExcept here.toSpace) [.int (n - 1)])
    return .int n) []

def countdownRequests : List Request :=
  [.createSpace none "T", .declareParams ⟨0, 0⟩ [{ name := "n" }] (some countdownFormula)]

/-- The limit is two, but five binders run inside one another. -/
theorem countdown_nests : ∃ m, Request.runAll 5 [] countdownRequests
      { name := "doc", config := { maxDepth := 2 } } = some m ∧ m.config.maxDepth = 2 ∧
    selectInstance 4 [] ⟨0, 0⟩ { positional := [.int 4] } m = none ∧
    ∃ h m', selectInstance 5 [] ⟨0, 0⟩ { positional := [.int 4] } m = some (.ok h, m') := by
  have hrun : ((Request.runAll 5 [] countdownRequests
      { name := "doc", config := { maxDepth := 2 } }).any fun m =>
      decide (m.config.maxDepth = 2) &&
      (selectInstance 4 [] ⟨0, 0⟩ { positional := [.int 4] } m).isNone &&
      (selectInstance 5 [] ⟨0, 0⟩ { positional := [.int 4] } m).any fun o =>
        o.1.toOption.isSome) = true := by
    decide +kernel
  obtain ⟨m, hm, hrun⟩ := (Option.any_eq_true _ _).1 hrun
  rw [Bool.and_eq_true, Bool.and_eq_true, decide_eq_true_eq, Option.isNone_iff_eq_none] at hrun
  obtain ⟨⟨hlimit, hshort⟩, hends⟩ := hrun
  obtain ⟨⟨r, m'⟩, ho, hr⟩ := (Option.any_eq_true _ _).1 hends
  obtain ⟨x, hx⟩ := Option.isSome_iff_exists.1 hr
  rw [toOption_eq_some] at hx
  obtain rfl : r = .ok x := hx
  exact ⟨m, hm, hlimit, hshort, x, m', ho⟩

end Recalc
