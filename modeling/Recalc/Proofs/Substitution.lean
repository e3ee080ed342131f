import Recalc.Proofs.Evaluations
import Recalc.Proofs.Keeping
import Recalc.Proofs.OwnedNames
import Recalc.Proofs.Provenance
import Recalc.Proofs.Substituted
import Recalc.Shop

set_option autoImplicit false

/-!
# An instance computes what its substituted space computes

Two evaluations run side by side, one in an instance and one in the space of another model that has
the arguments in place of the parameters. Between any two steps their stacks hold paired nodes and
paired cells hold the same values. So every question of a plain formula gets matching answers, and
the evaluations end with matching outcomes, or both want more fuel.
-/

namespace Recalc.Model

open Recalc.Action

theorem Alike.setting {m m₁ : Model} (h : Alike m m₁) (s : Space) (name : String) :
    m₁.setting s name = m.setting s name := by
  unfold Model.setting
  cases s.cells.get? name with
  | none => rfl
  | some c =>
    have hcells := h.cells c
    rw [Option.bind_some, Option.bind_some]
    cases hd : m.cells.get? c with
    | none =>
      rw [hd, Option.map_none, Option.map_eq_none_iff] at hcells
      rw [hcells]
    | some d =>
      rw [hd, Option.map_some] at hcells
      obtain ⟨d₁, hd₁, hbare⟩ := Option.map_eq_some_iff.1 hcells
      obtain ⟨hformula, hallow⟩ := formula_of_bare hbare
      rw [hd₁, Option.map_some, Option.map_some, hformula, hallow]

theorem Substituted.alike {m m₁ m' m₁' : Model} {s t : Space} {params : List Param} {args : Key}
    (h : m.Substituted s params args m' t) (halike : Alike m m₁) (halike' : Alike m' m₁')
    (hconfig : m₁.config = m.config) (hconfig' : m₁'.config = m'.config) :
    m₁.Substituted s params args m₁' t := by
  have hbound : ∀ t name, m₁.boundTo t name = m.boundTo t name := fun t name => by
    rw [boundTo, boundTo, halike.refs]
  have hbound' : ∀ t name, m₁'.boundTo t name = m'.boundTo t name := fun t name => by
    rw [boundTo, boundTo, halike'.refs]
  constructor
  case config => rw [hconfig, hconfig', h.config]
  case globals => simpa only [hbound, hbound', halike.globals, halike'.globals] using h.globals
  case allowNone => exact h.allowNone
  case cells => simpa only [halike.setting, halike'.setting] using h.cells
  case refs => simpa only [hbound, hbound'] using h.refs
  case arguments => simpa only [hbound'] using h.arguments
  case only => simpa only [hbound, hbound'] using h.only
  case plainRefs => simpa only [hbound] using h.plainRefs
  case plainArgs => exact h.plainArgs
  case plainGlobals => simpa only [hbound, halike.globals] using h.plainGlobals

structure SameValues (a b : Contents) : Prop where
  get? : ∀ k, a.get? k = b.get? k
  free : ∀ k, a.hasInput k = false
  free' : ∀ k, b.hasInput k = false

namespace Pairing

def TwinNodes (x : Pairing) (n n' : Node) : Prop :=
  ∃ c c' key, x.Twins c c' ∧ n = .cells c key ∧ n' = .cells c' key

/-- Two evaluations side by side, with `depth` nodes under evaluation each. -/
structure Twinned (x : Pairing) (limit depth : Nat) (m m' : Model) : Prop where
  holds : x.Holds m m'
  maxDepth : m.config.maxDepth = limit
  stack : List.Forall₂ x.TwinNodes m.stack.nodes m'.stack.nodes
  height : m.stack.nodes.length = depth
  shallow : depth ≤ limit
  stored : ∀ c c' d d', x.Twins c c' → m.cells.get? c = some d → m'.cells.get? c' = some d' →
    SameValues d.contents d'.contents

/-- Both evaluations want more fuel, and then they did not have enough of it, or they end with
outcomes that match and go on side by side. -/
inductive Agree (x : Pairing) (limit : Nat) (enough : Prop) (depth : Nat) {α : Type} :
    Option (Except Failure α × Model) → Option (Except Failure α × Model) → Prop
  | exhausted : ¬ enough → Agree x limit enough depth none none
  | ended {r r' : Except Failure α} {m m' : Model} : Matches r r' → x.Twinned limit depth m m' →
      Agree x limit enough depth (some (r, m)) (some (r', m'))

variable {x : Pairing} {limit depth : Nat} {enough : Prop} {m m' : Model}

theorem Holds.alike {m₁ m₁' : Model} (h : x.Holds m m') (halike : Alike m m₁)
    (halike' : Alike m' m₁') (hconfig : m₁.config = m.config)
    (hconfig' : m₁'.config = m'.config) : x.Holds m₁ m₁' where
  owned := halike.owned h.owned
  owned' := halike'.owned h.owned'
  lone := ⟨by rw [halike.spaces]; exact h.lone.live, h.lone.isStatic, h.lone.isRoot,
    h.lone.childless⟩
  other := ⟨by rw [halike'.spaces]; exact h.other.live, h.other.isStatic, h.other.isRoot,
    h.other.childless⟩
  substituted := h.substituted.alike halike halike' hconfig hconfig'
  signature := h.signature
  root := by rw [halike.spaces]; exact h.root
  kind := h.kind
  childless := h.childless
  copies := by simpa only [halike.setting] using h.copies
  length := h.length
  formulas := by simpa only [halike.setting] using h.formulas

/-- Paired cells are there, with the same plain formula and the same setting. -/
theorem Holds.twins (h : x.Holds m m') {c c' : CellId} (htwins : x.Twins c c') :
    ∃ d d', m.cells.get? c = some d ∧ m'.cells.get? c' = some d' ∧ d.space = x.item ∧
      d'.space = x.other ∧ d'.formula = d.formula ∧ d'.allowNone = d.allowNone ∧
      ∀ f, d.formula = some f → f.Plain := by
  obtain ⟨name, hc, hc'⟩ := htwins
  obtain ⟨d, hd, hspace, -⟩ := h.owned.cells_of_listed h.root hc
  obtain ⟨d', hd', hspace', -⟩ := h.owned'.cells_of_listed h.other.live hc'
  have hroot : m.setting x.root name = some (d.formula, d.allowNone) := by
    rw [setting, hc, Option.bind_some, hd, Option.map_some]
  have hplain : m'.setting x.plain name = some (d'.formula, d'.allowNone) := by
    rw [setting, hc', Option.bind_some, hd', Option.map_some]
  have hsource := (h.copies name).symm.trans hroot
  have hsame := hplain.symm.trans ((h.substituted.cells name).trans hsource)
  rw [Option.some.injEq, Prod.mk.injEq] at hsame
  refine ⟨d, d', hd, hd', hspace, hspace', hsame.1, hsame.2, fun f hf => ?_⟩
  rw [hf] at hsource
  exact h.formulas name f _ hsource

/-- Cells are paired with one partner. -/
theorem Holds.twins_inj (h : x.Holds m m') {c c' d d' : CellId} (hc : x.Twins c c')
    (hd : x.Twins d d') : c = d ↔ c' = d' := by
  obtain ⟨name, hc, hc'⟩ := hc
  obtain ⟨name', hd, hd'⟩ := hd
  constructor
  · rintro rfl
    obtain ⟨e, he, -, rfl⟩ := h.owned.cells_of_listed h.root hc
    obtain ⟨e', he', -, rfl⟩ := h.owned.cells_of_listed h.root hd
    cases he.symm.trans he'
    exact Option.some.inj (hc'.symm.trans hd')
  · rintro rfl
    obtain ⟨e, he, -, rfl⟩ := h.owned'.cells_of_listed h.other.live hc'
    obtain ⟨e', he', -, rfl⟩ := h.owned'.cells_of_listed h.other.live hd'
    cases he.symm.trans he'
    exact Option.some.inj (hc.symm.trans hd)

theorem Holds.beq_twins (h : x.Holds m m') {a a' b b' : Node} (ha : x.TwinNodes a a')
    (hb : x.TwinNodes b b') : (a == b) = (a' == b') := by
  obtain ⟨c, c', k, hc, rfl, rfl⟩ := ha
  obtain ⟨d, d', j, hd, rfl, rfl⟩ := hb
  have hiff := h.twins_inj hc hd
  have hentity : (Entity.cells c == Entity.cells d) = (Entity.cells c' == Entity.cells d') := by
    rw [Bool.eq_iff_iff, beq_iff_eq, beq_iff_eq, Entity.cells.injEq, Entity.cells.injEq]
    exact hiff
  rw [Graph.node_beq_iff, Graph.node_beq_iff]
  exact congrArg (· && (k == j)) hentity

/-- The policy of an instance is that of its static space. -/
theorem Holds.mayBeEmpty (h : x.Holds m m') {c c' : CellId} (htwins : x.Twins c c') :
    m.mayBeEmpty c = m'.mayBeEmpty c' := by
  obtain ⟨d, d', hd, hd', hspace, hspace', -, hallow, -⟩ := h.twins htwins
  have hpolicy : ∀ {m : Model} {id : SpaceId} {s : Space}, m.Lone id s →
      ((m.ancestry id).findSome? fun s => (m.spaces.get? s).bind (·.allowNone)) = s.allowNone := by
    intro m id s hlone
    rw [hlone.ancestry, List.findSome?_cons, hlone.live, Option.bind_some]
    cases s.allowNone <;> rfl
  unfold Model.mayBeEmpty
  simp only [hd, hd', hspace, hspace', hallow, counterpart_of_item h.root h.kind,
    counterpart_of_static h.other.live h.other.isStatic, hpolicy h.lone, hpolicy h.other,
    h.substituted.allowNone, h.substituted.config]

/-! ## Steps side by side -/

/-- Reads that are recorded and formulas that are counted do not come between the two. -/
theorem Twinned.graph (h : x.Twinned limit depth m m') (g g' : Graph) (runs runs' : Nat) :
    x.Twinned limit depth { m with graph := g, runs } { m' with graph := g', runs := runs' } where
  holds := h.holds.alike ⟨rfl, rfl, rfl, rfl, fun _ => rfl, rfl, fun h => h⟩
    ⟨rfl, rfl, rfl, rfl, fun _ => rfl, rfl, fun h => h⟩ rfl rfl
  maxDepth := h.maxDepth
  stack := h.stack
  height := h.height
  shallow := h.shallow
  stored := h.stored

theorem Twinned.noteRead (h : x.Twinned limit depth m m') (n n' : Node) :
    x.Twinned limit depth (noteRead n m) (noteRead n' m') := by
  obtain ⟨g, hg⟩ := noteRead_eq n m
  obtain ⟨g', hg'⟩ := noteRead_eq n' m'
  rw [hg, hg']
  exact h.graph g g' m.runs m'.runs

theorem Twinned.push (h : x.Twinned limit depth m m') {n n' : Node} {stack stack' : Stack}
    (hn : x.TwinNodes n n') (hpush : m.stack.push? n = some stack)
    (hpush' : m'.stack.push? n' = some stack') (hlt : depth < limit) :
    x.Twinned limit (depth + 1) { m with stack } { m' with stack := stack' } where
  holds := h.holds.alike (alike_stack m stack) (alike_stack m' stack') rfl rfl
  maxDepth := h.maxDepth
  stack := by
    show List.Forall₂ _ stack.nodes stack'.nodes
    rw [Stack.nodes_of_push? hpush, Stack.nodes_of_push? hpush']
    exact .cons hn h.stack
  height := by
    show stack.nodes.length = _
    rw [Stack.nodes_of_push? hpush, List.length_cons, h.height]
  shallow := hlt
  stored := h.stored

theorem Twinned.pop (h : x.Twinned limit (depth + 1) m m') :
    x.Twinned limit depth { m with stack := m.stack.pop } { m' with stack := m'.stack.pop } where
  holds := h.holds.alike (alike_stack m _) (alike_stack m' _) rfl rfl
  maxDepth := h.maxDepth
  stack := by
    show List.Forall₂ _ m.stack.pop.nodes m'.stack.pop.nodes
    rw [Stack.nodes_pop, Stack.nodes_pop]
    have hstack := h.stack
    generalize m.stack.nodes = nodes at hstack ⊢
    generalize m'.stack.nodes = nodes' at hstack ⊢
    cases hstack with
    | nil => exact .nil
    | cons _ hrest => exact hrest
  height := by
    show m.stack.pop.nodes.length = _
    rw [Stack.nodes_pop, List.length_tail, h.height, Nat.add_sub_cancel]
  shallow := Nat.le_of_succ_le h.shallow
  stored := h.stored

/-- A value is stored for paired nodes. -/
theorem Twinned.store (h : x.Twinned limit depth m m') {c c' : CellId} {d d' : Cells} {key : Key}
    {v : Value} {contents contents' : Contents} (htwins : x.Twins c c')
    (hd : m.cells.get? c = some d) (hd' : m'.cells.get? c' = some d')
    (hstore : d.contents.store? key v = some contents)
    (hstore' : d'.contents.store? key v = some contents') :
    x.Twinned limit depth (m.modifyCell c fun d => { d with contents })
      (m'.modifyCell c' fun d => { d with contents := contents' }) where
  holds := h.holds.alike (alike_modifyCell m c _ fun _ => rfl)
    (alike_modifyCell m' c' _ fun _ => rfl) rfl rfl
  maxDepth := h.maxDepth
  stack := h.stack
  height := h.height
  shallow := h.shallow
  stored := by
    intro e e' f f' hef hf hf'
    have hget := (Pool.get?_modify m.cells c e fun d => { d with contents }).symm.trans hf
    have hget' := (Pool.get?_modify m'.cells c' e' fun d =>
      { d with contents := contents' }).symm.trans hf'
    have hiff := h.holds.twins_inj htwins hef
    have hold := h.stored c c' d d' htwins hd hd'
    by_cases hce : c = e
    · rw [if_pos hce, hd, Option.map_some] at hget
      rw [if_pos (hiff.1 hce), hd', Option.map_some] at hget'
      cases hget
      cases hget'
      refine ⟨fun k => ?_, fun k => ?_, fun k => ?_⟩
      · rw [Contents.get?_store hstore, Contents.get?_store hstore', hold.get?]
      · obtain ⟨-, rfl⟩ := Contents.store?_eq_some.1 hstore
        exact hold.free k
      · obtain ⟨-, rfl⟩ := Contents.store?_eq_some.1 hstore'
        exact hold.free' k
    · rw [if_neg hce] at hget
      rw [if_neg (fun heq => hce (hiff.2 heq))] at hget'
      exact h.stored e e' f f' hef hget hget'

/-! ## Actions side by side -/

section Composition

variable {α β : Type}

theorem Agree.attempt_bind {p p' : Action α} {f f' : Except Failure α → Action β}
    (h : x.Agree limit enough depth (p m) (p' m'))
    (hf : ∀ r r' m m', Matches r r' → x.Twinned limit depth m m' →
      x.Agree limit enough depth (f r m) (f' r' m')) :
    x.Agree limit enough depth ((attempt p >>= f) m) ((attempt p' >>= f') m') := by
  rw [Action.attempt_bind, Action.attempt_bind]
  generalize p m = o at h ⊢
  generalize p' m' = o' at h ⊢
  cases h with
  | exhausted hshort => exact .exhausted hshort
  | ended hr htwins => exact hf _ _ _ _ hr htwins

end Composition

section Stacks

/-- Paired nodes stand at the same places of paired lists. -/
theorem Holds.findIdx_twins (h : x.Holds m m') {n n' : Node} (hn : x.TwinNodes n n')
    {l l' : List Node} (hl : List.Forall₂ x.TwinNodes l l') :
    l.findIdx (· == n) = l'.findIdx (· == n') := by
  induction hl with
  | nil => rfl
  | cons ha _ ih => rw [List.findIdx_cons, List.findIdx_cons, h.beq_twins ha hn, ih]

theorem Holds.contains_twins (h : x.Holds m m') {n n' : Node} (hn : x.TwinNodes n n')
    {l l' : List Node} (hl : List.Forall₂ x.TwinNodes l l') : l.contains n = l'.contains n' := by
  induction hl with
  | nil => rfl
  | cons ha _ ih => rw [List.contains_cons, List.contains_cons, h.beq_twins hn ha, ih]

theorem Twinned.trace (h : x.Twinned limit depth m m') : m.trace.length = m'.trace.length := by
  unfold Model.trace
  rw [List.length_map, List.length_map, List.length_reverse, List.length_reverse,
    h.stack.length_eq]

/-- Paired nodes are entered side by side, or neither is. -/
theorem Twinned.enter (h : x.Twinned limit depth m m') {n n' : Node} (hn : x.TwinNodes n n') :
    (∃ e e', e.unlabelled = e'.unlabelled ∧ enter n m = some (.error e, m) ∧
      enter n' m' = some (.error e', m')) ∨
    ∃ stack stack', enter n m = some (.ok (), { m with stack }) ∧
      enter n' m' = some (.ok (), { m' with stack := stack' }) ∧
      x.Twinned limit (depth + 1) { m with stack } { m' with stack := stack' } := by
  have hlimit : m.config.maxDepth = limit := h.maxDepth
  have hlimit' : m'.config.maxDepth = limit := by rw [h.holds.substituted.config, hlimit]
  have hdepth : m.stack.depth = depth := m.stack.depth_eq.trans h.height
  have hdepth' : m'.stack.depth = depth := by
    rw [m'.stack.depth_eq, ← h.stack.length_eq, h.height]
  unfold Model.enter
  rw [get_bind, get_bind, hlimit, hlimit', hdepth, hdepth']
  by_cases hfull : limit ≤ depth
  · rw [if_pos hfull, if_pos hfull]
    exact .inl ⟨_, _, rfl, rfl, rfl⟩
  rw [if_neg hfull, if_neg hfull]
  have hcontains := h.holds.contains_twins hn h.stack
  cases hpush : m.stack.push? n with
  | none =>
    have hpush' : m'.stack.push? n' = none := by
      rw [Stack.push?_eq_none_iff] at hpush ⊢
      rw [← hcontains, hpush]
    rw [hpush']
    refine .inl ⟨_, _, ?_, rfl, rfl⟩
    refine congrArg Failure.circular (Failure.map_unlabelled ?_)
    simp only [Stack.downTo, List.length_map, List.length_reverse, List.length_take,
      h.holds.findIdx_twins hn h.stack, h.stack.length_eq]
  | some stack =>
    cases hpush' : m'.stack.push? n' with
    | none =>
      rw [Stack.push?_eq_none_iff, ← hcontains, ← Stack.push?_eq_none_iff, hpush] at hpush'
      contradiction
    | some stack' =>
      exact .inr ⟨stack, stack', rfl, rfl, h.push hn hpush hpush' (Nat.lt_of_not_le hfull)⟩

end Stacks

/-- A name that means a value gives it, and the value cannot be called. -/
theorem readName_of_yields (run : RunFormula) {id : SpaceId} {name : String}
    (call : Option Arguments) {found : Meaning} {v : Value} {m : Model}
    (hfound : m.meaning id name = .ok found) (hyields : Yields found v)
    (hplain : v.isSpace = false) : ∃ g, readName run id name call m =
      some (if call.isSome then .error (.invalidArguments name "not callable") else .ok v,
        { m with graph := g }) := by
  have happly : ∀ m, applyCall run name call v m =
      some (if call.isSome then .error (.invalidArguments name "not callable") else .ok v, m) := by
    intro m
    cases call with
    | none => rfl
    | some a =>
      cases v with
      | space h => contradiction
      | _ => rfl
  unfold readName
  rw [read_bind, hfound]
  cases hyields with
  | ref r v =>
    obtain ⟨g, hg⟩ := noteRead_eq (.ref r) m
    refine ⟨g, ?_⟩
    show applyCall run name call v (Model.noteRead (.ref r) m) = _
    rw [happly, hg]
  | param v => exact ⟨m.graph, happly m⟩

section Nodes

variable {run run' : RunFormula} {fuel : Nat} {c c' : CellId} {key : Key}

/-- Failures that match are wrapped alike. -/
theorem Twinned.wrap (h : x.Twinned limit depth m m') {e e' : Failure}
    (he : e.unlabelled = e'.unlabelled) : (m.wrap e).unlabelled = (m'.wrap e').unlabelled := by
  have hunwinds : e.unwindsUnchanged = e'.unwindsUnchanged := by
    rw [← e.unwindsUnchanged_unlabelled, he, e'.unwindsUnchanged_unlabelled]
  have htraced : (Failure.inFormula e m.trace).unlabelled =
      (Failure.inFormula e' m'.trace).unlabelled := by
    simp only [Failure.unlabelled, he, Failure.map_unlabelled h.trace]
  unfold Model.wrap
  rw [hunwinds]
  split
  · exact he
  · exact htraced

theorem Twinned.outcome (h : x.Twinned limit depth m m') (htwins : x.Twins c c') (n n' : Node)
    {r r' : Except Failure Value} (hr : Matches r r') :
    Matches (outcome c n r m) (outcome c' n' r' m') := by
  cases hr with
  | ok v =>
    unfold Model.outcome
    simp only [h.holds.mayBeEmpty htwins]
    split
    · exact .error (by simp only [Failure.unlabelled])
    · exact .ok v
  | error he => exact .error (h.wrap he)

/-- Matching results are put away for paired nodes. -/
theorem Twinned.finish (h : x.Twinned limit depth m m') (htwins : x.Twins c c')
    {r r' : Except Failure Value} (hr : Matches r r') :
    x.Agree limit enough depth (finish c key r m) (finish c' key r' m') := by
  cases hr with
  | error he => exact .ended (.error he) (h.graph _ _ m.runs m'.runs)
  | ok v =>
    obtain ⟨d, d', hd, hd', -⟩ := h.holds.twins htwins
    have hsame := h.stored c c' d d' htwins hd hd'
    have hstore : d.contents.store? key v = some _ :=
      Contents.store?_eq_some.2 ⟨hsame.free key, rfl⟩
    have hstore' : d'.contents.store? key v = some _ :=
      Contents.store?_eq_some.2 ⟨hsame.free' key, rfl⟩
    rw [finish_of_store hd hstore, finish_of_store hd' hstore']
    exact .ended (.ok v) ((h.store htwins hd hd' hstore hstore').noteRead _ _)

def RunsAlike (x : Pairing) (limit fuel : Nat) (run run' : RunFormula) : Prop :=
  ∀ f args depth m m', f.Plain → x.Twinned limit depth m m' →
    x.Agree limit (limit < fuel + depth) depth (run x.item f args m) (run' x.other f args m')

variable (hrun : x.RunsAlike limit fuel run run')
include hrun

/-- A node is computed side by side with its partner. -/
theorem Twinned.compute (h : x.Twinned limit depth m m') (htwins : x.Twins c c') {d d' : Cells}
    (hd : m.cells.get? c = some d) (hd' : m'.cells.get? c' = some d') :
    x.Agree limit (limit ≤ fuel + depth) depth (compute run c d key m)
      (compute run' c' d' key m') := by
  obtain ⟨e, e', he, he', hspace, hspace', hformula, -, hplain⟩ := h.holds.twins htwins
  cases hd.symm.trans he
  cases hd'.symm.trans he'
  have henough : ¬ limit < fuel + (depth + 1) → ¬ limit ≤ fuel + depth := by omega
  have hnode : x.TwinNodes (.cells c key) (.cells c' key) := ⟨c, c', key, htwins, rfl, rfl⟩
  unfold Model.compute
  rw [bind_apply, bind_apply]
  rcases h.enter hnode with ⟨f, f', hf, hin, hin'⟩ | ⟨stack, stack', hin, hin', hpushed⟩
  · rw [hin, hin']
    exact .ended (.error hf) h
  rw [hin, hin']
  -- what is left to do when the formulas have ended
  have hrest : ∀ r r' m m', Matches r r' → x.Twinned limit (depth + 1) m m' →
      x.Agree limit (limit ≤ fuel + depth) depth
        ((leave >>= fun _ => Model.finish c key (Model.outcome c (.cells c key) r m)) m)
        ((leave >>= fun _ => Model.finish c' key (Model.outcome c' (.cells c' key) r' m')) m') :=
    fun r r' m m' hr htwinned => htwinned.pop.finish htwins (htwinned.outcome htwins _ _ hr)
  have hbody : ∀ (p p' : Action Value), x.Agree limit (limit < fuel + (depth + 1)) (depth + 1)
        (p { m with stack }) (p' { m' with stack := stack' }) →
      x.Agree limit (limit ≤ fuel + depth) depth
        ((attempt p >>= fun r => get >>= fun m => leave >>= fun _ =>
          Model.finish c key (Model.outcome c (.cells c key) r m)) { m with stack })
        ((attempt p' >>= fun r => get >>= fun m => leave >>= fun _ =>
          Model.finish c' key (Model.outcome c' (.cells c' key) r m))
          { m' with stack := stack' }) := by
    intro p p' hp
    rw [Action.attempt_bind, Action.attempt_bind]
    generalize p { m with stack } = o at hp ⊢
    generalize p' { m' with stack := stack' } = o' at hp ⊢
    cases hp with
    | exhausted hshort => exact .exhausted (henough hshort)
    | ended hr htwinned => exact hrest _ _ _ _ hr htwinned
  simp only [Model.runCells, bind_assoc, pure_bind]
  rw [hspace, hspace', hformula]
  cases hf : d.formula with
  | none => exact hbody _ _ (.ended (.ok Value.empty) hpushed)
  | some f => exact hbody _ _ (hrun f key.values (depth + 1) _ _ (hplain f hf) hpushed)

theorem Twinned.evaluateKey (h : x.Twinned limit depth m m') (htwins : x.Twins c c') :
    x.Agree limit (limit ≤ fuel + depth) depth (evaluateKey run c key m)
      (evaluateKey run' c' key m') := by
  obtain ⟨d, d', hd, hd', -⟩ := h.holds.twins htwins
  have hsame := (h.stored c c' d d' htwins hd hd').get? key
  unfold Model.evaluateKey
  rw [read_bind, read_bind, cell_eq_ok.2 hd, cell_eq_ok.2 hd']
  simp only [← hsame]
  cases d.contents.get? key with
  | some v => exact .ended (.ok v) (h.noteRead _ _)
  | none => exact h.compute hrun htwins hd hd'

theorem Twinned.evaluate (h : x.Twinned limit depth m m') (htwins : x.Twins c c')
    (a : Arguments) : x.Agree limit (limit ≤ fuel + depth) depth (evaluate run c a m)
      (evaluate run' c' a m') := by
  obtain ⟨d, d', hd, hd', -, -, hformula, -, -⟩ := h.holds.twins htwins
  have hkey := matches_bindCells hd hd' hformula a
  unfold Model.evaluate
  rw [read_bind, read_bind]
  generalize m.bindCells c a = r at hkey ⊢
  generalize m'.bindCells c' a = r' at hkey ⊢
  cases hkey with
  | ok key => exact h.evaluateKey hrun htwins
  | error he => exact .ended (.error he) h

/-- A bare name is read and called side by side. -/
theorem Twinned.readName (h : x.Twinned limit depth m m') {name : String}
    (hname : SystemName.ofString? name = none) (call : Option Arguments) :
    x.Agree limit (limit ≤ fuel + depth) depth (readName run x.item name call m)
      (readName run' x.other name call m') := by
  have hmeaning := h.holds.sameMeaning hname
  generalize hr : m.meaning x.item name = r at hmeaning
  generalize hr' : m'.meaning x.other name = r' at hmeaning
  cases hmeaning with
  | cells htwins =>
    unfold Model.readName
    rw [read_bind, read_bind, hr, hr']
    exact h.evaluate hrun htwins _
  | value hyields hyields' hplain =>
    obtain ⟨g, hg⟩ := readName_of_yields run call hr hyields hplain
    obtain ⟨g', hg'⟩ := readName_of_yields run' call hr' hyields' hplain
    rw [hg, hg']
    exact .ended (.refl _) (h.graph g g' m.runs m'.runs)
  | error he =>
    unfold Model.readName
    rw [read_bind, read_bind, hr, hr']
    exact .ended (.error he) h

theorem Twinned.runBody {b b' : Body Value} (hbody : b.Matches b')
    (h : x.Twinned limit depth m m') :
    x.Agree limit (limit ≤ fuel + depth) depth (runBody (answer run x.item) b m)
      (runBody (answer run' x.other) b' m') := by
  induction hbody generalizing m m' with
  | done hr => exact .ended hr h
  | ask hname _ ih =>
    exact (h.readName hrun hname _).attempt_bind fun r r' m m' hr h => ih r r' hr h

end Nodes

/-- Plain formulas run side by side, whatever fuel they are given. -/
theorem runsAlike_runFormula (fuel : Nat) :
    x.RunsAlike limit fuel (runFormula fuel) (runFormula fuel) := by
  induction fuel with
  | zero =>
    intro f args depth m m' _ h
    have := h.shallow
    exact .exhausted (by omega)
  | succ fuel ih =>
    intro f args depth m m' hplain h
    have henough : (limit < fuel + 1 + depth) = (limit ≤ fuel + depth) := by
      rw [eq_iff_iff]
      omega
    unfold Formula.Plain at hplain
    unfold runFormula
    cases hrule : f.rule with
    | constant v => exact .ended (.ok v) h
    | computed body kept =>
      simp only [hrule] at hplain ⊢
      rw [modify_bind, modify_bind, henough]
      exact (h.graph m.graph m'.graph _ _).runBody ih (hplain args)

end Pairing

def Blank (m : Model) (s : Space) : Prop :=
  ∀ name c d, s.cells.get? name = some c → m.cells.get? c = some d → ∀ k, d.contents.get? k = none

/-- Nothing is computed when a model is made ready for a call. -/
theorem Blank.sifted {m m₁ : Model} {s s₁ : Space} (h : m.Blank s) (hsifted : Sifted m m₁)
    (hcells : s₁.cells = s.cells) : m₁.Blank s₁ := by
  intro name c d₁ hc hd₁ k
  rw [hcells] at hc
  obtain ⟨d, hd, hinputs⟩ := hsifted.inputs c d₁ hd₁
  have hnone := Option.or_eq_none_iff.1 (h name c d hc hd k)
  refine Option.or_eq_none_iff.2 ⟨by rw [hinputs]; exact hnone.1, ?_⟩
  refine Option.eq_none_iff_forall_ne_some.2 fun v hv => ?_
  obtain ⟨e, he, hvalue, -⟩ := hsifted.upholds.stored c d₁ k v hd₁ hv
  cases hd.symm.trans he
  rw [hnone.2] at hvalue
  contradiction

/-- Cells without entries hold nothing. -/
theorem blank_of_isEmpty {m : Model} {s : Space} (h : (s.cells.values.all fun c =>
    (m.cells.get? c).all fun d => d.contents.values.isEmpty && d.contents.inputs.isEmpty) = true) :
    m.Blank s := by
  have hnone : ∀ {t : Table Key Value}, t.isEmpty = true → ∀ k, t.get? k = none := by
    rintro ⟨tree⟩ ht k
    rw [show tree = ∅ from Std.ExtTreeMap.isEmpty_iff.1 ht]
    exact Table.get?_empty k
  intro name c d hc hd k
  have hcells := List.all_eq_true.1 h c (NameMap.mem_values.2 ⟨name, hc⟩)
  rw [hd, Option.all_some, Bool.and_eq_true] at hcells
  exact Option.or_eq_none_iff.2 ⟨hnone hcells.2 k, hnone hcells.1 k⟩

theorem Blank.sameValues {m m' : Model} {s t : Space} (h : m.Blank s) (h' : m'.Blank t)
    {name : String} {c c' : CellId} {d d' : Cells} (hc : s.cells.get? name = some c)
    (hc' : t.cells.get? name = some c') (hd : m.cells.get? c = some d)
    (hd' : m'.cells.get? c' = some d') : SameValues d.contents d'.contents where
  get? k := (h name c d hc hd k).trans (h' name c' d' hc' hd' k).symm
  free k := Contents.inputs_eq_none_iff.1 (Option.or_eq_none_iff.1 (h name c d hc hd k)).1
  free' k := Contents.inputs_eq_none_iff.1 (Option.or_eq_none_iff.1 (h' name c' d' hc' hd' k)).1

/-- A substituted space is one whatever instances come and go. -/
theorem Substituted.sifted {m m₁ m' m₁' : Model} {s s₁ t t₁ : Space} {params : List Param}
    {args : Key} {id id' : SpaceId} (h : m.Substituted s params args m' t) (hsifted : Sifted m m₁)
    (hsifted' : Sifted m' m₁') (hs : m.spaces.get? id = some s)
    (hs₁ : m₁.spaces.get? id = some s₁) (ht : m'.spaces.get? id' = some t)
    (ht₁ : m₁'.spaces.get? id' = some t₁) : m₁.Substituted s₁ params args m₁' t₁ := by
  have hbound : ∀ t name, m₁.boundTo t name = m.boundTo t name := fun t name => by
    unfold boundTo
    rw [show m₁.refs.get? = m.refs.get? from funext hsifted.refs]
  have hbound' : ∀ t name, m₁'.boundTo t name = m'.boundTo t name := fun t name => by
    unfold boundTo
    rw [show m₁'.refs.get? = m'.refs.get? from funext hsifted'.refs]
  have hlike := hsifted.drops.like hs hs₁
  have hlike' := hsifted'.drops.like ht ht₁
  have hrefs : s₁.refs = s.refs := by rw [hlike]
  have hrefs' : t₁.refs = t.refs := by rw [hlike']
  have hdefines : ∀ name, s₁.defines name = s.defines name := fun name => by
    rw [hlike]
    rfl
  constructor
  case config => rw [hsifted.settings.config, hsifted'.settings.config, h.config]
  case globals =>
    simpa only [hbound, hbound', hsifted.drops.globals, hsifted'.drops.globals] using h.globals
  case allowNone =>
    rw [hlike, hlike']
    exact h.allowNone
  case cells =>
    intro name
    rw [hsifted.drops.setting hsifted.owned hs hs₁, hsifted'.drops.setting hsifted'.owned ht ht₁]
    exact h.cells name
  case refs => simpa only [hbound, hbound', hrefs, hrefs'] using h.refs
  case arguments => simpa only [hbound', hrefs', hdefines] using h.arguments
  case only => simpa only [hbound, hbound', hrefs, hrefs', hdefines] using h.only
  case plainRefs => simpa only [hbound, hrefs] using h.plainRefs
  case plainArgs => exact h.plainArgs
  case plainGlobals => simpa only [hbound, hsifted.drops.globals] using h.plainGlobals

theorem Lone.sifted {m m₁ : Model} {id : SpaceId} {s : Space} (h : m.Lone id s)
    (hsifted : Sifted m m₁) : ∃ instances, m₁.Lone id { s with instances } := by
  obtain ⟨s₁, hs₁, heq⟩ := hsifted.drops.static' h.live h.isStatic
  rw [heq] at hs₁
  exact ⟨s₁.instances, hs₁, h.isStatic, h.isRoot, h.childless⟩

end Recalc.Model

namespace Recalc

open Recalc.Model Recalc.Action

/-- The same value, or failures with the same root cause, or more fuel is wanted by both. -/
inductive SameAnswer : Option (Except Failure Value × Model) →
    Option (Except Failure Value × Model) → Prop
  | exhausted : SameAnswer none none
  | value (v : Value) (m m' : Model) : SameAnswer (some (.ok v, m)) (some (.ok v, m'))
  | failure {e e' : Failure} (m m' : Model) : e.innermost.kind = e'.innermost.kind →
      SameAnswer (some (.error e, m)) (some (.error e', m'))

theorem Model.Pairing.Agree.sameAnswer {x : Pairing} {limit depth : Nat} {enough : Prop}
    {o o' : Option (Except Failure Value × Model)} (h : x.Agree limit enough depth o o') :
    SameAnswer o o' ∧ (enough → o.isSome = true) := by
  cases h with
  | exhausted hshort => exact ⟨.exhausted, fun henough => absurd henough hshort⟩
  | ended hr _ =>
    refine ⟨?_, fun _ => rfl⟩
    cases hr with
    | ok v => exact .value v _ _
    | error he => exact .failure _ _ (Failure.rootKind_eq he)

/-- An instance of a root space without children has its cells, as many arguments as the space has
parameters, and no children either. -/
theorem Model.Faithful.item_of_lone {sites : SpaceId → Prop} {m : Model} (h : m.Faithful sites)
    {owner item c : SpaceId} {s root : Space} {spec : Signature} {args : Key}
    {enclosing : List SpaceId} (howner : m.Lone owner s) (hspec : s.signature = some spec)
    (hitem : m.spaces.get? item = some root) (hkind : root.kind = .item owner c args enclosing) :
    c = owner ∧ (∀ name, m.setting root name = m.setting s name) ∧
      args.values.length = spec.params.length ∧ ∀ name, root.spaces.get? name = none := by
  cases h.reflects hitem with
  | static hstatic =>
    rw [isStatic_of_item hkind] at hstatic
    contradiction
  | dynamic hk =>
    rw [hkind] at hk
    cases hk
  | item hk hcounterpart hcopies hsignature hlength =>
    rw [hkind] at hk
    cases hk
    rw [counterpart_of_static howner.live howner.isStatic] at hcounterpart
    cases hcounterpart
    cases howner.live.symm.trans hcopies.live
    cases hspec.symm.trans hsignature
    refine ⟨rfl, hcopies.cells, hlength, fun name => ?_⟩
    refine Option.eq_none_iff_forall_ne_some.2 fun child hchild => ?_
    obtain ⟨y, hy⟩ := h.child_of_replica hitem (counterpart_of_item hitem hkind) howner.live
      (isStatic_of_item hkind) hchild
    rw [howner.childless] at hy
    contradiction

/-- An instance that the host holds is there when a call is evaluated. -/
theorem Reachable.ready_of_held {m : Model} (h : Reachable m) (room : m.Addressable)
    {owner item c : SpaceId} {s root : Space} {args : Key} {enclosing : List SpaceId}
    (howner : m.Lone owner s) (hitem : m.spaces.get? item = some root)
    (hkind : root.kind = .item owner c args enclosing) {held : List Handle}
    (hheld : item ∈ held.flatMap Handle.pins) :
    ∃ instances, (m.ready held).spaces.get? item = some { root with instances } := by
  have hkept : (m.ready held).spaces.contains item = true := by
    rcases ready_cases m held with heq | heq
    · rw [heq]
      exact Pool.contains_iff.2 ⟨root, hitem⟩
    · rw [heq]
      exact (h.orderly.proper room).owned.item_kept room hitem hkind howner.live howner.isStatic
        hheld
  obtain ⟨root₁, hroot₁⟩ := Pool.contains_iff.1 hkept
  have hlike := (h.sifted room held).drops.like hitem hroot₁
  exact ⟨root₁.instances, hroot₁.trans (congrArg some hlike)⟩

/-- From empty cells, plain formulas compute in an instance of a root space what they compute in
the root space of another model in which references stand for the parameters. -/
theorem Reachable.instance_computes {m m' : Model} (h : Reachable m) (h' : Reachable m')
    (room : m.Addressable) (room' : m'.Addressable) {owner other item c : SpaceId}
    {s t root : Space} {spec : Signature} {args : Key} {enclosing : List SpaceId}
    (howner : m.Lone owner s) (hspec : s.signature = some spec)
    (hitem : m.spaces.get? item = some root) (hkind : root.kind = .item owner c args enclosing)
    (hother : m'.Lone other t) (hsub : m.Substituted s spec.params args m' t)
    (hplain : ∀ name f allow, m.setting s name = some (some f, allow) → f.Plain)
    (hblank : m.Blank root) (hblank' : m'.Blank t) (held held' : List Handle)
    (hheld : item ∈ held.flatMap Handle.pins) {name : String} {x : CellId}
    (hx : root.cells.get? name = some x) :
    ∃ y, t.cells.get? name = some y ∧ ∀ fuel a,
      SameAnswer (m.call fuel held x a) (m'.call fuel held' y a) ∧
        (m.config.maxDepth ≤ fuel → (m.call fuel held x a).isSome = true) := by
  have hsifted := h.sifted room held
  have hsifted' := h'.sifted room' held'
  obtain ⟨rfl, hcopies, hlength, hchildless⟩ :=
    (h.orderly.proper room).item_of_lone howner hspec hitem hkind
  obtain ⟨nested, hroot⟩ := h.ready_of_held room howner hitem hkind hheld
  obtain ⟨items, hlone⟩ := howner.sifted hsifted
  obtain ⟨items', hlone'⟩ := hother.sifted hsifted'
  have hsetting := hsifted.drops.setting hsifted.owned howner.live hlone.live
  let p : Pairing := ⟨item, { root with instances := nested }, c, { s with instances := items },
    spec, args, enclosing, other, { t with instances := items' }⟩
  have hholds : p.Holds (m.ready held) (m'.ready held') := {
    owned := hsifted.owned
    owned' := hsifted'.owned
    lone := hlone
    other := hlone'
    substituted := hsub.sifted hsifted hsifted' howner.live hlone.live hother.live hlone'.live
    signature := hspec
    root := hroot
    kind := hkind
    childless := hchildless
    copies := fun name => by
      rw [hsetting, hsifted.drops.setting hsifted.owned hitem hroot]
      exact hcopies name
    length := hlength
    formulas := fun name f allow hf => by
      rw [hsetting] at hf
      exact hplain name f allow hf }
  have htwinned : p.Twinned m.config.maxDepth 0 (m.ready held) (m'.ready held') := {
    holds := hholds
    maxDepth := by rw [hsifted.settings.config]
    stack := by
      rw [hsifted.calm.idle, hsifted'.calm.idle]
      exact .nil
    height := by
      rw [hsifted.calm.idle]
      rfl
    shallow := Nat.zero_le _
    stored := fun _ _ _ _ htwins hd hd' => by
      obtain ⟨name, hc, hc'⟩ := htwins
      have hempty : (m.ready held).Blank p.root := hblank.sifted hsifted rfl
      have hempty' : (m'.ready held').Blank p.plain := hblank'.sifted hsifted' rfl
      exact hempty.sameValues hempty' hc hc' hd hd' }
  have hsome := hholds.cells_iff name
  rw [show p.root.cells.get? name = some x from hx, Option.isSome_some,
    Option.isSome_iff_exists] at hsome
  obtain ⟨y, hy⟩ := hsome
  refine ⟨y, hy, fun fuel a => ?_⟩
  have hagree := htwinned.evaluate (Pairing.runsAlike_runFormula fuel) ⟨name, hx, hy⟩ a
  exact hagree.sameAnswer

/-- `x + n`, where `n` may be a parameter or a reference. -/
def shiftedFormula : Formula :=
  ⟨1, [{ name := "x" }], (Expr.apply .add [.arg 0, .read "n"]).rule, none⟩

/-- The kind of the failure of a name that means nothing, with a shifted factor. -/
def probedFormula : Formula :=
  ⟨2, [], (Expr.apply .tuple [.kindOf (.read "nothing"),
    .call "shifted" [.apply .mul [.read "k", .read "g"]] []]).rule, none⟩

theorem plain_shiftedFormula : shiftedFormula.Plain := Expr.plain_rule rfl (by decide)

theorem plain_probedFormula : probedFormula.Plain := Expr.plain_rule rfl (by decide)

def scaleHandle : Handle := { id := ⟨1, 0⟩, pins := [⟨1, 0⟩] }

/-- The space `Scale` has the parameter `n`, and the host holds `Scale[5]`. -/
def scaleRequests : List Request :=
  [.bindGlobal "g" (.int 10), .createSpace none "Scale",
    .declareParams ⟨0, 0⟩ [{ name := "n" }] none, .bindName ⟨0, 0⟩ "k" (.int 3) .auto,
    .defineCells ⟨0, 0⟩ "probed" (some probedFormula),
    .defineCells ⟨0, 0⟩ "shifted" (some shiftedFormula),
    .selectInstance ⟨0, 0⟩ { positional := [.int 5] }]

/-- The space `Five` has a reference `n` to the same argument. -/
def fiveRequests : List Request :=
  [.bindGlobal "g" (.int 10), .createSpace none "Five", .bindName ⟨0, 0⟩ "k" (.int 3) .auto,
    .bindName ⟨0, 0⟩ "n" (.int 5) .auto, .defineCells ⟨0, 0⟩ "probed" (some probedFormula),
    .defineCells ⟨0, 0⟩ "shifted" (some shiftedFormula)]

def scaleModel : Model := (Request.runAll 9 [scaleHandle] scaleRequests Shop.start).getD Shop.start

def fiveModel : Model := (Request.runAll 9 [] fiveRequests Shop.start).getD Shop.start

theorem scaleModel_eq :
    Request.runAll 9 [scaleHandle] scaleRequests Shop.start = some scaleModel := by
  have hrun : (Request.runAll 9 [scaleHandle] scaleRequests Shop.start).isSome = true := by
    decide +kernel
  obtain ⟨m, hm⟩ := Option.isSome_iff_exists.1 hrun
  rw [scaleModel, hm, Option.getD_some]

theorem fiveModel_eq : Request.runAll 9 [] fiveRequests Shop.start = some fiveModel := by
  have hrun : (Request.runAll 9 [] fiveRequests Shop.start).isSome = true := by
    decide +kernel
  obtain ⟨m, hm⟩ := Option.isSome_iff_exists.1 hrun
  rw [fiveModel, hm, Option.getD_some]

theorem scale_uses : scaleModel.Uses (· ∈ [probedFormula, shiftedFormula]) :=
  Request.uses_of_runAll scaleModel_eq fun _ hf => hf

theorem five_uses : fiveModel.Uses (· ∈ [probedFormula, shiftedFormula]) :=
  Request.uses_of_runAll fiveModel_eq fun _ hf => hf

/-- The identity of the formula of cells, with their setting. -/
def Model.identOf (m : Model) (s : Space) (name : String) : Option (Option Nat × Option Bool) :=
  (m.setting s name).map fun d => (d.1.map (·.ident), d.2)

theorem setting_of_ident {m : Model} (h : m.Uses (· ∈ [probedFormula, shiftedFormula])) {s : Space}
    {name : String} {g : Formula} {allow : Option Bool}
    (hg : g ∈ [probedFormula, shiftedFormula])
    (hident : m.identOf s name = some (some g.ident, allow)) :
    m.setting s name = some (some g, allow) := by
  obtain ⟨⟨formula, allow'⟩, hsetting, heq⟩ := Option.map_eq_some_iff.1 hident
  rw [Prod.mk.injEq] at heq
  obtain ⟨hformula, rfl⟩ := heq
  obtain ⟨f, rfl, hf⟩ := Option.map_eq_some_iff.1 hformula
  obtain ⟨c, hc, hdefined⟩ := Option.map_eq_some_iff.1 hsetting
  obtain ⟨id, -, hid⟩ := Option.bind_eq_some_iff.1 hc
  rw [Prod.mk.injEq] at hdefined
  rw [hsetting, h.eq_of_ident (by decide) hid hdefined.1 hg hf]

theorem eq_some_int {o : Option Value} {i : Int64} (h : o.any (· == .int i) = true) :
    o = some (.int i) := by
  obtain ⟨v, rfl, hv⟩ := (Option.any_eq_true _ _).1 h
  cases v with
  | int j => rw [show j = i from eq_of_beq hv]
  | _ => contradiction

/-- What there is to know of `Scale`. -/
theorem scale_facts : ∃ s ∈ scaleModel.spaces.get? ⟨0, 0⟩, s.isStatic = true ∧ s.parent = none ∧
    s.spaces.names = [] ∧ s.cells.names = ["probed", "shifted"] ∧ s.refs.names = ["k"] ∧
    s.allowNone = none ∧ s.signature.map (·.params.map (·.name)) = some ["n"] ∧
    scaleModel.identOf s "probed" = some (some 2, none) ∧
    scaleModel.identOf s "shifted" = some (some 1, none) ∧
    (scaleModel.boundTo s.refs "k").any (· == .int 3) = true := by
  decide +kernel

/-- What there is to know of `Scale[5]`. -/
theorem item_facts : ∃ root ∈ scaleModel.spaces.get? ⟨1, 0⟩,
    root.cells.entries = [("probed", ⟨2, 0⟩), ("shifted", ⟨3, 0⟩)] ∧
    (match root.kind with
      | .item owner _ args _ => owner == ⟨0, 0⟩ && args.values.head?.any (· == .int 5) &&
          args.values.length == 1
      | _ => false) = true ∧
    (root.cells.values.all fun c => (scaleModel.cells.get? c).all fun d =>
      d.contents.values.isEmpty && d.contents.inputs.isEmpty) = true := by
  decide +kernel

/-- What there is to know of `Five`. -/
theorem five_facts : ∃ t ∈ fiveModel.spaces.get? ⟨0, 0⟩, t.isStatic = true ∧ t.parent = none ∧
    t.spaces.names = [] ∧ t.cells.entries = [("probed", ⟨0, 0⟩), ("shifted", ⟨1, 0⟩)] ∧
    t.refs.names = ["k", "n"] ∧ t.allowNone = none ∧
    fiveModel.identOf t "probed" = some (some 2, none) ∧
    fiveModel.identOf t "shifted" = some (some 1, none) ∧
    (fiveModel.boundTo t.refs "k").any (· == .int 3) = true ∧
    (fiveModel.boundTo t.refs "n").any (· == .int 5) = true ∧
    (t.cells.values.all fun c => (fiveModel.cells.get? c).all fun d =>
      d.contents.values.isEmpty && d.contents.inputs.isEmpty) = true := by
  decide +kernel

theorem scale_settings : fiveModel.config = scaleModel.config ∧ fiveModel.globals.names = ["g"] ∧
    scaleModel.globals.names = ["g"] ∧
    (scaleModel.boundTo scaleModel.globals "g").any (· == .int 10) = true ∧
    (fiveModel.boundTo fiveModel.globals "g").any (· == .int 10) = true ∧
    scaleModel.Addressable ∧ fiveModel.Addressable := by
  decide +kernel

/-- `Five` is `Scale` with `5` in place of `n`. -/
theorem five_substituted {s t : Space} {spec : Signature} {args : Key}
    (hs : scaleModel.spaces.get? ⟨0, 0⟩ = some s) (ht : fiveModel.spaces.get? ⟨0, 0⟩ = some t)
    (hspec : s.signature = some spec) (hargs : args.values = [.int 5]) :
    scaleModel.Substituted s spec.params args fiveModel t := by
  obtain ⟨s', hs', -, -, hspaces, hcells, hrefs, hallow, hparams, hprobed, hshifted, hk⟩ :=
    scale_facts
  cases hs.symm.trans hs'
  obtain ⟨t', ht', -, -, -, hentries', hrefs', hallow', hprobed', hshifted', hk', hn', -⟩ :=
    five_facts
  cases ht.symm.trans ht'
  obtain ⟨hconfig, hglobals', hglobals, hg, hg', -, -⟩ := scale_settings
  have hcells' : t.cells.names = ["probed", "shifted"] := by rw [NameMap.names, hentries']; rfl
  have hparams : spec.params.map (·.name) = ["n"] := by simpa [hspec] using hparams
  have hdefines : s.defines "n" = false := by
    have hnone : s.cells.get? "n" = none ∧ s.spaces.get? "n" = none ∧ s.refs.get? "n" = none :=
      ⟨get?_of_not_mem (by rw [hcells]; decide), get?_of_not_mem (by rw [hspaces]; decide),
        get?_of_not_mem (by rw [hrefs]; decide)⟩
    simp only [Space.defines, NameMap.contains, hnone]
    rfl
  refine .of_names hconfig (hallow'.trans hallow.symm) (hglobals'.trans hglobals.symm) ?_
    (hcells'.trans hcells.symm) ?_ ?_ ?_ ?_ ?_
  · rw [hglobals]
    simp [eq_some_int hg, eq_some_int hg', Value.isSpace]
  · have hsame : ∀ {g : Formula} {name : String}, g ∈ [probedFormula, shiftedFormula] →
        scaleModel.identOf s name = some (some g.ident, none) →
        fiveModel.identOf t name = some (some g.ident, none) →
        fiveModel.setting t name = scaleModel.setting s name := fun hg h h' =>
      (setting_of_ident five_uses hg h').trans (setting_of_ident scale_uses hg h).symm
    rw [hcells]
    intro name hname
    simp only [List.mem_cons, List.not_mem_nil, or_false] at hname
    rcases hname with rfl | rfl
    · exact hsame (g := probedFormula) List.mem_cons_self hprobed hprobed'
    · exact hsame (g := shiftedFormula) (List.mem_cons_of_mem _ List.mem_cons_self) hshifted
        hshifted'
  · rw [hrefs]
    simp [eq_some_int hk, eq_some_int hk', Value.isSpace]
  · rw [hargs]
    intro i p v hp hv _
    cases i with
    | zero =>
      cases hv
      have hname : (spec.params.map (·.name))[0]? = some p.name := by
        rw [List.getElem?_map, hp, Option.map_some]
      rw [hparams] at hname
      rw [← show "n" = p.name from Option.some.inj hname]
      exact eq_some_int hn'
    | succ i => simp at hv
  · rw [hrefs', hrefs]
    intro name hname
    simp only [List.mem_cons, List.not_mem_nil, or_false] at hname
    rcases hname with rfl | rfl
    · exact .inl List.mem_cons_self
    · refine .inr ⟨hdefines, List.mem_map.1 ?_⟩
      rw [hparams]
      exact List.mem_cons_self
  · rw [hargs]
    simp [Value.isSpace]

theorem scale_plain : scaleModel.Uses Formula.Plain := by
  refine Request.uses_of_runAll scaleModel_eq fun f hf => ?_
  change f ∈ [probedFormula, shiftedFormula] at hf
  simp only [List.mem_cons, List.not_mem_nil, or_false] at hf
  rcases hf with rfl | rfl
  · exact plain_probedFormula
  · exact plain_shiftedFormula

theorem eq_pair_of_same {v : Value} {kind : String} {i : Int64}
    (h : (v == .tuple [.text kind, .int i]) = true) : v = .tuple [.text kind, .int i] := by
  change Value.same v _ = true at h
  cases v with
  | tuple items =>
    obtain _ | ⟨a, _ | ⟨b, _ | _⟩⟩ := items <;> simp only [Value.same, Value.sameItems,
      Bool.and_eq_true, Bool.false_eq_true, and_false, and_true] at h
    cases a with
    | text kind' =>
      have hint := eq_some_int (o := some b) h.2
      rw [Option.some.inj hint, show kind' = kind from eq_of_beq h.1]
    | _ => cases h.1
  | _ => contradiction

theorem scale_answer : (scaleModel.call 9 [scaleHandle] ⟨2, 0⟩ {}).map (·.1) =
    some (.ok (.tuple [.text "NameNotFound", .int 35])) := by
  have hrun : ((scaleModel.call 9 [scaleHandle] ⟨2, 0⟩ {}).any fun o =>
      o.1.toOption.any (· == .tuple [.text "NameNotFound", .int 35])) = true := by decide +kernel
  obtain ⟨⟨r, m'⟩, hcall, hanswer⟩ := (Option.any_eq_true _ _).1 hrun
  obtain ⟨v, hv, hsame⟩ := (Option.any_eq_true _ _).1 hanswer
  rw [hcall, Option.map_some, ← eq_pair_of_same hsame]
  exact congrArg some (toOption_eq_some.1 hv)

/-- In `Scale[5]` the formulas compute what they compute in `Five`. -/
theorem scale_computes : ∃ m m', Request.runAll 9 [scaleHandle] scaleRequests Shop.start = some m ∧
    Request.runAll 9 [] fiveRequests Shop.start = some m' ∧ m.Addressable ∧ m'.Addressable ∧
    (m.call 9 [scaleHandle] ⟨2, 0⟩ {}).map (·.1) =
      some (.ok (.tuple [.text "NameNotFound", .int 35])) ∧
    ∀ fuel a, SameAnswer (m.call fuel [scaleHandle] ⟨2, 0⟩ a) (m'.call fuel [] ⟨0, 0⟩ a) := by
  obtain ⟨s, hs, hstatic, hparent, hspaces, -, -, -, hparams, -⟩ := scale_facts
  obtain ⟨root, hroot, hentries, hkind, hblank⟩ := item_facts
  obtain ⟨t, ht, hstatic', hparent', hspaces', hentries', -, -, -, -, -, -, hblank'⟩ := five_facts
  obtain ⟨-, -, -, -, -, room, room'⟩ := scale_settings
  obtain ⟨spec, hspec, -⟩ := Option.map_eq_some_iff.1 hparams
  obtain ⟨c, args, enclosing, hitem, hargs⟩ : ∃ c args enclosing,
      root.kind = .item ⟨0, 0⟩ c args enclosing ∧ args.values = [.int 5] := by
    cases hk : root.kind with
    | item owner c args enclosing =>
      rw [hk] at hkind
      simp only [Bool.and_eq_true, beq_iff_eq] at hkind
      obtain ⟨⟨rfl, hhead⟩, hlength⟩ := hkind
      obtain ⟨v, hv⟩ := List.length_eq_one_iff.1 hlength
      rw [hv] at hhead
      exact ⟨c, args, enclosing, rfl, hv.trans (congrArg (fun v => [v])
        (Option.some.inj (eq_some_int hhead)))⟩
    | _ => simp [hk] at hkind
  have hchild : ∀ {s : Space}, s.spaces.names = [] → ∀ name, s.spaces.get? name = none :=
    fun h name => get?_of_not_mem (by rw [h]; exact List.not_mem_nil)
  have hx : root.cells.get? "probed" = some ⟨2, 0⟩ :=
    NameMap.mem_entries.1 (by rw [hentries]; exact List.mem_cons_self)
  have hy' : t.cells.get? "probed" = some ⟨0, 0⟩ :=
    NameMap.mem_entries.1 (by rw [hentries']; exact List.mem_cons_self)
  have hplain : ∀ name f allow, scaleModel.setting s name = some (some f, allow) → f.Plain := by
    intro name f allow hf
    obtain ⟨d, hd, heq⟩ := Option.map_eq_some_iff.1 hf
    obtain ⟨id, -, hid⟩ := Option.bind_eq_some_iff.1 hd
    exact scale_plain.cells id d f hid (Prod.mk.inj heq).1
  have hreach : Reachable scaleModel :=
    ⟨_, .new "doc" {}, Request.becomes_of_runAll scaleRequests scaleModel_eq⟩
  have hreach' : Reachable fiveModel :=
    ⟨_, .new "doc" {}, Request.becomes_of_runAll fiveRequests fiveModel_eq⟩
  obtain ⟨y, hy, hsame⟩ := Reachable.instance_computes hreach hreach' room room'
    ⟨hs, hstatic, hparent, hchild hspaces⟩ hspec hroot hitem
    ⟨ht, hstatic', hparent', hchild hspaces'⟩ (five_substituted hs ht hspec hargs)
    hplain (blank_of_isEmpty hblank) (blank_of_isEmpty hblank') [scaleHandle] [] (by decide) hx
  cases hy.symm.trans hy'
  exact ⟨_, _, scaleModel_eq, fiveModel_eq, room, room', scale_answer,
    fun fuel a => (hsame fuel a).1⟩

/-- A formula that returns the text of a failure that it catches. -/
def quotingFormula : Formula where
  ident := 1
  params := []
  rule := .computed (fun _ => .ask (.lookup none "nothing" none) fun
    | .ok v => .done (.ok v)
    | .error e => .done (.ok (.text e.message))) []

def ownFormula : Formula := ⟨1, [], (Expr.read "n").rule, none⟩

def scaleWith (f : Formula) (n : Value) : List Request :=
  [.createSpace none "Scale", .declareParams ⟨0, 0⟩ [{ name := "n" }] none,
    .defineCells ⟨0, 0⟩ "c" (some f), .selectInstance ⟨0, 0⟩ { positional := [n] }]

def fiveWith (f : Formula) (n : Value) : List Request :=
  [.createSpace none "Five", .bindName ⟨0, 0⟩ "n" n .auto, .defineCells ⟨0, 0⟩ "c" (some f)]

/-- The values of the cells in the instance and in `Five`. -/
def bothWays (f : Formula) (n : Value) : Option (Value × Value) := do
  let m ← Request.runAll 9 [scaleHandle] (scaleWith f n) Shop.start
  let m' ← Request.runAll 9 [] (fiveWith f n) Shop.start
  let (r, _) ← m.call 9 [scaleHandle] ⟨1, 0⟩ {}
  let (r', _) ← m'.call 9 [] ⟨0, 0⟩ {}
  return (← r.toOption, ← r'.toOption)

/-- A formula that is not plain tells an instance from its substituted space. And an instance has
its argument in the form of its key, where a list is a tuple. -/
theorem instance_told_apart :
    (∃ v v', bothWays quotingFormula (.int 5) = some (v, v') ∧
      v == .text "name 'nothing' is not defined in Scale[5]" ∧
      v' == .text "name 'nothing' is not defined in Five" ∧ (v == v') = false) ∧
    ∃ v v', bothWays ownFormula (.list [.int 1]) = some (v, v') ∧
      v == .tuple [.int 1] ∧ v' == .list [.int 1] ∧ (v == v') = false := by
  have hends : ∀ f n w w', ((bothWays f n).any fun o => o.1 == w && (o.2 == w' && !o.1 == o.2)) =
      true → ∃ v v', bothWays f n = some (v, v') ∧ v == w ∧ v' == w' ∧ (v == v') = false := by
    intro f n w w' h
    obtain ⟨⟨v, v'⟩, hboth, h⟩ := (Option.any_eq_true _ _).1 h
    rw [Bool.and_eq_true, Bool.and_eq_true, Bool.not_eq_true'] at h
    exact ⟨v, v', hboth, h⟩
  exact ⟨hends _ _ _ _ (by decide +kernel), hends _ _ _ _ (by decide +kernel)⟩

end Recalc
