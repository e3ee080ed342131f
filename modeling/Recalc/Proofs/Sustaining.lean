import Recalc.Proofs.Discretion
import Recalc.Proofs.Exhausting

set_option autoImplicit false

/-!
# What a result rests on

After a node was computed, everything that the result rests on, through recorded reads, is to be
kept, and so is what was stored before. The instances that sustain those nodes are the ones that
were there before, those that the records of such nodes keep alive, and those that the latter lie in
or have among their arguments. Whatever a kept node is about lies in sustaining instances only.
-/

namespace Recalc.Model

open Recalc.Action

variable {issue : SpaceId → List SpaceId} {held : List Handle} {m m' : Model} {x : Node}

/-! ## Nodes to be kept -/

theorem RestsOn.trans {a b c : Node} (h : m.RestsOn a b) (h' : m.RestsOn b c) : m.RestsOn a c := by
  induction h with
  | self hab => exact .congr hab h'
  | read hedge _ ih => exact .read hedge (ih h')

/-- The node was computed before or is `x`, or one of those rests on it now. -/
def Kept (m m' : Model) (x n : Node) : Prop :=
  ∃ a, (m.isComputed a = true ∨ (x == a) = true) ∧ m'.RestsOn a n

theorem kept_self : Kept m m' x x := ⟨x, .inr BEq.rfl, .self BEq.rfl⟩

theorem kept_of_isComputed {a : Node} (h : m.isComputed a = true) : Kept m m' x a :=
  ⟨a, .inl h, .self BEq.rfl⟩

theorem Kept.rests {a b : Node} (h : Kept m m' x a) (hrest : m'.RestsOn a b) : Kept m m' x b := by
  obtain ⟨c, hc, hca⟩ := h
  exact ⟨c, hc, hca.trans hrest⟩

theorem Kept.read {a b : Node} (h : Kept m m' x a) (hedge : m'.graph.hasEdge a b = true) :
    Kept m m' x b :=
  h.rests (.read hedge (.self BEq.rfl))

/-! ## Instances that sustain them -/

/-- The instance was there before, or is kept alive by what is to be kept. -/
inductive Sustained (issue : SpaceId → List SpaceId) (m m' : Model) (x : Node) : SpaceId → Prop
  | there {i : SpaceId} : m.spaces.contains i = true → Sustained issue m m' x i
  | key {z : Node} {id : CellId} {h : Handle} {i : SpaceId} : Kept m m' x z →
      z.entity = .cells id → h ∈ z.key.handles → i ∈ issue h.id → Sustained issue m m' x i
  | formula {z : Node} {id : CellId} {c : Cells} {f : Formula} {h : Handle} {i : SpaceId} :
      Kept m m' x z → z.entity = .cells id → m'.cells.get? id = some c → c.formula = some f →
      h ∈ f.handles → i ∈ issue h.id → Sustained issue m m' x i
  | value {id : CellId} {key : Key} {c : Cells} {v : Value} {h : Handle} {i : SpaceId} :
      Kept m m' x (.cells id key) → m'.cells.get? id = some c → c.contents.get? key = some v →
      h ∈ v.handles → i ∈ issue h.id → Sustained issue m m' x i
  | ref {r : RefId} {q : Reference} {h : Handle} {i : SpaceId} : m'.refs.get? r = some q →
      h ∈ q.value.handles → i ∈ issue h.id → Sustained issue m m' x i
  | signature {id : SpaceId} {s : Space} {spec : Signature} {h : Handle} {i : SpaceId} :
      m'.spaces.get? id = some s → s.isStatic = true → s.signature = some spec →
      h ∈ spec.handles → i ∈ issue h.id → Sustained issue m m' x i
  | item {z : Node} {p : SpaceId} {key : Key} {s : Space} {i : SpaceId} : Kept m m' x z →
      m'.graph.hasEdge z (.item p key) = true → m'.spaces.get? p = some s →
      s.instances.get? key = some i → Sustained issue m m' x i
  | args {j owner c : SpaceId} {t : Space} {key : Key} {around : List SpaceId} {h : Handle}
      {i : SpaceId} : Sustained issue m m' x j → m'.spaces.get? j = some t →
      t.kind = .item owner c key around → h ∈ key.handles → i ∈ issue h.id →
      Sustained issue m m' x i
  | around {j owner c : SpaceId} {t : Space} {key : Key} {around : List SpaceId} {i : SpaceId} :
      Sustained issue m m' x j → m'.spaces.get? j = some t → t.kind = .item owner c key around →
      i ∈ around → Sustained issue m m' x i

/-- All instances that the space lies in sustain what is to be kept. -/
def Safe (issue : SpaceId → List SpaceId) (m m' : Model) (x : Node) (id : SpaceId) : Prop :=
  ∀ i ∈ issue id, Sustained issue m m' x i

/-- What the node stands for is there, in a safe place. -/
structure Housed (issue : SpaceId → List SpaceId) (m m' : Model) (x n : Node) : Prop where
  cells : ∀ id, n.entity = .cells id → ∃ c v, m'.cells.get? id = some c ∧
    c.contents.get? n.key = some v ∧ Safe issue m m' x c.space
  item : ∀ p, n.entity = .space p → ∃ s i, m'.spaces.get? p = some s ∧
    s.instances.get? n.key = some i ∧ Sustained issue m m' x i
  ref : ∀ r, n.entity = .ref r → m'.refs.contains r = true

theorem Housed.congr {a b : Node} (h : Housed issue m m' x a) (hab : (a == b) = true) :
    Housed issue m m' x b := by
  rw [Graph.node_beq_iff, Bool.and_eq_true, beq_iff_eq] at hab
  obtain ⟨hentity, hkey⟩ := hab
  refine ⟨fun id he => ?_, fun p he => ?_, fun r he => h.ref r (hentity.trans he)⟩
  · obtain ⟨c, v, hc, hv, hsafe⟩ := h.cells id (hentity.trans he)
    refine ⟨c, v, hc, ?_, hsafe⟩
    unfold Contents.get? at hv ⊢
    rwa [← Table.get?_congr _ hkey, ← Table.get?_congr _ hkey]
  obtain ⟨s, i, hs, hi, hsustained⟩ := h.item p (hentity.trans he)
  exact ⟨s, i, hs, by rwa [← Table.get?_congr _ hkey], hsustained⟩

/-- What the records of a node keep alive sustains it. -/
theorem sustained_of_backed {z : Node} {id : CellId} {i : SpaceId} (hz : Kept m m' x z)
    (hcells : z.entity = .cells id) (hhoused : Housed issue m m' x z) (h : m'.Backed issue z i) :
    Sustained issue m m' x i := by
  induction h with
  | home he hc hi =>
    obtain ⟨d, -, hd, -, hsafe⟩ := hhoused.cells _ he
    cases hc.symm.trans hd
    exact hsafe _ hi
  | key hh hi => exact .key hz hcells hh hi
  | formula he hc hf hh hi => exact .formula hz he hc hf hh hi
  | value hread hc hv hh hi => exact .value (hz.read hread) hc hv hh hi
  | ref hq hh hi => exact .ref hq hh hi
  | signature hs hstatic hspec hh hi => exact .signature hs hstatic hspec hh hi
  | item hread hs hlisted => exact .item hz hread hs hlisted
  | args _ ht hk hh hi ih => exact .args ih ht hk hh hi
  | around _ ht hk hi ih => exact .around ih ht hk hi

/-- A space that was there before is safe. -/
theorem Trusted.safe (hm : m.Trusted issue) {id : SpaceId} {s : Space}
    (hs : m.spaces.get? id = some s) : Safe issue m m' x id := by
  intro i hi
  rw [← hm.issuing.pins id s hs] at hi
  exact .there (hm.faithful.live_of_mem_pinsOf hs hi)

/-! ## After a call -/

theorem stored_of_isLive {n : Node} {id : CellId} (h : m.isLive n = true)
    (he : n.entity = .cells id) :
    ∃ c v, m.cells.get? id = some c ∧ c.contents.get? n.key = some v := by
  simp only [isLive, he] at h
  obtain ⟨c, hc, hv⟩ := (Option.any_eq_true _ _).1 h
  obtain ⟨v, hv⟩ := Option.isSome_iff_exists.1 hv
  exact ⟨c, v, hc, hv⟩

theorem isLive_of_isComputed {n : Node} (h : m.isComputed n = true) : m.isLive n = true := by
  obtain ⟨id, c, he, hc, hk⟩ := isComputed_iff.1 h
  rw [Contents.hasComputed, Table.contains_eq_isSome] at hk
  simp only [isLive, he, hc, Option.any_some, Contents.get?, Option.isSome_or, hk, Bool.or_true]

/-- A call has computed the node `x`, in a model where no instance could go. -/
structure Computes (issue : SpaceId → List SpaceId) (held : List Handle) (m m' : Model)
    (x : Node) : Prop where
  before : m.Trusted issue
  calm : m.Calm
  after : m'.Trusted issue
  calm' : m'.Calm
  vouched : Vouched issue m m'
  exhausted : m.freeInstances held = []
  cells : ∃ id c, x.entity = .cells id ∧ m.cells.get? id = some c
  stored : m'.isLive x = true

variable (hc : Computes issue held m m' x)
include hc

/-- Cells that were there before are in a safe place. -/
theorem Computes.cells_safe {id : CellId} {c : Cells} (hcell : m.cells.get? id = some c) :
    ∃ c', m'.cells.get? id = some c' ∧ c.Extends c' ∧ Safe issue m m' x c'.space := by
  obtain ⟨c', hcell', hext⟩ := hc.vouched.enriches.cells id c hcell
  obtain ⟨s, hs, -⟩ := hc.before.faithful.owned.holder (home?_cells hcell) rfl
  refine ⟨c', hcell', hext, ?_⟩
  rw [hext.space]
  exact hc.before.safe hs

theorem Computes.isComputed_of_edge {a b : Node} (h : m'.graph.hasEdge a b = true) :
    m'.isComputed a = true := by
  refine (hc.calm'.reader a b h).resolve_right ?_
  rw [hc.calm'.idle]
  exact Bool.false_ne_true

/-- What a kept node has read is in a safe place when the node is. -/
theorem Computes.housed_of_read {a b : Node} (ha : Kept m m' x a) (hhoused : Housed issue m m' x a)
    (hedge : m'.graph.hasEdge a b = true) : Housed issue m m' x b := by
  have hlive := (hc.calm'.read a b hedge).resolve_right id
  refine ⟨fun id he => ?_, fun p he => ?_, fun r he => ?_⟩
  · obtain ⟨c, v, hcell, hv⟩ := stored_of_isLive hlive he
    refine ⟨c, v, hcell, hv, ?_⟩
    rcases hc.vouched.edges a b hedge with hold | hbacked
    · obtain ⟨d, -, hd, -⟩ := stored_of_isLive ((hc.calm.read a b hold).resolve_right fun h => h) he
      obtain ⟨c', hcell', -, hsafe⟩ := hc.cells_safe hd
      cases hcell.symm.trans hcell'
      exact hsafe
    · obtain ⟨z, -, hz, -⟩ := isComputed_iff.1 (hc.isComputed_of_edge hedge)
      obtain ⟨c', hcell', hbacked⟩ := hbacked id he
      cases hcell.symm.trans hcell'
      exact fun i hi => sustained_of_backed ha hz hhoused (hbacked i hi)
  · simp only [isLive, he] at hlive
    obtain ⟨s, hs, hkey⟩ := (Option.any_eq_true _ _).1 hlive
    rw [Table.contains_eq_isSome] at hkey
    obtain ⟨i, hi⟩ := Option.isSome_iff_exists.1 hkey
    have hnode : b = .item p b.key := by rw [Node.item, ← he]
    rw [hnode] at hedge
    exact ⟨s, i, hs, hi, .item ha hedge hs hi⟩
  · simpa only [isLive, he] using hlive

/-- From the nodes that were computed before and `x`, reads lead to safe places only. -/
theorem Computes.housed {n : Node} (hn : Kept m m' x n) : Housed issue m m' x n := by
  have hpath : ∀ {a b : Node}, m'.RestsOn a b → Kept m m' x a → Housed issue m m' x a →
      Housed issue m m' x b := by
    intro a b h
    induction h with
    | self hab => exact fun _ hhoused => hhoused.congr hab
    | read hedge _ ih =>
      exact fun ha hhoused => ih (ha.read hedge) (hc.housed_of_read ha hhoused hedge)
  obtain ⟨a, ha, hrest⟩ := hn
  refine hpath hrest ⟨a, ha, .self BEq.rfl⟩ ?_
  obtain ⟨id, c, hentity, hcell, hlive⟩ :
      ∃ id c, a.entity = .cells id ∧ m.cells.get? id = some c ∧ m'.isLive a = true := by
    rcases ha with ha | ha
    · obtain ⟨id, c, he, hcell, -⟩ := isComputed_iff.1 ha
      have hlive := isLive_of_isComputed (hc.vouched.enriches.isComputed ha)
      exact ⟨id, c, he, hcell, hlive⟩
    · obtain ⟨id, c, he, hcell⟩ := hc.cells
      have hlive := hc.stored
      rw [isLive_congr m' ha] at hlive
      rw [Graph.node_beq_iff, Bool.and_eq_true, beq_iff_eq] at ha
      exact ⟨id, c, ha.1.symm.trans he, hcell, hlive⟩
  obtain ⟨c', hcell', -, hsafe⟩ := hc.cells_safe hcell
  obtain ⟨d, v, hd, hv⟩ := stored_of_isLive hlive hentity
  cases hcell'.symm.trans hd
  refine ⟨fun e he => ?_, fun p he => ?_, fun r he => ?_⟩
  · cases hentity.symm.trans he
    exact ⟨c', v, hcell', hv, hsafe⟩
  · cases hentity.symm.trans he
  · cases hentity.symm.trans he

end Recalc.Model
