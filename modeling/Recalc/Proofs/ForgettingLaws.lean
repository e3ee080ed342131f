import Recalc.Invalidate
import Recalc.Proofs.EdgeLaws
import Recalc.Proofs.PoolLaws

set_option autoImplicit false

/-!
# Laws of forgetting

Invalidation forgets a set of nodes that with every node holds its readers. It takes their computed
values and the edges from them away and leaves everything else alone: definitions, inputs, the
values of other nodes and the edges between them.
-/

namespace Recalc

def Cells.bare (c : Cells) : Cells := { c with contents := .empty }

namespace Model

/-- The nodes of `gone` lose their computed values and the edges from them; nothing else changes. -/
structure Loses (gone : Node → Bool) (m m' : Model) : Prop where
  name : m'.name = m.name
  config : m'.config = m.config
  spaces : m'.spaces = m.spaces
  refs : m'.refs = m.refs
  roots : m'.roots = m.roots
  globals : m'.globals = m.globals
  stack : m'.stack = m.stack
  runs : m'.runs = m.runs
  slots : m'.cells.slots.size = m.cells.slots.size
  free : m'.cells.free = m.cells.free
  generations : ∀ i, m'.cells.generation? i = m.cells.generation? i
  absent : ∀ id, m.cells.get? id = none → m'.cells.get? id = none
  cells : ∀ id c, m.cells.get? id = some c → ∃ c', m'.cells.get? id = some c' ∧ c'.bare = c.bare ∧
    c'.contents.inputs = c.contents.inputs ∧
    ∀ k, c'.contents.values.get? k = if gone (.cells id k) then none else c.contents.values.get? k
  graph : m.graph.Indexed → m'.graph.Indexed ∧
    ∀ a b, m'.graph.hasEdge a b = (!gone a && m.graph.hasEdge a b)

namespace Loses

theorem refl (m : Model) : Loses (fun _ => false) m m where
  name := rfl
  config := rfl
  spaces := rfl
  refs := rfl
  roots := rfl
  globals := rfl
  stack := rfl
  runs := rfl
  slots := rfl
  free := rfl
  generations _ := rfl
  absent _ h := h
  cells _ c h := ⟨c, h, rfl, rfl, fun _ => rfl⟩
  graph h := ⟨h, by simp⟩

theorem trans {gone gone' : Node → Bool} {m m' m'' : Model} (h : Loses gone m m')
    (h' : Loses gone' m' m'') : Loses (fun n => gone n || gone' n) m m'' where
  name := h'.name.trans h.name
  config := h'.config.trans h.config
  spaces := h'.spaces.trans h.spaces
  refs := h'.refs.trans h.refs
  roots := h'.roots.trans h.roots
  globals := h'.globals.trans h.globals
  stack := h'.stack.trans h.stack
  runs := h'.runs.trans h.runs
  slots := h'.slots.trans h.slots
  free := h'.free.trans h.free
  generations i := (h'.generations i).trans (h.generations i)
  absent id hid := h'.absent id (h.absent id hid)
  cells id c hc := by
    obtain ⟨c₁, hc₁, hbare₁, hinputs₁, hvalues₁⟩ := h.cells id c hc
    obtain ⟨c₂, hc₂, hbare₂, hinputs₂, hvalues₂⟩ := h'.cells id c₁ hc₁
    refine ⟨c₂, hc₂, hbare₂.trans hbare₁, hinputs₂.trans hinputs₁, fun k => ?_⟩
    rw [hvalues₂, hvalues₁]
    cases gone (.cells id k) <;> cases gone' (.cells id k) <;> rfl
  graph hg := by
    obtain ⟨hg₁, hedge₁⟩ := h.graph hg
    obtain ⟨hg₂, hedge₂⟩ := h'.graph hg₁
    refine ⟨hg₂, fun a b => ?_⟩
    rw [hedge₂, hedge₁]
    cases gone a <;> cases gone' a <;> rfl

end Loses

theorem loses_forget (m : Model) (n : Node) : Loses (n == ·) m (m.forget n) := by
  unfold forget
  split
  next id hid =>
    have hget := fun other => Pool.get?_modify m.cells id other fun c : Cells =>
      { c with contents := c.contents.evict n.key }
    refine ⟨rfl, rfl, rfl, rfl, rfl, rfl, rfl, rfl, Pool.size_modify _ _ _, Pool.free_modify _ _ _,
      Pool.generation?_modify _ _ _, fun other hother => ?_, fun other c hc => ?_,
      fun hg => Graph.dropReads_spec hg n⟩
    · refine (hget other).trans ?_
      split
      next h => rw [h, hother, Option.map_none]
      next => exact hother
    · by_cases h : id = other
      · subst h
        refine ⟨{ c with contents := c.contents.evict n.key }, ?_, rfl, rfl, fun k => ?_⟩
        · refine (hget id).trans ?_
          rw [if_pos rfl, hc, Option.map_some]
        · have hnode : (n == Node.cells id k) = (n.key == k) := by
            rw [Graph.node_beq_iff, hid]
            show (Entity.cells id == Entity.cells id && n.key == k) = _
            rw [BEq.rfl, Bool.true_and]
          rw [hnode]
          exact Table.get?_erase c.contents.values n.key k
      · refine ⟨c, ?_, rfl, rfl, fun k => ?_⟩
        · refine (hget other).trans ?_
          rw [if_neg h, hc]
        · have hnode : (n == Node.cells other k) = false := by
            rw [Graph.node_beq_iff, hid]
            show (Entity.cells id == Entity.cells other && n.key == k) = _
            rw [beq_eq_false_iff_ne.2 fun heq => h (Entity.cells.inj heq), Bool.false_and]
          rw [hnode]
          rfl
  next hne =>
    refine ⟨rfl, rfl, rfl, rfl, rfl, rfl, rfl, rfl, rfl, rfl, fun _ => rfl, fun _ h => h,
      fun other c hc => ⟨c, hc, rfl, rfl, fun k => ?_⟩, fun hg => Graph.dropReads_spec hg n⟩
    have hnode : (n == Node.cells other k) = false := by
      rw [Graph.node_beq_iff]
      show (n.entity == Entity.cells other && n.key == k) = false
      rw [beq_eq_false_iff_ne.2 (hne other), Bool.false_and]
    rw [hnode]
    rfl

theorem Loses.isComputed {gone : Node → Bool} {m m' : Model} (h : Loses gone m m') (a : Node) :
    m'.isComputed a = (!gone a && m.isComputed a) := by
  obtain ⟨e, k⟩ := a
  cases e with
  | cells id =>
    show (m'.cells.get? id).any (·.contents.hasComputed k) =
      (!gone (.cells id k) && (m.cells.get? id).any (·.contents.hasComputed k))
    cases hc : m.cells.get? id with
    | none => rw [h.absent id hc, Option.any_none, Bool.and_false]
    | some c =>
      obtain ⟨c', hc', -, -, hvalues⟩ := h.cells id c hc
      rw [hc', Option.any_some, Option.any_some, Contents.hasComputed, Contents.hasComputed,
        Table.contains_eq_isSome, Table.contains_eq_isSome, hvalues]
      cases gone (.cells id k) <;> rfl
  | space id => exact (Bool.and_false _).symm
  | ref id => exact (Bool.and_false _).symm

/-! ## What rests on a node -/

/-- One node is the other, or is recorded to have read something that rests on the other. -/
inductive RestsOn (m : Model) : Node → Node → Prop
  | self {a b : Node} : (a == b) = true → RestsOn m a b
  | read {a b c : Node} : m.graph.hasEdge a b = true → RestsOn m b c → RestsOn m a c

variable {m m' : Model}

theorem RestsOn.congr {a b c : Node} (hab : (a == b) = true) (h : m.RestsOn b c) :
    m.RestsOn a c := by
  cases h with
  | self hbc => exact .self (BEq.trans hab hbc)
  | read hedge hrest => exact .read ((Graph.hasEdge_congr _ hab BEq.rfl).trans hedge) hrest

theorem RestsOn.congr_right {a b c : Node} (h : m.RestsOn a b) (hbc : (b == c) = true) :
    m.RestsOn a c := by
  induction h with
  | self hab => exact .self (BEq.trans hab hbc)
  | read hedge _ ih => exact .read hedge (ih hbc)

theorem RestsOn.mono (hedges : ∀ a b, m'.graph.hasEdge a b = true → m.graph.hasEdge a b = true)
    {a b : Node} (h : m'.RestsOn a b) : m.RestsOn a b := by
  induction h with
  | self hab => exact .self hab
  | read hedge _ ih => exact .read (hedges _ _ hedge) ih

/-! ## Clearing a set of nodes -/

/-- Exactly the nodes of `R` lose their computed values and the edges from them, the answer is the
number of values lost, and nothing else changes. -/
def Clears (R : Node → Prop) (m : Model) (r : Nat × Model) : Prop :=
  ∃ gone : List Node, gone.Pairwise (fun a b => (a == b) = false) ∧
    (∀ a, gone.contains a = true ↔ R a) ∧ Loses gone.contains m r.2 ∧
    r.1 = gone.countP m.isComputed

namespace Clears

variable {R R' : Node → Prop} {r r' : Nat × Model}

theorem refl (m : Model) : Clears (fun _ => False) m (0, m) :=
  ⟨[], .nil, fun _ => by simp, Loses.refl m, rfl⟩

theorem congr (h : Clears R m r) (heq : ∀ a, R a ↔ R' a) : Clears R' m r := by
  obtain ⟨gone, hpair, hmem, hloses, hcount⟩ := h
  exact ⟨gone, hpair, fun a => (hmem a).trans (heq a), hloses, hcount⟩

/-- A node that goes twice is counted once: its value is gone the second time. -/
theorem trans (h : Clears R m r) (h' : Clears R' r.2 r') :
    Clears (fun a => R a ∨ R' a) m (r.1 + r'.1, r'.2) := by
  obtain ⟨gone, hpair, hmem, hloses, hcount⟩ := h
  obtain ⟨gone', hpair', hmem', hloses', hcount'⟩ := h'
  let late := gone'.filter fun a => !gone.contains a
  have hlate : ∀ a, (gone ++ late).contains a = (gone.contains a || gone'.contains a) := by
    intro a
    rw [List.contains_append]
    cases hg : gone.contains a with
    | true => rfl
    | false =>
      rw [Bool.false_or, Bool.false_or, Bool.eq_iff_iff, List.contains_iff_exists_mem_beq,
        List.contains_iff_exists_mem_beq]
      constructor
      · rintro ⟨b, hb, hab⟩
        exact ⟨b, List.mem_of_mem_filter hb, hab⟩
      · rintro ⟨b, hb, hab⟩
        have hgb : gone.contains b = false := by rw [← contains_congr_right hab, hg]
        exact ⟨b, List.mem_filter.2 ⟨hb, by rw [hgb]; rfl⟩, hab⟩
  refine ⟨gone ++ late, ?_, fun a => ?_, ?_, ?_⟩
  · refine List.pairwise_append.2 ⟨hpair, hpair'.filter _, fun a ha b hb => ?_⟩
    have hgb := (List.mem_filter.1 hb).2
    refine Bool.eq_false_iff.2 fun hab => ?_
    rw [← contains_congr_right hab, contains_of_mem ha] at hgb
    contradiction
  · rw [hlate, Bool.or_eq_true, hmem, hmem']
  · have hboth := hloses.trans hloses'
    rwa [← funext hlate] at hboth
  · have hcomputed : gone'.countP r.2.isComputed = late.countP m.isComputed := by
      rw [List.countP_filter]
      refine List.countP_congr fun a _ => ?_
      rw [hloses.isComputed, Bool.and_comm]
    show r.1 + r'.1 = _
    rw [hcount, hcount', hcomputed, List.countP_append]

end Clears

theorem clears_forget (m : Model) (n : Node) :
    Clears (fun a => (n == a) = true) m (if m.isComputed n then 1 else 0, m.forget n) := by
  have hgone : [n].contains = (n == ·) := by
    funext a
    rw [List.contains_cons, BEq.comm]
    exact Bool.or_false _
  refine ⟨[n], List.pairwise_singleton _ _, fun a => by rw [hgone], ?_, ?_⟩
  · rw [hgone]
    exact loses_forget m n
  · exact List.countP_singleton.symm

/-! ## Sweeps -/

namespace Sweep

variable {s s' : Sweep} {n : Node}

/-- A step is the turn of the first waiting node that had none. -/
theorem step_cases (h : s.step = some s') : ∃ a rest,
    s.waiting.dropWhile s.seen.contains = a :: rest ∧
      s'.waiting = s.model.graph.readersOf a ++ rest ∧ s'.seen = s.seen.add a ∧
      (s'.count, s'.model) =
        (s.count + (if s.model.isComputed a then 1 else 0), s.model.forget a) := by
  unfold step at h
  split at h
  next => contradiction
  next a rest hcons =>
    cases h
    exact ⟨a, rest, hcons, rfl, rfl, rfl⟩

theorem seen_of_step_eq_none (h : s.step = none) {a : Node} (ha : s.waiting.contains a = true) :
    s.seen.contains a = true := by
  unfold step at h
  split at h
  next hnil =>
    obtain ⟨b, hb, hab⟩ := List.contains_iff_exists_mem_beq.1 ha
    rw [Table.contains_congr _ hab]
    exact all_of_dropWhile_eq_nil hnil b hb
  next => contradiction

theorem run_of_step_eq_none (h : s.step = none) (fuel : Nat) : s.run fuel = s := by
  cases fuel with
  | zero => rfl
  | succ fuel => rw [run, h]

/-- What every step keeps, a run keeps. -/
theorem run_keeps {P : Sweep → Prop} (step : ∀ s s', P s → s.step = some s' → P s') (fuel : Nat)
    (hs : P s) : P (s.run fuel) := by
  induction fuel generalizing s with
  | zero => exact hs
  | succ fuel ih =>
    rw [run]
    split
    next => exact hs
    next s' h => exact ih (step s s' hs h)

/-- A run with a step left can be continued. -/
theorem run_add (s : Sweep) (fuel more : Nat) : s.run (fuel + more) = (s.run fuel).run more := by
  induction fuel generalizing s with
  | zero => rw [Nat.zero_add, run]
  | succ fuel ih =>
    rw [Nat.succ_add, run, run]
    split
    next h => rw [run_of_step_eq_none h]
    next s' _ => exact ih s'

/-- Between two turns, exactly the nodes that had their turn are forgotten, and each is counted if
it was computed. -/
theorem clears_run (m : Model) (n : Node) (fuel : Nat) :
    Clears (fun a => ((start m n).run fuel).seen.contains a = true) m
      (((start m n).run fuel).count, ((start m n).run fuel).model) := by
  refine run_keeps (P := fun s => Clears (fun a => s.seen.contains a = true) m (s.count, s.model))
    (fun s s' h hstep => ?_) fuel ?_
  · obtain ⟨a, rest, -, -, hseen, hr⟩ := step_cases hstep
    rw [hr]
    refine (h.trans (clears_forget s.model a)).congr fun b => ?_
    rw [hseen, KeySet.contains_add, Bool.or_eq_true, or_comm]
  · refine (Clears.refl m).congr fun a => ?_
    show False ↔ (Table.empty : KeySet Node).contains a = true
    rw [KeySet.contains_empty]
    simp

/-- What holds between two turns of a sweep from `n` over `m`, by the edges that `m` had: whatever
had its turn or waits rests on `n`, and the readers of what had its turn had theirs or wait. -/
structure Under (m : Model) (n : Node) (s : Sweep) : Prop where
  clears : Clears (fun a => s.seen.contains a = true) m (s.count, s.model)
  rests : ∀ a, s.seen.contains a = true ∨ s.waiting.contains a = true → m.RestsOn a n
  first : s.seen.contains n = true ∨ s.waiting.contains n = true
  readers : ∀ a b, m.graph.hasEdge a b = true → s.seen.contains b = true →
    s.seen.contains a = true ∨ s.waiting.contains a = true

theorem under_start (m : Model) (n : Node) : Under m n (start m n) where
  clears := clears_run m n 0
  rests a ha := by
    have hseen : (start m n).seen.contains a = false := KeySet.contains_empty a
    rw [hseen, Bool.false_eq_true, false_or] at ha
    obtain ⟨b, hb, hab⟩ := List.contains_iff_exists_mem_beq.1 ha
    exact .self (List.mem_singleton.1 hb ▸ hab)
  first := .inr (contains_of_mem (List.mem_singleton.2 rfl))
  readers a b _ hb := by
    have hseen : (start m n).seen.contains b = false := KeySet.contains_empty b
    rw [hseen] at hb
    contradiction

/-- A reader that had no turn yet still has its edges, so a turn puts it among the waiting. -/
theorem Under.step (hg : m.graph.Indexed) (h : Under m n s) (hstep : s.step = some s') :
    Under m n s' := by
  obtain ⟨a, rest, hcons, hwaiting, hseen, hr⟩ := step_cases hstep
  obtain ⟨ha, hnew, hrest, hall⟩ := mem_of_dropWhile_eq_cons hcons
  obtain ⟨gone, -, hgone, hloses, -⟩ := h.clears
  obtain ⟨hindexed, hedge⟩ := hloses.graph hg
  have hreaders : ∀ b, (s.model.graph.readersOf a).contains b =
      (!gone.contains b && m.graph.hasEdge b a) := fun b =>
    (Graph.mem_readersOf hindexed).trans (hedge b a)
  have hadd : ∀ b, s'.seen.contains b = (a == b || s.seen.contains b) := fun b => by
    rw [hseen, KeySet.contains_add]
  have hwaits : ∀ b, s'.waiting.contains b =
      (!gone.contains b && m.graph.hasEdge b a || rest.contains b) := fun b => by
    rw [hwaiting, List.contains_append, hreaders]
  have hrests : m.RestsOn a n := h.rests a (.inr (contains_of_mem ha))
  have hpass : ∀ b, s.seen.contains b = true ∨ s.waiting.contains b = true →
      s'.seen.contains b = true ∨ s'.waiting.contains b = true := by
    intro b hb
    rw [hadd, hwaits, Bool.or_eq_true, Bool.or_eq_true]
    rcases hb with hb | hb
    · exact .inl (.inr hb)
    · obtain ⟨c, hc, hbc⟩ := List.contains_iff_exists_mem_beq.1 hb
      rcases hall c hc with hc | rfl | hc
      · exact .inl (.inr ((Table.contains_congr _ hbc).trans hc))
      · exact .inl (.inl (BEq.symm hbc))
      · exact .inr (.inr ((contains_congr_right hbc).trans (contains_of_mem hc)))
  refine ⟨?_, fun b hb => ?_, hpass n h.first, fun b c hbc hc => ?_⟩
  · rw [hr]
    refine (h.clears.trans (clears_forget s.model a)).congr fun b => ?_
    rw [hadd, Bool.or_eq_true, or_comm]
  · rw [hadd, hwaits, Bool.or_eq_true, Bool.or_eq_true, Bool.and_eq_true] at hb
    rcases hb with (hb | hb) | ⟨-, hb⟩ | hb
    · exact hrests.congr (BEq.symm hb)
    · exact h.rests b (.inl hb)
    · exact .read hb hrests
    · obtain ⟨c, hc, hbc⟩ := List.contains_iff_exists_mem_beq.1 hb
      exact h.rests b (.inr ((contains_congr_right hbc).trans (contains_of_mem (hrest c hc))))
  · rw [hadd, Bool.or_eq_true] at hc
    rcases hc with hc | hc
    · cases hb : s.seen.contains b with
      | true => exact hpass b (.inl hb)
      | false =>
        have hkept : gone.contains b = false :=
          Bool.eq_false_iff.2 fun hg => absurd ((hgone b).1 hg) (by simp [hb])
        rw [hwaits, hkept, Graph.hasEdge_congr _ BEq.rfl hc, hbc]
        exact .inr rfl
    · exact hpass b (h.readers b c hbc hc)

/-- Each turn is that of a new node among `n` and the readers of `m`, so a run as long as their
number leaves no step. -/
theorem Under.ends (hg : m.graph.Indexed) (fuel : Nat) (h : Under m n s)
    (enough : (unseen s.seen (n :: m.graph.reads.keys)).length ≤ fuel) :
    (s.run fuel).step = none := by
  have inside : ∀ a, m.RestsOn a n → (n :: m.graph.reads.keys).contains a = true := by
    intro a ha
    rw [List.contains_cons, Table.contains_keys, Bool.or_eq_true]
    cases ha with
    | self han => exact .inl han
    | read hedge _ => exact .inr (Graph.contains_of_contains_setAt hedge)
  have smaller : ∀ s s', Under m n s → s.step = some s' →
      (unseen s'.seen (n :: m.graph.reads.keys)).length <
        (unseen s.seen (n :: m.graph.reads.keys)).length := by
    intro s s' h hstep
    obtain ⟨a, rest, hcons, -, hseen, -⟩ := step_cases hstep
    obtain ⟨ha, hnew, -, -⟩ := mem_of_dropWhile_eq_cons hcons
    rw [hseen]
    exact length_unseen_add s.seen (inside a (h.rests a (.inr (contains_of_mem ha)))) hnew
  induction fuel generalizing s with
  | zero =>
    show s.step = none
    cases hstep : s.step with
    | none => rfl
    | some s' =>
      have := smaller s s' h hstep
      omega
  | succ fuel ih =>
    rw [run]
    split
    next hstep => exact hstep
    next s' hstep =>
      have := smaller s s' h hstep
      exact ih (h.step hg hstep) (by omega)

/-- A sweep without a step left saw exactly what rests on its first node. -/
theorem Under.seen_iff (h : Under m n s) (hstep : s.step = none) (a : Node) :
    s.seen.contains a = true ↔ m.RestsOn a n := by
  refine ⟨fun ha => h.rests a (.inl ha), fun ha => ?_⟩
  have hfinal : ∀ b, s.seen.contains b = true ∨ s.waiting.contains b = true →
      s.seen.contains b = true := fun b hb => hb.elim id (seen_of_step_eq_none hstep)
  have hn := hfinal n h.first
  induction ha with
  | self hab => exact (Table.contains_congr _ hab).trans hn
  | read hedge _ ih => exact hfinal _ (h.readers _ _ hedge (ih h hn))

/-- A sweep ends after as many steps as there are readers, and one for its first node. -/
theorem ends_of_indexed (hg : m.graph.Indexed) (n : Node) :
    ((start m n).run (m.graph.reads.size + 1)).step = none := by
  have hsize : m.graph.reads.size = m.graph.reads.keys.length :=
    Std.ExtTreeMap.length_keys.symm
  refine (under_start m n).ends hg _ ((List.length_filter_le _ _).trans ?_)
  rw [hsize, List.length_cons]

end Sweep

/-- Invalidating a node forgets exactly what rests on it. -/
theorem clears_invalidate (hg : m.graph.Indexed) (n : Node) :
    Clears (m.RestsOn · n) m (m.invalidate n) := by
  have hunder := Sweep.run_keeps (fun _ _ h hstep => h.step hg hstep) (m.graph.reads.size + 1)
    (Sweep.under_start m n)
  exact hunder.clears.congr (hunder.seen_iff (Sweep.ends_of_indexed hg n))

/-! ## Forgetting nodes with their readers -/

/-- The nodes of `gone`, which hold the readers of each of them, are forgotten. -/
structure Forgets (gone : Node → Bool) (m m' : Model) : Prop extends Loses gone m m' where
  closed : m.graph.Indexed → ∀ a b, m.graph.hasEdge a b = true → gone b = true → gone a = true

namespace Forgets

theorem refl (m : Model) : Forgets (fun _ => false) m m := ⟨Loses.refl m, by simp⟩

theorem trans {gone gone' : Node → Bool} {m m' m'' : Model} (h : Forgets gone m m')
    (h' : Forgets gone' m' m'') : Forgets (fun n => gone n || gone' n) m m'' := by
  refine ⟨h.toLoses.trans h'.toLoses, fun hg a b hab hb => ?_⟩
  obtain ⟨hg₁, hedge₁⟩ := h.graph hg
  cases ha : gone a with
  | true => rfl
  | false =>
    rcases Bool.or_eq_true_iff.1 hb with hb | hb
    · exact absurd (h.closed hg a b hab hb) (by simp [ha])
    · exact h'.closed hg₁ a b (by rw [hedge₁, ha, hab]; rfl) hb

end Forgets

/-- Invalidating a node forgets nodes with their readers, those that rest on it. -/
theorem forgets_invalidate (m : Model) (n : Node) : ∃ gone, Forgets gone m (m.invalidate n).2 ∧
    (m.graph.Indexed → ∀ a, gone a = true ↔ m.RestsOn a n) := by
  obtain ⟨gone, -, hgone, hloses, -⟩ := Sweep.clears_run m n (m.graph.reads.size + 1)
  have hrests : m.graph.Indexed → ∀ a, gone.contains a = true ↔ m.RestsOn a n := by
    intro hg a
    have hunder := Sweep.run_keeps (fun _ _ h hstep => h.step hg hstep) (m.graph.reads.size + 1)
      (Sweep.under_start m n)
    exact (hgone a).trans (hunder.seen_iff (Sweep.ends_of_indexed hg n) a)
  refine ⟨gone.contains, ⟨hloses, fun hg a b hab hb => ?_⟩, hrests⟩
  rw [hrests hg] at hb ⊢
  exact .read hab hb

/-- Some nodes are forgotten with their readers, those with the property `P` among them. -/
def ForgetsAll (P : Node → Prop) (m m' : Model) : Prop :=
  ∃ gone, Forgets gone m m' ∧ (m.graph.Indexed → ∀ n, P n → gone n = true)

theorem ForgetsAll.refl (m : Model) : ForgetsAll (fun _ => False) m m :=
  ⟨_, Forgets.refl m, by simp⟩

theorem ForgetsAll.trans {P Q : Node → Prop} {m m' m'' : Model} (h : ForgetsAll P m m')
    (h' : ForgetsAll Q m' m'') : ForgetsAll (fun n => P n ∨ Q n) m m'' := by
  obtain ⟨gone, hf, hp⟩ := h
  obtain ⟨gone', hf', hq⟩ := h'
  refine ⟨_, hf.trans hf', fun hg n hn => ?_⟩
  have hg' := (hf.graph hg).1
  rcases hn with hn | hn
  · simp [hp hg n hn]
  · simp [hq hg' n hn]

theorem ForgetsAll.mono {P Q : Node → Prop} {m m' : Model} (h : ForgetsAll P m m')
    (hpq : ∀ n, Q n → P n) : ForgetsAll Q m m' := by
  obtain ⟨gone, hf, hp⟩ := h
  exact ⟨gone, hf, fun hg n hn => hp hg n (hpq n hn)⟩

theorem forgetsAll_invalidate (m : Model) (n : Node) :
    ForgetsAll (fun a => (n == a) = true) m (m.invalidate n).2 := by
  obtain ⟨gone, hforgets, hrests⟩ := forgets_invalidate m n
  exact ⟨gone, hforgets, fun hg a ha => (hrests hg a).2 (.self (BEq.symm ha))⟩

theorem forgetsAll_invalidateAll (m : Model) (nodes : List Node) :
    ForgetsAll (fun a => nodes.contains a = true) m (m.invalidateAll nodes).2 := by
  have key : ∀ (nodes : List Node) (count : Nat) (m : Model),
      ForgetsAll (fun a => nodes.contains a = true) m (nodes.foldl
        (fun r n => (r.1 + (r.2.invalidate n).1, (r.2.invalidate n).2)) (count, m)).2 := by
    intro nodes
    induction nodes with
    | nil => exact fun _ m => (ForgetsAll.refl m).mono (by simp)
    | cons n nodes ih =>
      intro count m
      refine ((forgetsAll_invalidate m n).trans (ih _ _)).mono fun a ha => ?_
      rw [List.contains_cons, BEq.comm, Bool.or_eq_true] at ha
      exact ha
  exact key nodes 0 m

/-- A node of a cells object that has an edge, an input or a computed value. -/
def IsUsed (m : Model) (id : CellId) (n : Node) : Prop :=
  n.entity = .cells id ∧ (m.graph.mentions n = true ∨ ∃ c, m.cells.get? id = some c ∧
    (c.contents.hasComputed n.key = true ∨ c.contents.hasInput n.key = true))

theorem contains_map_cells (id : CellId) (keys : List Key) (n : Node) :
    (keys.map (Node.cells id)).contains n = (n.entity == .cells id && keys.contains n.key) := by
  induction keys with
  | nil => simp
  | cons k keys ih =>
    rw [List.map_cons, List.contains_cons, List.contains_cons, ih, Graph.node_beq_iff]
    show (n.entity == Entity.cells id && n.key == k || _) = _
    cases n.entity == Entity.cells id <;> simp

/-- Every node of a cells object that is used is among those listed for it. -/
theorem contains_nodesOfCells {m : Model} {id : CellId} {n : Node} (h : m.IsUsed id n) :
    (m.nodesOfCells id).contains n = true := by
  obtain ⟨he, hused⟩ := h
  have habout : (m.graph.nodesAbout (.cells id)).contains n = m.graph.mentions n := by
    rw [Graph.contains_nodesAbout, he, BEq.rfl, Bool.true_and]
  unfold nodesOfCells
  cases hm : m.graph.mentions n with
  | true =>
    rw [hm] at habout
    split
    · rw [List.contains_append, habout, Bool.true_or]
    · exact habout
  | false =>
    obtain ⟨c, hc, hstored⟩ := hused.resolve_left (by simp [hm])
    rw [hc]
    have hkeys : ((c.contents.values.keys ++ c.contents.inputs.keys).map
        (Node.cells id)).contains n = true := by
      rw [contains_map_cells, he, BEq.rfl, Bool.true_and, List.contains_append,
        Table.contains_keys, Table.contains_keys, Bool.or_eq_true]
      exact hstored
    obtain ⟨a, ha, hna⟩ := List.contains_iff_exists_mem_beq.1 hkeys
    have hfree : m.graph.mentions a = false := by rw [← Graph.mentions_congr _ hna, hm]
    refine List.contains_iff_exists_mem_beq.2 ⟨a, ?_, hna⟩
    exact List.mem_append_right _ (List.mem_filter.2 ⟨ha, by simp [hfree]⟩)

/-- Nothing else is listed for a cells object. -/
theorem isUsed_of_contains {m : Model} {id : CellId} {n : Node}
    (h : (m.nodesOfCells id).contains n = true) : m.IsUsed id n := by
  have habout : (m.graph.nodesAbout (.cells id)).contains n = true → m.IsUsed id n := by
    intro hn
    rw [Graph.contains_nodesAbout, Bool.and_eq_true, beq_iff_eq] at hn
    exact ⟨hn.1, .inl hn.2⟩
  unfold nodesOfCells at h
  cases hc : m.cells.get? id with
  | none => exact habout (by rwa [hc] at h)
  | some c =>
    rw [hc] at h
    dsimp only at h
    rw [List.contains_append, Bool.or_eq_true] at h
    refine h.elim habout fun hn => ?_
    obtain ⟨a, ha, hna⟩ := List.contains_iff_exists_mem_beq.1 hn
    have hkeys := contains_of_mem (List.mem_filter.1 ha).1
    rw [← contains_congr_right hna, contains_map_cells, List.contains_append, Table.contains_keys,
      Table.contains_keys, Bool.and_eq_true, Bool.or_eq_true, beq_iff_eq] at hkeys
    exact ⟨hkeys.1, .inr ⟨c, hc, hkeys.2⟩⟩

theorem forgetsAll_invalidateCells (m : Model) (id : CellId) :
    ForgetsAll (m.IsUsed id) m (m.invalidateCells id).2 :=
  (forgetsAll_invalidateAll m (m.nodesOfCells id)).mono fun _ h => contains_nodesOfCells h

def ForgetsSome (m m' : Model) : Prop := ∃ gone, Forgets gone m m'

theorem ForgetsSome.refl (m : Model) : ForgetsSome m m := ⟨_, Forgets.refl m⟩

theorem ForgetsSome.trans {m m' m'' : Model} (h : ForgetsSome m m') (h' : ForgetsSome m' m'') :
    ForgetsSome m m'' :=
  ⟨_, h.choose_spec.trans h'.choose_spec⟩

theorem ForgetsAll.forgetsSome {P : Node → Prop} {m m' : Model} (h : ForgetsAll P m m') :
    ForgetsSome m m' := ⟨_, h.choose_spec.1⟩

theorem forgetsSome_foldl {α : Type} (f : Nat × Model → α → Nat × Model)
    (h : ∀ r a, ForgetsSome r.2 (f r a).2) (l : List α) (r : Nat × Model) :
    ForgetsSome r.2 (l.foldl f r).2 := by
  induction l generalizing r with
  | nil => exact ForgetsSome.refl _
  | cons a l ih => exact (h r a).trans (ih _)

theorem forgetsSome_invalidateEach (m : Model) (ids : List CellId) :
    ForgetsSome m (m.invalidateEach ids).2 :=
  forgetsSome_foldl (fun r id => (r.1 + (r.2.invalidateCells id).1, (r.2.invalidateCells id).2))
    (fun r id => (forgetsAll_invalidateCells r.2 id).forgetsSome) ids (0, m)

theorem forgetsSome_invalidateSpace (m : Model) (id : SpaceId) :
    ForgetsSome m (m.invalidateSpace id).2 := by
  unfold invalidateSpace
  split
  · exact forgetsSome_invalidateEach m _
  · exact ForgetsSome.refl m

theorem forgetsSome_hideGlobal (m : Model) (name : String) :
    ForgetsSome m (m.hideGlobal name) := by
  unfold hideGlobal
  split
  · exact (forgetsAll_invalidate m _).forgetsSome
  · exact ForgetsSome.refl m

end Model

end Recalc
