import Recalc.Proofs.Enriching
import Recalc.Proofs.Upholding

set_option autoImplicit false

/-!
# What evaluations leave behind

The journal of an evaluation lists the nodes that were pushed on the stack, each at the time it was
taken off again, with what its formula read and how its evaluation ended. A node can be in it more
than once, since one that failed is evaluated again when it is read again. Afterwards a node of the
journal holds the value of its last evaluation with the reads of that evaluation, or nothing at all
when that one failed, whoever caught the failure and whatever became of the nodes around it. The
journal also lists the bodies that ran, binders included, with their questions and the answers.
-/

namespace Recalc

open Recalc.Action

structure Visit where
  node : Node
  /-- What its formula read, other than reads that failed. -/
  reads : List Node
  result : Except Failure Value

/-- A question of a body, the model in which it was asked, and the answer. -/
structure Asked where
  query : Query
  model : Model
  answer : Except Failure Value

structure BodyRun where
  space : SpaceId
  asked : List Asked
  result : Except Failure Value

structure Journal where
  /-- What the node on top of the stack read, other than reads that failed. -/
  reads : List Node := []
  visits : List Visit := []
  /-- The bodies that came to an end, inner ones first. -/
  runs : List BodyRun := []

namespace Journal

instance : Append Journal :=
  ⟨fun j j' => ⟨j.reads ++ j'.reads, j.visits ++ j'.visits, j.runs ++ j'.runs⟩⟩

def lastOf : List Visit → Node → Option Visit
  | [], _ => none
  | e :: visits, n => (lastOf visits n).or (if e.node == n then some e else none)

def last? (j : Journal) (n : Node) : Option Visit := lastOf j.visits n

theorem lastOf_append (l l' : List Visit) (n : Node) :
    lastOf (l ++ l') n = (lastOf l' n).or (lastOf l n) := by
  induction l with
  | nil => rw [List.nil_append, lastOf, Option.or_none]
  | cons e l ih => rw [List.cons_append, lastOf, lastOf, ih, Option.or_assoc]

theorem last?_append (j j' : Journal) (n : Node) :
    (j ++ j').last? n = (j'.last? n).or (j.last? n) :=
  lastOf_append j.visits j'.visits n

theorem mem_of_last? {j : Journal} {n : Node} {e : Visit} (h : j.last? n = some e) :
    e ∈ j.visits ∧ (e.node == n) = true := by
  have key : ∀ l : List Visit, lastOf l n = some e → e ∈ l ∧ (e.node == n) = true := by
    intro l
    induction l with
    | nil => exact fun h => nomatch h
    | cons d l ih =>
      intro h
      rw [lastOf, Option.or_eq_some_iff] at h
      rcases h with h | ⟨-, h⟩
      · exact (ih h).imp_left (List.mem_cons_of_mem _)
      · split at h
        next heq =>
          cases h
          exact ⟨List.mem_cons_self, heq⟩
        next => contradiction
  exact key j.visits h

end Journal

namespace Model

/-! ## Journals -/

section Journals

variable {α : Type}

/-- What the rest records after an action, when the action succeeds. -/
def recordAfter (x : Action α) (rest : α → Model → Journal) (m : Model) : Journal :=
  match x m with
  | some (.ok a, m') => rest a m'
  | _ => {}

abbrev FormulaJournal : Type := SpaceId → Formula → List Value → Model → Journal

variable (run : RunFormula) (log : FormulaJournal)

/-- The node itself comes after what its formula pushed. -/
def computeJournal (id : CellId) (c : Cells) (key : Key) (m : Model) : Journal :=
  match enter (.cells id key) m, compute run id c key m with
  | some (.ok (), m₁), some (r, _) =>
    let inner := match c.formula with
      | some f => log c.space f key.values m₁
      | none => {}
    { reads := if r.isOk then [.cells id key] else []
      visits := inner.visits ++ [⟨.cells id key, inner.reads, r⟩]
      runs := inner.runs }
  | _, _ => {}

def evaluateKeyJournal (id : CellId) (key : Key) (m : Model) : Journal :=
  match m.cell id with
  | .ok c =>
    if (c.contents.get? key).isSome then { reads := [.cells id key] }
    else computeJournal run log id c key m
  | .error _ => {}

def evaluateJournal (id : CellId) (a : Arguments) (m : Model) : Journal :=
  match m.bindCells id a with
  | .ok key => evaluateKeyJournal run log id key m
  | .error _ => {}

/-- What a binder reads is read by the node on top. -/
def binderJournal (id : SpaceId) (a : Arguments) (m : Model) : Journal :=
  match m.signature id with
  | .ok spec =>
    match spec.binder, matchArguments spec.params a (m.dottedName id) with
    | some binder, .ok bound => log id binder bound m
    | _, _ => {}
  | .error _ => {}

def itemJournal (id : SpaceId) (key : Key) (m : Model) : Journal :=
  match ensureItem id key m with
  | some (.ok _, _) => { reads := [.item id key] }
  | _ => {}

def instantiateJournal (id : SpaceId) (a : Arguments) (m : Model) : Journal :=
  binderJournal log id a m ++ recordAfter (itemKey run id a) (itemJournal id) m

def applyJournal (call : Option Arguments) (v : Value) (m : Model) : Journal :=
  match call, v with
  | some a, .space h => instantiateJournal run log h.id a m
  | _, _ => {}

def readNameJournal (id : SpaceId) (name : String) (call : Option Arguments) (m : Model) :
    Journal :=
  match m.meaning id name with
  | .ok (.cells c) => evaluateJournal run log c (call.getD {}) m
  | .ok (.space target) => recordAfter (handleValue target) (applyJournal run log call) m
  | .ok (.ref r (.value v)) =>
    { reads := [.ref r] } ++ applyJournal run log call v (noteRead (.ref r) m)
  | .ok (.ref r (.space target)) =>
    { reads := [.ref r] } ++
      recordAfter (handleValue target) (applyJournal run log call) (noteRead (.ref r) m)
  | .ok (.param v) => applyJournal run log call v m
  | _ => {}

def answerJournal (id : SpaceId) : Query → Model → Journal
  | .lookup place name call => readNameJournal run log ((place.map Handle.id).getD id) name call
  | .item h args => instantiateJournal run log h.id { positional := args }
  | _ => fun _ => {}

def bodyJournal (ask : Query → Action Value) (log : Query → Model → Journal) :
    Body Value → Model → Journal
  | .done _, _ => {}
  | .ask q resume, m => log q m ++ match ask q m with
    | some (r, m') => bodyJournal ask log (resume r) m'
    | none => {}

def questions (ask : Query → Action Value) : Body Value → Model → List Asked
  | .done _, _ => []
  | .ask q resume, m => match ask q m with
    | some (r, m') => ⟨q, m, r⟩ :: questions ask (resume r) m'
    | none => []

/-- The body itself comes after those that ran inside it. -/
def ranJournal (id : SpaceId) (ask : Query → Action Value) (log : Query → Model → Journal)
    (body : Body Value) (m : Model) : Journal :=
  let inner := bodyJournal ask log body m
  match runBody ask body m with
  | some (r, _) => { inner with runs := inner.runs ++ [⟨id, questions ask body m, r⟩] }
  | none => inner

def formulaJournal : Nat → FormulaJournal
  | 0 => fun _ _ _ _ => {}
  | fuel + 1 => fun id f args m =>
    match f.rule with
    | .constant _ => {}
    | .computed body _ =>
      ranJournal id (answer (runFormula fuel) id)
        (answerJournal (runFormula fuel) (formulaJournal fuel) id) (body args)
        { m with runs := m.runs + 1 }

end Journals

/-! ## What a journal says of the model afterwards -/

def computed? (m : Model) (n : Node) : Option Value :=
  match n.entity with
  | .cells id => (m.cells.get? id).bind (·.contents.values.get? n.key)
  | _ => none

/-- The nodes of the journal hold what their last evaluation gave, with its reads, or nothing and no
reads. The others that are not under evaluation are as they were, and those under evaluation keep
the reads they have. -/
structure Settles (j : Journal) (m m' : Model) : Prop where
  fresh : ∀ e ∈ j.visits, m.stack.nodes.contains e.node = false
  kept : ∀ n, m.stack.nodes.contains n = false → j.last? n = none →
    m'.computed? n = m.computed? n ∧ ∀ b, m'.graph.hasEdge n b = m.graph.hasEdge n b
  done : ∀ n e v, j.last? n = some e → e.result = .ok v →
    m'.computed? n = some v ∧ ∀ b ∈ e.reads, m'.HasRead n b
  failed : ∀ n e f, j.last? n = some e → e.result = .error f →
    m'.computed? n = none ∧ ∀ b, m'.graph.hasEdge n b = false
  waiting : ∀ n, m.stack.nodes.contains n = true → ∀ b, m.graph.hasEdge n b = true →
    m'.graph.hasEdge n b = true
  noted : ∀ top, m.stack.nodes.head? = some top → ∀ b ∈ j.reads, m'.HasRead top b

section Laws

variable {m m₁ m' : Model}

theorem computed?_congr (m : Model) {n n' : Node} (h : (n == n') = true) :
    m.computed? n = m.computed? n' := by
  rw [Graph.node_beq_iff, Bool.and_eq_true, beq_iff_eq] at h
  unfold computed?
  rw [h.1]
  split
  · simp only [Table.get?_congr _ h.2]
  · rfl

theorem regular_cells (id : CellId) (key : Key) : (Node.cells id key).Regular :=
  fun _ he => nomatch he

theorem regular_item (id : SpaceId) (key : Key) : (Node.item id key).Regular :=
  fun _ he => nomatch he

theorem regular_ref (id : RefId) : (Node.ref id).Regular := by
  intro other he
  cases he
  exact BEq.rfl

theorem contains_head {l : List Node} {top : Node} (h : l.head? = some top) :
    l.contains top = true :=
  contains_of_mem (List.mem_of_mem_head? h)

theorem Settles.off_stack {j : Journal} (h : Settles j m m') {n : Node} {e : Visit}
    (hn : j.last? n = some e) : m.stack.nodes.contains n = false := by
  obtain ⟨he, heq⟩ := Journal.mem_of_last? hn
  rw [← contains_congr_right heq]
  exact h.fresh e he

/-- One part of an evaluation after the other. -/
theorem Settles.append {j j' : Journal} (h : Settles j m m₁) (h' : Settles j' m₁ m')
    (hstack : m₁.stack.nodes = m.stack.nodes) : Settles (j ++ j') m m' := by
  refine ⟨fun e he => ?_, fun n hn hnone => ?_, fun n e v hn hv => ?_, fun n e f hn hf => ?_,
    fun n hn b hb => ?_, fun top htop b hb => ?_⟩
  · rcases List.mem_append.1 he with he | he
    · exact h.fresh e he
    · rw [← hstack]
      exact h'.fresh e he
  · rw [Journal.last?_append, Option.or_eq_none_iff] at hnone
    obtain ⟨hvalue, hedges⟩ := h.kept n hn hnone.2
    obtain ⟨hvalue', hedges'⟩ := h'.kept n (by rwa [hstack]) hnone.1
    exact ⟨hvalue'.trans hvalue, fun b => (hedges' b).trans (hedges b)⟩
  · rw [Journal.last?_append, Option.or_eq_some_iff] at hn
    rcases hn with hn | ⟨hnone, hn⟩
    · exact h'.done n e v hn hv
    · obtain ⟨hvalue, hreads⟩ := h.done n e v hn hv
      obtain ⟨hvalue', hedges'⟩ := h'.kept n (by rw [hstack]; exact h.off_stack hn) hnone
      exact ⟨hvalue'.trans hvalue, fun b hb => ⟨(hedges' b).trans (hreads b hb).1, (hreads b hb).2⟩⟩
  · rw [Journal.last?_append, Option.or_eq_some_iff] at hn
    rcases hn with hn | ⟨hnone, hn⟩
    · exact h'.failed n e f hn hf
    · obtain ⟨hvalue, hedges⟩ := h.failed n e f hn hf
      obtain ⟨hvalue', hedges'⟩ := h'.kept n (by rw [hstack]; exact h.off_stack hn) hnone
      exact ⟨hvalue'.trans hvalue, fun b => (hedges' b).trans (hedges b)⟩
  · exact h'.waiting n (by rwa [hstack]) b (h.waiting n hn b hb)
  · rcases List.mem_append.1 hb with hb | hb
    · have htop' : m₁.stack.nodes.contains top = true := by
        rw [hstack]
        exact contains_head htop
      obtain ⟨hedge, hregular⟩ := h.noted top htop b hb
      exact ⟨h'.waiting top htop' b hedge, hregular⟩
    · exact h'.noted top (by rwa [hstack]) b hb

/-- Nothing is pushed. -/
theorem settles_reads {reads : List Node} (hvalues : ∀ n, m'.computed? n = m.computed? n)
    (hedges : ∀ n, m.stack.nodes.contains n = false → ∀ b,
      m'.graph.hasEdge n b = m.graph.hasEdge n b)
    (hwaiting : ∀ a b, m.graph.hasEdge a b = true → m'.graph.hasEdge a b = true)
    (hnoted : ∀ top, m.stack.nodes.head? = some top → ∀ b ∈ reads, m'.HasRead top b) :
    Settles { reads } m m' where
  fresh _ h := absurd h List.not_mem_nil
  kept n hn _ := ⟨hvalues n, hedges n hn⟩
  done _ _ _ h := nomatch h
  failed _ _ _ h := nomatch h
  waiting n _ b hb := hwaiting n b hb
  noted := hnoted

theorem settles_nothing (hvalues : ∀ n, m'.computed? n = m.computed? n)
    (hgraph : m'.graph = m.graph) : Settles {} m m' :=
  settles_reads hvalues (fun _ _ _ => by rw [hgraph]) (fun _ _ h => by rwa [hgraph])
    fun _ _ _ h => absurd h List.not_mem_nil

theorem Settles.withoutReads {reads : List Node} (h : Settles { reads } m m') :
    Settles {} m m' :=
  ⟨h.fresh, h.kept, h.done, h.failed, h.waiting, fun _ _ _ hb => absurd hb List.not_mem_nil⟩

/-- Which bodies ran does not matter to what they leave behind. -/
theorem Settles.withRuns {j : Journal} (h : Settles j m m') (runs : List BodyRun) :
    Settles { j with runs } m m' :=
  ⟨h.fresh, h.kept, h.done, h.failed, h.waiting, h.noted⟩

theorem computed?_noteRead (m : Model) (n k : Node) :
    (noteRead n m).computed? k = m.computed? k := by
  unfold noteRead
  split <;> rfl

/-- Only the reads of the node under evaluation change. -/
theorem settles_noteRead {n : Node} (hn : m.stack.nodes.contains n = false) (hreg : n.Regular) :
    Settles { reads := [n] } m (noteRead n m) := by
  refine settles_reads (computed?_noteRead m n) (fun a ha b => ?_) (fun a b hab => ?_)
    fun top htop b hb => ?_
  · unfold noteRead
    split
    next top htop =>
      rw [Graph.hasEdge_record]
      cases heq : top == a with
      | false => rw [Bool.false_and, Bool.false_and, Bool.false_or]
      | true =>
        rw [← contains_congr_right heq, contains_head htop] at ha
        contradiction
    next => rfl
  · unfold noteRead
    split
    · rw [Graph.hasEdge_record, hab, Bool.or_true]
    · exact hab
  · cases List.mem_singleton.1 hb
    have hne : (top == n) = false := Bool.eq_false_iff.2 fun heq => by
      rw [← contains_congr_right heq, contains_head htop] at hn
      contradiction
    refine ⟨?_, hreg⟩
    unfold noteRead
    rw [show m.stack.top? = some top from htop]
    dsimp only
    rw [Graph.hasEdge_record, BEq.rfl, BEq.rfl, hne]
    rfl

/-- What comes in addition holds no values. -/
theorem Widens.settles (h : Widens m m') (ht : m.Tidy) : Settles {} m m' := by
  refine settles_nothing (fun n => ?_) h.graph
  unfold computed?
  split
  next id _ =>
    cases hc : m.cells.get? id with
    | some c =>
      obtain ⟨c', hc', heq⟩ := h.cells ht id c hc
      rw [hc', Option.bind_some, Option.bind_some, heq]
    | none =>
      cases hc' : m'.cells.get? id with
      | none => rfl
      | some c' =>
        rcases h.fresh ht id c' hc' with hempty | ⟨c, hc₁, -⟩
        · rw [Option.bind_some, hempty]
          exact Table.get?_empty _
        · rw [hc] at hc₁
          contradiction
  next => rfl

theorem computed?_eq_none {n : Node} (h : m.isComputed n = false) : m.computed? n = none := by
  refine Option.eq_none_iff_forall_ne_some.2 fun v hv => ?_
  unfold computed? at hv
  split at hv
  next id he =>
    obtain ⟨c, hc, hv⟩ := Option.bind_eq_some_iff.1 hv
    rw [isComputed_iff.2 ⟨id, c, he, hc, Table.contains_of_get? hv⟩] at h
    contradiction
  next => contradiction

/-- Only nodes of cells are evaluated. -/
theorem Tracked.entity_of_stack {loose : Node → Prop} (h : m.Tracked loose) {n : Node}
    (hn : m.stack.nodes.contains n = true) : ∃ id, n.entity = .cells id := by
  obtain ⟨top, htop, heq⟩ := List.contains_iff_exists_mem_beq.1 hn
  obtain ⟨id, -, he, -⟩ := h.waiting top htop
  rw [Graph.node_beq_iff, Bool.and_eq_true, beq_iff_eq] at heq
  exact ⟨id, heq.1.trans he⟩

/-- What is stored is not under evaluation. -/
theorem Tracked.off_stack {loose : Node → Prop} (h : m.Tracked loose) {n : Node}
    (hn : m.isLive n = true) : m.stack.nodes.contains n = false := by
  refine Bool.eq_false_iff.2 fun hstack => ?_
  obtain ⟨top, htop, heq⟩ := List.contains_iff_exists_mem_beq.1 hstack
  obtain ⟨id, c, he, hc, hnone⟩ := h.waiting top htop
  rw [isLive_congr m heq] at hn
  unfold isLive at hn
  simp only [he, hc, Option.any_some, hnone] at hn
  contradiction

/-- The node whose evaluation is over comes after what its formula pushed. -/
theorem Settles.close {j : Journal} {n : Node} {r : Except Failure Value} {stack : Stack}
    {reads : List Node} {runs : List BodyRun} (h : Settles j { m with stack } m₁)
    (hstack : stack.nodes = n :: m.stack.nodes) (hoff : m.stack.nodes.contains n = false)
    (hothers : ∀ k, m.stack.nodes.contains k = false → (n == k) = false →
      m'.computed? k = m₁.computed? k ∧ ∀ b, m'.graph.hasEdge k b = m₁.graph.hasEdge k b)
    (hdone : ∀ v, r = .ok v → m'.computed? n = some v ∧
      ∀ b, m₁.graph.hasEdge n b = true → m'.graph.hasEdge n b = true)
    (hfailed : ∀ e, r = .error e →
      m'.computed? n = none ∧ ∀ b, m'.graph.hasEdge n b = false)
    (hwaiting : ∀ k, m.stack.nodes.contains k = true → ∀ b, m₁.graph.hasEdge k b = true →
      m'.graph.hasEdge k b = true)
    (hnoted : ∀ top, m.stack.nodes.head? = some top → ∀ b ∈ reads, m'.HasRead top b) :
    Settles { reads, visits := j.visits ++ [⟨n, j.reads, r⟩], runs } m m' := by
  have hpushed : ∀ k, stack.nodes.contains k = (n == k || m.stack.nodes.contains k) := fun k => by
    rw [hstack, List.contains_cons, BEq.comm]
  have hout : ∀ k e, j.last? k = some e → (n == k) = false ∧ m.stack.nodes.contains k = false :=
    fun k e hk => Bool.or_eq_false_iff.1 ((hpushed k).symm.trans (h.off_stack hk))
  have hlast : ∀ k, Journal.last? { reads, visits := j.visits ++ [⟨n, j.reads, r⟩], runs } k =
      if n == k then some ⟨n, j.reads, r⟩ else j.last? k := by
    intro k
    show Journal.lastOf (j.visits ++ [⟨n, j.reads, r⟩]) k = _
    rw [Journal.lastOf_append, Journal.lastOf, Journal.lastOf, Option.none_or]
    split
    · rfl
    · rfl
  refine ⟨fun e he => ?_, fun k hk hnone => ?_, fun k e v he hv => ?_, fun k e f he hf => ?_,
    fun k hk b hb => ?_, hnoted⟩
  · rcases List.mem_append.1 he with he | he
    · exact (Bool.or_eq_false_iff.1 ((hpushed e.node).symm.trans (h.fresh e he))).2
    · cases List.mem_singleton.1 he
      exact hoff
  · rw [hlast] at hnone
    split at hnone
    · contradiction
    next hne =>
      have hne := Bool.eq_false_iff.2 hne
      obtain ⟨hvalue, hedges⟩ := hothers k hk hne
      obtain ⟨hvalue₁, hedges₁⟩ := h.kept k ((hpushed k).trans (by rw [hne, hk]; rfl)) hnone
      exact ⟨hvalue.trans hvalue₁, fun b => (hedges b).trans (hedges₁ b)⟩
  · rw [hlast] at he
    split at he
    next heq =>
      cases he
      obtain ⟨hvalue, hreads⟩ := hdone v hv
      refine ⟨(computed?_congr m' heq).symm.trans hvalue, fun b hb => ?_⟩
      obtain ⟨hedge, hregular⟩ := h.noted n (by rw [hstack]; rfl) b hb
      exact ⟨(Graph.hasEdge_congr _ heq BEq.rfl).symm.trans (hreads b hedge), hregular⟩
    next =>
      obtain ⟨hne, hk⟩ := hout k e he
      obtain ⟨hvalue, hedges⟩ := hothers k hk hne
      obtain ⟨hvalue₁, hreads₁⟩ := h.done k e v he hv
      exact ⟨hvalue.trans hvalue₁, fun b hb =>
        ⟨(hedges b).trans (hreads₁ b hb).1, (hreads₁ b hb).2⟩⟩
  · rw [hlast] at he
    split at he
    next heq =>
      cases he
      obtain ⟨hvalue, hedges⟩ := hfailed f hf
      exact ⟨(computed?_congr m' heq).symm.trans hvalue, fun b =>
        (Graph.hasEdge_congr _ heq BEq.rfl).symm.trans (hedges b)⟩
    next =>
      obtain ⟨hne, hk⟩ := hout k e he
      obtain ⟨hvalue, hedges⟩ := hothers k hk hne
      obtain ⟨hvalue₁, hedges₁⟩ := h.failed k e f he hf
      exact ⟨hvalue.trans hvalue₁, fun b => (hedges b).trans (hedges₁ b)⟩
  · exact hwaiting k hk b (h.waiting k (by rw [hpushed, hk, Bool.or_true]) b hb)

/-- Storing a value changes what is computed for its node only. -/
theorem computed?_store {id : CellId} {c : Cells} {key : Key} {v : Value} {contents : Contents}
    (hc : m.cells.get? id = some c) (hstore : c.contents.store? key v = some contents) (k : Node) :
    (m.modifyCell id fun c => { c with contents }).computed? k =
      if Node.cells id key == k then some v else m.computed? k := by
  obtain ⟨-, rfl⟩ := Contents.store?_eq_some.1 hstore
  unfold computed?
  cases he : k.entity with
  | cells other =>
    dsimp only
    rw [get?_modifyContents m id fun _ => _]
    by_cases h : id = other
    · subst h
      rw [hc, Option.map_some, Option.bind_some, Option.bind_some, if_pos rfl,
        node_beq_of_entity key he]
      exact Table.get?_insert _ _ _ _
    · rw [Graph.node_beq_iff, he]
      have hne : ((Node.cells id key).entity == Entity.cells other) = false :=
        beq_eq_false_iff_ne.2 fun heq => h (Entity.cells.inj heq)
      rw [hne, Bool.false_and, if_neg Bool.false_ne_true]
      cases m.cells.get? other with
      | none => rfl
      | some d => rw [Option.map_some, if_neg h]
  | space other | ref other =>
    rw [Graph.node_beq_iff, he]
    rfl

end Laws

/-! ## Evaluation settles what it records -/

/-- From a tracked model to another one, with the journal of what happened in between. -/
def Records (j : Journal) : Model → Model → Prop :=
  Under (Tracked fun _ => False) fun m m' => Retains m m' ∧ Settles j m m'

section Rules

variable {m m₁ m' : Model}

theorem Records.append {j j' : Journal} (h : Records j m m₁) (h' : Records j' m₁ m') :
    Records (j ++ j') m m' := by
  intro ht
  obtain ⟨ht₁, hr, hs⟩ := h ht
  obtain ⟨ht', hr', hs'⟩ := h' ht₁
  exact ⟨ht', Frame.trans hr hr', hs.append hs' hr.stack⟩

instance : Frame (Records {}) where
  refl m ht := ⟨ht, Frame.refl m, settles_nothing (fun _ => rfl) rfl⟩
  trans h h' := h.append h'

theorem records_same (m : Model) : Records {} m m := Frame.refl m

theorem records_noteRead {n : Node} (hn : m.isLive n = true) (hreg : n.Regular) :
    Records { reads := [n] } m (noteRead n m) := by
  intro ht
  obtain ⟨ht', hr⟩ := under_noteRead m n hn ht
  exact ⟨ht', hr, settles_noteRead (ht.off_stack hn) hreg⟩

theorem records_ensureChild (p : SpaceId) (name : String) :
    Obeys (Records {}) (ensureChild p name) := by
  intro m r m' h ht
  obtain ⟨ht', hr⟩ := under_ensureChild p name m r m' h ht
  refine ⟨ht', hr, ?_⟩
  rcases ensureChild_cases h with ⟨rfl, -⟩ |
      ⟨s, root, c, source, counterpart, child, m₁, -, -, -, -, -, -, hadd, rfl, -⟩
  · exact settles_nothing (fun _ => rfl) rfl
  · have hlist : Widens m₁ (m₁.listChild p name child) :=
      widens_modifySpace m₁ p _ fun _ _ _ hk => hk
    exact (Frame.trans (widens_addReplica hadd) hlist : Widens m _).settles ht.tidy

theorem records_ensureItem {id : SpaceId} {key : Key} {r : Except Failure Handle}
    (h : ensureItem id key m = some (r, m')) : Records (itemJournal id key m) m m' := by
  intro ht
  obtain ⟨ht', hr⟩ := under_ensureItem h ht
  refine ⟨ht', hr, ?_⟩
  have hoff : m.stack.nodes.contains (.item id key) = false :=
    Bool.eq_false_iff.2 fun hstack => (ht.entity_of_stack hstack).elim fun _ he => nomatch he
  unfold itemJournal
  rw [h]
  rcases ensureItem_cases h with ⟨rfl, e, rfl⟩ | ⟨s, hs, ⟨item, -, rfl, -⟩ |
      ⟨c, item, m₁, -, -, hadd, rfl, -⟩⟩
  · exact settles_nothing (fun _ => rfl) rfl
  · have hnoted := settles_noteRead hoff (regular_item id key)
    cases r with
    | ok handle => exact hnoted
    | error e => exact hnoted.withoutReads
  · have hlist : Widens m₁ (m₁.listItem id key item) :=
      widens_modifySpace m₁ id _ fun s _ k hk => by rw [Table.contains_insert, hk, Bool.or_true]
    have hadded : Widens m (m₁.listItem id key item) := Frame.trans (widens_addReplica hadd) hlist
    have hnoted : Settles { reads := [.item id key] } m
        (noteRead (.item id key) (m₁.listItem id key item)) :=
      (hadded.settles ht.tidy).append (settles_noteRead (by rw [hadded.stack, hoff])
        (regular_item id key))
        (by rw [hadded.stack])
    cases r with
    | ok handle => exact hnoted
    | error e => exact hnoted.withoutReads

theorem records_ensurePath (path : List String) (id : SpaceId) :
    Obeys (Records {}) (ensurePath path id) := by
  induction path generalizing id with
  | nil => exact obeys_pure id
  | cons name rest ih => exact obeys_bind (records_ensureChild id name) fun child => ih child

theorem records_handleValue (target : Place) : Obeys (Records {}) (handleValue target) := by
  have hplace : Obeys (Records {}) (ensurePlace target) := by
    cases target with
    | existing id => exact obeys_bind (obeys_read _) fun _ => obeys_pure id
    | pending start path => exact records_ensurePath path start
  exact obeys_bind hplace fun id => obeys_bind (obeys_read _) fun _ => obeys_pure _

/-- Formulas that run record what they read and push. -/
def Recorded (run : RunFormula) (log : FormulaJournal) : Prop :=
  ∀ id f args m r m', run id f args m = some (r, m') → Records (log id f args m) m m'

section Parts

variable {run : RunFormula} {log : FormulaJournal}

/-- The node on top comes to its end. -/
theorem records_compute (hrun : Recorded run log) {id : CellId} {c : Cells} {key : Key}
    {r : Except Failure Value} (hc : m.cells.get? id = some c)
    (hnone : c.contents.get? key = none) (h : compute run id c key m = some (r, m')) :
    Records (computeJournal run log id c key m) m m' := by
  intro ht
  obtain ⟨ht', hretains⟩ := under_compute
    (fun _ _ _ _ _ hf hm => (hrun _ _ _ _ _ _ hf hm).imp_right And.left) hc hnone h ht
  refine ⟨ht', hretains, ?_⟩
  unfold computeJournal
  rw [h]
  rcases compute_cases h with ⟨rfl, e, henter, -⟩ | ⟨stack, q, m₁, hpush, henter, hcells, hfinish⟩
  · rw [henter]
    exact settles_nothing (fun _ => rfl) rfl
  rw [henter]
  have hnodes := Stack.nodes_of_push? hpush
  have hoff := not_contains_of_push? hpush
  have hpushed : ({ m with stack } : Model).Tracked fun _ => False :=
    tracked_push ht hpush hc hnone
  obtain ⟨ht₁, hr₁, hs₁⟩ : m₁.Tracked (fun _ => False) ∧ Retains { m with stack } m₁ ∧
      Settles (match c.formula with
        | some f => log c.space f key.values { m with stack }
        | none => {}) { m with stack } m₁ := by
    rcases runCells_cases hcells with ⟨hf, rfl, -⟩ | ⟨f, r, hf, hran, -⟩
    · rw [hf]
      exact records_same _ hpushed
    · rw [hf]
      exact hrun _ _ _ _ _ _ hran hpushed
  have hnodes₁ : m₁.stack.nodes = .cells id key :: m.stack.nodes := hr₁.stack.trans hnodes
  have hpop : m₁.stack.pop.nodes = m.stack.nodes := by
    rw [Stack.nodes_pop, hnodes₁, List.tail_cons]
  have htop : m₁.stack.nodes.contains (.cells id key) = true := by
    rw [hnodes₁, List.contains_cons, BEq.rfl, Bool.true_or]
  cases q with
  | error e =>
    cases hfinish
    obtain ⟨-, hedge⟩ := Graph.dropReads_spec ht₁.indexed (.cells id key)
    have hkeep : ∀ k, (Node.cells id key == k) = false → ∀ b,
        (m₁.graph.dropReads (.cells id key)).hasEdge k b = m₁.graph.hasEdge k b := by
      intro k hne b
      rw [hedge, hne]
      rfl
    refine hs₁.close hnodes hoff (fun k _ hne => ⟨rfl, hkeep k hne⟩) (fun v hv => nomatch hv)
      (fun _ _ => ⟨computed?_eq_none (ht₁.not_computed htop), fun b => ?_⟩) (fun k hk b hb => ?_)
      fun _ _ _ hb => absurd hb List.not_mem_nil
    · rw [hedge, BEq.rfl]
      rfl
    · refine (hkeep k (Bool.eq_false_iff.2 fun heq => ?_) b).trans hb
      rw [contains_congr_right heq, hk] at hoff
      contradiction
  | ok v =>
    obtain ⟨other, c₁, he, hc₁, hnone₁⟩ :=
      ht₁.waiting (.cells id key) (by rw [hnodes₁]; exact List.mem_cons_self)
    cases he
    obtain ⟨contents, hstore⟩ : ∃ contents, c₁.contents.store? key v = some contents :=
      ⟨_, Contents.store?_eq_some.2
        ⟨Contents.inputs_eq_none_iff.1 (Option.or_eq_none_iff.1 hnone₁).1, rfl⟩⟩
    rw [finish_of_store (m := { m₁ with stack := m₁.stack.pop }) hc₁ hstore] at hfinish
    cases hfinish
    have hvalue := computed?_store (m := { m₁ with stack := m₁.stack.pop }) hc₁ hstore
    have hnote := settles_noteRead (m := { m₁ with stack := m₁.stack.pop }.modifyCell id
      fun c => { c with contents }) (n := .cells id key) (by
        show m₁.stack.pop.nodes.contains _ = false
        rw [hpop, hoff]) (regular_cells id key)
    have hoff' : ∀ k b, m.stack.nodes.contains k = b → m₁.stack.pop.nodes.contains k = b :=
      fun k b hk => by rw [hpop, hk]
    refine hs₁.close hnodes hoff (fun k hk hne => ?_) (fun w hw => ?_) (fun e he => nomatch he)
      (fun k hk => hnote.waiting k (hoff' k _ hk)) fun top htop => hnote.noted top ?_
    · refine ⟨?_, (hnote.kept k (hoff' k _ hk) rfl).2⟩
      rw [computed?_noteRead, hvalue, hne]
      rfl
    · cases hw
      refine ⟨?_, fun b hb => ((hnote.kept _ (hoff' _ _ hoff) rfl).2 b).trans hb⟩
      rw [computed?_noteRead, hvalue, BEq.rfl]
      rfl
    · show m₁.stack.pop.nodes.head? = some top
      rw [hpop, htop]

theorem records_evaluateKey (hrun : Recorded run log) {id : CellId} {key : Key}
    {r : Except Failure Value} (h : evaluateKey run id key m = some (r, m')) :
    Records (evaluateKeyJournal run log id key m) m m' := by
  unfold evaluateKey at h
  rw [read_bind] at h
  unfold evaluateKeyJournal
  cases hc : m.cell id with
  | error e =>
    rw [hc] at h
    cases h
    exact records_same m
  | ok c =>
    rw [hc] at h
    dsimp only at h ⊢
    cases hv : c.contents.get? key with
    | some v =>
      rw [hv] at h
      cases h
      exact records_noteRead (isLive_of_stored (cell_eq_ok.1 hc) hv) (regular_cells id key)
    | none =>
      rw [hv] at h
      exact records_compute hrun (cell_eq_ok.1 hc) hv h

theorem records_evaluate (hrun : Recorded run log) {id : CellId} {a : Arguments}
    {r : Except Failure Value} (h : evaluate run id a m = some (r, m')) :
    Records (evaluateJournal run log id a m) m m' := by
  unfold evaluate at h
  rw [read_bind] at h
  unfold evaluateJournal
  split at h
  next key hkey =>
    rw [hkey]
    exact records_evaluateKey hrun h
  next e hkey =>
    rw [hkey]
    cases h
    exact records_same m

theorem records_itemKey (hrun : Recorded run log) {id : SpaceId} {a : Arguments}
    {r : Except Failure Key} (h : itemKey run id a m = some (r, m')) :
    Records (binderJournal log id a m) m m' := by
  unfold itemKey at h
  rw [read_bind] at h
  unfold binderJournal
  cases hspec : m.signature id with
  | error e =>
    rw [hspec] at h
    cases h
    exact records_same m
  | ok spec =>
    rw [hspec] at h
    simp only [read_bind] at h
    dsimp only
    cases hbound : matchArguments spec.params a (m.dottedName id) with
    | error e =>
      rw [hbound] at h
      cases h
      split
      next hok => contradiction
      next => exact records_same m
    | ok bound =>
      rw [hbound] at h
      cases hbinder : spec.binder with
      | none =>
        rw [hbinder] at h
        cases h
        exact records_same m
      | some binder =>
        rw [hbinder] at h
        simp only [attempt_bind] at h
        split at h
        next q m₁ hq =>
          have hend : m' = m₁ := by
            split at h <;> cases h <;> rfl
          subst hend
          exact hrun _ _ _ _ _ _ hq
        next => contradiction

theorem records_instantiate (hrun : Recorded run log) {id : SpaceId} {a : Arguments}
    {r : Except Failure Handle} (h : instantiate run id a m = some (r, m')) :
    Records (instantiateJournal run log id a m) m m' := by
  unfold instantiateJournal recordAfter
  rcases (bind_eq_some m).1 h with ⟨key, m₁, hkey, hitem⟩ | ⟨e, hkey, -⟩
  · rw [hkey]
    exact (records_itemKey hrun hkey).append (records_ensureItem hitem)
  · rw [hkey]
    exact (records_itemKey hrun hkey).append (records_same m')

theorem records_applyCall (hrun : Recorded run log) {name : String} {call : Option Arguments}
    {v : Value} {r : Except Failure Value} (h : applyCall run name call v m = some (r, m')) :
    Records (applyJournal run log call v m) m m' := by
  unfold applyCall at h
  unfold applyJournal
  split at h
  next =>
    cases h
    exact records_same m
  next a handle =>
    rcases (bind_eq_some m).1 h with ⟨item, m₁, hitem, h⟩ | ⟨e, hitem, -⟩
    · cases h
      exact records_instantiate hrun hitem
    · exact records_instantiate hrun hitem
  next hspace =>
    cases h
    split
    next a handle _ => exact (hspace handle rfl).elim
    next => exact records_same m

/-- What a place stands for is found, and then called. -/
theorem records_callPlace (hrun : Recorded run log) {name : String} {call : Option Arguments}
    {target : Place} {r : Except Failure Value}
    (h : (handleValue target >>= applyCall run name call) m = some (r, m')) :
    Records (recordAfter (handleValue target) (applyJournal run log call) m) m m' := by
  unfold recordAfter
  rcases (bind_eq_some m).1 h with ⟨v, m₁, hvalue, h⟩ | ⟨e, hvalue, -⟩
  · rw [hvalue]
    exact (records_handleValue target _ _ _ hvalue).append (records_applyCall hrun h)
  · rw [hvalue]
    exact records_handleValue target _ _ _ hvalue

theorem records_readName (hrun : Recorded run log) {id : SpaceId} {name : String}
    {call : Option Arguments} {r : Except Failure Value}
    (h : readName run id name call m = some (r, m')) :
    Records (readNameJournal run log id name call m) m m' := by
  unfold readName at h
  rw [read_bind] at h
  unfold readNameJournal
  cases hfound : m.meaning id name with
  | error e =>
    rw [hfound] at h
    cases h
    exact records_same m
  | ok found =>
    rw [hfound] at h
    dsimp only at h ⊢
    cases found with
    | cells c => exact records_evaluate hrun h
    | space target => exact records_callPlace hrun h
    | ref ref target =>
      obtain ⟨v, hv⟩ := refs_of_meaning hfound
      have hnote := records_noteRead (isLive_ref_of_meaning hv) (regular_ref ref)
      cases target with
      | value v => exact hnote.append (records_applyCall hrun h)
      | space target => exact hnote.append (records_callPlace hrun h)
    | param v => exact records_applyCall hrun h
    | model =>
      have hcall := records_applyCall hrun h
      cases call <;> exact hcall

theorem records_answer (hrun : Recorded run log) {id : SpaceId} {q : Query}
    {r : Except Failure Value} (h : answer run id q m = some (r, m')) :
    Records (answerJournal run log id q m) m m' := by
  cases q with
  | lookup place name call => exact records_readName hrun h
  | item handle args =>
    rcases (bind_eq_some m).1 h with ⟨item, m₁, hitem, h⟩ | ⟨e, hitem, -⟩
    · cases h
      exact records_instantiate hrun hitem
    · exact records_instantiate hrun hitem
  | argValues handle =>
    exact obeys_bind (R := Records {}) (obeys_read _) (fun _ => obeys_pure _) m r m' h
  | here => exact obeys_bind (R := Records {}) (obeys_read _) (fun _ => obeys_pure _) m r m' h
  | modelName | depth =>
    cases h
    exact records_same m

theorem records_runBody {ask : Query → Action Value} {log : Query → Model → Journal}
    (hask : ∀ q m r m', ask q m = some (r, m') → Records (log q m) m m') (body : Body Value)
    {r : Except Failure Value} (h : runBody ask body m = some (r, m')) :
    Records (bodyJournal ask log body m) m m' := by
  induction body generalizing m with
  | done q =>
    cases h
    exact records_same _
  | ask q resume ih =>
    unfold runBody at h
    rw [attempt_bind] at h
    unfold bodyJournal
    split at h
    next r m₁ hr =>
      rw [hr]
      exact (hask q m r m₁ hr).append (ih r h)
    next => contradiction

theorem records_ran {ask : Query → Action Value} {log : Query → Model → Journal} (id : SpaceId)
    (hask : ∀ q m r m', ask q m = some (r, m') → Records (log q m) m m') {body : Body Value}
    {r : Except Failure Value} (h : runBody ask body m = some (r, m')) :
    Records (ranJournal id ask log body m) m m' := by
  intro ht
  obtain ⟨ht', hr, hs⟩ := records_runBody hask body h ht
  unfold ranJournal
  rw [h]
  exact ⟨ht', hr, hs.withRuns _⟩

/-- Whatever formulas do, they record what they read and push. -/
theorem recorded_runFormula (fuel : Nat) : Recorded (runFormula fuel) (formulaJournal fuel) := by
  induction fuel with
  | zero =>
    intro id f args m r m' h
    contradiction
  | succ fuel ih =>
    intro id f args m r m' h
    unfold runFormula at h
    unfold formulaJournal
    cases hrule : f.rule with
    | constant v =>
      simp only [hrule] at h ⊢
      cases h
      exact records_same m
    | computed body kept =>
      simp only [hrule] at h ⊢
      rw [modify_bind] at h
      have hstart : Records {} m { m with runs := m.runs + 1 } := by
        intro ht
        obtain ⟨ht', hr⟩ := evaluationFrame_tracked.start m ht
        exact ⟨ht', hr, settles_nothing (fun _ => rfl) rfl⟩
      exact hstart.append (records_ran id (fun _ _ _ _ => records_answer ih) h)

end Parts

end Rules

end Model

end Recalc
