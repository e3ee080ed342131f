import Mathlib.Data.List.Induction
import Recalc.Proofs.GraphKeys

set_option autoImplicit false

/-!
# Edits of the dependency graph

Reads are recorded in the graph and dropped by their reader, by an entity or all at once. After any
number of such edits the graph has exactly the edges that the edits leave, its three indices agree
on them, and nothing is stored for a node without an edge.
-/

namespace Recalc.Graph

inductive Edit where
  | record (reader n : Node)
  | dropReads (reader : Node)
  | prune (e : Entity)
  | clear

def edit (g : Graph) : Edit → Graph
  | .record reader n => g.record reader n
  | .dropReads reader => g.dropReads reader
  | .prune e => g.prune e
  | .clear => .empty

def edited (l : List Edit) : Graph := l.foldl edit .empty

/-- The edges after an edit, where those of `edges` were there before. -/
def Edit.leaves (edges : Node → Node → Prop) : Edit → Node → Node → Prop
  | .record reader n, a, b =>
    edges a b ∨ (reader == a) = true ∧ (n == b) = true ∧ (reader == n) = false
  | .dropReads reader, a, b => edges a b ∧ (reader == a) = false
  | .prune e, a, b => edges a b ∧ a.entity ≠ e ∧ b.entity ≠ e
  | .clear, _, _ => False

/-- The edges that edits leave of those that they record. -/
def left (l : List Edit) : Node → Node → Prop := l.foldl Edit.leaves fun _ _ => False

def Touched (g : Graph) (n : Node) : Prop := ∃ m, g.hasEdge n m = true ∨ g.hasEdge m n = true

theorem hasEdge_empty (a b : Node) : empty.hasEdge a b = false :=
  KeySet.contains_empty b

/-! ## No entity without keys -/

def Sparse (g : Graph) : Prop := NoEmpty g.keys

section Sparse

variable {g : Graph}

theorem outlasts_sparse : Outlasts Sparse where
  eraseReaders _ _ h := h
  eraseReads _ _ h := h
  readers _ _ _ h := h
  reads _ _ _ h := h
  keys _ e k h := noEmpty_removeAt h e k

theorem Sparse.enlist (h : g.Sparse) (n : Node) : (g.enlist n).Sparse :=
  noEmpty_addAt h n.entity n.key

theorem Sparse.record (h : g.Sparse) (reader n : Node) : (g.record reader n).Sparse := by
  unfold Graph.record
  split
  · exact h
  split
  · exact h
  have hedge : Sparse { g with
      reads := addAt g.reads reader n, readers := addAt g.readers n reader } := h
  exact (hedge.enlist reader).enlist n

end Sparse

/-! ## What an edit leaves -/

structure Neat (g : Graph) : Prop extends Indexed g where
  sparse : g.Sparse

theorem neat_empty : empty.Neat where
  toIndexed := indexed_empty
  sparse _ _ hs := absurd (hs.symm.trans (Table.get?_empty _)) (by simp)

section Edits

variable {g : Graph}

theorem Neat.edit (h : g.Neat) (e : Edit) : (g.edit e).Neat := by
  cases e with
  | record reader n => exact ⟨h.record reader n, h.sparse.record reader n⟩
  | dropReads reader =>
    exact ⟨(dropReads_spec h.toIndexed reader).1, outlasts_sparse.dropReads h.sparse reader⟩
  | prune e => exact ⟨(prune_spec h.toIndexed e).1, outlasts_sparse.prune h.sparse e⟩
  | clear => exact neat_empty

theorem hasEdge_edit (h : g.Indexed) (e : Edit) (a b : Node) :
    (g.edit e).hasEdge a b = true ↔ e.leaves (fun a b => g.hasEdge a b = true) a b := by
  cases e with
  | record reader n =>
    show (g.record reader n).hasEdge a b = true ↔ _
    rw [hasEdge_record, Bool.or_eq_true, Bool.and_eq_true, Bool.and_eq_true, Bool.not_eq_true',
      and_assoc]
    exact or_comm
  | dropReads reader =>
    show (g.dropReads reader).hasEdge a b = true ↔ _
    rw [(dropReads_spec h reader).2, Bool.and_eq_true, Bool.not_eq_true']
    exact and_comm
  | prune e =>
    show (g.prune e).hasEdge a b = true ↔ _
    rw [(prune_spec h e).2, Bool.and_eq_true, Bool.and_eq_true, Bool.not_eq_true',
      Bool.not_eq_true', beq_eq_false_iff_ne, beq_eq_false_iff_ne, and_assoc]
    exact Iff.rfl
  | clear =>
    show empty.hasEdge a b = true ↔ False
    simp [hasEdge_empty]

/-- Edits act on the edges alone, whatever tables these are stored in. -/
theorem neat_edited (l : List Edit) :
    (edited l).Neat ∧ ∀ a b, (edited l).hasEdge a b = true ↔ left l a b := by
  induction l using List.reverseRecOn with
  | nil => exact ⟨neat_empty, fun a b => by simp [edited, left, hasEdge_empty]⟩
  | append_singleton l e ih =>
    obtain ⟨hneat, hedges⟩ := ih
    have hedited : edited (l ++ [e]) = (edited l).edit e := List.foldl_append ..
    have hleft : left (l ++ [e]) = e.leaves (left l) := List.foldl_append ..
    have hsame : (fun a b => (edited l).hasEdge a b = true) = left l := by
      funext a b
      exact propext (hedges a b)
    rw [hedited, hleft]
    refine ⟨hneat.edit e, fun a b => ?_⟩
    rw [hasEdge_edit hneat.toIndexed, hsame]

theorem touched_iff (h : g.Paired) {n : Node} : g.Touched n ↔ g.isStored n = true := by
  constructor
  · rintro ⟨m, he | he⟩
    · exact (isStored_of_edge h he).1
    · exact (isStored_of_edge h he).2
  · intro hn
    rcases exists_edge_of_isStored h hn with ⟨a, ha⟩ | ⟨b, hb⟩
    · exact ⟨a, .inr ha⟩
    · exact ⟨b, .inl hb⟩

/-- The listing by entity has the nodes with an edge. -/
theorem mentions_iff (h : g.Indexed) {n : Node} : g.mentions n = true ↔ g.Touched n := by
  rw [touched_iff h.toPaired]
  exact ⟨fun hn => ((h.listed n).2 hn).resolve_right (by simp), (h.listed n).1⟩

theorem hasReaders_iff (h : g.Paired) (n : Node) :
    g.hasReaders n = true ↔ ∃ a, g.hasEdge a n = true := by
  refine ⟨h.exists_reader, ?_⟩
  rintro ⟨a, ha⟩
  exact contains_of_contains_setAt ((h.inverse a n).trans ha)

end Edits

/-! ## The indices are sound -/

/-- A graph with the given edges: its two tables are inverse to each other and hold no empty set and
no edge from a node to itself, and the keys listed of an entity are those of its nodes with an edge.
What is asked of the graph is answered by its edges, and dropping removes those that it names. -/
structure IndexSound (g : Graph) (edges : Node → Node → Prop) : Prop where
  stored : ∀ a b, (setAt g.reads a).contains b = true ↔ edges a b
  inverse : ∀ a b, (setAt g.readers b).contains a = (setAt g.reads a).contains b
  reads : NoEmpty g.reads
  readers : NoEmpty g.readers
  keys : NoEmpty g.keys
  irreflexive : ∀ a b, (a == b) = true → ¬ edges a b
  listed : ∀ e k, (setAt g.keys e).contains k = true ↔ ∃ m, edges ⟨e, k⟩ m ∨ edges m ⟨e, k⟩
  readsOf : ∀ a b, (g.readsOf a).contains b = true ↔ edges a b
  readersOf : ∀ a b, (g.readersOf b).contains a = true ↔ edges a b
  hasReaders : ∀ n, g.hasReaders n = true ↔ ∃ a, edges a n
  nodesAbout : ∀ e n, (g.nodesAbout e).contains n = true ↔
    n.entity = e ∧ ∃ m, edges n m ∨ edges m n
  dropReads : ∀ n a b, (g.dropReads n).hasEdge a b = true ↔ edges a b ∧ (n == a) = false
  prune : ∀ e a b, (g.prune e).hasEdge a b = true ↔ edges a b ∧ a.entity ≠ e ∧ b.entity ≠ e

/-- After any edits of a new graph its indices agree on the edges that the edits leave. -/
theorem indexSound_edited (l : List Edit) : IndexSound (edited l) (left l) := by
  obtain ⟨hneat, hedges⟩ := neat_edited l
  have hsame : (fun a b => (edited l).hasEdge a b = true) = left l := by
    funext a b
    exact propext (hedges a b)
  have htouched : ∀ n, (edited l).Touched n ↔ ∃ m, left l n m ∨ left l m n := fun n =>
    exists_congr fun m => or_congr (hedges n m) (hedges m n)
  have hafter := hasEdge_edit hneat.toIndexed
  rw [hsame] at hafter
  exact
    { stored := hedges
      inverse := hneat.inverse
      reads := hneat.reads
      readers := hneat.readers
      keys := hneat.sparse
      irreflexive := fun a b hab he => by
        have hnone := hneat.irreflexive a b hab
        rw [(hedges a b).2 he] at hnone
        contradiction
      listed := fun e k => (mentions_iff hneat.toIndexed).trans (htouched ⟨e, k⟩)
      readsOf := fun a b => by
        rw [Graph.readsOf, Table.contains_keys]
        exact hedges a b
      readersOf := fun a b => by
        rw [mem_readersOf hneat.toIndexed]
        exact hedges a b
      hasReaders := fun n => (hasReaders_iff hneat.toPaired n).trans
        (exists_congr fun a => hedges a n)
      nodesAbout := fun e n => by
        rw [contains_nodesAbout, Bool.and_eq_true, beq_iff_eq, mentions_iff hneat.toIndexed,
          htouched]
      dropReads := fun n => hafter (.dropReads n)
      prune := fun e => hafter (.prune e) }

end Recalc.Graph
