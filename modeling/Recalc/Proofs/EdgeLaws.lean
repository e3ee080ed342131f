import Mathlib.Tactic.ByContra
import Recalc.Graph
import Recalc.Proofs.ReachLaws

set_option autoImplicit false

/-!
# Laws of the dependency graph

A graph is indexed when its two tables of edges are inverse to each other, store no empty set and
no edge from a node to itself, and when it lists the nodes that have an edge. Every operation keeps
a graph indexed, and what each one does to the edges is said once.
-/

namespace Recalc

open Std

section Tables

variable {κ ν : Type} [Ord κ] [TransOrd κ] [BEq κ] [LawfulBEqOrd κ]

theorem Table.get?_congr (t : Table κ ν) {k j : κ} (h : (k == j) = true) :
    t.get? k = t.get? j :=
  ExtTreeMap.getElem?_congr (LawfulBEqCmp.compare_eq_iff_beq.2 h)

theorem Table.contains_congr (t : Table κ ν) {k j : κ} (h : (k == j) = true) :
    t.contains k = t.contains j := by
  rw [contains_eq_isSome, contains_eq_isSome, t.get?_congr h]

omit [BEq κ] [LawfulBEqOrd κ] in
theorem Table.contains_of_get? {t : Table κ ν} {k : κ} {v : ν} (h : t.get? k = some v) :
    t.contains k = true := by
  rw [contains_eq_isSome, h]
  rfl

end Tables

theorem KeySet.isEmpty_iff {κ : Type} [Ord κ] [TransOrd κ] {s : KeySet κ} :
    s.isEmpty = true ↔ ∀ k, s.contains k = false :=
  ExtTreeMap.isEmpty_iff.trans ExtTreeMap.eq_empty_iff_forall_contains

theorem KeySet.exists_of_isEmpty_eq_false {κ : Type} [Ord κ] [TransOrd κ] {s : KeySet κ}
    (h : s.isEmpty = false) : ∃ k, s.contains k = true := by
  by_contra hn
  have hall : s.isEmpty = true :=
    KeySet.isEmpty_iff.2 fun k => Bool.eq_false_iff.2 fun hk => hn ⟨k, hk⟩
  rw [h] at hall
  contradiction

namespace Graph

section Sets

variable {κ ν : Type} [Ord κ] [TransOrd κ] [BEq κ] [LawfulBEqOrd κ] [Ord ν] [TransOrd ν]

def NoEmpty (t : Table κ (KeySet ν)) : Prop :=
  ∀ k s, t.get? k = some s → ∃ v, s.contains v = true

omit [TransOrd ν] in
theorem setAt_congr (t : Table κ (KeySet ν)) {k j : κ} (h : (k == j) = true) :
    setAt t k = setAt t j := by
  rw [setAt, setAt, t.get?_congr h]

omit [TransOrd ν] in
theorem setAt_insert (t : Table κ (KeySet ν)) (k j : κ) (s : KeySet ν) :
    setAt (t.insert k s) j = if k == j then s else setAt t j := by
  rw [setAt, Table.get?_insert]
  split <;> rfl

theorem contains_setAt_erase (t : Table κ (KeySet ν)) (k j : κ) (v : ν) :
    (setAt (t.erase k) j).contains v = (!(k == j) && (setAt t j).contains v) := by
  rw [setAt, Table.get?_erase]
  cases k == j
  · rfl
  · exact KeySet.contains_empty v

omit [BEq κ] [LawfulBEqOrd κ] in
theorem contains_of_contains_setAt {t : Table κ (KeySet ν)} {k : κ} {v : ν}
    (h : (setAt t k).contains v = true) : t.contains k = true := by
  cases hs : t.get? k with
  | none =>
    rw [setAt, hs] at h
    have h : (Table.empty : KeySet ν).contains v = true := h
    rw [KeySet.contains_empty] at h
    contradiction
  | some s => exact Table.contains_of_get? hs

theorem noEmpty_erase {t : Table κ (KeySet ν)} (h : NoEmpty t) (k : κ) : NoEmpty (t.erase k) := by
  intro j s hs
  rw [Table.get?_erase] at hs
  split at hs
  · contradiction
  · exact h j s hs

variable [BEq ν] [LawfulBEqOrd ν]

theorem contains_setAt_addAt (t : Table κ (KeySet ν)) (k j : κ) (v w : ν) :
    (setAt (addAt t k v) j).contains w = (k == j && v == w || (setAt t j).contains w) := by
  rw [addAt, setAt_insert]
  cases h : k == j with
  | false => rfl
  | true =>
    rw [if_pos rfl, KeySet.contains_add, setAt_congr t h]
    rfl

theorem contains_setAt_removeAt (t : Table κ (KeySet ν)) (k j : κ) (v w : ν) :
    (setAt (removeAt t k v) j).contains w =
      (!(k == j && v == w) && (setAt t j).contains w) := by
  unfold removeAt
  cases hs : t.get? k with
  | none =>
    cases h : k == j with
    | false => rfl
    | true =>
      have hj : setAt t j = .empty := by rw [← setAt_congr t h, setAt, hs]; rfl
      rw [hj, KeySet.contains_empty, Bool.and_false]
  | some s =>
    have hk : setAt t k = s := by rw [setAt, hs]; rfl
    have herase : (s.erase v).contains w = (!(v == w) && s.contains w) := Table.contains_erase s v w
    dsimp only
    cases hempty : (s.erase v).isEmpty with
    | true =>
      rw [if_pos rfl, contains_setAt_erase]
      cases h : k == j with
      | false => rfl
      | true =>
        rw [← setAt_congr t h, hk]
        have hnone : (s.erase v).contains w = false := KeySet.isEmpty_iff.1 hempty w
        rw [herase] at hnone
        simpa using hnone.symm
    | false =>
      rw [if_neg (by simp), setAt_insert]
      cases h : k == j with
      | false => rfl
      | true =>
        rw [if_pos rfl, herase, ← setAt_congr t h, hk]
        rfl

theorem noEmpty_addAt {t : Table κ (KeySet ν)} (h : NoEmpty t) (k : κ) (v : ν) :
    NoEmpty (addAt t k v) := by
  intro j s hs
  rw [addAt, Table.get?_insert] at hs
  split at hs
  · cases hs
    have hself : compare v v = .eq := ReflCmp.compare_self
    have hv : (v == v) = true := LawfulBEqCmp.compare_eq_iff_beq.1 hself
    exact ⟨v, by rw [KeySet.contains_add, hv, Bool.true_or]⟩
  · exact h j s hs

omit [BEq ν] [LawfulBEqOrd ν] in
theorem noEmpty_removeAt {t : Table κ (KeySet ν)} (h : NoEmpty t) (k : κ) (v : ν) :
    NoEmpty (removeAt t k v) := by
  unfold removeAt
  split
  next s hs =>
    dsimp only
    split
    next => exact noEmpty_erase h k
    next hempty =>
      intro j u hu
      rw [Table.get?_insert] at hu
      split at hu
      · cases hu
        exact KeySet.exists_of_isEmpty_eq_false (by simpa using hempty)
      · exact h j u hu
  next => exact h

end Sets

/-- Computing `reader` read the value of `n`. -/
def hasEdge (g : Graph) (reader n : Node) : Bool := (setAt g.reads reader).contains n

def hasReader (g : Graph) (n reader : Node) : Bool := (setAt g.readers n).contains reader

/-- The node is stored in one of the two tables of edges. -/
def isStored (g : Graph) (n : Node) : Bool := g.readers.contains n || g.reads.contains n

/-- The two tables are inverse to each other, without empty sets or edges from a node to itself. -/
structure Paired (g : Graph) : Prop where
  inverse : ∀ a b, g.hasReader b a = g.hasEdge a b
  reads : NoEmpty g.reads
  readers : NoEmpty g.readers
  irreflexive : ∀ a b, (a == b) = true → g.hasEdge a b = false

/-- The nodes stored in a table are listed under their entities, and nothing else is, except some
of `slack`. -/
def Listed (g : Graph) (slack : List Node) : Prop :=
  ∀ n, (g.isStored n = true → g.mentions n = true) ∧
    (g.mentions n = true → g.isStored n = true ∨ slack.contains n = true)

structure Indexed (g : Graph) : Prop extends Paired g where
  listed : g.Listed []

theorem hasEdge_congr (g : Graph) {a a' b b' : Node} (ha : (a == a') = true)
    (hb : (b == b') = true) : g.hasEdge a b = g.hasEdge a' b' := by
  rw [hasEdge, hasEdge, setAt_congr g.reads ha, Table.contains_congr _ hb]

theorem indexed_empty : empty.Indexed := by
  have none_stored : ∀ n : Node, (setAt (.empty : Table Node (KeySet Node)) n) = .empty := by
    intro n
    rw [setAt, Table.get?_empty]
    rfl
  refine ⟨⟨fun a b => ?_, fun k s h => ?_, fun k s h => ?_, fun a b _ => ?_⟩, fun n => ⟨?_, ?_⟩⟩
  · show (setAt (.empty : Table Node (KeySet Node)) b).contains a =
      (setAt (.empty : Table Node (KeySet Node)) a).contains b
    rw [none_stored, none_stored, KeySet.contains_empty, KeySet.contains_empty]
  · exact absurd (h.symm.trans (Table.get?_empty k)) (by simp)
  · exact absurd (h.symm.trans (Table.get?_empty k)) (by simp)
  · show (setAt (.empty : Table Node (KeySet Node)) a).contains b = false
    rw [none_stored, KeySet.contains_empty]
  · intro h
    exact absurd h (by simp [isStored, empty, Table.contains_eq_isSome, Table.get?_empty])
  · intro h
    exact absurd h
      (by simp [mentions, empty, setAt, Table.contains_eq_isSome, Table.get?_empty])

theorem mem_readersOf {g : Graph} (h : g.Indexed) {n a : Node} :
    (g.readersOf n).contains a = g.hasEdge a n := by
  rw [readersOf, Table.contains_keys]
  exact h.inverse a n

theorem isStored_of_edge {g : Graph} (h : g.Paired) {a b : Node}
    (he : g.hasEdge a b = true) : g.isStored a = true ∧ g.isStored b = true := by
  have hr : g.hasReader b a = true := (h.inverse a b).trans he
  constructor
  · rw [isStored, contains_of_contains_setAt (t := g.reads) he, Bool.or_true]
  · rw [isStored, contains_of_contains_setAt (t := g.readers) hr, Bool.true_or]

/-- A node that an edge touches is listed under its entity. -/
theorem Indexed.mentions_of_edge {g : Graph} (h : g.Indexed) {a b : Node}
    (he : g.hasEdge a b = true) : g.mentions a = true ∧ g.mentions b = true :=
  have hs := isStored_of_edge h.toPaired he
  ⟨(h.listed a).1 hs.1, (h.listed b).1 hs.2⟩

/-! ## The listing by entity -/

theorem node_beq_iff {a b : Node} : (a == b) = (a.entity == b.entity && a.key == b.key) := rfl

theorem mentions_enlist (g : Graph) (n j : Node) :
    (g.enlist n).mentions j = (n == j || g.mentions j) := by
  rw [mentions, enlist, contains_setAt_addAt, node_beq_iff]
  rfl

theorem mentions_delist (g : Graph) (n j : Node) :
    (g.delist n).mentions j = (g.mentions j && (g.isStored n || !(n == j))) := by
  unfold delist
  change (if g.isStored n = true then g else _).mentions j = _
  cases hn : g.isStored n with
  | true => simp
  | false =>
    show (setAt (removeAt g.keys n.entity n.key) j.entity).contains j.key = _
    rw [contains_setAt_removeAt, node_beq_iff]
    exact Bool.and_comm ..

theorem readers_delist (g : Graph) (n : Node) : (g.delist n).readers = g.readers := by
  unfold delist
  split <;> rfl

theorem reads_delist (g : Graph) (n : Node) : (g.delist n).reads = g.reads := by
  unfold delist
  split <;> rfl

theorem isStored_delist (g : Graph) (n j : Node) : (g.delist n).isStored j = g.isStored j := by
  rw [isStored, isStored, readers_delist, reads_delist]

theorem isStored_congr (g : Graph) {n j : Node} (h : (n == j) = true) :
    g.isStored n = g.isStored j := by
  rw [isStored, isStored, Table.contains_congr _ h, Table.contains_congr _ h]

theorem mentions_congr (g : Graph) {n j : Node} (h : (n == j) = true) :
    g.mentions n = g.mentions j := by
  rw [node_beq_iff, Bool.and_eq_true] at h
  rw [mentions, mentions, setAt_congr g.keys h.1, Table.contains_congr _ h.2]

/-- Delisting settles a node that is not stored any more. -/
theorem Listed.delist {g : Graph} {n : Node} {slack : List Node} (h : g.Listed (n :: slack)) :
    (g.delist n).Listed slack := by
  intro j
  rw [isStored_delist, mentions_delist]
  constructor
  · intro hj
    rw [(h j).1 hj, Bool.true_and]
    cases hnj : n == j with
    | false => simp
    | true => rw [isStored_congr g hnj, hj, Bool.true_or]
  · intro hj
    obtain ⟨hmentions, hn⟩ := Bool.and_eq_true_iff.1 hj
    rcases (h j).2 hmentions with hs | hs
    · exact .inl hs
    · rw [List.contains_cons, BEq.comm, Bool.or_eq_true] at hs
      rcases hs with hnj | hs
      · rw [hnj, Bool.not_true, Bool.or_false] at hn
        exact .inl (by rw [← isStored_congr g hnj, hn])
      · exact .inr hs

/-! ## Recording a read -/

theorem contains_addAt {κ ν : Type} [Ord κ] [TransOrd κ] [BEq κ] [LawfulBEqOrd κ] [Ord ν]
    [TransOrd ν] (t : Table κ (KeySet ν)) (k j : κ) (v : ν) :
    (addAt t k v).contains j = (k == j || t.contains j) :=
  Table.contains_insert t k j _

/-- Recording adds the one edge, unless it would lead from a node to itself. -/
theorem hasEdge_record (g : Graph) (reader n a b : Node) :
    (g.record reader n).hasEdge a b =
      (reader == a && n == b && !(reader == n) || g.hasEdge a b) := by
  unfold record
  split
  next h => simp [h]
  next h =>
    split
    next hold =>
      cases hra : reader == a with
      | false => simp
      | true =>
        cases hnb : n == b with
        | false => simp
        | true =>
          rw [show g.hasEdge a b = true from (g.hasEdge_congr hra hnb).symm.trans hold]
          simp
    next =>
      have hne : (reader == n) = false := by simpa using h
      rw [hne, Bool.not_false, Bool.and_true]
      exact contains_setAt_addAt g.reads reader a n b

theorem Indexed.record {g : Graph} (h : g.Indexed) (reader n : Node) :
    (g.record reader n).Indexed := by
  by_cases hself : (reader == n) = true
  · rwa [Graph.record, if_pos hself]
  by_cases hold : (setAt g.reads reader).contains n = true
  · rwa [Graph.record, if_neg hself, if_pos hold]
  rw [Graph.record, if_neg hself, if_neg hold]
  refine ⟨⟨fun a b => ?_, noEmpty_addAt h.reads _ _, noEmpty_addAt h.readers _ _, ?_⟩, fun j => ?_⟩
  · show (setAt (addAt g.readers n reader) b).contains a =
      (setAt (addAt g.reads reader n) a).contains b
    rw [contains_setAt_addAt, contains_setAt_addAt, Bool.and_comm]
    exact congrArg _ (h.inverse a b)
  · intro a b hab
    show (setAt (addAt g.reads reader n) a).contains b = false
    rw [contains_setAt_addAt, Bool.or_eq_false_iff]
    refine ⟨?_, h.irreflexive a b hab⟩
    cases hra : reader == a with
    | false => rfl
    | true =>
      cases hnb : n == b with
      | false => rfl
      | true => exact absurd (BEq.trans (BEq.trans hra hab) (BEq.symm hnb)) hself
  · have hstored : (({ g with
        reads := addAt g.reads reader n
        readers := addAt g.readers n reader : Graph }.enlist reader).enlist n).isStored j =
        (n == j || (reader == j || g.isStored j)) := by
      show ((addAt g.readers n reader).contains j || (addAt g.reads reader n).contains j) = _
      rw [contains_addAt, contains_addAt, isStored]
      cases n == j <;> cases reader == j <;> simp
    rw [hstored, mentions_enlist, mentions_enlist]
    change (_ → (n == j || (reader == j || g.mentions j)) = true) ∧
      ((n == j || (reader == j || g.mentions j)) = true → _)
    cases n == j <;> cases reader == j <;> simp only [Bool.false_or, Bool.true_or, Bool.or_true,
      true_or, and_self, implies_true]
    exact h.listed j

/-! ## Dropping edges -/

section Removal

variable {κ ν : Type} [Ord κ] [TransOrd κ] [BEq κ] [LawfulBEqOrd κ] [Ord ν] [TransOrd ν]

theorem contains_of_contains_removeAt {t : Table κ (KeySet ν)} {k j : κ} {v : ν}
    (h : (removeAt t k v).contains j = true) : t.contains j = true := by
  unfold removeAt at h
  split at h
  next s hs =>
    dsimp only at h
    split at h
    next =>
      rw [Table.contains_erase, Bool.and_eq_true] at h
      exact h.2
    next =>
      rw [Table.contains_insert, Bool.or_eq_true] at h
      rcases h with hkj | h
      · rw [← Table.contains_congr t hkj]
        exact Table.contains_of_get? hs
      · exact h
  next => exact h

theorem contains_removeAt_of_ne {t : Table κ (KeySet ν)} {k j : κ} {v : ν}
    (hne : (k == j) = false) : (removeAt t k v).contains j = t.contains j := by
  unfold removeAt
  split
  · dsimp only
    split
    · rw [Table.contains_erase, hne, Bool.not_false, Bool.true_and]
    · rw [Table.contains_insert, hne, Bool.false_or]
  · rfl

end Removal

/-- When only nodes of `gone` can have left the tables, these are the nodes still to be delisted. -/
theorem Listed.shrink {g g' : Graph} {slack gone : List Node} (h : g.Listed slack)
    (keys : g'.keys = g.keys) (fewer : ∀ j, g'.isStored j = true → g.isStored j = true)
    (kept : ∀ j, g.isStored j = true → g'.isStored j = true ∨ gone.contains j = true) :
    g'.Listed (gone ++ slack) := by
  intro j
  have hm : g'.mentions j = g.mentions j := by rw [mentions, mentions, keys]
  rw [hm, List.contains_append, Bool.or_eq_true]
  refine ⟨fun hs => (h j).1 (fewer j hs), fun hj => ?_⟩
  rcases (h j).2 hj with hs | hs
  · exact (kept j hs).imp_right .inl
  · exact .inr (.inr hs)

/-- When the reads of a node go only that node has to be delisted. -/
theorem listed_eraseReads {g : Graph} (h : g.Listed []) (n : Node) (l : List Node) :
    ({ g with reads := g.reads.erase n } : Graph).Listed (l ++ [n]) := by
  have hshrink : ({ g with reads := g.reads.erase n } : Graph).Listed ([n] ++ []) := by
    refine h.shrink rfl (fun j hj => ?_) fun j hj => ?_
    · rw [isStored, Bool.or_eq_true] at hj ⊢
      refine hj.imp_right fun hr => ?_
      rw [Table.contains_erase, Bool.and_eq_true] at hr
      exact hr.2
    · cases hnj : n == j with
      | true => exact .inr (by simpa using BEq.symm hnj)
      | false =>
        refine .inl ?_
        rw [isStored, Bool.or_eq_true] at hj ⊢
        exact hj.imp_right fun hr => by rw [Table.contains_erase, hnj, hr]; rfl
  intro j
  refine ⟨(hshrink j).1, fun hj => ((hshrink j).2 hj).imp_right fun hs => ?_⟩
  rw [List.contains_append, Bool.or_eq_true]
  exact .inr (by simpa using hs)

section Reads

variable {reader : Node}

theorem reads_dropReader (g : Graph) (n : Node) : (dropReader reader g n).reads = g.reads :=
  reads_delist _ _

theorem hasReader_dropReader (g : Graph) (n a b : Node) :
    (dropReader reader g n).hasReader b a = (!(n == b && reader == a) && g.hasReader b a) := by
  rw [hasReader, dropReader, readers_delist]
  exact contains_setAt_removeAt g.readers n b reader a

theorem noEmpty_dropReader {g : Graph} (h : NoEmpty g.readers) (n : Node) :
    NoEmpty (dropReader reader g n).readers := by
  rw [dropReader, readers_delist]
  exact noEmpty_removeAt h n reader

theorem listed_dropReader {g : Graph} {n : Node} {slack : List Node} (h : g.Listed (n :: slack)) :
    (dropReader reader g n).Listed slack := by
  refine Listed.delist (n := n) fun j => ?_
  have hshrink : ({ g with readers := removeAt g.readers n reader } : Graph).Listed
      ([n] ++ (n :: slack)) := by
    refine h.shrink rfl (fun j hj => ?_) fun j hj => ?_
    · rw [isStored, Bool.or_eq_true] at hj ⊢
      exact hj.imp_left contains_of_contains_removeAt
    · cases hnj : n == j with
      | true => exact .inr (by simpa using BEq.symm hnj)
      | false =>
        refine .inl ?_
        rw [isStored, Bool.or_eq_true] at hj ⊢
        exact hj.imp_left fun hr => (contains_removeAt_of_ne hnj).trans hr
  refine ⟨(hshrink j).1, fun hj => ?_⟩
  exact ((hshrink j).2 hj).imp_right fun hs => by simpa using hs

/-- Dropping a reader from several nodes, in the index by node read. -/
theorem foldl_dropReader (ns : List Node) {g : Graph} {slack : List Node}
    (hreaders : NoEmpty g.readers) (hlisted : g.Listed (ns ++ slack)) :
    (ns.foldl (dropReader reader) g).reads = g.reads ∧
      NoEmpty (ns.foldl (dropReader reader) g).readers ∧
      (ns.foldl (dropReader reader) g).Listed slack ∧
      ∀ a b, (ns.foldl (dropReader reader) g).hasReader b a =
        (g.hasReader b a && !(reader == a && ns.contains b)) := by
  induction ns generalizing g with
  | nil => exact ⟨rfl, hreaders, hlisted, by simp⟩
  | cons n ns ih =>
    obtain ⟨hreads, hno, hlist, hedge⟩ :=
      ih (noEmpty_dropReader hreaders n) (listed_dropReader hlisted)
    refine ⟨hreads.trans (reads_dropReader g n), hno, hlist, fun a b => ?_⟩
    rw [List.foldl_cons, hedge, hasReader_dropReader, List.contains_cons, BEq.comm (a := n)]
    cases reader == a <;> cases b == n <;> simp

/-- Dropping the reads of a node removes the edges from it. -/
theorem dropReads_spec {g : Graph} (h : g.Indexed) (reader : Node) :
    (g.dropReads reader).Indexed ∧
      ∀ a b, (g.dropReads reader).hasEdge a b = (!(reader == a) && g.hasEdge a b) := by
  unfold dropReads
  split
  next hnone =>
    refine ⟨h, fun a b => ?_⟩
    cases hra : reader == a with
    | false => rfl
    | true =>
      have hempty : setAt g.reads a = .empty := by rw [← setAt_congr g.reads hra, setAt, hnone]; rfl
      rw [hasEdge, hempty, KeySet.contains_empty]
      rfl
  next ns hsome =>
    have hset : setAt g.reads reader = ns := by rw [setAt, hsome]; rfl
    have hns : ∀ b, ns.keys.contains b = g.hasEdge reader b := by
      intro b
      rw [Table.contains_keys, hasEdge, hset]
    obtain ⟨hreads, hno, hlist, hreader⟩ := @foldl_dropReader reader ns.keys
      { g with reads := g.reads.erase reader } [reader] h.readers
      (listed_eraseReads h.listed reader ns.keys)
    have hedge : ∀ a b, ((ns.keys.foldl (dropReader reader)
        { g with reads := g.reads.erase reader }).delist reader).hasEdge a b =
        (!(reader == a) && g.hasEdge a b) := by
      intro a b
      rw [hasEdge, reads_delist, hreads]
      exact contains_setAt_erase g.reads reader a b
    refine ⟨⟨⟨fun a b => ?_, ?_, ?_, fun a b hab => ?_⟩, hlist.delist⟩, hedge⟩
    · rw [hedge, hasReader, readers_delist]
      refine (hreader a b).trans ?_
      rw [hns]
      change (g.hasReader b a && _) = _
      rw [h.inverse]
      cases hra : reader == a with
      | false => simp
      | true =>
        rw [g.hasEdge_congr hra (BEq.rfl (a := b))]
        simp
    · rw [reads_delist, hreads]
      exact noEmpty_erase h.reads reader
    · rw [readers_delist]
      exact hno
    · rw [hedge, h.irreflexive a b hab, Bool.and_false]

end Reads

section Readers

variable {n : Node}

def flip (g : Graph) : Graph := { g with readers := g.reads, reads := g.readers }

theorem isStored_flip (g : Graph) (j : Node) : g.flip.isStored j = g.isStored j := Bool.or_comm _ _

theorem flip_delist (g : Graph) (j : Node) : (g.delist j).flip = g.flip.delist j := by
  show _ = if g.flip.isStored j then g.flip else _
  rw [isStored_flip, delist]
  change (if g.isStored j then g else _).flip = _
  split <;> rfl

theorem Listed.flip {g : Graph} {slack : List Node} (h : g.Listed slack) :
    g.flip.Listed slack := by
  intro j
  rw [isStored_flip]
  exact h j

/-- To drop readers is to drop reads in the graph that is turned around. -/
theorem foldl_dropRead_eq (rs : List Node) (g : Graph) :
    rs.foldl (dropRead n) g = (rs.foldl (dropReader n) g.flip).flip := by
  induction rs generalizing g with
  | nil => rfl
  | cons r rs ih =>
    have hone : (dropRead n g r).flip = dropReader n g.flip r := flip_delist _ r
    rw [List.foldl_cons, List.foldl_cons, ih, hone]

/-- Dropping several readers of a node, in the index by reader. -/
theorem foldl_dropRead (rs : List Node) {g : Graph} {slack : List Node}
    (hreads : NoEmpty g.reads) (hlisted : g.Listed (rs ++ slack)) :
    (rs.foldl (dropRead n) g).readers = g.readers ∧
      NoEmpty (rs.foldl (dropRead n) g).reads ∧
      (rs.foldl (dropRead n) g).Listed slack ∧
      ∀ a b, (rs.foldl (dropRead n) g).hasEdge a b =
        (g.hasEdge a b && !(n == b && rs.contains a)) := by
  obtain ⟨hreaders, hno, hlist, hedge⟩ := @foldl_dropReader n rs g.flip slack hreads hlisted.flip
  rw [foldl_dropRead_eq]
  exact ⟨hreaders, hno, hlist.flip, fun a b => hedge b a⟩

/-- Dropping the readers of a node removes the edges to it; the node itself may stay listed. -/
theorem dropReaders_spec {g : Graph} (h : g.Indexed) (n : Node) :
    (g.dropReaders n).Paired ∧ (g.dropReaders n).Listed [n] ∧
      ∀ a b, (g.dropReaders n).hasEdge a b = (!(n == b) && g.hasEdge a b) := by
  have slacken : ∀ {g : Graph} {slack : List Node}, g.Listed [] → g.Listed slack := by
    intro g slack hg j
    exact ⟨(hg j).1, fun hj => .inl (((hg j).2 hj).resolve_right (by simp))⟩
  unfold dropReaders
  split
  next hnone =>
    refine ⟨h.toPaired, slacken h.listed, fun a b => ?_⟩
    cases hnb : n == b with
    | false => rfl
    | true =>
      have hempty : setAt g.readers b = .empty := by
        rw [← setAt_congr g.readers hnb, setAt, hnone]
        rfl
      rw [← h.inverse, hasReader, hempty, KeySet.contains_empty]
      rfl
  next rs hsome =>
    have hset : setAt g.readers n = rs := by rw [setAt, hsome]; rfl
    have hrs : ∀ a, rs.keys.contains a = g.hasEdge a n := by
      intro a
      rw [Table.contains_keys, ← h.inverse, hasReader, hset]
    obtain ⟨hreaders, hno, hlist, hread⟩ := foldl_dropRead (n := n) rs.keys
      (g := { g with readers := g.readers.erase n }) h.reads
      (listed_eraseReads h.listed.flip n rs.keys).flip
    have hedge : ∀ a b, (rs.keys.foldl (dropRead n)
        { g with readers := g.readers.erase n }).hasEdge a b = (!(n == b) && g.hasEdge a b) := by
      intro a b
      refine (hread a b).trans ?_
      rw [hrs]
      change (g.hasEdge a b && _) = _
      cases hnb : n == b with
      | false => simp
      | true =>
        rw [← g.hasEdge_congr (BEq.rfl (a := a)) hnb]
        simp
    refine ⟨⟨fun a b => ?_, hno, ?_, fun a b hab => ?_⟩, hlist, hedge⟩
    · rw [hedge, hasReader, hreaders]
      refine (contains_setAt_erase g.readers n b a).trans ?_
      exact congrArg _ (h.inverse a b)
    · rw [hreaders]
      exact noEmpty_erase h.readers n
    · rw [hedge, h.irreflexive a b hab, Bool.and_false]

end Readers

/-- Isolating a node removes the edges at it. -/
theorem isolate_spec {g : Graph} (h : g.Indexed) (n : Node) :
    (g.isolate n).Indexed ∧
      ∀ a b, (g.isolate n).hasEdge a b = (g.hasEdge a b && !(n == a) && !(n == b)) := by
  obtain ⟨hdrop, hfrom⟩ := dropReads_spec h n
  obtain ⟨hpaired, hlisted, hto⟩ := dropReaders_spec hdrop n
  have hedge : ∀ a b, (g.isolate n).hasEdge a b =
      (g.hasEdge a b && !(n == a) && !(n == b)) := by
    intro a b
    rw [isolate, hasEdge, reads_delist]
    refine (hto a b).trans ?_
    rw [hfrom, Bool.and_comm, Bool.and_comm (!(n == a))]
  refine ⟨⟨⟨fun a b => ?_, ?_, ?_, fun a b hab => ?_⟩, hlisted.delist⟩, hedge⟩
  · rw [isolate, hasReader, hasEdge, readers_delist, reads_delist]
    exact hpaired.inverse a b
  · rw [isolate, reads_delist]
    exact hpaired.reads
  · rw [isolate, readers_delist]
    exact hpaired.readers
  · rw [hedge, h.irreflexive a b hab, Bool.false_and, Bool.false_and]

theorem foldl_isolate_spec (ns : List Node) {g : Graph} (h : g.Indexed) :
    (ns.foldl isolate g).Indexed ∧ ∀ a b, (ns.foldl isolate g).hasEdge a b =
      (g.hasEdge a b && !(ns.contains a) && !(ns.contains b)) := by
  induction ns generalizing g with
  | nil => exact ⟨h, by simp⟩
  | cons n ns ih =>
    obtain ⟨hone, hedge⟩ := isolate_spec h n
    obtain ⟨hall, hedges⟩ := ih hone
    refine ⟨hall, fun a b => ?_⟩
    rw [List.foldl_cons, hedges, hedge, List.contains_cons, List.contains_cons,
      BEq.comm (a := a), BEq.comm (a := b)]
    cases g.hasEdge a b <;> cases n == a <;> cases n == b <;> simp

theorem contains_nodesAbout (g : Graph) (e : Entity) (n : Node) :
    (g.nodesAbout e).contains n = (n.entity == e && g.mentions n) := by
  have hmap : ∀ keys : List Key, (keys.map (Node.mk e ·)).contains n =
      (n.entity == e && keys.contains n.key) := by
    intro keys
    induction keys with
    | nil => simp
    | cons k keys ih =>
      rw [List.map_cons, List.contains_cons, List.contains_cons, ih, node_beq_iff]
      cases n.entity == e <;> simp
  rw [nodesAbout, hmap, Table.contains_keys, mentions]
  cases he : n.entity == e with
  | false => rfl
  | true => rw [eq_of_beq he]

/-- Pruning an entity removes the edges at its nodes. -/
theorem prune_spec {g : Graph} (h : g.Indexed) (e : Entity) :
    (g.prune e).Indexed ∧ ∀ a b, (g.prune e).hasEdge a b =
      (g.hasEdge a b && !(a.entity == e) && !(b.entity == e)) := by
  obtain ⟨hindexed, hedge⟩ := foldl_isolate_spec (g.nodesAbout e) h
  refine ⟨hindexed, fun a b => ?_⟩
  refine (hedge a b).trans ?_
  rw [contains_nodesAbout, contains_nodesAbout]
  cases he : g.hasEdge a b with
  | false => simp
  | true =>
    obtain ⟨ha, hb⟩ := h.mentions_of_edge he
    rw [ha, hb, Bool.and_true, Bool.and_true]

end Graph

end Recalc
