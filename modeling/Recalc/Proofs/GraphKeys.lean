import Recalc.Proofs.HandleLaws
import Recalc.Proofs.EdgeLaws
import Recalc.Proofs.ListingLaws

set_option autoImplicit false

/-!
# The keys that a graph stores

The graph stores the keys of its nodes as they were first recorded, and with them their handles. An
edge that is recorded brings the keys of its two ends, and nothing else brings any. Every key that
is stored belongs to an end of an edge, and the handles in it have their like in the key of any
equal node.
-/

namespace Recalc

open Std

namespace Graph

section Sets

variable {κ ν : Type} [Ord κ] [TransOrd κ] [BEq κ] [LawfulBEqOrd κ] [Ord ν] [TransOrd ν]
  {A : κ → Prop} {B : ν → Prop} {t : Table κ (KeySet ν)} {k : κ} {v : ν}

def Within (A : κ → Prop) (B : ν → Prop) (t : Table κ (KeySet ν)) : Prop :=
  ∀ k s, (k, s) ∈ t.entries → A k ∧ ∀ v ∈ s.keys, B v

omit [BEq κ] [LawfulBEqOrd κ] in
theorem Within.erase (h : Within A B t) (k : κ) : Within A B (t.erase k) :=
  fun j s hj => h j s (Table.mem_entries_of_erase hj)

omit [BEq κ] [LawfulBEqOrd κ] in
theorem Within.key (h : Within A B t) (hk : k ∈ t.keys) : A k := by
  obtain ⟨s, hs⟩ := Table.mem_keys_iff.1 hk
  exact (h k s hs).1

theorem Within.member (h : Within A B t) (hv : v ∈ (setAt t k).keys) : B v := by
  cases hs : t.get? k with
  | none =>
    rw [setAt, hs] at hv
    obtain ⟨u, hu⟩ := Table.mem_keys_iff.1 hv
    rw [Option.getD_none, Table.entries_empty] at hu
    cases hu
  | some s =>
    rw [setAt, hs] at hv
    obtain ⟨j, hj, -⟩ := Table.mem_entries_of_get? hs
    exact (h j s hj).2 v hv

theorem Within.addAt (h : Within A B t) (hk : A k) (hv : B v) : Within A B (addAt t k v) := by
  intro j s hj
  rcases Table.mem_entries_of_insert hj with hj | ⟨rfl, hkey⟩
  · exact h j s hj
  refine ⟨?_, fun w hw => ?_⟩
  · rcases hkey with hold | ⟨rfl, -⟩
    · exact h.key hold
    · exact hk
  · obtain ⟨u, hu⟩ := Table.mem_keys_iff.1 hw
    rcases Table.mem_entries_of_insert hu with hold | ⟨-, hold | ⟨rfl, -⟩⟩
    · exact h.member (Table.mem_keys_iff.2 ⟨u, hold⟩)
    · exact h.member hold
    · exact hv

theorem Within.removeAt (h : Within A B t) (k : κ) (v : ν) : Within A B (removeAt t k v) := by
  unfold Graph.removeAt
  split
  next s hs =>
    dsimp only
    split
    next => exact h.erase k
    next =>
      intro j r hj
      rcases Table.mem_entries_of_insert hj with hj | ⟨rfl, hkey⟩
      · exact h j r hj
      refine ⟨?_, fun w hw => ?_⟩
      · rcases hkey with hold | ⟨-, hnone⟩
        · exact h.key hold
        · rw [hs] at hnone
          contradiction
      · obtain ⟨u, hu⟩ := Table.mem_keys_iff.1 hw
        refine h.member (k := k) (Table.mem_keys_iff.2 ⟨u, ?_⟩)
        rw [setAt, hs]
        exact Table.mem_entries_of_erase hu
  next => exact h

end Sets

/-! ## What removals keep -/

/-- Nothing that is taken out of one of the three tables ends the property. -/
structure Outlasts (Q : Graph → Prop) : Prop where
  eraseReaders : ∀ g n, Q g → Q { g with readers := g.readers.erase n }
  eraseReads : ∀ g n, Q g → Q { g with reads := g.reads.erase n }
  readers : ∀ g n reader, Q g → Q { g with readers := removeAt g.readers n reader }
  reads : ∀ g reader n, Q g → Q { g with reads := removeAt g.reads reader n }
  keys : ∀ g e k, Q g → Q { g with keys := removeAt g.keys e k }

namespace Outlasts

variable {Q : Graph → Prop} {g : Graph} (h : Outlasts Q) (hg : Q g)
include h hg

theorem delist (n : Node) : Q (g.delist n) := by
  unfold Graph.delist
  split
  · exact hg
  · exact h.keys g n.entity n.key hg

theorem dropReader (reader n : Node) : Q (dropReader reader g n) :=
  h.delist (h.readers g n reader hg) n

theorem dropRead (n reader : Node) : Q (dropRead n g reader) :=
  h.delist (h.reads g reader n hg) reader

theorem dropReads (reader : Node) : Q (g.dropReads reader) := by
  unfold Graph.dropReads
  split
  next => exact hg
  next ns _ =>
    have hdropped := List.foldlRecOn (motive := Q) ns.keys _ (h.eraseReads g reader hg)
      fun _ hg n _ => h.dropReader hg reader n
    exact h.delist hdropped reader

theorem dropReaders (n : Node) : Q (g.dropReaders n) := by
  unfold Graph.dropReaders
  split
  next => exact hg
  next rs _ =>
    exact List.foldlRecOn (motive := Q) rs.keys _ (h.eraseReaders g n hg)
      fun _ hg r _ => h.dropRead hg n r

theorem prune (e : Entity) : Q (g.prune e) :=
  List.foldlRecOn (motive := Q) (g.nodesAbout e) isolate hg
    fun _ hg n _ => h.delist (h.dropReaders (h.dropReads hg n) n) n

end Outlasts

/-- The keys of all nodes that are stored are in `P`. -/
structure Keyed (P : Key → Prop) (g : Graph) : Prop where
  readers : Within (fun n => P n.key) (fun n => P n.key) g.readers
  reads : Within (fun n => P n.key) (fun n => P n.key) g.reads
  keys : Within (fun _ => True) P g.keys

variable {P : Key → Prop} {g : Graph}

theorem outlasts_keyed (P : Key → Prop) : Outlasts (Keyed P) where
  eraseReaders _ _ h := ⟨h.readers.erase _, h.reads, h.keys⟩
  eraseReads _ _ h := ⟨h.readers, h.reads.erase _, h.keys⟩
  readers _ _ _ h := ⟨h.readers.removeAt _ _, h.reads, h.keys⟩
  reads _ _ _ h := ⟨h.readers, h.reads.removeAt _ _, h.keys⟩
  keys _ _ _ h := ⟨h.readers, h.reads, h.keys.removeAt _ _⟩

theorem Keyed.enlist (h : g.Keyed P) {n : Node} (hn : P n.key) : (g.enlist n).Keyed P :=
  ⟨h.readers, h.reads, h.keys.addAt trivial hn⟩

theorem Keyed.record (h : g.Keyed P) {reader n : Node} (hreader : P reader.key) (hn : P n.key) :
    (g.record reader n).Keyed P := by
  unfold Graph.record
  split
  · exact h
  split
  · exact h
  have hedge : Keyed P { g with
      reads := addAt g.reads reader n, readers := addAt g.readers n reader } :=
    ⟨h.readers.addAt hn hreader, h.reads.addAt hreader hn, h.keys⟩
  exact (hedge.enlist hreader).enlist hn

theorem Keyed.dropReads (h : g.Keyed P) (reader : Node) : (g.dropReads reader).Keyed P :=
  (outlasts_keyed P).dropReads h reader

theorem Keyed.prune (h : g.Keyed P) (e : Entity) : (g.prune e).Keyed P :=
  (outlasts_keyed P).prune h e

/-! ## Handles -/

/-- All handles of a graph are those in the keys that it stores. -/
theorem keyed_iff {Q : Handle → Prop} :
    g.Keyed (fun k => ∀ a ∈ k.handles, Q a) ↔ ∀ a ∈ g.handles, Q a := by
  constructor
  · intro h a ha
    unfold handles at ha
    rcases List.mem_append.1 ha with ha | ha
    · rcases List.mem_append.1 ha with ha | ha <;> obtain ⟨⟨n, s⟩, he, ha⟩ := List.mem_flatMap.1 ha
      · obtain ⟨hkey, hmembers⟩ := h.readers n s he
        rcases List.mem_append.1 ha with ha | ha
        · exact hkey a ha
        · obtain ⟨r, hr, ha⟩ := List.mem_flatMap.1 ha
          exact hmembers r hr a ha
      · obtain ⟨hkey, hmembers⟩ := h.reads n s he
        rcases List.mem_append.1 ha with ha | ha
        · exact hkey a ha
        · obtain ⟨r, hr, ha⟩ := List.mem_flatMap.1 ha
          exact hmembers r hr a ha
    · obtain ⟨⟨e, s⟩, he, ha⟩ := List.mem_flatMap.1 ha
      obtain ⟨k, hk, ha⟩ := List.mem_flatMap.1 ha
      exact (h.keys e s he).2 k hk a ha
  · intro h
    have hnodes : ∀ t : Table Node (KeySet Node), (∀ a ∈ t.entries.flatMap fun e =>
        e.1.key.handles ++ e.2.keys.flatMap fun n => n.key.handles, Q a) →
        Within (fun n => ∀ a ∈ n.key.handles, Q a) (fun n => ∀ a ∈ n.key.handles, Q a) t :=
      fun t ht n s he => ⟨fun a ha => ht a (List.mem_flatMap.2 ⟨_, he, List.mem_append_left _ ha⟩),
        fun r hr a ha => ht a (List.mem_flatMap.2
          ⟨_, he, List.mem_append_right _ (List.mem_flatMap.2 ⟨r, hr, ha⟩)⟩)⟩
    refine ⟨hnodes g.readers fun a ha => h a ?_, hnodes g.reads fun a ha => h a ?_,
      fun e s he => ⟨trivial, fun k hk a ha => h a ?_⟩⟩
    · exact List.mem_append_left _ (List.mem_append_left _ ha)
    · exact List.mem_append_left _ (List.mem_append_right _ ha)
    · exact List.mem_append_right _ (List.mem_flatMap.2
        ⟨_, he, List.mem_flatMap.2 ⟨k, hk, ha⟩⟩)

theorem Paired.exists_reader (h : g.Paired) {n : Node} (hn : g.readers.contains n = true) :
    ∃ a, g.hasEdge a n = true := by
  rw [Table.contains_eq_isSome] at hn
  obtain ⟨s, hs⟩ := Option.isSome_iff_exists.1 hn
  obtain ⟨a, ha⟩ := h.readers n s hs
  exact ⟨a, (h.inverse a n).symm.trans (by rwa [hasReader, setAt, hs])⟩

theorem Paired.exists_read (h : g.Paired) {n : Node} (hn : g.reads.contains n = true) :
    ∃ b, g.hasEdge n b = true := by
  rw [Table.contains_eq_isSome] at hn
  obtain ⟨s, hs⟩ := Option.isSome_iff_exists.1 hn
  obtain ⟨b, hb⟩ := h.reads n s hs
  exact ⟨b, by rwa [hasEdge, setAt, hs]⟩

/-- A node that is stored is an end of an edge. -/
theorem exists_edge_of_isStored (h : g.Paired) {n : Node} (hn : g.isStored n = true) :
    (∃ a, g.hasEdge a n = true) ∨ ∃ b, g.hasEdge n b = true := by
  rw [isStored, Bool.or_eq_true] at hn
  exact hn.imp h.exists_reader h.exists_read

/-- Every key that is stored belongs to an end of an edge. -/
theorem Indexed.keyed (h : g.Indexed)
    (hP : ∀ a b, g.hasEdge a b = true → P a.key ∧ P b.key) : g.Keyed P := by
  have hstored : ∀ n, g.isStored n = true → P n.key := by
    intro n hn
    rcases exists_edge_of_isStored h.toPaired hn with ⟨a, ha⟩ | ⟨b, hb⟩
    · exact (hP a n ha).2
    · exact (hP n b hb).1
  have hmember : ∀ {κ : Type} [Ord κ] [TransOrd κ] [BEq κ] [LawfulBEqOrd κ] {s : KeySet κ} {k : κ},
      k ∈ s.keys → s.contains k = true := fun hk => by
    rw [← Table.contains_keys]
    exact contains_of_mem hk
  refine ⟨fun n s he => ⟨hstored n ?_, fun r hr => ?_⟩,
    fun n s he => ⟨hstored n ?_, fun r hr => ?_⟩, fun e s he => ⟨trivial, fun k hk => ?_⟩⟩
  · rw [isStored, Table.contains_of_get? (Table.get?_of_mem_entries he), Bool.true_or]
  · have hreader : g.hasReader n r = true := by
      rw [hasReader, setAt, Table.get?_of_mem_entries he]
      exact hmember hr
    exact (hP r n ((h.inverse r n).symm.trans hreader)).1
  · rw [isStored, Table.contains_of_get? (Table.get?_of_mem_entries he), Bool.or_true]
  · have hedge : g.hasEdge n r = true := by
      rw [hasEdge, setAt, Table.get?_of_mem_entries he]
      exact hmember hr
    exact (hP n r hedge).2
  · have hmentions : g.mentions ⟨e, k⟩ = true := by
      rw [mentions, setAt, Table.get?_of_mem_entries he]
      exact hmember hk
    exact hstored ⟨e, k⟩ (((h.listed ⟨e, k⟩).2 hmentions).resolve_right (by simp))

/-- The handles in the ends of an edge have their like in the graph. -/
theorem exists_handle_of_edge {a b : Node} (h : g.hasEdge a b = true) {c : Handle}
    (hc : c ∈ a.key.handles ∨ c ∈ b.key.handles) : ∃ d ∈ g.handles, d.id = c.id := by
  have hkey : ∀ {n n' : Node}, (n == n') = true → (n'.key == n.key) = true := fun hn => by
    rw [node_beq_iff, Bool.and_eq_true] at hn
    exact BEq.symm hn.2
  unfold hasEdge setAt at h
  cases hs : g.reads.get? a with
  | none =>
    rw [hs, Option.getD_none, KeySet.contains_empty] at h
    contradiction
  | some s =>
    obtain ⟨a', ha', haa⟩ := Table.mem_entries_of_get? hs
    have hin : ∀ {d : Handle}, d ∈ a'.key.handles ++ s.keys.flatMap (fun n => n.key.handles) →
        d ∈ g.handles := fun hd =>
      List.mem_append_left _ (List.mem_append_right _ (List.mem_flatMap.2 ⟨_, ha', hd⟩))
    rcases hc with hc | hc
    · obtain ⟨d, hd, hid⟩ := Key.exists_handle_of_beq (hkey haa) hc
      exact ⟨d, hin (List.mem_append_left _ hd), hid⟩
    · rw [hs, Option.getD_some, Table.contains_eq_isSome] at h
      obtain ⟨u, hu⟩ := Option.isSome_iff_exists.1 h
      obtain ⟨b', hb', hbb⟩ := Table.mem_entries_of_get? hu
      obtain ⟨d, hd, hid⟩ := Key.exists_handle_of_beq (hkey hbb) hc
      exact ⟨d, hin (List.mem_append_right _ (List.mem_flatMap.2
        ⟨b', Table.mem_keys_iff.2 ⟨u, hb'⟩, hd⟩)), hid⟩

end Graph

end Recalc
