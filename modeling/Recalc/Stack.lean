import Recalc.Key

set_option autoImplicit false

/-!
# The stack of nodes under evaluation

The stack lists the nodes that are being evaluated, the innermost first and no node twice. A set of
the same nodes tells whether a node is among them, and how many there are is kept beside it.
-/

namespace Recalc

structure Stack where
  /-- The nodes under evaluation, the innermost first. -/
  nodes : List Node
  members : KeySet Node
  depth : Nat
  contains_members : ∀ n, members.contains n = nodes.contains n
  distinct : nodes.Pairwise fun a b => (a == b) = false
  depth_eq : depth = nodes.length

namespace Stack

theorem contains_add {nodes : List Node} {members : KeySet Node}
    (h : ∀ n, members.contains n = nodes.contains n) (a n : Node) :
    (members.add a).contains n = (a :: nodes).contains n := by
  rw [KeySet.add, Table.contains_insert, List.contains_cons, h, BEq.comm]

theorem distinct_cons {nodes : List Node} (h : nodes.Pairwise fun a b => (a == b) = false)
    (a : Node) (ha : nodes.contains a = false) :
    (a :: nodes).Pairwise fun a b => (a == b) = false := by
  refine List.pairwise_cons.2 ⟨fun b hb => ?_, h⟩
  cases hab : a == b with
  | false => rfl
  | true => rw [List.contains_iff_exists_mem_beq.2 ⟨b, hb, hab⟩] at ha; contradiction

theorem contains_erase_head {nodes : List Node} {members : KeySet Node} {a : Node}
    (h : ∀ n, members.contains n = (a :: nodes).contains n)
    (distinct : (a :: nodes).Pairwise fun a b => (a == b) = false) (n : Node) :
    (members.erase a).contains n = nodes.contains n := by
  rw [Table.contains_erase, h, List.contains_cons, BEq.comm (a := n)]
  cases han : a == n with
  | false => rfl
  | true =>
    cases hn : nodes.contains n with
    | false => rfl
    | true =>
      obtain ⟨b, hb, hnb⟩ := List.contains_iff_exists_mem_beq.1 hn
      have hab := (List.pairwise_cons.1 distinct).1 b hb
      rw [BEq.trans han hnb] at hab
      contradiction

def empty : Stack := ⟨[], .empty, 0, fun _ => rfl, .nil, rfl⟩

instance : Inhabited Stack := ⟨empty⟩

def isEmpty (s : Stack) : Bool := s.nodes.isEmpty

def top? (s : Stack) : Option Node := s.nodes.head?

def push? (s : Stack) (n : Node) : Option Stack :=
  if h : s.members.contains n then none
  else
    some {
      nodes := n :: s.nodes
      members := s.members.add n
      depth := s.depth + 1
      contains_members := contains_add s.contains_members n
      distinct := distinct_cons s.distinct n (by simpa [s.contains_members] using h)
      depth_eq := congrArg (· + 1) s.depth_eq }

def pop : Stack → Stack
  | ⟨[], _, _, _, _, _⟩ => empty
  | ⟨n :: nodes, members, depth, hmembers, hdistinct, hdepth⟩ =>
    { nodes
      members := members.erase n
      depth := depth - 1
      contains_members := contains_erase_head hmembers hdistinct
      distinct := (List.pairwise_cons.1 hdistinct).2
      depth_eq := by rw [hdepth]; rfl }

def downTo (s : Stack) (n : Node) : List Node := s.nodes.take (s.nodes.findIdx (· == n) + 1)

theorem push?_eq_none_iff (s : Stack) (n : Node) :
    s.push? n = none ↔ s.nodes.contains n = true := by
  rw [← s.contains_members]
  unfold push?
  split <;> simp_all

theorem nodes_of_push? {s t : Stack} {n : Node} (h : s.push? n = some t) :
    t.nodes = n :: s.nodes := by
  unfold push? at h
  split at h
  · contradiction
  · cases h
    rfl

theorem nodes_pop (s : Stack) : s.pop.nodes = s.nodes.tail := by
  obtain ⟨nodes, _, _, _, _, _⟩ := s
  cases nodes <;> rfl

end Stack

end Recalc
