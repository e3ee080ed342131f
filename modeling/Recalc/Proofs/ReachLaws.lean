import Recalc.Reach

set_option autoImplicit false

/-!
# Laws of reachability

A search visits what its stack holds and is closed under successors, provided its fuel is not less
than the number of items that can come up.
-/

namespace Recalc

open Std

variable {α : Type}

section Lists

variable [BEq α] [EquivBEq α]

theorem contains_congr_right {l : List α} {a b : α} (h : (a == b) = true) :
    l.contains a = l.contains b := by
  induction l with
  | nil => rfl
  | cons x l ih => rw [List.contains_cons, List.contains_cons, ih, BEq.congr_left h]

theorem contains_of_mem {l : List α} {a : α} (h : a ∈ l) : l.contains a = true :=
  List.contains_iff_exists_mem_beq.2 ⟨a, h, BEq.rfl⟩

end Lists

variable [Ord α] [TransOrd α]

theorem KeySet.contains_empty (a : α) : (Table.empty : KeySet α).contains a = false := by
  rw [Table.contains_eq_isSome, Table.get?_empty]
  rfl

section Stacks

theorem all_of_dropWhile_eq_nil {seen : KeySet α} {stack : List α}
    (h : stack.dropWhile seen.contains = []) : ∀ a ∈ stack, seen.contains a = true := by
  induction stack with
  | nil => simp
  | cons b rest ih =>
    by_cases hb : seen.contains b = true
    · rw [List.dropWhile_cons_of_pos hb] at h
      rintro a ha
      rcases List.mem_cons.1 ha with rfl | ha
      · exact hb
      · exact ih h a ha
    · rw [List.dropWhile_cons_of_neg hb] at h
      contradiction

/-- The first item that is not seen yet splits the stack. -/
theorem mem_of_dropWhile_eq_cons {seen : KeySet α} {stack rest : List α} {a : α}
    (h : stack.dropWhile seen.contains = a :: rest) :
    a ∈ stack ∧ seen.contains a = false ∧ (∀ b ∈ rest, b ∈ stack) ∧
      ∀ b ∈ stack, seen.contains b = true ∨ b = a ∨ b ∈ rest := by
  induction stack with
  | nil => simp at h
  | cons b stack ih =>
    by_cases hb : seen.contains b = true
    · rw [List.dropWhile_cons_of_pos hb] at h
      obtain ⟨ha, hseen, hrest, hall⟩ := ih h
      refine ⟨List.mem_cons_of_mem _ ha, hseen, fun c hc => List.mem_cons_of_mem _ (hrest c hc), ?_⟩
      rintro c hc
      rcases List.mem_cons.1 hc with rfl | hc
      · exact .inl hb
      · exact hall c hc
    · rw [List.dropWhile_cons_of_neg hb] at h
      cases h
      refine ⟨List.mem_cons_self, by simpa using hb, fun c hc => List.mem_cons_of_mem _ hc, ?_⟩
      rintro c hc
      rcases List.mem_cons.1 hc with rfl | hc
      · exact .inr (.inl rfl)
      · exact .inr (.inr hc)

end Stacks

section Visits

variable (next : α → List α)

theorem mem_visitFrom_of_mem (fuel : Nat) (stack : List α) (seen : KeySet α) (visited : List α) :
    ∀ a ∈ visited, a ∈ visitFrom next fuel stack seen visited := by
  induction fuel generalizing stack seen visited with
  | zero => exact fun a ha => ha
  | succ fuel ih =>
    intro a ha
    rw [visitFrom]
    split
    next => exact ha
    next b rest hb => exact ih _ _ _ a (List.mem_cons_of_mem _ ha)

end Visits

variable [BEq α] [LawfulBEqOrd α]

theorem KeySet.contains_add (s : KeySet α) (a b : α) :
    (s.add a).contains b = (a == b || s.contains b) := Table.contains_insert s a b ()

def unseen (seen : KeySet α) (l : List α) : List α := l.filter fun a => !seen.contains a

variable [EquivBEq α]

theorem length_unseen_add (seen : KeySet α) {l : List α} {a : α} (ha : l.contains a = true)
    (hseen : seen.contains a = false) :
    (unseen (seen.add a) l).length < (unseen seen l).length := by
  have hsub : unseen (seen.add a) l = (unseen seen l).filter fun b => !(a == b) := by
    rw [unseen, unseen, List.filter_filter]
    congr 1
    funext b
    rw [KeySet.contains_add, Bool.not_or, Bool.and_comm, Bool.and_comm]
  rw [hsub]
  obtain ⟨b, hb, hab⟩ := List.contains_iff_exists_mem_beq.1 ha
  refine List.length_filter_lt_length_iff_exists.2 ⟨b, List.mem_filter.2 ⟨hb, ?_⟩, ?_⟩
  · have : seen.contains b = seen.contains a := by
      rw [Table.contains, Table.contains]
      exact ExtTreeMap.contains_congr (LawfulBEqCmp.compare_eq_iff_beq.2 (BEq.symm hab))
    simp [this, hseen]
  · simp [hab]

section Search

variable (next : α → List α)

/-- With enough fuel for a closed list of items, the search sees its stack and is closed. -/
theorem visitFrom_closed (items : List α) (fuel : Nat) (stack : List α) (seen : KeySet α)
    (visited : List α) (same : ∀ a, seen.contains a = visited.contains a)
    (pending : ∀ a ∈ visited, ∀ b ∈ next a, seen.contains b = true ∨ stack.contains b = true)
    (inside : ∀ a ∈ stack, items.contains a = true)
    (closed : ∀ a, items.contains a = true → ∀ b ∈ next a, items.contains b = true)
    (enough : (unseen seen items).length ≤ fuel) :
    (∀ a ∈ stack, (visitFrom next fuel stack seen visited).contains a = true) ∧
      ∀ a ∈ visitFrom next fuel stack seen visited, ∀ b ∈ next a,
        (visitFrom next fuel stack seen visited).contains b = true := by
  induction fuel generalizing stack seen visited with
  | zero =>
    have hseen : ∀ a, items.contains a = true → visited.contains a = true := by
      intro a ha
      cases hn : visited.contains a with
      | true => rfl
      | false =>
        have := length_unseen_add seen ha (by rw [same, hn])
        omega
    refine ⟨fun a ha => hseen a (inside a ha), fun a ha b hb => ?_⟩
    rcases pending a ha b hb with h | h
    · rwa [same] at h
    · obtain ⟨c, hc, hcb⟩ := List.contains_iff_exists_mem_beq.1 h
      show visited.contains b = true
      rw [contains_congr_right hcb]
      exact hseen c (inside c hc)
  | succ fuel ih =>
    rw [visitFrom]
    split
    next hnil =>
      have hstack : ∀ a ∈ stack, visited.contains a = true := by
        intro a ha
        rw [← same]
        exact all_of_dropWhile_eq_nil hnil a ha
      refine ⟨hstack, fun a ha b hb => ?_⟩
      rcases pending a ha b hb with h | h
      · rwa [same] at h
      · obtain ⟨c, hc, hcb⟩ := List.contains_iff_exists_mem_beq.1 h
        rw [contains_congr_right hcb]
        exact hstack c hc
    next a rest hcons =>
      obtain ⟨hmem, hnew, hrest, hall⟩ := mem_of_dropWhile_eq_cons hcons
      have same' : ∀ b, (seen.add a).contains b = (a :: visited).contains b := by
        intro b
        rw [KeySet.contains_add, List.contains_cons, same, BEq.comm]
      obtain ⟨h₁, h₂⟩ := ih ((next a).reverse ++ rest) (seen.add a) (a :: visited) same'
        (by
          intro c hc b hb
          rcases List.mem_cons.1 hc with rfl | hc
          · exact .inr (contains_of_mem (by simp [hb]))
          · rcases pending c hc b hb with h | h
            · exact .inl (by rw [KeySet.contains_add, h, Bool.or_true])
            · obtain ⟨d, hd, hdb⟩ := List.contains_iff_exists_mem_beq.1 h
              rcases hall d hd with hd | rfl | hd
              · refine .inl ?_
                rw [same', contains_congr_right hdb, ← same', KeySet.contains_add, hd, Bool.or_true]
              · refine .inl ?_
                rw [KeySet.contains_add, BEq.symm hdb, Bool.true_or]
              · refine .inr ?_
                rw [contains_congr_right hdb]
                exact contains_of_mem (by simp [hd]))
        (by
          intro b hb
          rcases List.mem_append.1 hb with hb | hb
          · exact closed a (inside a hmem) b (List.mem_reverse.1 hb)
          · exact inside b (hrest b hb))
        (by
          have := length_unseen_add seen (inside a hmem) hnew
          omega)
      refine ⟨fun b hb => ?_, h₂⟩
      rcases hall b hb with hb | rfl | hb
      · rw [same] at hb
        obtain ⟨c, hc, hcb⟩ := List.contains_iff_exists_mem_beq.1 hb
        rw [contains_congr_right hcb]
        exact contains_of_mem
          (mem_visitFrom_of_mem next fuel _ _ _ c (List.mem_cons_of_mem _ hc))
      · exact contains_of_mem (mem_visitFrom_of_mem next fuel _ _ _ b List.mem_cons_self)
      · exact h₁ b (List.mem_append_right _ hb)

/-- With enough fuel for a closed list of items, what is reached from a stack holds the stack and
is closed. -/
theorem reachFrom_closed (items : List α) (fuel : Nat) (stack : List α)
    (inside : ∀ a ∈ stack, items.contains a = true)
    (closed : ∀ a, items.contains a = true → ∀ b ∈ next a, items.contains b = true)
    (enough : items.length ≤ fuel) :
    (∀ a ∈ stack, (reachFrom next fuel stack).contains a = true) ∧
      ∀ a ∈ reachFrom next fuel stack, ∀ b ∈ next a,
        (reachFrom next fuel stack).contains b = true := by
  have h := visitFrom_closed next items fuel stack .empty []
    (fun a => by rw [KeySet.contains_empty]; rfl) (by simp) inside closed
    (Nat.le_trans (List.length_filter_le _ _) enough)
  unfold reachFrom
  simpa [List.contains_reverse] using h

end Search

end Recalc
