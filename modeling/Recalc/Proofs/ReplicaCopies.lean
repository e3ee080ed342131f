import Recalc.Proofs.MirroredChanges
import Recalc.Proofs.ReplicaLaws

set_option autoImplicit false

/-!
# Copies of cells

The cells of a static space are copied into a replica one after the other. Their names differ, so
in the end the replica has exactly the settings of the static space, and all else is as before.
-/

namespace Recalc.Model

def copyOf (replica : SpaceId) (c : Cells) : Cells :=
  { name := c.name, space := replica, formula := c.formula, derived := true, allowNone := c.allowNone }

def copyEach (replica : SpaceId) (l : List Cells) (m : Model) : Model :=
  l.foldl (fun m c => (m.addCells (copyOf replica c)).2) m

def cellsOf (m : Model) (s : Space) : List Cells := s.cells.values.filterMap m.cells.get?

theorem copyCells_eq {m : Model} {replica c : SpaceId} {source : Space}
    (hs : m.spaces.get? c = some source) :
    m.copyCells replica c = m.copyEach replica (m.cellsOf source) := by
  unfold copyCells
  rw [hs]
  rfl

theorem addressable_of_copyEach {replica : SpaceId} {l : List Cells} {m : Model}
    (h : (m.copyEach replica l).Addressable) : m.Addressable := by
  induction l generalizing m with
  | nil => exact h
  | cons c l ih => exact addressable_of_addCells (ih h)

structure CopiesInto (m m' : Model) (replica : SpaceId) (s : Space) (l : List Cells) : Prop where
  space : ∃ t, (∀ other, m'.spaces.get? other =
      if replica = other then some { s with cells := t } else m.spaces.get? other) ∧
    ∀ name, m'.setting { s with cells := t } name =
      ((l.find? (·.name == name)).map fun c => (c.formula, c.allowNone)).or (m.setting s name)
  cells : ∀ c d, m.cells.get? c = some d → m'.cells.get? c = some d
  refs : m'.refs = m.refs
  roots : m'.roots = m.roots
  globals : m'.globals = m.globals
  tidy : m'.Tidy

section Copying

variable {loose : Entity → Prop}

/-- What a space has under a name after cells were added to it. -/
theorem setting_addCells {m : Model} {c : Cells} {s : Space} (hm : m.Linked loose) (ht : m.Tidy)
    (small : (m.addCells c).2.Addressable) (hs : m.spaces.get? c.space = some s) (name : String) :
    (m.addCells c).2.setting { s with cells := s.cells.insert c.name (m.addCells c).1 } name =
      if c.name = name then some (c.formula, c.allowNone) else m.setting s name := by
  have hadds := addsCells ht small hs
  unfold setting
  rw [NameMap.get?_insert]
  split
  next =>
    rw [Option.bind_some, hadds.cells, if_pos rfl]
    rfl
  next =>
    cases hd : s.cells.get? name with
    | none => rfl
    | some d =>
      -- what was listed was there, so it is not what came
      have hlisted : m.listed (.cells c.space name) = some (.cells d) := by
        rw [listed_of_space rfl hs, Space.lists, hd, Option.map_some]
      obtain ⟨b, hb, -⟩ := hm.sound _ _ hlisted
      obtain ⟨e, he, -⟩ := cells_of_home? hb
      rw [Option.bind_some, Option.bind_some, hadds.cells, if_neg]
      rintro rfl
      rw [hadds.fresh] at he
      contradiction

theorem copiesInto_copyEach {replica : SpaceId} {l : List Cells} {m : Model} {s : Space}
    (names : l.Pairwise fun c d => c.name ≠ d.name) (ht : m.Tidy) (hm : m.Linked loose)
    (small : (m.copyEach replica l).Addressable) (hs : m.spaces.get? replica = some s)
    (hfree : ∀ c ∈ l, s.cells.get? c.name = none) :
    CopiesInto m (m.copyEach replica l) replica s l ∧ (m.copyEach replica l).Linked loose := by
  induction l generalizing m s with
  | nil =>
    refine ⟨⟨⟨s.cells, fun other => ?_, fun name => rfl⟩, fun _ _ h => h, rfl, rfl, rfl, ht⟩, hm⟩
    show m.spaces.get? other = _
    split
    next heq => rw [← heq, hs]
    next => rfl
  | cons c l ih =>
    obtain ⟨hfirst, hrest⟩ := List.pairwise_cons.1 names
    have hsmall : (m.addCells (copyOf replica c)).2.Addressable := addressable_of_copyEach small
    have hadds := addsCells (c := copyOf replica c) ht hsmall hs
    have hlinked := linked_addCells (c := copyOf replica c) ht hsmall hs
      (hfree c List.mem_cons_self) hm
    have hself := (hadds.spaces replica).trans (if_pos rfl)
    have hfree' : ∀ d ∈ l,
        (s.cells.insert c.name (m.addCells (copyOf replica c)).1).get? d.name = none := by
      intro d hd
      rw [NameMap.get?_insert, if_neg (hfirst d hd)]
      exact hfree d (List.mem_cons_of_mem _ hd)
    obtain ⟨hcopies, hlinked'⟩ := ih hrest (tidy_addCells ht _) hlinked small hself hfree'
    refine ⟨⟨?_, fun x d hd => ?_, hcopies.refs.trans hadds.refs, hcopies.roots.trans hadds.roots,
      hcopies.globals.trans hadds.globals, hcopies.tidy⟩, hlinked'⟩
    · obtain ⟨t, hspaces, hsetting⟩ := hcopies.space
      refine ⟨t, fun other => ?_, fun name => ?_⟩
      · refine (hspaces other).trans ?_
        split
        next => rfl
        next hne =>
          rw [hadds.spaces]
          exact if_neg hne
      · have hadded : (m.addCells (copyOf replica c)).2.setting
            { s with cells := s.cells.insert c.name (m.addCells (copyOf replica c)).1 } name =
            if c.name = name then some (c.formula, c.allowNone) else m.setting s name :=
          setting_addCells hm ht hsmall hs name
        refine ((hsetting name).trans (congrArg (Option.or _) hadded)).trans ?_
        rw [List.find?_cons]
        by_cases hname : c.name = name
        · have hnone : l.find? (·.name == name) = none := by
            refine List.find?_eq_none.2 fun d hd heq => hfirst d hd ?_
            rw [hname]
            exact (beq_iff_eq.1 heq).symm
          rw [hnone, if_pos hname, beq_iff_eq.2 hname]
          rfl
        · rw [if_neg hname, beq_eq_false_iff_ne.2 hname]
    · refine hcopies.cells x d ?_
      rw [hadds.cells, if_neg, hd]
      rintro rfl
      rw [hadds.fresh] at hd
      contradiction

end Copying

section Listing

variable {m : Model} {id : SpaceId} {s : Space}

/-- Every cells object of a space goes by the name that the space lists it under. -/
theorem Owned.name_of_listed (hm : m.Owned) (hs : m.spaces.get? id = some s) {e : String × CellId}
    (he : e ∈ s.cells.entries) : ∃ d, m.cells.get? e.2 = some d ∧ d.name = e.1 := by
  obtain ⟨d, hd, -, hname⟩ := hm.cells_of_listed hs (NameMap.mem_entries.1 he)
  exact ⟨d, hd, hname⟩

theorem pairwise_cellsOf (hm : m.Owned) (hs : m.spaces.get? id = some s) :
    (m.cellsOf s).Pairwise fun c d => c.name ≠ d.name := by
  unfold cellsOf NameMap.values
  rw [List.pairwise_filterMap, List.pairwise_map]
  refine s.cells.pairwise_ne.imp_of_mem fun {a b} ha hb hne c hc d hd => ?_
  obtain ⟨c', hc', hca⟩ := hm.name_of_listed hs ha
  obtain ⟨d', hd', hdb⟩ := hm.name_of_listed hs hb
  cases hc.symm.trans hc'
  cases hd.symm.trans hd'
  rwa [hca, hdb]

theorem find?_cellsOf (hm : m.Owned) (hs : m.spaces.get? id = some s) (name : String) :
    (m.cellsOf s).find? (·.name == name) = (s.cells.get? name).bind m.cells.get? := by
  have key : ∀ l : List (String × CellId),
      (∀ e ∈ l, ∃ d, m.cells.get? e.2 = some d ∧ d.name = e.1) →
      ((l.map (·.2)).filterMap m.cells.get?).find? (·.name == name) =
        ((l.find? (·.1 == name)).map (·.2)).bind m.cells.get? := by
    intro l
    induction l with
    | nil => exact fun _ => rfl
    | cons e l ih =>
      intro hl
      obtain ⟨d, hd, hname⟩ := hl e List.mem_cons_self
      rw [List.map_cons, List.filterMap_cons_some hd, List.find?_cons, List.find?_cons, hname,
        ih fun e' he' => hl e' (List.mem_cons_of_mem _ he')]
      cases e.1 == name with
      | true => exact hd.symm
      | false => rfl
  exact key _ fun e he => hm.name_of_listed hs he

end Listing

end Recalc.Model
