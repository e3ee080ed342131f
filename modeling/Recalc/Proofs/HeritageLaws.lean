import Recalc.Derive
import Recalc.Proofs.EvaluationLaws
import Recalc.Proofs.ListingLaws

set_option autoImplicit false

/-!
# Laws of heritages

The heritage of a space is put together from its bases in order: the first base that defines a name
decides, and for children every base has its turn.
-/

namespace Recalc

namespace NameMap

variable {α : Type}

theorem get?_insertNew (t : NameMap α) (name other : String) (v : α) :
    (t.insertNew name v).get? other = (t.get? other).or (if name = other then some v else none) := by
  unfold insertNew
  split
  next h =>
    obtain ⟨w, hw⟩ := Option.isSome_iff_exists.1 h
    by_cases heq : name = other
    · subst heq
      rw [hw, Option.some_or]
    · rw [if_neg heq, Option.or_none]
  next h =>
    have hnone : t.get? name = none := by
      rw [contains, Bool.not_eq_true, Option.isSome_eq_false_iff, Option.isNone_iff_eq_none] at h
      exact h
    rw [get?_insert]
    split
    next heq => rw [← heq, hnone, Option.none_or]
    next => rw [Option.or_none]

/-- What is there stays, and the rest is filled in. -/
theorem get?_foldl_insertNew (l : List (String × α)) (t : NameMap α) (name : String) :
    (l.foldl (fun t e => t.insertNew e.1 e.2) t).get? name =
      (t.get? name).or ((l.find? (·.1 == name)).map (·.2)) := by
  induction l generalizing t with
  | nil => rw [List.foldl_nil, List.find?_nil, Option.map_none, Option.or_none]
  | cons e l ih =>
    rw [List.foldl_cons, ih, get?_insertNew, Option.or_assoc, List.find?_cons]
    by_cases h : e.1 = name
    · simp [h]
    · simp [h, beq_eq_false_iff_ne.2 h]

/-- Values are put behind those that are there under the same name. -/
theorem get?_foldl_insert_append (l : List (String × α)) (t : NameMap (List α))
    (sorted : l.Pairwise fun a b => a.1 < b.1) (name : String) :
    ((l.foldl (fun t e => t.insert e.1 ((t.get? e.1).getD [] ++ [e.2])) t).get? name).getD [] =
      (t.get? name).getD [] ++ ((l.find? (·.1 == name)).map (·.2)).toList := by
  induction l generalizing t with
  | nil => simp
  | cons e l ih =>
    obtain ⟨hfirst, hrest⟩ := List.pairwise_cons.1 sorted
    rw [List.foldl_cons, ih _ hrest, get?_insert, List.find?_cons]
    by_cases h : e.1 = name
    · have hnone : l.find? (·.1 == name) = none := by
        refine List.find?_eq_none.2 fun b hb => ?_
        have hlt := hfirst b hb
        rw [h] at hlt
        intro heq
        rw [beq_iff_eq] at heq
        rw [heq] at hlt
        exact String.lt_irrefl _ hlt
      simp [h, hnone]
    · simp [h, beq_eq_false_iff_ne.2 h]

theorem mem_names {t : NameMap α} {name : String} :
    name ∈ t.names ↔ t.contains name = true := by
  rw [names, List.mem_map, contains, Option.isSome_iff_exists]
  constructor
  · rintro ⟨e, he, rfl⟩
    exact ⟨e.2, mem_entries.1 he⟩
  · rintro ⟨v, hv⟩
    exact ⟨(name, v), mem_entries.2 hv, rfl⟩

/-- A name that is there after insertions was there or is one of those inserted. -/
theorem contains_foldl_insert {β : Type} {f : NameMap β → String × α → β} {name : String}
    (l : List (String × α)) (t : NameMap β)
    (h : (l.foldl (fun t e => t.insert e.1 (f t e)) t).contains name = true) :
    t.contains name = true ∨ ∃ v, (name, v) ∈ l := by
  induction l generalizing t with
  | nil => exact .inl h
  | cons e l ih =>
    rcases ih _ h with hcontains | ⟨v, hv⟩
    · rw [contains, get?_insert] at hcontains
      split at hcontains
      next heq => exact .inr ⟨e.2, heq ▸ List.mem_cons_self⟩
      next => exact .inl hcontains
    · exact .inr ⟨v, List.mem_cons_of_mem _ hv⟩

end NameMap

namespace Model

theorem mem_membersOf {s : Space} {name : String} {kind : MemberKind} :
    (name, kind) ∈ membersOf s ↔ match kind with
      | .cells => s.cells.contains name = true
      | .space => s.spaces.contains name = true
      | .reference => s.refs.contains name = true := by
  cases kind <;> simp [membersOf, NameMap.mem_names]

end Model

namespace Heritage

variable (h : Heritage) (s : Space) (name : String)

theorem cells_withBase :
    (h.withBase s).cells.get? name = (h.cells.get? name).or (s.cells.get? name) :=
  NameMap.get?_foldl_insertNew _ _ _

theorem refs_withBase :
    (h.withBase s).refs.get? name = (h.refs.get? name).or (s.refs.get? name) :=
  NameMap.get?_foldl_insertNew _ _ _

theorem spaces_withBase :
    ((h.withBase s).spaces.get? name).getD [] =
      (h.spaces.get? name).getD [] ++ (s.spaces.get? name).toList :=
  NameMap.get?_foldl_insert_append _ _ s.spaces.sorted name

variable (ss : List Space)

theorem cells_foldl : (ss.foldl withBase h).cells.get? name =
    (h.cells.get? name).or (ss.findSome? (·.cells.get? name)) := by
  induction ss generalizing h with
  | nil => simp
  | cons s ss ih =>
    rw [List.foldl_cons, ih, cells_withBase, Option.or_assoc, List.findSome?_cons]
    cases s.cells.get? name <;> rfl

theorem refs_foldl : (ss.foldl withBase h).refs.get? name =
    (h.refs.get? name).or (ss.findSome? (·.refs.get? name)) := by
  induction ss generalizing h with
  | nil => simp
  | cons s ss ih =>
    rw [List.foldl_cons, ih, refs_withBase, Option.or_assoc, List.findSome?_cons]
    cases s.refs.get? name <;> rfl

theorem signature_foldl :
    (ss.foldl withBase h).signature = h.signature.or (ss.findSome? (·.signature)) := by
  induction ss generalizing h with
  | nil => simp
  | cons s ss ih =>
    rw [List.foldl_cons, ih, withBase, Option.or_assoc, List.findSome?_cons]
    cases s.signature <;> rfl

theorem spaces_foldl : ((ss.foldl withBase h).spaces.get? name).getD [] =
    (h.spaces.get? name).getD [] ++ ss.filterMap (·.spaces.get? name) := by
  induction ss generalizing h with
  | nil => simp
  | cons s ss ih =>
    rw [List.foldl_cons, ih, spaces_withBase, List.append_assoc, List.filterMap_cons]
    cases s.spaces.get? name <;> rfl

def gives (h : Heritage) (name : String) : MemberKind → Bool
  | .cells => h.cells.contains name
  | .reference => h.refs.contains name
  | .space => h.spaces.contains name

omit h s name ss in
theorem gives_withBase {h : Heritage} {s : Space} {name : String} {kind : MemberKind}
    (hgives : (h.withBase s).gives name kind = true) :
    h.gives name kind = true ∨ (name, kind) ∈ Model.membersOf s := by
  rw [Model.mem_membersOf]
  cases kind with
  | cells =>
    rw [gives, NameMap.contains, cells_withBase, Option.isSome_or, Bool.or_eq_true] at hgives
    exact hgives
  | reference =>
    rw [gives, NameMap.contains, refs_withBase, Option.isSome_or, Bool.or_eq_true] at hgives
    exact hgives
  | space =>
    refine (NameMap.contains_foldl_insert _ _ hgives).imp_right fun ⟨c, hc⟩ => ?_
    exact Option.isSome_of_eq_some (NameMap.mem_entries.1 hc)

omit h s name ss in
/-- What is inherited was there before or is defined by a base. -/
theorem gives_foldl {ss : List Space} {h : Heritage} {name : String} {kind : MemberKind}
    (hgives : (ss.foldl withBase h).gives name kind = true) :
    h.gives name kind = true ∨ ∃ s ∈ ss, (name, kind) ∈ Model.membersOf s := by
  induction ss generalizing h with
  | nil => exact .inl hgives
  | cons s ss ih =>
    rcases ih hgives with hfirst | ⟨t, ht, hmem⟩
    · refine (gives_withBase hfirst).imp_right fun hmem => ?_
      exact ⟨s, List.mem_cons_self, hmem⟩
    · exact .inr ⟨t, List.mem_cons_of_mem s ht, hmem⟩

end Heritage

namespace Model

variable {m : Model}

/-- The bases are gathered one after the other. -/
theorem gatherBases_eq_ok {id : SpaceId} {bases : List SpaceId} {kinds : Kinds} {h : Heritage}
    {r : Kinds × Heritage} (hr : m.gatherBases id bases kinds h = .ok r) :
    ∃ ss : List Space, bases.map m.spaces.get? = ss.map some ∧ r.2 = ss.foldl Heritage.withBase h := by
  induction bases generalizing kinds h with
  | nil =>
    cases hr
    exact ⟨[], rfl, rfl⟩
  | cons b bases ih =>
    rw [gatherBases] at hr
    obtain ⟨s, hs, hr⟩ := except_bind_eq_ok.1 hr
    obtain ⟨kinds', -, hr⟩ := except_bind_eq_ok.1 hr
    obtain ⟨ss, hss, heq⟩ := ih hr
    refine ⟨s :: ss, ?_, ?_⟩
    · rw [List.map_cons, List.map_cons, hss, space_eq_ok.1 hs]
    · rw [heq, List.foldl_cons]

/-- What a space inherits comes from its bases. -/
theorem heritage_eq_ok {id : SpaceId} {h : Heritage} (hh : m.heritage id = .ok h) :
    ∃ ss : List Space, (m.allBases id).map m.spaces.get? = ss.map some ∧ h = ss.foldl Heritage.withBase {} := by
  unfold heritage at hh
  obtain ⟨r, hr, hh⟩ := except_bind_eq_ok.1 hh
  obtain ⟨s, -, hh⟩ := except_bind_eq_ok.1 hh
  obtain ⟨u, -, hh⟩ := except_bind_eq_ok.1 hh
  cases hh
  exact gatherBases_eq_ok hr

theorem exists_base_of_mem {bases : List SpaceId} {ss : List Space}
    (hss : bases.map m.spaces.get? = ss.map some) {s : Space} (hs : s ∈ ss) :
    ∃ b ∈ bases, m.spaces.get? b = some s := by
  have hmem : some s ∈ bases.map m.spaces.get? := by
    rw [hss]
    exact List.mem_map_of_mem hs
  exact List.mem_map.1 hmem

theorem exists_base_of_findSome? {α : Type} {bases : List SpaceId} {ss : List Space}
    (hss : bases.map m.spaces.get? = ss.map some) {f : Space → Option α} {a : α}
    (ha : ss.findSome? f = some a) : ∃ b ∈ bases, ∃ s, m.spaces.get? b = some s ∧ f s = some a := by
  obtain ⟨s, hs, hf⟩ := List.exists_of_findSome?_eq_some ha
  obtain ⟨b, hb, hget⟩ := exists_base_of_mem hss hs
  exact ⟨b, hb, s, hget, hf⟩

/-- Going through bases, those that are there are noted. -/
theorem mem_foldl_bases {b : SpaceId} (l out : List SpaceId) :
    b ∈ l.foldl (fun out b =>
      if !out.contains b && m.spaces.contains b then out ++ [b] else out) out ↔
      b ∈ out ∨ b ∈ l ∧ m.spaces.contains b = true := by
  induction l generalizing out with
  | nil => simp
  | cons a l ih =>
    rw [List.foldl_cons, ih]
    split
    next h =>
      rw [Bool.and_eq_true] at h
      grind
    next h =>
      rw [Bool.and_eq_true, Bool.not_eq_true', List.contains_eq_mem, decide_eq_false_iff_not] at h
      grind

/-- The effective bases are the bases that are there. -/
theorem mem_allBases {id b : SpaceId} : b ∈ m.allBases id ↔
    ∃ s, m.spaces.get? id = some s ∧ b ∈ s.bases ++ s.implicitBases ∧
      m.spaces.contains b = true := by
  unfold allBases
  cases hs : m.spaces.get? id with
  | none => simp
  | some s =>
    refine (mem_foldl_bases _ _).trans ⟨fun h => ?_, fun ⟨t, ht, h⟩ => ?_⟩
    · exact ⟨s, rfl, h.resolve_left List.not_mem_nil⟩
    · cases ht
      exact .inr h

section Bases

variable {id b : SpaceId} {h : Heritage} {s : Space} {name : String}
  (hh : m.heritage id = .ok h) (hb : b ∈ m.allBases id) (hs : m.spaces.get? b = some s)
include hh hb hs

/-- What a base defines is put into the heritage. -/
theorem mem_of_heritage : ∃ ss : List Space, s ∈ ss ∧ h = ss.foldl Heritage.withBase {} := by
  obtain ⟨ss, hss, rfl⟩ := heritage_eq_ok hh
  refine ⟨ss, ?_, rfl⟩
  have hmem : some s ∈ ss.map some := by
    rw [← hss, ← hs]
    exact List.mem_map_of_mem hb
  exact (List.mem_map_of_injective (Option.some_injective _)).1 hmem

theorem contains_heritage_cells (hc : s.cells.contains name = true) :
    h.cells.contains name = true := by
  obtain ⟨ss, hmem, rfl⟩ := mem_of_heritage hh hb hs
  rw [NameMap.contains, Heritage.cells_foldl]
  refine (congrArg Option.isSome Option.none_or).trans ?_
  exact List.findSome?_isSome_iff.2 ⟨s, hmem, hc⟩

theorem contains_heritage_refs (hr : s.refs.contains name = true) :
    h.refs.contains name = true := by
  obtain ⟨ss, hmem, rfl⟩ := mem_of_heritage hh hb hs
  rw [NameMap.contains, Heritage.refs_foldl]
  refine (congrArg Option.isSome Option.none_or).trans ?_
  exact List.findSome?_isSome_iff.2 ⟨s, hmem, hr⟩

theorem mem_heritage_spaces {c : SpaceId} (hc : s.spaces.get? name = some c) :
    c ∈ (h.spaces.get? name).getD [] := by
  obtain ⟨ss, hmem, rfl⟩ := mem_of_heritage hh hb hs
  rw [Heritage.spaces_foldl]
  exact List.mem_append_right _ (List.mem_filterMap.2 ⟨s, hmem, hc⟩)

theorem contains_heritage_spaces (hc : s.spaces.contains name = true) :
    h.spaces.contains name = true := by
  obtain ⟨c, hc⟩ := Option.isSome_iff_exists.1 hc
  have hmem := mem_heritage_spaces hh hb hs hc
  rw [NameMap.contains]
  cases hsources : h.spaces.get? name with
  | some _ => rfl
  | none =>
    rw [hsources] at hmem
    contradiction

end Bases

/-! ## Kinds -/

/-- Names that were noted keep their kind, and the members of the base have the kind noted. -/
theorem noteKinds_eq_ok {id base : SpaceId} {l : List (String × MemberKind)} {kinds kinds' : Kinds}
    (h : m.noteKinds id base l kinds = .ok kinds') :
    (∀ name x, kinds.get? name = some x → kinds'.get? name = some x) ∧
      ∀ e ∈ l, ∃ x, kinds'.get? e.1 = some x ∧ x.1 = e.2 := by
  induction l generalizing kinds with
  | nil =>
    cases h
    exact ⟨fun _ _ hx => hx, by simp⟩
  | cons e l ih =>
    obtain ⟨name, kind⟩ := e
    rw [noteKinds] at h
    split at h
    next seen hseen =>
      split at h
      next hkind =>
        obtain ⟨hkeep, hnoted⟩ := ih h
        refine ⟨hkeep, List.forall_mem_cons.2 ⟨⟨seen, hkeep _ _ hseen, hkind⟩, hnoted⟩⟩
      next => cases h
    next hnone =>
      obtain ⟨hkeep, hnoted⟩ := ih h
      refine ⟨fun other x hx => hkeep other x ?_, List.forall_mem_cons.2
        ⟨⟨_, hkeep name (kind, base) ?_, rfl⟩, hnoted⟩⟩
      · rw [NameMap.get?_insert, if_neg, hx]
        rintro rfl
        rw [hnone] at hx
        contradiction
      · rw [NameMap.get?_insert, if_pos rfl]

/-- Every inherited name was noted with its kind. -/
theorem noted_of_gatherBases {id : SpaceId} {bases : List SpaceId} {kinds : Kinds} {h : Heritage}
    {r : Kinds × Heritage} (hr : m.gatherBases id bases kinds h = .ok r)
    (hnoted : ∀ name kind, h.gives name kind = true → ∃ x, kinds.get? name = some x ∧ x.1 = kind) :
    ∀ name kind, r.2.gives name kind = true → ∃ x, r.1.get? name = some x ∧ x.1 = kind := by
  induction bases generalizing kinds h with
  | nil =>
    cases hr
    exact hnoted
  | cons b bases ih =>
    rw [gatherBases] at hr
    obtain ⟨s, -, hr⟩ := except_bind_eq_ok.1 hr
    obtain ⟨kinds', hkinds, hr⟩ := except_bind_eq_ok.1 hr
    obtain ⟨hkeep, hmembers⟩ := noteKinds_eq_ok hkinds
    refine ih hr fun name kind hgives => ?_
    rcases Heritage.gives_withBase hgives with hbefore | hmem
    · obtain ⟨x, hx, hkind⟩ := hnoted name kind hbefore
      exact ⟨x, hkeep name x hx, hkind⟩
    · exact hmembers _ hmem

theorem checkAuthored_eq_ok {id : SpaceId} {kinds : Kinds} {l : List (String × MemberKind)}
    (h : m.checkAuthored id kinds l = .ok ()) :
    ∀ e ∈ l, ∀ x, kinds.get? e.1 = some x → x.1 = e.2 := by
  induction l with
  | nil => simp
  | cons e l ih =>
    obtain ⟨name, kind⟩ := e
    rw [checkAuthored] at h
    split at h
    next inherited hinherited =>
      split at h
      next hkind =>
        refine List.forall_mem_cons.2 ⟨fun x hx => ?_, ih h⟩
        cases hinherited.symm.trans hx
        exact hkind
      next => cases h
    next hnone =>
      refine List.forall_mem_cons.2 ⟨fun x hx => ?_, ih h⟩
      rw [hnone] at hx
      contradiction

/-- One table notes every inherited name with its kind; what the space authors agrees with it. -/
theorem noted_of_heritage {id : SpaceId} {s : Space} {h : Heritage} (hh : m.heritage id = .ok h)
    (hs : m.spaces.get? id = some s) : ∃ kinds : Kinds,
      (∀ name kind, h.gives name kind = true → ∃ x, kinds.get? name = some x ∧ x.1 = kind) ∧
        m.checkAuthored id kinds (m.authored s) = .ok () := by
  unfold heritage at hh
  obtain ⟨⟨kinds, h'⟩, hr, hh⟩ := except_bind_eq_ok.1 hh
  obtain ⟨t, ht, hh⟩ := except_bind_eq_ok.1 hh
  obtain ⟨⟨⟩, hcheck, hh⟩ := except_bind_eq_ok.1 hh
  cases hh
  cases hs.symm.trans (space_eq_ok.1 ht)
  have hempty : ∀ name kind, ({} : Heritage).gives name kind = false := by
    intro name kind
    cases kind <;> rfl
  refine ⟨kinds, noted_of_gatherBases hr fun name kind hgives => ?_, hcheck⟩
  rw [hempty] at hgives
  contradiction

/-- What a space authors is of the kind that it inherits under the name. -/
theorem kind_of_heritage {id : SpaceId} {s : Space} {h : Heritage} (hh : m.heritage id = .ok h)
    (hs : m.spaces.get? id = some s) {name : String} {kind kind' : MemberKind}
    (hauthored : (name, kind) ∈ m.authored s) (hgives : h.gives name kind' = true) :
    kind' = kind := by
  obtain ⟨kinds, hnoted, hcheck⟩ := noted_of_heritage hh hs
  obtain ⟨x, hx, rfl⟩ := hnoted name kind' hgives
  exact checkAuthored_eq_ok hcheck _ hauthored x hx

/-- No name is inherited with two kinds. -/
theorem one_kind_of_heritage {id : SpaceId} {s : Space} {h : Heritage} (hh : m.heritage id = .ok h)
    (hs : m.spaces.get? id = some s) {name : String} {kind kind' : MemberKind}
    (hgives : h.gives name kind = true) (hgives' : h.gives name kind' = true) : kind' = kind := by
  obtain ⟨kinds, hnoted, -⟩ := noted_of_heritage hh hs
  obtain ⟨x, hx, rfl⟩ := hnoted name kind hgives
  obtain ⟨x', hx', rfl⟩ := hnoted name kind' hgives'
  cases hx.symm.trans hx'
  rfl

/-- Every source of an inherited cells object is listed under its name in a base. -/
theorem source_of_heritage_cells {id : SpaceId} {h : Heritage} (hh : m.heritage id = .ok h)
    {name : String} {c : CellId} (hc : h.cells.get? name = some c) :
    ∃ b ∈ m.allBases id, ∃ s, m.spaces.get? b = some s ∧ s.cells.get? name = some c := by
  obtain ⟨ss, hss, rfl⟩ := heritage_eq_ok hh
  rw [Heritage.cells_foldl] at hc
  exact exists_base_of_findSome? hss ((Option.none_or).symm.trans hc)

theorem source_of_heritage_refs {id : SpaceId} {h : Heritage} (hh : m.heritage id = .ok h)
    {name : String} {r : RefId} (hr : h.refs.get? name = some r) :
    ∃ b ∈ m.allBases id, ∃ s, m.spaces.get? b = some s ∧ s.refs.get? name = some r := by
  obtain ⟨ss, hss, rfl⟩ := heritage_eq_ok hh
  rw [Heritage.refs_foldl] at hr
  exact exists_base_of_findSome? hss ((Option.none_or).symm.trans hr)

/-- The sources of an inherited child are the children of the name in the bases, of which there is
one at least. -/
theorem source_of_heritage_spaces {id : SpaceId} {h : Heritage} (hh : m.heritage id = .ok h)
    {name : String} {sources : List SpaceId} (hsources : h.spaces.get? name = some sources) :
    sources ≠ [] ∧ ∀ c ∈ sources, ∃ b ∈ m.allBases id, ∃ s, m.spaces.get? b = some s ∧
      s.spaces.get? name = some c := by
  obtain ⟨ss, hss, rfl⟩ := heritage_eq_ok hh
  have hgives : (ss.foldl Heritage.withBase {}).gives name .space = true :=
    Option.isSome_of_eq_some hsources
  have heq := Heritage.spaces_foldl {} name ss
  rw [hsources, Option.getD_some] at heq
  replace heq : sources = ss.filterMap (·.spaces.get? name) := heq.trans (List.nil_append _)
  subst heq
  refine ⟨?_, fun c hc => ?_⟩
  · rcases Heritage.gives_foldl hgives with hempty | ⟨s, hs, hmem⟩
    · cases hempty
    · obtain ⟨c, hc⟩ := Option.isSome_iff_exists.1 (mem_membersOf.1 hmem)
      exact List.ne_nil_of_mem (List.mem_filterMap.2 ⟨s, hs, hc⟩)
  · obtain ⟨s, hs, hlisted⟩ := List.mem_filterMap.1 hc
    obtain ⟨b, hb, hget⟩ := exists_base_of_mem hss hs
    exact ⟨b, hb, s, hget, hlisted⟩

end Model

end Recalc
