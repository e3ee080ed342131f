import Recalc.Proofs.Alteration

set_option autoImplicit false

/-!
# Members of spaces

An entity is a member of a space under a name when its own record says so. Deriving a space keeps
the members that stay in their places, and what comes is inherited; when instances or base links go
nothing comes at all.
-/

namespace Recalc

def Entity.kind : Entity → MemberKind
  | .cells _ => .cells
  | .ref _ => .reference
  | .space _ => .space

def MemberKind.place (id : SpaceId) (name : String) : MemberKind → Address
  | .cells => .cells id name
  | .reference => .ref id name
  | .space => .child id name

/-- Only static spaces are derived. -/
theorem Space.isStatic_of_isDerived {t : Space} (ht : t.isDerived = true) : t.isStatic = true := by
  cases hk : t.kind <;> simp [Space.isDerived, Space.isStatic, hk] at ht ⊢

namespace Model

open Recalc.Action

/-- The entity is a member of the space under the name, as its own record says. -/
def MemberAt (m : Model) (id : SpaceId) (name : String) : Entity → Prop
  | .cells c => ∃ d, m.cells.get? c = some d ∧ d.space = id ∧ d.name = name
  | .ref r => ∃ q, m.refs.get? r = some q ∧ q.owner = some id ∧ q.name = name
  | .space x => ∃ t, m.spaces.get? x = some t ∧ t.isStatic = true ∧ t.parent = some id ∧
      t.name = name

def Authored (m : Model) : Entity → Prop
  | .cells c => ∃ d, m.cells.get? c = some d ∧ d.derived = false
  | .ref r => ∃ q, m.refs.get? r = some q ∧ q.derived = false
  | .space x => ∃ t, m.spaces.get? x = some t ∧ t.isDerived = false

/-- What an entity says of itself: the space it is a member of, its name, and whether it is
derived. -/
structure Membership where
  holder : Option SpaceId
  name : String
  derived : Bool

def membership? (m : Model) : Entity → Option Membership
  | .cells c => (m.cells.get? c).map fun d => ⟨some d.space, d.name, d.derived⟩
  | .ref r => (m.refs.get? r).map fun q => ⟨q.owner, q.name, q.derived⟩
  -- a replica lies in a space and is no member of it
  | .space x => (m.spaces.get? x).map fun t =>
      ⟨if t.isStatic then t.parent else none, t.name, t.isDerived⟩

section Members

variable {m m' : Model} {id : SpaceId} {name : String} {e : Entity} {s : Space}

theorem MemberAt.home (h : m.MemberAt id name e) : m.home? e = some (e.kind.place id name) := by
  cases e with
  | cells c =>
    obtain ⟨d, hd, rfl, rfl⟩ := h
    exact home?_cells hd
  | ref r =>
    obtain ⟨q, hq, howner, rfl⟩ := h
    rw [home?_ref hq, Reference.home, howner]
    rfl
  | space x =>
    obtain ⟨t, ht, hstatic, hparent, rfl⟩ := h
    rw [home?_space ht, Space.home_of_static hstatic, hparent]
    rfl

theorem MemberAt.lists (h : m.MemberAt id name e) (hm : m.Owned) (hs : m.spaces.get? id = some s) :
    s.lists (e.kind.place id name) = some e := by
  have hplace : (e.kind.place id name).space? = some id := by cases e <;> rfl
  obtain ⟨t, ht, hlists⟩ := hm.holder h.home hplace
  cases hs.symm.trans ht
  exact hlists

/-- What a static space lists is a member of it. -/
theorem memberAt_of_lists (hm : m.Owned) (hs : m.spaces.get? id = some s)
    (hstatic : s.isStatic = true) (h : s.lists (e.kind.place id name) = some e) :
    m.MemberAt id name e := by
  cases e with
  | cells c =>
    obtain ⟨x, hx, heq⟩ := Option.map_eq_some_iff.1 h
    cases heq
    exact hm.cells_of_listed hs hx
  | ref r =>
    obtain ⟨x, hx, heq⟩ := Option.map_eq_some_iff.1 h
    cases heq
    exact hm.ref_of_listed hs hx
  | space y =>
    obtain ⟨x, hx, heq⟩ := Option.map_eq_some_iff.1 h
    cases heq
    exact hm.static_of_listed hs hstatic hx

/-- A space has one member of a kind under a name. -/
theorem MemberAt.unique (h : m.MemberAt id name e) (hm : m.Owned) {e' : Entity}
    (h' : m.MemberAt id name e') (hkind : e'.kind = e.kind) : e' = e := by
  have hlisted := hm.linked.complete e _ h.home fun hf => hf
  have hlisted' := hm.linked.complete e' _ h'.home fun hf => hf
  rw [hkind, hlisted] at hlisted'
  exact (Option.some.inj hlisted').symm

/-- What a space inherits under the name of an authored member is of its kind. -/
theorem MemberAt.kind_of_heritage (h : m.MemberAt id name e) (hauthored : m.Authored e)
    (hm : m.Owned) (hself : m.Static id) {heritage : Heritage}
    (hh : m.heritage id = .ok heritage) {kind : MemberKind}
    (hgives : heritage.gives name kind = true) : kind = e.kind := by
  obtain ⟨s, hs, -⟩ := hself
  refine Model.kind_of_heritage hh hs ?_ hgives
  have hlists := h.lists hm hs
  cases e with
  | cells c =>
    obtain ⟨x, hx, heq⟩ := Option.map_eq_some_iff.1 hlists
    cases heq
    obtain ⟨d, hd, hderived⟩ := hauthored
    refine List.mem_append_left _ (List.mem_append_left _ (List.mem_map.2 ⟨(name, c), ?_, rfl⟩))
    exact List.mem_filter.2 ⟨NameMap.mem_entries.2 hx, by simp [hd, hderived]⟩
  | ref r =>
    obtain ⟨x, hx, heq⟩ := Option.map_eq_some_iff.1 hlists
    cases heq
    obtain ⟨q, hq, hderived⟩ := hauthored
    refine List.mem_append_left _ (List.mem_append_right _ (List.mem_map.2 ⟨(name, r), ?_, rfl⟩))
    exact List.mem_filter.2 ⟨NameMap.mem_entries.2 hx, by simp [hq, hderived]⟩
  | space y =>
    obtain ⟨x, hx, heq⟩ := Option.map_eq_some_iff.1 hlists
    cases heq
    obtain ⟨t, ht, hderived⟩ := hauthored
    refine List.mem_append_right _ (List.mem_map.2 ⟨(name, y), ?_, rfl⟩)
    exact List.mem_filter.2 ⟨NameMap.mem_entries.2 hx, by simp [ht, hderived]⟩

theorem MemberAt.defines (h : m.MemberAt id name e) (hm : m.Owned)
    (hs : m.spaces.get? id = some s) : s.defines name = true := by
  have hlists := h.lists hm hs
  unfold Space.defines
  simp only [Bool.or_eq_true]
  cases e with
  | cells c =>
    obtain ⟨x, hx, -⟩ := Option.map_eq_some_iff.1 hlists
    exact .inl (.inl (Option.isSome_of_eq_some hx))
  | ref r =>
    obtain ⟨x, hx, -⟩ := Option.map_eq_some_iff.1 hlists
    exact .inr (Option.isSome_of_eq_some hx)
  | space y =>
    obtain ⟨x, hx, -⟩ := Option.map_eq_some_iff.1 hlists
    exact .inl (.inr (Option.isSome_of_eq_some hx))

end Members

/-! ## The membership of entities -/

section Memberships

variable {m m' : Model} {id p x : SpaceId} {name : String} {e : Entity} {h : Heritage} {l : Membership}

theorem memberAt_iff :
    m.MemberAt p name e ↔ ∃ l, m.membership? e = some l ∧ l.holder = some p ∧ l.name = name := by
  cases e with
  | cells c => simp [MemberAt, membership?]
  | ref r => simp [MemberAt, membership?]
  | space y =>
    simp only [MemberAt, membership?, Option.map_eq_some_iff, exists_exists_and_eq_and]
    refine exists_congr fun t => and_congr_right fun _ => ?_
    cases t.isStatic <;> simp

theorem authored_iff : m.Authored e ↔ ∃ l, m.membership? e = some l ∧ l.derived = false := by
  cases e <;> simp [Authored, membership?]

theorem unsourced_iff : m.Unsourced id h e ↔ ∃ l, m.membership? e = some l ∧ l.holder = some id ∧
    l.derived = true ∧ h.gives l.name e.kind = false := by
  constructor
  · intro hunsourced
    cases hunsourced with
    | cells hd hspace hderived hname => exact ⟨_, congrArg (Option.map _) hd, by simp [hspace],
        hderived, hname⟩
    | ref hq howner hderived hname => exact ⟨_, congrArg (Option.map _) hq, howner, hderived, hname⟩
    | space ht hderived hparent hname =>
      exact ⟨_, congrArg (Option.map _) ht, by simp [Space.isStatic_of_isDerived hderived, hparent],
        hderived, hname⟩
  · rintro ⟨l, hl, hholder, hderived, hname⟩
    cases e with
    | cells c =>
      obtain ⟨d, hd, rfl⟩ := Option.map_eq_some_iff.1 hl
      exact .cells hd (Option.some.inj hholder) hderived hname
    | ref r =>
      obtain ⟨q, hq, rfl⟩ := Option.map_eq_some_iff.1 hl
      exact .ref hq hholder hderived hname
    | space y =>
      obtain ⟨t, ht, rfl⟩ := Option.map_eq_some_iff.1 hl
      dsimp only at hholder hderived
      rw [if_pos (Space.isStatic_of_isDerived hderived)] at hholder
      exact .space ht hderived hholder hname

theorem Alters.membership (halters : Alters id h m m') (hl : m'.membership? e = some l) :
    m.membership? e = some l ∨
      (l.holder = some id ∧ l.derived = true ∧ h.gives l.name e.kind = true) := by
  cases e with
  | cells c =>
    obtain ⟨d', hd', rfl⟩ := Option.map_eq_some_iff.1 hl
    cases hd : m.cells.get? c with
    | none =>
      obtain ⟨hderived, hspace, hname⟩ := halters.newCells c d' hd' hd
      exact .inr ⟨congrArg some hspace, hderived, hname⟩
    | some d =>
      rcases halters.cells c d hd with ⟨y, hy, hstep⟩ | ⟨hgone, -⟩
      · cases hd'.symm.trans hy
        exact .inl (by simp only [membership?, hd, Option.map_some, hstep.space, hstep.name,
          hstep.derived])
      · exact absurd (hd'.symm.trans hgone) (by simp)
  | ref r =>
    obtain ⟨q', hq', rfl⟩ := Option.map_eq_some_iff.1 hl
    cases hq : m.refs.get? r with
    | none =>
      obtain ⟨hderived, howner, hname⟩ := halters.newRef r q' hq' hq
      exact .inr ⟨howner, hderived, hname⟩
    | some q =>
      rcases halters.ref r q hq with ⟨y, hy, hstep⟩ | ⟨hgone, -⟩
      · cases hq'.symm.trans hy
        exact .inl (by simp only [membership?, hq, Option.map_some, hstep.owner, hstep.name,
          hstep.derived])
      · exact absurd (hq'.symm.trans hgone) (by simp)
  | space y =>
    obtain ⟨t', ht', rfl⟩ := Option.map_eq_some_iff.1 hl
    cases ht : m.spaces.get? y with
    | none =>
      obtain ⟨hderived, -, hparent, hname⟩ := halters.newSpace y t' ht' ht
      exact .inr ⟨by simp [Space.isStatic_of_isDerived hderived, hparent], hderived, hname⟩
    | some t =>
      rcases halters.space y t ht with ⟨u, hu, hstep⟩ | ⟨hgone, -⟩
      · cases ht'.symm.trans hu
        exact .inl (by simp only [membership?, ht, Option.map_some, hstep.isStatic, hstep.parent,
          hstep.name, hstep.isDerived])
      · exact absurd (ht'.symm.trans hgone) (by simp)

/-- What does not go keeps its membership. -/
theorem Alters.membership_of_stays (halters : Alters id h m m') (hkept : ¬ m.Goes id h e)
    (hl : m.membership? e = some l) : m'.membership? e = some l := by
  cases e with
  | cells c =>
    obtain ⟨d, hd, rfl⟩ := Option.map_eq_some_iff.1 hl
    obtain ⟨d', hd', hstep⟩ := (halters.cells c d hd).resolve_right fun hgone => hkept hgone.2
    simp only [membership?, hd', Option.map_some, hstep.space, hstep.name, hstep.derived]
  | ref r =>
    obtain ⟨q, hq, rfl⟩ := Option.map_eq_some_iff.1 hl
    obtain ⟨q', hq', hstep⟩ := (halters.ref r q hq).resolve_right fun hgone => hkept hgone.2
    simp only [membership?, hq', Option.map_some, hstep.owner, hstep.name, hstep.derived]
  | space y =>
    obtain ⟨t, ht, rfl⟩ := Option.map_eq_some_iff.1 hl
    obtain ⟨t', ht', hstep⟩ := (halters.space y t ht).resolve_right fun hgone => hkept hgone.2
    simp only [membership?, ht', Option.map_some, hstep.isStatic, hstep.parent, hstep.name,
      hstep.isDerived]

/-- When instances are dropped nothing comes, and what stays keeps its membership. -/
theorem Drops.membership (hdrops : Drops m m') (hl : m'.membership? e = some l) :
    m.membership? e = some l := by
  cases e with
  | cells c =>
    obtain ⟨d', hd', rfl⟩ := Option.map_eq_some_iff.1 hl
    obtain ⟨d, hd, hbare⟩ := hdrops.cells c d' hd'
    have hsame : (⟨some d'.bare.space, d'.bare.name, d'.bare.derived⟩ : Membership) =
        ⟨some d.bare.space, d.bare.name, d.bare.derived⟩ := by rw [hbare]
    exact (congrArg (Option.map _) hd).trans (congrArg some hsame.symm)
  | ref r =>
    obtain ⟨q, hq, rfl⟩ := Option.map_eq_some_iff.1 hl
    exact congrArg (Option.map _) (hdrops.refs r q hq)
  | space y =>
    obtain ⟨t', ht', rfl⟩ := Option.map_eq_some_iff.1 hl
    obtain ⟨t, ht, heq, -⟩ := hdrops.space y t' ht'
    rw [heq]
    exact congrArg (Option.map _) ht

theorem membership?_modifySpace {f : Space → Space} (hf : ∀ s : Space, s.Persists (f s)) :
    (m.modifySpace x f).membership? e = m.membership? e := by
  cases e with
  | cells c => rfl
  | ref r => rfl
  | space y =>
    have hget := Pool.get?_modify m.spaces x y f
    simp only [membership?, modifySpace, hget]
    split
    next heq =>
      subst heq
      simp only [Option.map_map, Function.comp_def, (hf _).isStatic, (hf _).parent, (hf _).name,
        (hf _).isDerived]
    next => rfl

theorem membership?_unlinkDeadBases : m.unlinkDeadBases.2.membership? e = m.membership? e := by
  refine foldl_keeps (P := fun m' : Model => m'.membership? e = m.membership? e) (fun m' x h => ?_) _ rfl
  rw [membership?_modifySpace, h]
  exact fun s => (s.persists_setBases _).trans (Space.persists_setImplicitBases _ _)

theorem memberAt_congr (hsame : m'.membership? e = m.membership? e) :
    m'.MemberAt p name e ↔ m.MemberAt p name e := by
  rw [memberAt_iff, memberAt_iff, hsame]

theorem authored_congr (hsame : m'.membership? e = m.membership? e) :
    m'.Authored e ↔ m.Authored e := by
  rw [authored_iff, authored_iff, hsame]

end Memberships

/-! ## Members come and go -/

section Comings

variable {m m' : Model} {id p : SpaceId} {name : String} {e : Entity} {h : Heritage}

/-- What stays is a member as it was. -/
theorem Alters.stays (halters : Alters id h m m') (hkept : ¬ m.Goes id h e)
    (hhere : m.MemberAt p name e) : m'.MemberAt p name e ∧ m'.membership? e = m.membership? e := by
  obtain ⟨l, hl, -⟩ := memberAt_iff.1 hhere
  have hsame := (halters.membership_of_stays hkept hl).trans hl.symm
  exact ⟨(memberAt_congr hsame).2 hhere, hsame⟩

/-- A member was there before, or it is derived and its name inherited. -/
theorem Alters.came (halters : Alters id h m m') (hhere : m'.MemberAt p name e) :
    (m.MemberAt p name e ∧ m'.membership? e = m.membership? e) ∨
      (id = p ∧ ¬ m'.Authored e ∧ h.gives name e.kind = true) := by
  obtain ⟨l, hl, hholder, rfl⟩ := memberAt_iff.1 hhere
  rcases halters.membership hl with hold | ⟨hself, hderived, hgives⟩
  · exact .inl ⟨memberAt_iff.2 ⟨l, hold, hholder, rfl⟩, hl.trans hold.symm⟩
  · refine .inr ⟨Option.some.inj (hself.symm.trans hholder), fun hauthored => ?_, hgives⟩
    obtain ⟨l', hl', hnot⟩ := authored_iff.1 hauthored
    cases hl.symm.trans hl'
    rw [hderived] at hnot
    contradiction

/-- When instances are dropped no member comes, and none changes. -/
theorem Drops.came (hdrops : Drops m m') (hhere : m'.MemberAt p name e) :
    m.MemberAt p name e ∧ m'.membership? e = m.membership? e := by
  obtain ⟨l, hl, hat⟩ := memberAt_iff.1 hhere
  have hold := hdrops.membership hl
  exact ⟨memberAt_iff.2 ⟨l, hold, hat⟩, hl.trans hold.symm⟩

/-- What comes is the only new member. -/
theorem Joins.came (hjoins : Joins e m m') {e' : Entity} (hhere : m'.MemberAt id name e') :
    m.MemberAt id name e' ∨ e' = e := by
  cases e' with
  | cells c =>
    obtain ⟨d', hd', hspace, hname⟩ := hhere
    cases hd : m.cells.get? c with
    | none => exact .inr (hjoins.newCells c d' hd' hd).symm
    | some d =>
      cases hd'.symm.trans (hjoins.cells c d hd)
      exact .inl ⟨d', hd, hspace, hname⟩
  | ref r =>
    obtain ⟨q', hq', howner, hname⟩ := hhere
    cases hq : m.refs.get? r with
    | none => exact .inr (hjoins.newRef r q' hq' hq).symm
    | some q =>
      cases hq'.symm.trans (hjoins.ref r q hq)
      exact .inl ⟨q', hq, howner, hname⟩
  | space x =>
    obtain ⟨t', ht', hstatic, hparent, hname⟩ := hhere
    cases ht : m.spaces.get? x with
    | none => exact .inr (hjoins.newSpace x t' ht' ht).symm
    | some t =>
      obtain ⟨u, hu, hstep, -⟩ := hjoins.space x t ht
      cases ht'.symm.trans hu
      exact .inl ⟨t, ht, hstep.isStatic.symm.trans hstatic, hstep.parent.symm.trans hparent,
        hstep.name.symm.trans hname⟩

/-! What comes is there as it was given. -/

theorem get?_addCells (hm : m.Owned) {c : Cells} {s : Space} (small : (m.addCells c).2.Addressable)
    (hs : m.spaces.get? c.space = some s) :
    (m.addCells c).2.cells.get? (m.addCells c).1 = some c := by
  rw [(addsCells hm.tidy small hs).cells, if_pos rfl]

theorem get?_addRef (hm : m.Owned) {r : Reference} (small : (m.addRef r).2.Addressable) :
    (m.addRef r).2.refs.get? (m.addRef r).1 = some r := by
  rw [(refs_addRef hm.tidy small).2, if_pos rfl]

theorem get?_addChild (hm : m.Owned) {s t : Space} (small : (m.addChild id t).2.Addressable)
    (hs : m.spaces.get? id = some s) :
    (m.addChild id t).2.spaces.get? (m.addChild id t).1 = some t := by
  have hadds := addsChild hm.tidy small hs
  rw [hadds.spaces, if_neg, if_pos rfl]
  intro heq
  rw [heq, hadds.fresh] at hs
  contradiction

end Comings

end Model

end Recalc
