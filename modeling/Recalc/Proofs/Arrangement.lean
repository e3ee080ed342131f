import Recalc.Proofs.Lasting
import Recalc.Proofs.Members

set_option autoImplicit false

/-!
# Names and parents

No name of a space belongs to members of two kinds, and an instance has the parent of its owner and
lies in the instances that the owner lies in. What comes is under a free name, except while a space
is being derived: a name that changes its kind has both kinds until what is no longer inherited has
gone.
-/

namespace Recalc.Model

open Recalc.Action

/-- The instances that a space lies in, itself among them when it is the root of one. Nothing is
said of a child whose root is not there. -/
def Around (m : Model) (id : SpaceId) (s : Space) (enclosing : List SpaceId) : Prop :=
  match s.kind with
  | .static .. => enclosing = []
  | .item _ _ _ around => enclosing = id :: around
  | .dynamic _ root => ∀ r owner c args around, m.spaces.get? root = some r →
      r.kind = .item owner c args around → enclosing = root :: around

structure Beside (m : Model) : Prop where
  parent : ∀ i t owner c args enclosing s, m.spaces.get? i = some t →
    t.kind = .item owner c args enclosing → m.spaces.get? owner = some s → t.parent = s.parent
  enclosing : ∀ i t owner c args enclosing s, m.spaces.get? i = some t →
    t.kind = .item owner c args enclosing → m.spaces.get? owner = some s →
    m.Around owner s enclosing

/-- No name of a space has two kinds, and instances lie beside their owners. -/
structure Arranged (m : Model) : Prop where
  names : ∀ p name e e', m.MemberAt p name e → m.MemberAt p name e' → e'.kind = e.kind
  beside : m.Beside

def Stands (t t' : Space) : Prop :=
  t'.parent = t.parent ∧ t'.isStatic = t.isStatic ∧ (t.isStatic = false → t'.kind = t.kind)

theorem Stands.of_like {t t' : Space} (h : t.Like t') : Stands t t' :=
  ⟨h.parent, h.isStatic, h.kind⟩

section Besides

variable {m m' : Model}

theorem Stands.item {t t' : Space} (h : Stands t t') {owner c : SpaceId} {args : Key}
    {enclosing : List SpaceId} (hk : t'.kind = .item owner c args enclosing) :
    t.kind = .item owner c args enclosing := by
  have hstatic : t.isStatic = false := by rw [← h.2.1, isStatic_of_item hk]
  rw [← h.2.2 hstatic, hk]

/-- Where a space lies does not change as long as the root of its instance stands. -/
theorem Around.transfer {id : SpaceId} {s s' : Space} {enclosing : List SpaceId}
    (h : m.Around id s enclosing) (hstands : Stands s s')
    (hroot : ∀ c root r' owner d args around, s.kind = .dynamic c root →
      m'.spaces.get? root = some r' → r'.kind = .item owner d args around →
      ∃ r, m.spaces.get? root = some r ∧ Stands r r') : m'.Around id s' enclosing := by
  obtain ⟨-, hstatic, hkind⟩ := hstands
  unfold Around at h ⊢
  cases hk : s.kind with
  | static bases implicit derived =>
    rw [hk] at h
    rw [show s.isStatic = true by rw [Space.isStatic, hk]] at hstatic
    unfold Space.isStatic at hstatic
    split at hstatic
    next hk' => rwa [hk']
    next => contradiction
  | item owner c args around =>
    rw [hkind (isStatic_of_item hk), hk]
    rwa [hk] at h
  | dynamic c root =>
    rw [hkind (isStatic_of_dynamic hk), hk]
    rw [hk] at h
    intro r' owner d args around hr' hk'
    obtain ⟨r, hr, hsame⟩ := hroot c root r' owner d args around hk hr' hk'
    exact h r owner d args around hr (hsame.item hk')

/-- No space comes. -/
theorem Beside.rest (h : m.Beside) (hold : ∀ x t', m'.spaces.get? x = some t' →
    ∃ t, m.spaces.get? x = some t ∧ Stands t t') : m'.Beside := by
  refine ⟨fun i t' owner c args enclosing s' ht' hk hs' => ?_,
    fun i t' owner c args enclosing s' ht' hk hs' => ?_⟩
  all_goals
    obtain ⟨t, ht, hstands⟩ := hold i t' ht'
    obtain ⟨s, hs, hstands'⟩ := hold owner s' hs'
  · rw [hstands.1, hstands'.1]
    exact h.parent i t owner c args enclosing s ht (hstands.item hk) hs
  · exact (h.enclosing i t owner c args enclosing s ht (hstands.item hk) hs).transfer hstands'
      fun _ root r' _ _ _ _ _ hr' _ => hold root r' hr'

/-- An instance that comes lies beside its owner, and has no children yet. -/
theorem Beside.transfer (h : m.Beside) (hm : m.Owned) (old : ∀ x t t', m.spaces.get? x = some t →
      m'.spaces.get? x = some t' → Stands t t')
    (new : ∀ x t' owner c args enclosing, m'.spaces.get? x = some t' → m.spaces.get? x = none →
      t'.kind = .item owner c args enclosing →
      (∃ s, m.spaces.get? owner = some s ∧ t'.parent = s.parent ∧ m.Around owner s enclosing) ∧
      ∀ y u d, m.spaces.get? y = some u → u.kind ≠ .dynamic d x) : m'.Beside := by
  have haround : ∀ y u u' enclosing, m.spaces.get? y = some u → m'.spaces.get? y = some u' →
      m.Around y u enclosing → m'.Around y u' enclosing := by
    intro y u u' enclosing hu hu' haround
    refine haround.transfer (old y u u' hu hu') fun c root r' o d args around hk hr' hk' => ?_
    cases hr : m.spaces.get? root with
    | none => exact absurd hk ((new root r' o d args around hr' hr hk').2 y u c hu)
    | some r => exact ⟨r, rfl, old root r r' hr hr'⟩
  -- the owner of an instance that was there was there too, and has kept its parent
  have hbefore : ∀ i t t' owner c args enclosing, m.spaces.get? i = some t →
      m'.spaces.get? i = some t' → t'.kind = .item owner c args enclosing →
      ∃ s, m.spaces.get? owner = some s ∧ t'.parent = s.parent ∧ m.Around owner s enclosing := by
    intro i t t' owner c args enclosing ht ht' hk
    have hstands := old i t t' ht ht'
    have hkind := hstands.item hk
    obtain ⟨s, hs, -⟩ := hm.item_holder ht hkind
    exact ⟨s, hs, hstands.1.trans (h.parent i t owner c args enclosing s ht hkind hs),
      h.enclosing i t owner c args enclosing s ht hkind hs⟩
  have hall : ∀ i t' owner c args enclosing s', m'.spaces.get? i = some t' →
      t'.kind = .item owner c args enclosing → m'.spaces.get? owner = some s' →
      t'.parent = s'.parent ∧ m'.Around owner s' enclosing := by
    intro i t' owner c args enclosing s' ht' hk hs'
    obtain ⟨s, hs, hparent, hlies⟩ : ∃ s, m.spaces.get? owner = some s ∧ t'.parent = s.parent ∧
        m.Around owner s enclosing := by
      cases ht : m.spaces.get? i with
      | none => exact (new i t' owner c args enclosing ht' ht hk).1
      | some t => exact hbefore i t t' owner c args enclosing ht ht' hk
    exact ⟨hparent.trans (old owner s s' hs hs').1.symm, haround owner s s' enclosing hs hs' hlies⟩
  exact ⟨fun i t' owner c args enclosing s' ht' hk hs' =>
      (hall i t' owner c args enclosing s' ht' hk hs').1,
    fun i t' owner c args enclosing s' ht' hk hs' =>
      (hall i t' owner c args enclosing s' ht' hk hs').2⟩

end Besides

/-! ## What takes no name -/

structure Thins (m m' : Model) : Prop where
  home : ∀ e a p, m'.home? e = some a → a.space? = some p → m.home? e = some a
  old : ∀ x t t', m.spaces.get? x = some t → m'.spaces.get? x = some t' → Stands t t'
  new : ∀ x t', m'.spaces.get? x = some t' → m.spaces.get? x = none → t'.isStatic = true

section Thinning

variable {m m' : Model} {p x : SpaceId} {name : String} {e : Entity}

theorem Thins.came (h : Thins m m') (hhere : m'.MemberAt p name e) : m.MemberAt p name e := by
  have hplace : (e.kind.place p name).space? = some p := by cases e <;> rfl
  have hhome := h.home e _ p hhere.home hplace
  cases e with
  | cells c =>
    obtain ⟨d, hd, heq⟩ := cells_of_home? hhome
    cases heq
    exact ⟨d, hd, rfl, rfl⟩
  | ref r =>
    obtain ⟨q, hq, heq⟩ := ref_of_home? hhome
    unfold Reference.home at heq
    split at heq
    next howner =>
      cases heq
      exact ⟨q, hq, howner, rfl⟩
    next => cases heq
  | space y =>
    -- replicas are at home in a space as well, so that it was static must come from `old`
    obtain ⟨t', ht', hstatic, hparent, hname⟩ := hhere
    obtain ⟨t, ht, heq⟩ := space_of_home? hhome
    obtain ⟨hsame, hkind, -⟩ := h.old y t t' ht ht'
    rw [hkind] at hstatic
    rw [hsame] at hparent
    rw [Space.home_of_static hstatic, hparent] at heq
    cases heq
    exact ⟨t, ht, hstatic, hparent, rfl⟩

theorem Thins.arranged (h : Thins m m') (hm : m.Owned) (ha : m.Arranged) : m'.Arranged := by
  refine ⟨fun p name e e' he he' => ha.names p name e e' (h.came he) (h.came he'), ?_⟩
  refine ha.beside.transfer hm h.old fun x t' owner c args enclosing ht' hnone hk => ?_
  have hstatic := h.new x t' ht' hnone
  rw [isStatic_of_item hk] at hstatic
  contradiction

/-- Nothing comes at all. -/
theorem thins_of_home (home : ∀ e a, m'.home? e = some a → m.home? e = some a)
    (old : ∀ x t t', m.spaces.get? x = some t → m'.spaces.get? x = some t' → Stands t t') :
    Thins m m' := by
  refine ⟨fun e a _ ha _ => home e a ha, old, fun x t' ht' hnone => ?_⟩
  obtain ⟨t, ht, -⟩ := space_of_home? (home _ _ (home?_space ht'))
  rw [hnone] at ht
  contradiction

theorem Drops.thins (h : Drops m m') : Thins m m' := by
  have old : ∀ x t', m'.spaces.get? x = some t' → ∃ t, m.spaces.get? x = some t ∧
      t' = { t with instances := t'.instances } := fun x t' ht' => by
    obtain ⟨t, ht, heq, -⟩ := h.space x t' ht'
    exact ⟨t, ht, heq⟩
  refine thins_of_home (fun e a ha => ?_) fun x t t' ht ht' => ?_
  · cases e with
    | cells c =>
      obtain ⟨d', hd', rfl⟩ := cells_of_home? ha
      obtain ⟨d, hd, hbare⟩ := h.cells c d' hd'
      rw [home?_cells hd, ← home_bare, ← hbare, home_bare]
    | ref r =>
      obtain ⟨q, hq, rfl⟩ := ref_of_home? ha
      exact home?_ref (h.refs r q hq)
    | space y =>
      obtain ⟨t', ht', rfl⟩ := space_of_home? ha
      obtain ⟨t, ht, heq⟩ := old y t' ht'
      rw [heq, home?_space ht]
      rfl
  · obtain ⟨u, hu, heq⟩ := old x t' ht'
    cases ht.symm.trans hu
    rw [heq]
    exact ⟨rfl, rfl, fun _ => rfl⟩

theorem Severs.thins (h : Severs m m' e) : Thins m m' := by
  refine thins_of_home h.home fun x t t' ht ht' => ?_
  obtain ⟨u, hu, hloses⟩ := h.spaces x t' ht'
  cases ht.symm.trans hu
  exact Stands.of_like hloses.toLike

theorem thins_modifySpace {f : Space → Space} (hf : ∀ s : Space, s.Like (f s)) :
    Thins m (m.modifySpace x f) := by
  refine thins_of_home (fun e a ha => ?_) fun y t t' ht ht' => ?_
  · rwa [home?_modifySpace fun s => (hf s).home] at ha
  · have hget := Pool.get?_modify m.spaces x y f
    rw [modifySpace, hget] at ht'
    split at ht'
    next heq =>
      subst heq
      rw [ht, Option.map_some, Option.some.injEq] at ht'
      rw [← ht']
      exact Stands.of_like (hf t)
    next =>
      cases ht.symm.trans ht'
      exact Stands.of_like (.refl t)

/-- Cells and references stay at home, and spaces as they are. -/
theorem thins_aside (hspaces : m'.spaces = m.spaces)
    (home : ∀ e a p, m'.home? e = some a → a.space? = some p → m.home? e = some a) :
    Thins m m' := by
  refine ⟨home, fun x t t' ht ht' => ?_, fun x t' ht' hnone => ?_⟩
  · rw [hspaces, ht] at ht'
    cases ht'
    exact Stands.of_like (.refl t)
  · rw [hspaces, hnone] at ht'
    contradiction

theorem thins_modifyCell {c : CellId} {f : Cells → Cells} (hf : ∀ c, (f c).home = c.home) :
    Thins m (m.modifyCell c f) := by
  refine thins_aside rfl fun e a p ha _ => ?_
  cases e with
  | ref r => exact ha
  | space y => exact ha
  | cells b =>
    obtain ⟨d', hd', rfl⟩ := cells_of_home? ha
    have hget := Pool.get?_modify m.cells c b f
    rw [modifyCell, hget] at hd'
    split at hd'
    next heq =>
      obtain ⟨d, hd, rfl⟩ := Option.map_eq_some_iff.1 hd'
      subst heq
      rw [hf]
      exact home?_cells hd
    next => exact home?_cells hd'

theorem thins_modifyRef {r : RefId} {f : Reference → Reference} (hf : ∀ r, (f r).home = r.home) :
    Thins m (m.modifyRef r f) := by
  refine thins_aside rfl fun e a p ha _ => ?_
  cases e with
  | cells c => exact ha
  | space y => exact ha
  | ref b =>
    obtain ⟨q', hq', rfl⟩ := ref_of_home? ha
    have hget := Pool.get?_modify m.refs r b f
    rw [modifyRef, hget] at hq'
    split at hq'
    next heq =>
      obtain ⟨q, hq, rfl⟩ := Option.map_eq_some_iff.1 hq'
      subst heq
      rw [hf]
      exact home?_ref hq
    next => exact home?_ref hq'

/-- A reference at the level of the model is in no space. -/
theorem thins_addGlobal (ht : m.Tidy) {r : Reference} (small : (m.addRef r).2.Addressable)
    (howner : r.owner = none) : Thins m (m.addRef r).2 := by
  obtain ⟨hfresh, hrefs⟩ := refs_addRef ht small
  refine thins_aside (spaces_addGlobal howner) fun e a p ha hp => ?_
  cases e with
  | cells c =>
    obtain ⟨d, hd, rfl⟩ := cells_of_home? ha
    rw [cells_addRef] at hd
    exact home?_cells hd
  | space y =>
    obtain ⟨t, ht, rfl⟩ := space_of_home? ha
    rw [spaces_addGlobal howner] at ht
    exact home?_space ht
  | ref b =>
    obtain ⟨q, hq, rfl⟩ := ref_of_home? ha
    rw [hrefs] at hq
    split at hq
    next =>
      cases hq
      rw [Reference.home, howner] at hp
      cases hp
    next => exact home?_ref hq

/-- A root lies in no space. -/
theorem thins_addRoot (hm : m.Owned) {s : Space} (small : (m.addSpace s).2.Addressable)
    (hparent : s.parent = none) (hstatic : s.isStatic = true) (roots : NameMap SpaceId) :
    Thins m { (m.addSpace s).2 with roots } := by
  have hspaces := spaces_addRoot hm small
  have hfresh : m.spaces.get? (m.addSpace s).1 = none :=
    (Pool.insert_fresh hm.tidy.spaces small.spaces).1
  refine ⟨fun e a p ha hp => ?_, fun x t t' ht ht' => ?_, fun x t' ht' hnone => ?_⟩
  · cases e with
    | cells c => exact ha
    | ref r => exact ha
    | space y =>
      obtain ⟨t, ht, rfl⟩ := space_of_home? ha
      replace ht := (hspaces y).symm.trans ht
      split at ht
      next =>
        cases ht
        rw [Space.home_of_static hstatic, hparent] at hp
        cases hp
      next => exact home?_space ht
  · replace ht' := (hspaces x).symm.trans ht'
    split at ht'
    next heq =>
      rw [← heq, hfresh] at ht
      contradiction
    next =>
      cases ht.symm.trans ht'
      exact Stands.of_like (.refl t)
  · replace ht' := (hspaces x).symm.trans ht'
    split at ht'
    next =>
      cases ht'
      exact hstatic
    next =>
      rw [hnone] at ht'
      contradiction

end Thinning

/-- What comes under a free name is the only member of that name. -/
theorem Joins.arranged {m m' : Model} {p : SpaceId} {name : String} {e : Entity} {s : Space}
    (hjoins : Joins e m m') (hm : m.Owned) (ha : m.Arranged) (hs : m.spaces.get? p = some s)
    (hfree : ¬ s.defines name = true) (hhere : m'.MemberAt p name e) : m'.Arranged := by
  have hsole : ∀ q n e', m'.MemberAt q n e → m.MemberAt q n e' → False := by
    intro q n e' hat hold
    -- what comes has one home, so the old member is under the free name
    have hplace := hat.home.symm.trans hhere.home
    have heq : q = p ∧ n = name := by cases e <;> cases hplace <;> exact ⟨rfl, rfl⟩
    obtain ⟨rfl, rfl⟩ := heq
    exact hfree (hold.defines hm hs)
  refine ⟨fun q n e₁ e₂ h₁ h₂ => ?_, ha.beside.transfer hm (fun x t t' ht ht' => ?_)
    fun x t' owner c args enclosing ht' hnone hk => ?_⟩
  · rcases hjoins.came h₁ with hold₁ | rfl
    · rcases hjoins.came h₂ with hold₂ | rfl
      · exact ha.names q n e₁ e₂ hold₁ hold₂
      · exact (hsole q n e₁ h₂ hold₁).elim
    · rcases hjoins.came h₂ with hold₂ | rfl
      · exact (hsole q n e₂ h₁ hold₂).elim
      · rfl
  · obtain ⟨u, hu, hpersists, hkind⟩ := hjoins.space x t ht
    cases ht'.symm.trans hu
    exact ⟨hpersists.parent, hpersists.isStatic, fun _ => hkind⟩
  · cases hjoins.newSpace x t' ht' hnone
    obtain ⟨u, hu, hstatic, -⟩ := hhere
    cases ht'.symm.trans hu
    rw [isStatic_of_item hk] at hstatic
    contradiction

section Additions

variable {m : Model} {id : SpaceId} {s : Space} (hm : m.Owned) (ha : m.Arranged)
include hm ha

theorem arranged_addCells {c : Cells} (small : (m.addCells c).2.Addressable)
    (hs : m.spaces.get? c.space = some s) (hfree : ¬ s.defines c.name = true) :
    (m.addCells c).2.Arranged :=
  (joins_addCells hm small hs).arranged hm ha hs hfree ⟨c, get?_addCells hm small hs, rfl, rfl⟩

theorem arranged_addRef {r : Reference} (small : (m.addRef r).2.Addressable)
    (hs : m.spaces.get? id = some s) (howner : r.owner = some id)
    (hfree : ¬ s.defines r.name = true) : (m.addRef r).2.Arranged :=
  (joins_addRef hm small hs howner).arranged hm ha hs hfree ⟨r, get?_addRef hm small, howner, rfl⟩

theorem arranged_addChild {t : Space} (small : (m.addChild id t).2.Addressable)
    (hs : m.spaces.get? id = some s) (hparent : t.parent = some id) (hstatic : t.isStatic = true)
    (hfree : ¬ s.defines t.name = true) : (m.addChild id t).2.Arranged :=
  (joins_addChild hm small hs).arranged hm ha hs hfree
    ⟨t, get?_addChild hm small hs, hstatic, hparent, rfl⟩

end Additions

/-! ## While a space is derived -/

/-- Everywhere else no name has two kinds. In the space itself what is authored has one kind, which
the heritage respects. -/
structure Sorting (id : SpaceId) (h : Heritage) (m : Model) : Prop where
  elsewhere : ∀ p name e e', p ≠ id → m.MemberAt p name e → m.MemberAt p name e' → e'.kind = e.kind
  authored : ∀ name e e', m.MemberAt id name e → m.MemberAt id name e' → m.Authored e →
    m.Authored e' → e'.kind = e.kind
  inherited : ∀ name e kind, m.MemberAt id name e → m.Authored e → h.gives name kind = true →
    kind = e.kind
  consistent : ∀ name kind kind', h.gives name kind = true → h.gives name kind' = true →
    kind' = kind
  beside : m.Beside

section Deriving

variable {m m' : Model} {id : SpaceId} {h : Heritage} {e : Entity} {kind : MemberKind}

theorem Arranged.sorting (ha : m.Arranged) (hm : m.Owned) (hself : m.Static id)
    (hh : m.heritage id = .ok h) : Sorting id h m where
  elsewhere p name e e' _ := ha.names p name e e'
  authored name e e' he he' _ _ := ha.names id name e e' he he'
  inherited _ _ _ he hauthored := he.kind_of_heritage hauthored hm hself hh
  consistent _ _ _ := by
    obtain ⟨s, hs, -⟩ := hself
    exact one_kind_of_heritage hh hs
  beside := ha.beside

/-- A derived member that the heritage accounts for has the kind that it gives. -/
theorem gives_of_sourced {name : String} (hhere : m.MemberAt id name e) (hderived : ¬ m.Authored e)
    (hsourced : ¬ m.Unsourced id h e) : h.gives name e.kind = true := by
  obtain ⟨l, hl, hholder, rfl⟩ := memberAt_iff.1 hhere
  cases hgives : h.gives l.name e.kind with
  | true => rfl
  | false =>
    refine absurd (unsourced_iff.2 ⟨l, hl, hholder, ?_, hgives⟩) hsourced
    rw [← Bool.not_eq_false]
    exact fun hnot => hderived (authored_iff.2 ⟨l, hl, hnot⟩)

/-- When the heritage accounts for every derived member no name has two kinds. -/
theorem Sorting.arranged (hsorting : Sorting id h m) (hsourced : ∀ e, ¬ m.Unsourced id h e) :
    m.Arranged := by
  refine ⟨fun p name e e' he he' => ?_, hsorting.beside⟩
  by_cases hp : p = id
  swap
  · exact hsorting.elsewhere p name e e' hp he he'
  subst hp
  -- what is authored speaks for itself, and for what is derived the heritage does
  by_cases hauthored : m.Authored e
  · by_cases hauthored' : m.Authored e'
    · exact hsorting.authored name e e' he he' hauthored hauthored'
    · exact hsorting.inherited name e _ he hauthored (gives_of_sourced he' hauthored' (hsourced e'))
  · have hgives := gives_of_sourced he hauthored (hsourced e)
    by_cases hauthored' : m.Authored e'
    · exact (hsorting.inherited name e' _ he' hauthored' hgives).symm
    · exact hsorting.consistent name _ _ hgives (gives_of_sourced he' hauthored' (hsourced e'))

/-- What comes is derived. -/
theorem Sorting.transfer (hsorting : Sorting id h m) (hbeside : m'.Beside)
    (came : ∀ p name e, m'.MemberAt p name e →
      (m.MemberAt p name e ∧ m'.membership? e = m.membership? e) ∨ (id = p ∧ ¬ m'.Authored e)) :
    Sorting id h m' := by
  have hbefore : ∀ name e, m'.MemberAt id name e → m'.Authored e →
      m.MemberAt id name e ∧ m.Authored e := by
    intro name e he hauthored
    obtain ⟨hold, hsame⟩ := (came id name e he).resolve_right fun hnew => hnew.2 hauthored
    exact ⟨hold, (authored_congr hsame).1 hauthored⟩
  refine ⟨fun p name e e' hp he he' => ?_, fun name e e' he he' ha ha' => ?_,
    fun name e kind he ha hgives => ?_, hsorting.consistent, hbeside⟩
  · have hold := (came p name e he).resolve_right fun hnew => hp hnew.1.symm
    have hold' := (came p name e' he').resolve_right fun hnew => hp hnew.1.symm
    exact hsorting.elsewhere p name e e' hp hold.1 hold'.1
  · obtain ⟨hold, hauthored⟩ := hbefore name e he ha
    obtain ⟨hold', hauthored'⟩ := hbefore name e' he' ha'
    exact hsorting.authored name e e' hold hold' hauthored hauthored'
  · obtain ⟨hold, hauthored⟩ := hbefore name e he ha
    exact hsorting.inherited name e kind hold hauthored hgives

theorem Alters.beside (halters : Alters id h m m') (hm : m.Owned) (hbeside : m.Beside) :
    m'.Beside := by
  refine hbeside.transfer hm (fun x t t' ht ht' => ?_) fun x t' owner c args enclosing ht' hnone hk => ?_
  · rcases halters.space x t ht with ⟨u, hu, hstep⟩ | ⟨hgone, -⟩
    · cases ht'.symm.trans hu
      exact ⟨hstep.parent, hstep.isStatic, hstep.replica⟩
    · rw [hgone] at ht'
      contradiction
  · have hstatic := Space.isStatic_of_isDerived (halters.newSpace x t' ht' hnone).1
    rw [isStatic_of_item hk] at hstatic
    contradiction

theorem Beside.unlinkDeadBases (hbeside : m.Beside) : m.unlinkDeadBases.2.Beside := by
  refine foldl_keeps (P := Beside) (fun m' x hbeside => hbeside.rest fun y t' ht' => ?_) _ hbeside
  obtain ⟨t, ht⟩ := live_modifySpace.1 ⟨t', ht'⟩
  refine ⟨t, ht, (thins_modifySpace fun s => ?_).old y t t' ht ht'⟩
  exact ((Space.retouches_setBases _ s).trans (Space.retouches_setImplicitBases _ _)).toLike

theorem withstands_sorting : Withstands (Sorting id h) id h where
  drops m m' hm _ hsorting hdrops _ := by
    refine hsorting.transfer (hsorting.beside.transfer hm hdrops.thins.old ?_) fun p name e he =>
      .inl (hdrops.came he)
    intro x t' owner c args enclosing ht' hnone hk
    have hstatic := hdrops.thins.new x t' ht' hnone
    rw [isStatic_of_item hk] at hstatic
    contradiction
  unlink m _ hsorting := hsorting.transfer hsorting.beside.unlinkDeadBases fun p name e he =>
    .inl ⟨(memberAt_congr membership?_unlinkDeadBases).1 he, membership?_unlinkDeadBases⟩
  alters m m' hm _ hsorting _ halters := by
    refine hsorting.transfer (halters.beside hm hsorting.beside) fun p name e he => ?_
    exact (halters.came he).imp_right fun hnew => ⟨hnew.1, hnew.2.1⟩

end Deriving

/-! ## What is not inherited goes -/

/-- Derived members of the kind that the heritage does not account for are in the list. -/
def Pending (id : SpaceId) (h : Heritage) (kind : MemberKind) (l : List Entity) (m : Model) : Prop :=
  ∀ e, m.Unsourced id h e → e.kind = kind → e ∈ l

section Going

variable {m m' : Model} {id : SpaceId} {h : Heritage} {e : Entity} {kind : MemberKind} {s : Space}

theorem withstands_pending (kind : MemberKind) (l : List Entity) :
    Withstands (Pending id h kind l) id h where
  drops m m' _ _ hpending hdrops _ e hunsourced hkind := by
    obtain ⟨l', hl', hrest⟩ := unsourced_iff.1 hunsourced
    exact hpending e (unsourced_iff.2 ⟨l', hdrops.membership hl', hrest⟩) hkind
  unlink m _ hpending e hunsourced hkind := by
    obtain ⟨l', hl', hrest⟩ := unsourced_iff.1 hunsourced
    exact hpending e (unsourced_iff.2 ⟨l', membership?_unlinkDeadBases.symm.trans hl', hrest⟩) hkind
  alters m m' _ _ hpending _ halters e hunsourced hkind := by
    obtain ⟨l', hl', hholder, hderived, hgives⟩ := unsourced_iff.1 hunsourced
    rcases halters.membership hl' with hold | ⟨-, -, hnew⟩
    · exact hpending e (unsourced_iff.2 ⟨l', hold, hholder, hderived, hgives⟩) hkind
    · rw [hgives] at hnew
      contradiction

theorem sourced_of_gone (hgone : m.home? e = none) : ¬ m.Unsourced id h e := by
  intro hunsourced
  obtain ⟨l, hl, hholder, -⟩ := unsourced_iff.1 hunsourced
  have hhome := (memberAt_iff.2 ⟨l, hl, hholder, rfl⟩).home
  rw [hgone] at hhome
  contradiction

theorem sourced_of_gives {name : String} (hhere : m.MemberAt id name e)
    (hgives : h.gives name e.kind = true) : ¬ m.Unsourced id h e := by
  intro hunsourced
  obtain ⟨l, hl, -, rfl⟩ := memberAt_iff.1 hhere
  obtain ⟨l', hl', -, -, hnot⟩ := unsourced_iff.1 hunsourced
  cases hl.symm.trans hl'
  rw [hgives] at hnot
  contradiction

theorem sourced_of_authored (hauthored : m.Authored e) : ¬ m.Unsourced id h e := by
  intro hunsourced
  obtain ⟨l, hl, hnot⟩ := authored_iff.1 hauthored
  obtain ⟨l', hl', -, hderived, -⟩ := unsourced_iff.1 hunsourced
  cases hl.symm.trans hl'
  rw [hderived] at hnot
  contradiction

variable (hm : m.Owned) (hs : m.spaces.get? id = some s) (hstatic : s.isStatic = true)
include hm hs hstatic

theorem sourced_dropCells {e : String × CellId} (hlisted : s.cells.get? e.1 = some e.2) :
    Ends (fun m' => ¬ m'.Unsourced id h (.cells e.2)) (dropCells id h e) m := by
  obtain ⟨d, hd, hspace, hname⟩ := hm.cells_of_listed hs hlisted
  unfold dropCells
  split
  next hgives => exact ends_pure (sourced_of_gives (e := .cells e.2) ⟨d, hd, hspace, hname⟩ hgives)
  next =>
    refine ends_found (cell_eq_ok.2 hd) ?_
    split
    next => exact ends_modify (ends_pure (sourced_of_gone (severs_cells hm hs hstatic hlisted).gone))
    next hnot =>
      exact ends_pure (sourced_of_authored (e := .cells e.2) ⟨d, hd, by simpa using hnot⟩)

theorem sourced_dropRef {e : String × RefId} (hlisted : s.refs.get? e.1 = some e.2) :
    Ends (fun m' => ¬ m'.Unsourced id h (.ref e.2)) (dropRef id h e) m := by
  obtain ⟨q, hq, howner, hname⟩ := hm.ref_of_listed hs hlisted
  unfold dropRef
  split
  next hgives => exact ends_pure (sourced_of_gives (e := .ref e.2) ⟨q, hq, howner, hname⟩ hgives)
  next =>
    refine ends_found (reference_eq_ok.2 hq) ?_
    split
    next =>
      exact ends_modify (ends_pure (sourced_of_gone (severs_reference hm hs hstatic hlisted).gone))
    next hnot =>
      exact ends_pure (sourced_of_authored (e := .ref e.2) ⟨q, hq, by simpa using hnot⟩)

theorem sourced_dropChild {e : String × SpaceId} (hlisted : s.spaces.get? e.1 = some e.2) :
    Ends (fun m' => ¬ m'.Unsourced id h (.space e.2)) (dropChild id h e) m := by
  obtain ⟨t, ht, htstatic, hparent, hname⟩ := hm.static_of_listed hs hstatic hlisted
  unfold dropChild
  split
  next hgives =>
    exact ends_pure (sourced_of_gives (e := .space e.2) ⟨t, ht, htstatic, hparent, hname⟩ hgives)
  next =>
    refine ends_found (space_eq_ok.2 ht) ?_
    split
    next => exact ends_modify (ends_pure (sourced_of_gone (severs_child hm hs hstatic hlisted).gone))
    next hnot =>
      have hauthored : m.Authored (.space e.2) := ⟨t, ht, by simpa using hnot⟩
      split
      next =>
        refine ends_modify (ends_pure (sourced_of_authored ((authored_congr ?_).2 hauthored)))
        exact membership?_modifySpace (Space.persists_setImplicitBases _)
      next => exact ends_pure (sourced_of_authored hauthored)

end Going

end Recalc.Model
