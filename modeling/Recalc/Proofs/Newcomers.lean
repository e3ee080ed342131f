import Recalc.Proofs.MirroredMembers
import Recalc.Proofs.Sparing

set_option autoImplicit false

/-!
# New members

A member that was just added to a static space stays the only one of its name there while a wave
goes on, for whatever reason the wave stops: it is authored, the spaces around it were there
before, and a heritage with another kind under its name is a conflict. So what is taken back is the
member that was added.
-/

namespace Recalc.Model

open Recalc.Action

/-- An authored member that is the only one of its name in its space. -/
structure Newcomer (id : SpaceId) (name : String) (e : Entity) (m : Model) : Prop where
  here : m.MemberAt id name e
  authored : m.Authored e
  sole : ∀ e', m.MemberAt id name e' → e' = e

/-! ## Derivation leaves a newcomer alone -/

section Altering

variable {m₀ m m' : Model} {id p : SpaceId} {name : String} {e : Entity} {h : Heritage}

/-- An authored member of a space that does not go stays. -/
theorem Spares.newcomer_not_goes (hspares : Spares m₀ m) (hm₀ : m₀.Owned) (hcovers : Covers m₀ id h)
    (hp : m₀.Static p) (hhere : m.MemberAt p name e) (hauthored : m.Authored e) :
    ¬ m.Goes id h e := by
  rintro ⟨top, hunsourced, hw⟩
  have hplace : (e.kind.place p name).space? = some p := by cases e <;> rfl
  cases hw with
  | self =>
    cases hunsourced with
    | cells hd _ hderived =>
      obtain ⟨x, hx, hnot⟩ := hauthored
      cases hd.symm.trans hx
      rw [hderived] at hnot
      contradiction
    | ref hq _ hderived =>
      obtain ⟨x, hx, hnot⟩ := hauthored
      cases hq.symm.trans hx
      rw [hderived] at hnot
      contradiction
    | space ht hderived =>
      obtain ⟨x, hx, hnot⟩ := hauthored
      cases ht.symm.trans hx
      rw [hderived] at hnot
      contradiction
  | inside ha hq hw =>
    cases hhere.home.symm.trans ha
    cases hplace.symm.trans hq
    exact hspares.not_goes hm₀ hcovers (e := .space p) hp ⟨top, hunsourced, hw⟩

/-- What the heritage of a space owes to a newcomer. -/
def Agrees (p : SpaceId) (name : String) (e : Entity) (id : SpaceId) (h : Heritage) : Prop :=
  id = p → ∀ kind, h.gives name kind = true → kind = e.kind

theorem Newcomer.congr (hnew : Newcomer p name e m) (hsame : ∀ e, m'.membership? e = m.membership? e) :
    Newcomer p name e m' where
  here := (memberAt_congr (hsame e)).2 hnew.here
  authored := (authored_congr (hsame e)).2 hnew.authored
  sole e' he' := hnew.sole e' ((memberAt_congr (hsame e')).1 he')

theorem Newcomer.alters (hnew : Newcomer p name e m) (hspares : Spares m₀ m) (hm₀ : m₀.Owned)
    (hcovers : Covers m₀ id h) (hp : m₀.Static p) (hagrees : Agrees p name e id h)
    (hm' : m'.Owned) (halters : Alters id h m m') : Newcomer p name e m' := by
  have hkept := hspares.newcomer_not_goes hm₀ hcovers hp hnew.here hnew.authored
  obtain ⟨hhere, hsame⟩ := halters.stays hkept hnew.here
  refine ⟨hhere, (authored_congr hsame).2 hnew.authored, fun e' he' => ?_⟩
  rcases halters.came he' with ⟨hbefore, -⟩ | ⟨hself, -, hgives⟩
  · exact hnew.sole e' hbefore
  · exact hhere.unique hm' he' (hagrees hself _ hgives)

theorem Newcomer.drops (hnew : Newcomer p name e m) (hp : m.Static p) (hm : m.Owned)
    (hm' : m'.Owned) (hdrops : Drops m m') : Newcomer p name e m' := by
  obtain ⟨s, hs, hstatic⟩ := hp
  obtain ⟨s', hs', heq⟩ := hdrops.static' hs hstatic
  have hlists : s'.lists (e.kind.place p name) = some e := by
    rw [← hnew.here.lists hm hs, heq]
    cases e <;> rfl
  have hhere := memberAt_of_lists hm' hs' (by rw [heq]; exact hstatic) hlists
  exact ⟨hhere, (authored_congr (hdrops.came hhere).2).2 hnew.authored,
    fun e' he' => hnew.sole e' (hdrops.came he').1⟩

theorem Newcomer.unlink (hnew : Newcomer p name e m) : Newcomer p name e m.unlinkDeadBases.2 :=
  hnew.congr fun _ => membership?_unlinkDeadBases

theorem lasting_newcomer (hm₀ : m₀.Owned) (hsourced : m₀.Sourced) (hp : m₀.Static p) :
    Lasting (fun m => Spares m₀ m ∧ Newcomer p name e m)
      fun id h => Covers m₀ id h ∧ Agrees p name e id h where
  heritage m id h hm hr hself hh := by
    refine ⟨hr.1.covers hm₀ hm hsourced hh, fun heq kind hgives => ?_⟩
    subst heq
    exact hr.2.here.kind_of_heritage hr.2.authored hm hself hh hgives
  alters m m' id h hm hm' hr _ ho halters :=
    ⟨hr.1.alters hm₀ ho.1 halters, hr.2.alters hr.1 hm₀ ho.1 hp ho.2 hm' halters⟩
  drops m m' hm hm' hr hdrops hinputs :=
    ⟨hr.1.drops hm hm' hdrops hinputs, hr.2.drops (hr.1.static hp) hm hm' hdrops⟩
  unlink m hm hr := ⟨hr.1.unlink hsourced, hr.2.unlink⟩

end Altering

/-! ## A newcomer comes -/

section Joining

variable {m m' : Model} {id : SpaceId} {name : String} {e : Entity} {s : Space}

/-- What comes under a free name is the only member of that name. -/
theorem Joins.newcomer (hjoins : Joins e m m') (hm : m.Owned) (hs : m.spaces.get? id = some s)
    (hfree : ¬ s.defines name = true) (hhere : m'.MemberAt id name e) (hauthored : m'.Authored e) :
    Newcomer id name e m' :=
  ⟨hhere, hauthored, fun _ he' =>
    (hjoins.came he').resolve_left fun hbefore => hfree (hbefore.defines hm hs)⟩

theorem newcomer_addCells (hm : m.Owned) {c : Cells} (small : (m.addCells c).2.Addressable)
    (hs : m.spaces.get? c.space = some s) (hfree : ¬ s.defines c.name = true)
    (hauthored : c.derived = false) :
    ∃ e, Joins e m (m.addCells c).2 ∧ Newcomer c.space c.name e (m.addCells c).2 := by
  have hjoins := joins_addCells hm small hs
  have hget := get?_addCells hm small hs
  exact ⟨_, hjoins, hjoins.newcomer hm hs hfree ⟨c, hget, rfl, rfl⟩ ⟨c, hget, hauthored⟩⟩

theorem newcomer_addRef (hm : m.Owned) {r : Reference} (small : (m.addRef r).2.Addressable)
    (hs : m.spaces.get? id = some s) (hfree : ¬ s.defines r.name = true)
    (howner : r.owner = some id) (hauthored : r.derived = false) :
    ∃ e, Joins e m (m.addRef r).2 ∧ Newcomer id r.name e (m.addRef r).2 := by
  have hjoins := joins_addRef hm small hs howner
  have hget := get?_addRef hm small
  exact ⟨_, hjoins, hjoins.newcomer hm hs hfree ⟨r, hget, howner, rfl⟩ ⟨r, hget, hauthored⟩⟩

theorem newcomer_addChild (hm : m.Owned) {t : Space} (small : (m.addChild id t).2.Addressable)
    (hs : m.spaces.get? id = some s) (hfree : ¬ s.defines t.name = true)
    (hstatic : t.isStatic = true) (hparent : t.parent = some id) (hauthored : t.isDerived = false) :
    ∃ e, Joins e m (m.addChild id t).2 ∧ Newcomer id t.name e (m.addChild id t).2 := by
  have hjoins := joins_addChild hm small hs
  have hget := get?_addChild hm small hs
  exact ⟨_, hjoins, hjoins.newcomer hm hs hfree ⟨t, hget, hstatic, hparent, rfl⟩
    ⟨t, hget, hauthored⟩⟩

end Joining

/-! ## A newcomer is taken back -/

section Withdrawing

variable {m₀ m₁ m : Model} {id : SpaceId} {name : String} {e : Entity} {s : Space}

/-- What is withdrawn is a member of the name, if there is one, with all that is in it. -/
theorem withdraw_cases (hm : m.Owned) (hs : m.spaces.get? id = some s)
    (hstatic : s.isStatic = true) :
    (withdraw id name m = m ∧ ∀ e, ¬ m.MemberAt id name e) ∨
      ∃ e, m.MemberAt id name e ∧ ∃ f : Space → Space,
        (∀ t : Space, t.Persists (f t) ∧ (f t).kind = t.kind) ∧
        Sheds (m.Within e) (m.modifySpace id f) (withdraw id name m) ∧
        KeepsInputs (m.modifySpace id f) (withdraw id name m) ∧
        (withdraw id name m).home? e = none := by
  cases hc : s.cells.get? name with
  | some c =>
    have hresult : Model.withdraw id name m = (m.modifySpace id fun s =>
        { s with cells := s.cells.erase name }).destroyCells c := by
      simp only [Model.withdraw, hs, hc]
    refine .inr ⟨.cells c, hm.cells_of_listed hs hc,
      fun t => { t with cells := t.cells.erase name },
      fun t => ⟨⟨rfl, rfl, rfl, rfl, rfl, fun _ => rfl, rfl, rfl⟩, rfl⟩, ?_⟩
    rw [hresult]
    exact ⟨sheds_destroyCells _ c .self, (trimsCells_destroyCells _ c).keepsInputs,
      (severs_cells hm hs hstatic hc).gone⟩
  | none =>
    cases hr : s.refs.get? name with
    | some r =>
      have hresult : Model.withdraw id name m = (m.modifySpace id fun s =>
          { s with refs := s.refs.erase name }).destroyReference r := by
        simp only [Model.withdraw, hs, hc, hr]
      refine .inr ⟨.ref r, hm.ref_of_listed hs hr,
        fun t => { t with refs := t.refs.erase name },
        fun t => ⟨⟨rfl, rfl, rfl, rfl, rfl, fun _ => rfl, rfl, rfl⟩, rfl⟩, ?_⟩
      rw [hresult]
      exact ⟨sheds_destroyReference _ r .self, (trimsCells_destroyReference _ r).keepsInputs,
        (severs_reference hm hs hstatic hr).gone⟩
    | none =>
      cases hx : s.spaces.get? name with
      | some x =>
        have hresult : Model.withdraw id name m = (m.modifySpace id fun s =>
            { s with spaces := s.spaces.erase name }).destroySpace x := by
          simp only [Model.withdraw, hs, hc, hr, hx]
        refine .inr ⟨.space x, hm.static_of_listed hs hstatic hx,
          fun t => { t with spaces := t.spaces.erase name },
          fun t => ⟨⟨rfl, rfl, rfl, rfl, rfl, fun _ => rfl, rfl, rfl⟩, rfl⟩, ?_⟩
        rw [hresult]
        exact ⟨sheds_destroySpace .self ((unlists_child hm hs hstatic hx).closed hm),
          (trimsCells_destroyTree _ _ x).keepsInputs, (severs_child hm hs hstatic hx).gone⟩
      | none =>
        refine .inl ⟨by simp only [Model.withdraw, hs, hc, hr, hx], fun e he => ?_⟩
        have hlists := he.lists hm hs
        cases e with
        | cells => simp [Entity.kind, MemberKind.place, Space.lists, hc] at hlists
        | ref => simp [Entity.kind, MemberKind.place, Space.lists, hr] at hlists
        | space => simp [Entity.kind, MemberKind.place, Space.lists, hx] at hlists

/-- What is withdrawn is the newcomer, with all that is in it. -/
theorem Newcomer.withdraw (hnew : Newcomer id name e m) (hm : m.Owned)
    (hs : m.spaces.get? id = some s) (hstatic : s.isStatic = true) :
    ∃ f : Space → Space, (∀ t : Space, t.Persists (f t) ∧ (f t).kind = t.kind) ∧
      Sheds (m.Within e) (m.modifySpace id f) (withdraw id name m) ∧
      KeepsInputs (m.modifySpace id f) (withdraw id name m) ∧
      (withdraw id name m).home? e = none := by
  rcases withdraw_cases hm hs hstatic with ⟨-, hnone⟩ | ⟨e', he', hrest⟩
  · exact absurd hnew.here (hnone e)
  · cases hnew.sole e' he'
    exact hrest

/-- Without the newcomer nothing is authored that was not there before it came. -/
theorem Restoring.withdraw (hm₀ : m₀.Owned) (hjoins : Joins e m₀ m₁) (hm : m.Owned)
    (hself : m₀.Static id) (hrestoring : Restoring m₀ m₁ m) (hnew : Newcomer id name e m) :
    Restoring m₀ m₀ (withdraw id name m) := by
  obtain ⟨hspares, hauthors⟩ := hrestoring
  obtain ⟨s, hs, hstatic⟩ := hspares.static hself
  obtain ⟨f, hf, hsheds, hinputs, hgone⟩ := hnew.withdraw hm hs hstatic
  have hbases : ∀ t, (f t).bases = t.bases := fun t => Space.bases_congr (hf t).2
  have himplicit : ∀ t, (f t).implicitBases = t.implicitBases :=
    fun t => Space.implicitBases_congr (hf t).2
  have hcut : Spares m₀ (m.modifySpace id f) := hspares.modifySpace (fun t => (hf t).1)
    (fun _ t _ _ _ hsub => by rwa [hbases t]) fun _ t _ _ _ hmem => by rwa [himplicit t]
  refine ⟨hcut.sheds hsheds hinputs fun e' he' hw => ?_, ?_⟩
  · have hfounded := hspares.founded_of_within hm₀ hw he'
    exact hfounded.home_ne_none hjoins.fresh
  · have hcut : AuthorsNothing m₁ (m.modifySpace id f) :=
      hauthors.modifySpace (fun t => (hf t).1) fun t _ _ => by rw [hbases t]
    exact (hcut.sheds hsheds hinputs).narrow hjoins hgone

end Withdrawing

end Recalc.Model
