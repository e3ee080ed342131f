import Recalc.Proofs.MirroredMembers
import Recalc.Proofs.ReplicaCopies

set_option autoImplicit false

/-!
# New replicas are mirrors

A replica that is made takes everything from its counterpart as it is now. Nothing that other
replicas mirror changes.
-/

namespace Recalc.Model

open Recalc.Action

structure AddsReplica (m m' : Model) (p : SpaceId) (q q' : Space) (id : SpaceId) (s' : Space)
    (source : Space) : Prop where
  fresh : m.spaces.get? id = none
  holder : m.spaces.get? p = some q
  spaces : ∀ other, m'.spaces.get? other =
    if p = other then some q' else if id = other then some s' else m.spaces.get? other
  cells : ∀ c d, m.cells.get? c = some d → m'.cells.get? c = some d
  setting : ∀ name, m'.setting s' name = m.setting source name
  like : q.Like q'
  listing : q'.cells = q.cells ∧ q'.refs = q.refs ∧ q'.signature = q.signature
  children : q.isStatic = true → q'.spaces = q.spaces
  tidy : m'.Tidy
  linked : m'.Linked fun _ => False

section Adding

variable {m m' : Model} {p id : SpaceId} {q q' s' source : Space}

theorem AddsReplica.old (h : AddsReplica m m' p q q' id s' source) {x : SpaceId} {u : Space}
    (hu : m.spaces.get? x = some u) : m'.spaces.get? x = some (if p = x then q' else u) := by
  rw [h.spaces]
  split
  next => rfl
  next =>
    rw [if_neg, hu]
    rintro rfl
    rw [h.fresh] at hu
    contradiction

theorem AddsReplica.like_old (h : AddsReplica m m' p q q' id s' source) {x : SpaceId}
    {u u' : Space} (hu : m.spaces.get? x = some u) (hu' : m'.spaces.get? x = some u') :
    u.Like u' := by
  cases (h.old hu).symm.trans hu'
  split
  next heq =>
    subst heq
    cases h.holder.symm.trans hu
    exact h.like
  next => exact .refl u

theorem AddsReplica.new (h : AddsReplica m m' p q q' id s' source) {x : SpaceId} {u' : Space}
    (hu : m.spaces.get? x = none) (hu' : m'.spaces.get? x = some u') : x = id ∧ u' = s' := by
  rw [h.spaces] at hu'
  split at hu'
  next heq =>
    rw [← heq, h.holder] at hu
    contradiction
  next =>
    split at hu'
    next heq =>
      cases hu'
      exact ⟨heq.symm, rfl⟩
    next =>
      rw [hu] at hu'
      contradiction

theorem AddsReplica.setting_old (h : AddsReplica m m' p q q' id s' source) (hm : m.Owned)
    {x : SpaceId} {u u' : Space} (hu : m.spaces.get? x = some u)
    (hu' : m'.spaces.get? x = some u') (name : String) :
    m'.setting u' name = m.setting u name := by
  have hcells : u'.cells = u.cells := by
    cases (h.old hu).symm.trans hu'
    split
    next heq =>
      subst heq
      cases h.holder.symm.trans hu
      exact h.listing.1
    next => rfl
  unfold Model.setting
  rw [hcells]
  cases hc : u.cells.get? name with
  | none => rfl
  | some c =>
    obtain ⟨d, hd, -⟩ := hm.cells_of_listed hu hc
    rw [Option.bind_some, Option.bind_some, hd, h.cells c d hd]

theorem AddsReplica.owned (h : AddsReplica m m' p q q' id s' source) (hm : m.Owned)
    (placed : m'.Placed s') (hp : ∀ x, s'.home.space? = some x → x = p) : m'.Owned := by
  refine hm.transfer h.tidy h.linked (fun x u u' hu hu' => h.like_old hu hu')
    fun x u' hu' hu => ?_
  obtain ⟨rfl, rfl⟩ := h.new hu hu'
  refine ⟨placed, fun y hy => ?_⟩
  rw [hp y hy]
  exact ⟨q, h.holder⟩

theorem AddsReplica.sameFace (h : AddsReplica m m' p q q' id s' source) (hm : m.Owned)
    (c : SpaceId) : m.SameFace m' c := by
  intro u hu hstatic
  have hu' := h.old hu
  refine ⟨_, hu', (h.like_old hu hu').isStatic.trans hstatic, ?_, ?_,
    fun name => h.setting_old hm hu hu' name⟩
  · split
    next heq =>
      subst heq
      cases h.holder.symm.trans hu
      exact h.children hstatic
    next => rfl
  · split
    next heq =>
      subst heq
      cases h.holder.symm.trans hu
      exact h.listing.2.2
    next => rfl

theorem AddsReplica.mirrored (h : AddsReplica m m' p q q' id s' source) (hm : m.Owned)
    (hmirror : m.Mirrored) (reflects : m'.Reflects s') : m'.Mirrored := by
  refine hmirror.transfer hm (fun x u u' hu hu' => h.like_old hu hu')
    (fun x u u' hu hu' _ name => h.setting_old hm hu hu' name)
    (fun c _ _ _ _ _ => h.sameFace hm c) (fun _ hf => hf) fun x u' hu' hu => ?_
  obtain ⟨-, rfl⟩ := h.new hu hu'
  exact reflects

/-- Members were there before, or they are cells of the new replica. -/
theorem AddsReplica.came (h : AddsReplica m m' p q q' id s' source) (hm : m.Owned) (hm' : m'.Owned)
    (hreplica : s'.isStatic = false) {x : SpaceId} {name : String} {e : Entity}
    (hhere : m'.MemberAt x name e) : m.MemberAt x name e ∨ (x = id ∧ e.kind = .cells) := by
  have hplace : (e.kind.place x name).space? = some x := by cases e <;> rfl
  obtain ⟨u', hu', hlists⟩ := hm'.holder hhere.home hplace
  have hchild : ∀ y, e = .space y → u'.isStatic = true := by
    rintro y rfl
    obtain ⟨t, ht, hstatic, hparent, -⟩ := hhere
    exact (hm'.placed y t ht).static hstatic x u' hparent hu'
  cases hu : m.spaces.get? x with
  | none =>
    obtain ⟨rfl, rfl⟩ := h.new hu hu'
    refine .inr ⟨rfl, ?_⟩
    cases e with
    | cells c => rfl
    | ref r =>
      obtain ⟨r', hr', -⟩ := Option.map_eq_some_iff.1 hlists
      rw [(hm'.placed x u' hu').refs hreplica] at hr'
      cases (NameMap.get?_empty name).symm.trans hr'
    | space y =>
      rw [hchild y rfl] at hreplica
      contradiction
  | some u =>
    have hsame : u'.cells = u.cells ∧ u'.refs = u.refs ∧ (u.isStatic = true → u'.spaces = u.spaces) := by
      cases (h.old hu).symm.trans hu'
      split
      next heq =>
        subst heq
        cases h.holder.symm.trans hu
        exact ⟨h.listing.1, h.listing.2.1, h.children⟩
      next => exact ⟨rfl, rfl, fun _ => rfl⟩
    refine .inl ?_
    cases e with
    | cells c =>
      obtain ⟨c', hc', heq⟩ := Option.map_eq_some_iff.1 hlists
      cases heq
      rw [hsame.1] at hc'
      exact hm.cells_of_listed hu hc'
    | ref r =>
      obtain ⟨r', hr', heq⟩ := Option.map_eq_some_iff.1 hlists
      cases heq
      rw [hsame.2.1] at hr'
      exact hm.ref_of_listed hu hr'
    | space y =>
      have hstatic := (h.like_old hu hu').isStatic.symm.trans (hchild y rfl)
      refine memberAt_of_lists hm hu hstatic ?_
      rw [← hlists]
      exact congrArg (fun t : NameMap SpaceId => (t.get? name).map Entity.space)
        (hsame.2.2 hstatic).symm

theorem AddsReplica.arranged (h : AddsReplica m m' p q q' id s' source) (hm : m.Owned)
    (ha : m.Arranged) (hm' : m'.Owned) (hreplica : s'.isStatic = false)
    (hbeside : ∀ owner c args enclosing, s'.kind = .item owner c args enclosing →
      ∃ s, m.spaces.get? owner = some s ∧ s'.parent = s.parent ∧ m.Around owner s enclosing)
    (hroots : ∀ x u r, m.spaces.get? x = some u → m.instanceRoot? x = some r →
      ∃ t, m.spaces.get? r = some t) : m'.Arranged := by
  have hfresh : ∀ name e, ¬ m.MemberAt id name e := by
    intro name e hhere
    have hplace : (e.kind.place id name).space? = some id := by cases e <;> rfl
    obtain ⟨s, hs, -⟩ := hm.holder hhere.home hplace
    rw [h.fresh] at hs
    contradiction
  refine ⟨fun x name e₁ e₂ h₁ h₂ => ?_, ha.beside.transfer hm
    (fun x u u' hu hu' => Stands.of_like (h.like_old hu hu')) fun x u' owner c args enclosing hu' hu hk => ?_⟩
  · rcases h.came hm hm' hreplica h₁ with hold₁ | ⟨rfl, hkind₁⟩
    · rcases h.came hm hm' hreplica h₂ with hold₂ | ⟨rfl, -⟩
      · exact ha.names x name e₁ e₂ hold₁ hold₂
      · exact absurd hold₁ (hfresh name e₁)
    · rcases h.came hm hm' hreplica h₂ with hold₂ | ⟨-, hkind₂⟩
      · exact absurd hold₂ (hfresh name e₂)
      · exact hkind₂.trans hkind₁.symm
  · obtain ⟨rfl, rfl⟩ := h.new hu hu'
    refine ⟨hbeside owner c args enclosing hk, fun y u d hy hdynamic => ?_⟩
    have hroot : m.instanceRoot? y = some x := by simp only [instanceRoot?, hy, hdynamic]
    obtain ⟨t, ht⟩ := hroots y u x hy hroot
    rw [h.fresh] at ht
    contradiction

/-- The new replica has what its counterpart has. -/
theorem AddsReplica.copies (h : AddsReplica m m' p q q' id s' source) (hm : m.Owned) {c : SpaceId}
    (hc : m.spaces.get? c = some source) (hstatic : source.isStatic = true) :
    ∃ source', m'.Copies s' c source' ∧ source'.signature = source.signature := by
  obtain ⟨source', hsource', hstatic', -, hsig, hset⟩ := h.sameFace hm c source hc hstatic
  refine ⟨source', ⟨hsource', hstatic', fun name => ?_⟩, hsig⟩
  rw [h.setting, hset]

end Adding

/-! ## Replicas are made -/

section Making

variable {m m₁ : Model} {id p c : SpaceId} {s q source : Space}

structure Unlisted (m m₁ : Model) (id : SpaceId) (s s' : Space) (source : Space) : Prop where
  fresh : m.spaces.get? id = none
  spaces : ∀ other, m₁.spaces.get? other = if id = other then some s' else m.spaces.get? other
  cells : ∀ c d, m.cells.get? c = some d → m₁.cells.get? c = some d
  setting : ∀ name, m₁.setting s' name = m.setting source name
  kind : s'.kind = s.kind
  name : s'.name = s.name
  parent : s'.parent = s.parent
  refs : s'.refs = s.refs
  tidy : m₁.Tidy
  linked : m₁.Linked fun e => False ∨ e = .space id

theorem unlisted_addReplica (hm : m.Owned) (hadd : m.addReplica s c = (id, m₁))
    (small : m₁.Addressable) (hsource : m.spaces.get? c = some source)
    (empty : ∀ a, s.lists a = none) (hcells : s.cells = .empty) :
    ∃ s', Unlisted m m₁ id s s' source := by
  obtain ⟨rfl, rfl⟩ : (m.addSpace s).1 = id ∧ (m.addSpace s).2.copyCells (m.addSpace s).1 c = m₁ :=
    Prod.mk.inj hadd
  have hsmall : (m.addSpace s).2.Addressable := by
    have h := small
    unfold copyCells at h
    split at h
    next => exact h
    next => exact addressable_of_copyEach h
  have hfresh := Pool.insert_fresh hm.tidy.spaces hsmall.spaces
  have hspaces := hfresh.2
  have hlive : (m.addSpace s).2.spaces.get? c = some source := by
    refine (hspaces c).trans ?_
    rw [if_neg, hsource]
    rintro rfl
    cases hfresh.1.symm.trans hsource
  have hcopy : (m.addSpace s).2.copyCells (m.addSpace s).1 c =
      (m.addSpace s).2.copyEach (m.addSpace s).1 (m.cellsOf source) := copyCells_eq hlive
  have hself := (hspaces (m.addSpace s).1).trans (if_pos rfl)
  have hlinked := hm.linked.insert (inserts_space hfresh empty)
  have hfree : ∀ d ∈ m.cellsOf source, s.cells.get? d.name = none := by
    intro d _
    rw [hcells, NameMap.get?_empty]
  rw [hcopy] at small ⊢
  obtain ⟨hcopies, hlinked'⟩ := copiesInto_copyEach (pairwise_cellsOf hm hsource)
    ((widens_addSpace m s).tidy hm.tidy) hlinked small hself hfree
  obtain ⟨t, hspaces', hsetting⟩ := hcopies.space
  refine ⟨{ s with cells := t }, hfresh.1, fun other => ?_, hcopies.cells, fun name => ?_,
    rfl, rfl, rfl, rfl, hcopies.tidy, hlinked'⟩
  · rw [hspaces']
    split
    next => rfl
    next hne => exact (hspaces other).trans (if_neg hne)
  · have hnone : (m.addSpace s).2.setting s name = none := by
      unfold setting
      rw [hcells, NameMap.get?_empty]
      rfl
    rw [hsetting, find?_cellsOf hm hsource, hnone, Option.or_none]
    rfl

/-- What was there is there. -/
theorem Unlisted.old {s' : Space} (h : Unlisted m m₁ id s s' source)
    (hq : m.spaces.get? p = some q) : m₁.spaces.get? p = some q := by
  rw [h.spaces, if_neg, hq]
  rintro rfl
  rw [h.fresh] at hq
  contradiction

/-- A new replica is listed in the space where it is at home. -/
theorem Unlisted.addsReplica {s' : Space} (h : Unlisted m m₁ id s s' source)
    (hq : m.spaces.get? p = some q) {f : Space → Space} (like : q.Like (f q))
    (listing : (f q).cells = q.cells ∧ (f q).refs = q.refs ∧ (f q).signature = q.signature)
    (children : q.isStatic = true → (f q).spaces = q.spaces)
    (linked : (m₁.modifySpace p f).Linked fun _ => False) :
    AddsReplica m (m₁.modifySpace p f) p q (f q) id s' source := by
  refine ⟨h.fresh, hq, fun other => ?_, h.cells, h.setting, like, listing, children,
    tidy_modifySpace h.tidy p f, linked⟩
  rw [get?_modifySpace (h.old hq), h.spaces]

theorem Faithful.reflects {sites : SpaceId → Prop} (h : m.Faithful sites)
    (hs : m.spaces.get? id = some s) : m.Reflects s := by
  obtain ⟨a, ha⟩ := h.owned.anchored hs
  exact h.mirrored id s a hs ha fun hf => hf

/-- The counterpart of a space is static. -/
theorem Faithful.counterpart {sites : SpaceId → Prop} (h : m.Faithful sites)
    (hs : m.spaces.get? id = some s) (hc : m.counterpart id = .ok c) :
    ∃ source, m.spaces.get? c = some source ∧ source.isStatic = true :=
  (h.reflects hs).counterpart hs hc

/-- A space inside an instance lies where the root of the instance does, which is there. -/
theorem Faithful.instanceRoot {sites : SpaceId → Prop} (h : m.Faithful sites) {root : SpaceId}
    (hs : m.spaces.get? id = some s) (hroot : m.instanceRoot? id = some root) :
    ∃ t owner d args around, m.spaces.get? root = some t ∧ t.kind = .item owner d args around := by
  have key : ∀ id, m.Grounded id → m.instanceRoot? id = some root →
      ∃ t owner d args around, m.spaces.get? root = some t ∧ t.kind = .item owner d args around := by
    intro id hid
    induction hid with
    | intro id s hs _ ih =>
      intro hroot
      cases h.reflects hs with
      | static hstatic =>
        rw [instanceRoot?_of_static hs hstatic] at hroot
        contradiction
      | item hk =>
        simp only [instanceRoot?, hs, hk, Option.some.injEq] at hroot
        subst hroot
        exact ⟨s, _, _, _, _, hs, hk⟩
      | dynamic hk hp hparent =>
        simp only [instanceRoot?, hs, hk, Option.some.injEq] at hroot
        subst hroot
        exact ih _ (by rw [home_of_dynamic hk hp]; rfl) hparent
  exact key id (h.owned.grounded id s hs) hroot

/-- An instance lies in the instances that keep the handles to its owner alive. -/
theorem Faithful.around {sites : SpaceId → Prop} (h : m.Faithful sites)
    (hs : m.spaces.get? id = some s) {enclosing : List SpaceId} :
    m.Around id s enclosing ↔ enclosing = m.pinsOf id := by
  unfold Around pinsOf
  cases h.reflects hs with
  | static hstatic =>
    rw [instanceRoot?_of_static hs hstatic]
    unfold Space.isStatic at hstatic
    split at hstatic
    next hk => rw [hk]
    next => contradiction
  | item hk => simp only [instanceRoot?, hs, hk]
  | @dynamic c root _ _ _ _ hk =>
    have hroot : m.instanceRoot? id = some root := by simp only [instanceRoot?, hs, hk]
    obtain ⟨t, owner, d, args, around, ht, hkind⟩ := h.instanceRoot hs hroot
    simp only [hroot, hk, ht, hkind]
    refine ⟨fun haround => haround t owner d args around rfl hkind, ?_⟩
    rintro rfl r o e keys others hr hk'
    cases hr
    cases hkind.symm.trans hk'
    rfl

theorem faithful_ensureChild {name : String} {m' : Model} {r : Except Failure SpaceId}
    (h : ensureChild p name m = some (r, m')) (small : m'.Addressable)
    (hm : m.Faithful fun _ => False) : m'.Faithful fun _ => False := by
  rcases ensureChild_cases h with ⟨rfl, -⟩ |
      ⟨q, root, pc, outer, c, id, m₁, hq, hfree, hroot, hpc, houter, hlist, hadd, rfl, -⟩
  · exact hm
  have hreplica : q.isStatic = false := by
    refine Bool.eq_false_iff.2 fun hstatic => ?_
    rw [instanceRoot?_of_static hq hstatic] at hroot
    contradiction
  obtain ⟨outer', houter', hstatic⟩ := hm.counterpart hq hpc
  cases houter.symm.trans houter'
  obtain ⟨source, hsource, hsstatic, -⟩ := hm.owned.static_of_listed houter hstatic hlist
  obtain ⟨s', hnew⟩ := unlisted_addReplica hm.owned hadd ((addressable_modifySpace p _).1 small)
    hsource (lists_of_empty rfl rfl rfl rfl) rfl
  have hself : m₁.spaces.get? id = some s' := (hnew.spaces id).trans (if_pos rfl)
  have hkind : s'.kind = .dynamic c root := hnew.kind
  have hparent : s'.parent = some p := hnew.parent
  have hname : s'.name = name := hnew.name
  have hhome : s'.home = .child p name := by rw [home_of_dynamic hkind hparent, hname]
  have hq₁ := hnew.old hq
  have hlike : q.Like { q with spaces := q.spaces.insert name id } :=
    ⟨rfl, rfl, rfl, fun _ => rfl, fun _ => rfl⟩
  have hadds : AddsReplica m (m₁.listChild p name id) p q
      { q with spaces := q.spaces.insert name id } id s' source := by
    refine hnew.addsReplica hq hlike ⟨rfl, rfl, rfl⟩ (fun hstatic => ?_) ?_
    · rw [hreplica] at hstatic
      contradiction
    · have hrelists := relists_children hq₁ (g := fun t => t.insert name id) (c := some id)
        fun t n => NameMap.get?_insert t name n id
      refine hnew.linked.enlist hrelists (home?_space hself) (by rw [hhome]; exact .refl _) ?_
      rw [listed_of_space rfl hq₁, Space.lists, hfree, Option.map_none]
  have hp' := hadds.old hq
  rw [if_pos rfl] at hp'
  have placed : (m₁.listChild p name id).Placed s' := by
    have hs' := isStatic_of_dynamic hkind
    refine ⟨fun hstatic => ?_, fun _ _ _ => ⟨p, hparent, fun u hu => ?_⟩, fun _ => hnew.refs⟩
    · rw [hs'] at hstatic
      contradiction
    · cases hp'.symm.trans hu
      exact hreplica
  have howned := hadds.owned hm.owned placed fun x hx => by
    rw [hhome] at hx
    exact (Option.some.inj hx).symm
  obtain ⟨source', hcopies, -⟩ := hadds.copies hm.owned hsource hsstatic
  obtain ⟨outer', houter', -, hspaces, -⟩ := hadds.sameFace hm.owned pc outer houter hstatic
  have harranged := hadds.arranged hm.owned hm.arranged howned (isStatic_of_dynamic hkind)
    (fun _ _ _ _ hk => by cases hkind.symm.trans hk) fun x u r hu hr => by
      obtain ⟨t, -, -, -, -, ht, -⟩ := hm.instanceRoot hu hr
      exact ⟨t, ht⟩
  refine ⟨howned, harranged, hadds.mirrored hm.owned hm.mirrored ?_, fun _ hf => hf.elim⟩
  refine .dynamic hkind hparent ((instanceRoot?_of_like hq hp' hlike).trans hroot)
    ((counterpart_of_like hq hp' hlike).trans hpc) houter' ?_ hcopies
  rw [hspaces, hname]
  exact hlist

theorem faithful_ensureItem {key : Key} {m' : Model} {r : Except Failure Handle}
    (hfits : m.KeyFits p key) (h : ensureItem p key m = some (r, m')) (small : m'.Addressable)
    (hm : m.Faithful fun _ => False) : m'.Faithful fun _ => False := by
  rcases ensureItem_cases h with ⟨rfl, -⟩ | ⟨q, hq, ⟨item, -, rfl, -⟩ |
      ⟨c, id, m₁, hc, hdead, hadd, rfl, -⟩⟩
  · exact hm
  · exact hm.drops ((alike_noteRead m _).owned hm.owned) (alike_noteRead m _).drops
  have halike := alike_noteRead (m₁.listItem p key id) (.item p key)
  have small := halike.addressable.1 small
  obtain ⟨source, hsource, hsstatic⟩ := hm.counterpart hq hc
  obtain ⟨s', hnew⟩ := unlisted_addReplica hm.owned hadd ((addressable_modifySpace p _).1 small)
    hsource (lists_of_empty rfl rfl rfl rfl) rfl
  have hself : m₁.spaces.get? id = some s' := (hnew.spaces id).trans (if_pos rfl)
  have hkind : s'.kind = .item p c key (m.pinsOf p) := hnew.kind
  have hhome : s'.home = .item p key := home_of_item hkind
  have hq₁ := hnew.old hq
  have hlike : q.Like { q with instances := q.instances.insert key id } :=
    ⟨rfl, rfl, rfl, fun _ => rfl, fun _ => rfl⟩
  have hadds : AddsReplica m (m₁.listItem p key id) p q
      { q with instances := q.instances.insert key id } id s' source := by
    refine hnew.addsReplica hq hlike ⟨rfl, rfl, rfl⟩ (fun _ => rfl) ?_
    have hrelists := relists_items hq₁ (g := fun t => t.insert key id) (i := some id)
      fun t k => Table.get?_insert t key k id
    refine hnew.linked.enlist hrelists (home?_space hself) (by rw [hhome]; exact .refl _) ?_
    rw [listed_of_space rfl hq₁, Space.lists]
    -- what was listed under the key would be there
    cases hother : q.instances.get? key with
    | none => rfl
    | some other =>
      obtain ⟨u, -, -, -, hu, -⟩ := hm.owned.item_of_listed hq hother
      have hgone := hdead other hother
      rw [Pool.contains_iff.2 ⟨u, hu⟩] at hgone
      contradiction
  have hp' := hadds.old hq
  rw [if_pos rfl] at hp'
  have placed : (m₁.listItem p key id).Placed s' := by
    refine ⟨fun hstatic => ?_, fun _ _ hk => ?_, fun _ => hnew.refs⟩
    · rw [isStatic_of_item hkind] at hstatic
      contradiction
    · cases hkind.symm.trans hk
  have howned := hadds.owned hm.owned placed fun x hx => by
    rw [hhome] at hx
    exact (Option.some.inj hx).symm
  have hlisted : (m₁.listItem p key id).Faithful fun _ => False := by
    have harranged := hadds.arranged hm.owned hm.arranged howned (isStatic_of_item hkind)
      (fun _ _ _ _ hk => by
        cases hkind.symm.trans hk
        exact ⟨q, hq, hnew.parent, (hm.around hq).2 rfl⟩) fun x u r hu hr => by
        obtain ⟨t, -, -, -, -, ht, -⟩ := hm.instanceRoot hu hr
        exact ⟨t, ht⟩
    refine ⟨howned, harranged, hadds.mirrored hm.owned hm.mirrored ?_, fun _ hf => hf.elim⟩
    obtain ⟨source', hcopies, hsig⟩ := hadds.copies hm.owned hsource hsstatic
    obtain ⟨spec, hspec, hlen⟩ := hfits
    obtain ⟨c', hc', hspec⟩ := except_bind_eq_ok.1 hspec
    cases hc.symm.trans hc'
    obtain ⟨u, hu, hspec⟩ := except_bind_eq_ok.1 hspec
    cases hsource.symm.trans (space_eq_ok.1 hu)
    refine .item hkind ((counterpart_of_like hq hp' hlike).trans hc) hcopies ?_ hlen
    rw [hsig]
    cases hsource : source.signature with
    | none =>
      rw [hsource] at hspec
      cases hspec
    | some spec' =>
      rw [hsource] at hspec
      cases hspec
      rfl
  exact hlisted.drops (halike.owned hlisted.owned) halike.drops

end Making

end Recalc.Model
