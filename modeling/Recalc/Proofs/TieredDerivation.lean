import Recalc.Proofs.Tiers

set_option autoImplicit false

/-!
# Derivation keeps tiers

A derivation of a space on tiers leaves the spaces on tiers, those that were there on the same ones.
Whatever is new, is to follow, or inherits from the space ranks below the space.
-/

namespace Recalc.Model

open Recalc.Action

/-! ## What stays where it is -/

/-- References and children of the space may change, but no static space comes or goes or takes
other bases. -/
structure Unmoved (id : SpaceId) (m : Model) (changes : Changes) (m' : Model) : Prop where
  amends : Amends id (fun _ _ => False) m m'
  stays : Stays m m'
  follow : changes.follow = []
  intact : changes.destroyed = false

section Steps

variable {m m' : Model} {id : SpaceId} {heritage : Heritage} {changes : Changes}

theorem Veiled.unmoved (h : Veiled m changes m') : Unmoved id m changes m' :=
  ⟨amends_of_sameShape h.shape h.refs, h.shape.stays, h.follow, h.intact⟩

theorem unmoved_refl (id : SpaceId) (m : Model) : Unmoved id m {} m := (veiled_refl m).unmoved

theorem unmoved_deriveRef (hm : m.Owned) (name : String) (source : RefId) :
    Returns (fun changes m' => m'.Addressable → Unmoved id m changes m')
      (deriveRef id name source) m := by
  unfold deriveRef
  refine returns_read fun src _ => returns_read fun s hs => ?_
  replace hs := space_eq_ok.1 hs
  split
  next =>
    refine returns_modify (returns_pure fun small => ?_)
    have halike := fun m' => (forgetsSome_hideGlobal m' name).alike
    replace small := (halike _).addressable.1 small
    obtain ⟨hamends, hstays⟩ : Amends id (fun _ _ => False) m
        (m.addRef { src with name, owner := some id, derived := true }).2 ∧ _ :=
      amends_addRef hm small rfl
    exact ⟨hamends.alike (halike _), Frame.trans hstays (halike _).sameShape.stays, rfl, rfl⟩
  next own hown =>
    refine returns_read fun current hcurrent => ?_
    replace hcurrent := reference_eq_ok.1 hcurrent
    obtain ⟨q, hq, howner, -⟩ := hm.ref_of_listed hs hown
    split
    next =>
      refine returns_modify (returns_pure fun _ => ?_)
      have halike := fun m' => (forgetsAll_invalidate m' (.ref own)).forgetsSome.alike
      have hamends : Amends id (fun _ _ => False) m (m.modifyRef own fun r =>
          { r with value := src.value, mode := src.mode, relative := src.relative,
                   origin := src.origin }) := amends_modifyRef fun q' hq' => by
        cases hq.symm.trans hq'
        exact howner
      exact ⟨hamends.alike (halike _),
        Frame.trans (stays_modifyRef own _) (halike _).sameShape.stays, rfl, rfl⟩
    next => exact returns_pure fun _ => unmoved_refl id m

theorem unmoved_dropRef (e : String × RefId) :
    Returns (fun changes m' => Unmoved id m changes m') (dropRef id heritage e) m := by
  unfold dropRef
  split
  next => exact returns_pure (unmoved_refl id m)
  next =>
    refine returns_read fun r _ => ?_
    split
    next =>
      exact returns_modify (returns_pure
        ⟨amends_dropRef e.1 e.2, stays_dropRef e.1 e.2, rfl, rfl⟩)
    next => exact returns_pure (unmoved_refl id m)

end Steps

/-! ## While members are derived -/

/-- What a static space can be once the members of the space are derived: one that was there stays
where it was, and one that comes is a child of the space. Bases come only from the heritage. -/
structure Permits (m₀ : Model) (id : SpaceId) (h : Heritage) (x : SpaceId) (o : Outline) : Prop where
  kept : ∀ o₀, m₀.outline? x = some o₀ → o.name = o₀.name ∧ o.parent = o₀.parent
  came : m₀.outline? x = none → o.parent = some id
  links : ∀ b ∈ o.links, (∃ o₀, m₀.outline? x = some o₀ ∧ b ∈ o₀.links) ∨
    (o.parent = some id ∧ b ∈ (h.spaces.get? o.name).getD [])

theorem permits_refl {m : Model} {x : SpaceId} {o : Outline} (ho : m.outline? x = some o)
    (id : SpaceId) (h : Heritage) : m.Permits id h x o := by
  refine ⟨fun o₀ ho₀ => ?_, fun hnone => ?_, fun b hb => .inl ⟨o, ho, hb⟩⟩
  · cases ho.symm.trans ho₀
    exact ⟨rfl, rfl⟩
  · rw [ho] at hnone
    contradiction

theorem Permits.of_links {m₀ : Model} {id x : SpaceId} {h : Heritage} {o o' : Outline}
    (hpermits : m₀.Permits id h x o) (name : o'.name = o.name) (parent : o'.parent = o.parent)
    (links : ∀ b ∈ o'.links, b ∈ o.links) : m₀.Permits id h x o' := by
  refine ⟨fun o₀ ho₀ => ?_, fun hnone => parent.trans (hpermits.came hnone), fun b hb => ?_⟩
  · rw [name, parent]
    exact hpermits.kept o₀ ho₀
  · rw [name, parent]
    exact hpermits.links b (links b hb)

/-- The members of the space are being derived and the spaces stand on tiers. Their bases were there
before, what is to follow are children of the space, and what has gone was below it. -/
structure Terraced (t : Tiers) (id : SpaceId) (heritage : Heritage) (m₀ : Model) (before : Changes)
    (m : Model) : Prop where
  tiered : m.Tiered t
  permits : ∀ x o, m.outline? x = some o → m₀.Permits id heritage x o
  links : ∀ x o, m.outline? x = some o → ∀ b ∈ o.links, m₀.Static b
  follow : ∀ x ∈ before.follow, ∀ o, m.outline? x = some o → o.parent = some id
  gone : ∀ x, m₀.Static x → m.Static x ∨ (before.destroyed = true ∧ t.layer x = t.layer id)

section Terraces

variable {t : Tiers} {m₀ m m' : Model} {id : SpaceId} {before changes : Changes}
  {heritage : Heritage} {fresh : SpaceId → Outline → Prop}

theorem terraced_refl (ht : m.Tiered t) (hlive : m.LiveBases) :
    Terraced t id heritage m {} m where
  tiered := ht
  permits x o ho := permits_refl ho id heritage
  links x o ho b hb := static_iff_outline?.2 (hlive x o ho b hb)
  follow _ hx := by cases hx
  gone _ hx := .inl hx

theorem Terraced.step (h : Terraced t id heritage m₀ before m)
    (outline : ∀ x o', m'.outline? x = some o' →
      (∃ o, m.outline? x = some o ∧ o'.name = o.name ∧ o'.parent = o.parent ∧
        o'.links = o.links) ∨
        (m₀.Permits id heritage x o' ∧ o'.parent = some id ∧ t.Admits x o' ∧
          ∀ b ∈ o'.links, m₀.Static b))
    (follow : ∀ x ∈ changes.follow, ∀ o', m'.outline? x = some o' → o'.parent = some id)
    (gone : ∀ x, m.Static x → m'.Static x ∨
      (changes.destroyed = true ∧ t.layer x = t.layer id)) :
    Terraced t id heritage m₀ (before ++ changes) m' := by
  refine ⟨fun x o' ho' => ?_, fun x o' ho' => ?_, fun x o' ho' b hb => ?_, fun x hx o' ho' => ?_,
    fun x hx => ?_⟩
  · rcases outline x o' ho' with ⟨o, ho, -, hparent, hlinks⟩ | ⟨-, -, hadmits, -⟩
    · exact (h.tiered x o ho).of_links hparent fun b hb => hlinks ▸ hb
    · exact hadmits
  · rcases outline x o' ho' with ⟨o, ho, hname, hparent, hlinks⟩ | ⟨hpermits, -⟩
    · exact (h.permits x o ho).of_links hname hparent fun b hb => hlinks ▸ hb
    · exact hpermits
  · rcases outline x o' ho' with ⟨o, ho, -, -, hlinks⟩ | ⟨-, -, -, hstatic⟩
    · exact h.links x o ho b (hlinks ▸ hb)
    · exact hstatic b hb
  · rcases List.mem_append.1 hx with hx | hx
    · rcases outline x o' ho' with ⟨o, ho, -, hparent, -⟩ | ⟨-, hparent, -, -⟩
      · exact hparent.trans (h.follow x hx o ho)
      · exact hparent
    · exact follow x hx o' ho'
  · have hdestroyed : (before ++ changes).destroyed = (before.destroyed || changes.destroyed) := rfl
    rw [hdestroyed, Bool.or_eq_true]
    rcases h.gone x hx with hstatic | ⟨hbefore, hlayer⟩
    · exact (gone x hstatic).imp_right fun hnow => ⟨.inr hnow.1, hnow.2⟩
    · exact .inr ⟨.inl hbefore, hlayer⟩

theorem Terraced.stays (h : Terraced t id heritage m₀ before m)
    (hintact : before.destroyed = false) : Stays m₀ m := by
  refine fun x hx => (h.gone x hx).resolve_right fun hgone => ?_
  rw [hintact] at hgone
  exact Bool.noConfusion hgone.1

theorem Terraced.rank_lt_of_follow (h : Terraced t id heritage m₀ before m) {x : SpaceId}
    {o : Outline} (ho : m.outline? x = some o) (hx : x ∈ before.follow) : t.rank x < t.rank id :=
  (h.tiered x o ho).rank_lt_of_parent (h.follow x hx o ho)

/-- A base that has gone stood inside the space. -/
theorem Terraced.rank_lt_of_loss (h : Terraced t id heritage m₀ before m) {x b : SpaceId}
    {o : Outline} (ho : m.outline? x = some o) (hb : b ∈ o.links) (hgone : ¬ m.Static b) :
    t.rank x < t.rank id := by
  obtain ⟨-, hlayer⟩ := (h.gone b (h.links x o ho b hb)).resolve_left hgone
  exact (h.tiered x o ho).rank_lt_of_link hb hlayer

/-- Members of the space change; the spaces that come are children of it. -/
theorem Terraced.amend (h : Terraced t id heritage m₀ before m) (hamends : Amends id fresh m m')
    (hfresh : ∀ x o, m.outline? x = none → fresh x o → m₀.Permits id heritage x o ∧
      o.parent = some id ∧ t.Admits x o ∧ ∀ b ∈ o.links, m₀.Static b)
    (follow : ∀ x ∈ changes.follow, ∀ o', m'.outline? x = some o' → o'.parent = some id)
    (gone : ∀ x, m.Static x → m'.Static x ∨
      (changes.destroyed = true ∧ t.layer x = t.layer id)) :
    Terraced t id heritage m₀ (before ++ changes) m' := by
  refine h.step (fun x o' ho' => ?_) follow gone
  refine (hamends.outline x o' ho').symm.imp ?_ fun hnew => hfresh x o' hnew.1 hnew.2
  rintro ⟨o, ho, heq, -⟩
  refine ⟨o, ho, ?_, ?_, ?_⟩
  · rw [heq]
  · rw [heq]
  · rw [heq, Outline.links, Outline.links]

theorem Terraced.unmoved (h : Terraced t id heritage m₀ before m)
    (hunmoved : Unmoved id m changes m') : Terraced t id heritage m₀ (before ++ changes) m' := by
  refine h.amend hunmoved.amends (fun _ _ _ hf => hf.elim) ?_ fun x hx => .inl ?_
  · rw [hunmoved.follow]
    exact fun _ hx => (List.not_mem_nil hx).elim
  · exact hunmoved.stays x hx

/-- A child of the space takes other implicit bases and is to be derived in turn. -/
theorem Terraced.relink (h : Terraced t id heritage m₀ before m) {c : SpaceId} {p : Outline}
    (hp : m.outline? c = some p) (hparent : p.parent = some id) {sources : List SpaceId}
    (hsources : ∀ b ∈ sources, m₀.Static b ∧ t.layer b < t.layer id ∧
      t.depth id + 1 ≤ t.depth b + t.slack)
    (hgiven : ∀ b ∈ sources, b ∈ (heritage.spaces.get? p.name).getD []) :
    Terraced t id heritage m₀ (before ++ { follow := [c] })
      (m.modifySpace c (Space.setImplicitBases fun _ => sources)) := by
  have houtline := fun x => outline?_setImplicitBases m c (fun _ => sources) x
  have hadmits := h.tiered c p hp
  obtain ⟨hlayer, hdepth⟩ := hadmits.inside id hparent
  refine h.step (fun x o' ho' => ?_) (fun x hx o' ho' => ?_) fun x hx =>
    .inl (stays_setImplicitBases c _ x hx)
  · rw [houtline] at ho'
    split at ho'
    next heq =>
      subst heq
      rw [hp] at ho'
      cases ho'
      have hpermits := h.permits c p hp
      refine .inr ⟨{ hpermits with links := fun b hb => ?_ }, hparent,
        { hadmits with links := fun b hb => ?_ }, fun b hb => ?_⟩
      · rcases List.mem_append.1 hb with hb | hb
        · exact hpermits.links b (List.mem_append_left _ hb)
        · exact .inr ⟨hparent, hgiven b hb⟩
      · rcases List.mem_append.1 hb with hb | hb
        · exact hadmits.links b (List.mem_append_left _ hb)
        · rw [hlayer, hdepth]
          exact (hsources b hb).2
      · rcases List.mem_append.1 hb with hb | hb
        · exact h.links c p hp b (List.mem_append_left _ hb)
        · exact (hsources b hb).1
    next => exact .inl ⟨o', ho', rfl, rfl, rfl⟩
  · cases List.mem_singleton.1 hx
    rw [houtline, if_pos rfl, hp] at ho'
    cases ho'
    exact hparent

/-- A child comes before anything has gone. Its identity named no static space, so it gets the tier
of a child of the space. -/
theorem Terraced.addChild (hm : m.Owned) (h : Terraced t id heritage m₀ before m)
    (hintact : before.destroyed = false)
    (hnew : ∀ x, ¬ m₀.Static x → t.layer x = t.layer id ∧ t.depth x = t.depth id + 1)
    {s c : Space} (hs : m.spaces.get? id = some s) (hstatic : s.isStatic = true)
    (hchild : c.isStatic = true) (hparent : c.parent = some id)
    (hlets : t.Lets m₀ id c.outline.links)
    (hgiven : ∀ b ∈ c.outline.links, b ∈ (heritage.spaces.get? c.name).getD [])
    (small : (m.addChild id c).2.Addressable)
    (hfollow : ∀ x ∈ changes.follow, x = (m.addChild id c).1) :
    Terraced t id heritage m₀ (before ++ changes) (m.addChild id c).2 := by
  obtain ⟨hamends, hstays⟩ := amends_addChild hm small hs hchild
  refine h.amend hamends ?_ (fun x hx o' ho' => ?_) fun x hx => .inl (hstays x hx)
  · rintro x o hnone ⟨rfl, rfl⟩
    have hfresh : ¬ m₀.Static (m.addChild id c).1 := by
      intro hbefore
      obtain ⟨o, ho⟩ := static_iff_outline?.1 (h.stays hintact _ hbefore)
      rw [hnone] at ho
      contradiction
    obtain ⟨hlayer, hdepth⟩ := hnew _ hfresh
    have htop := (h.tiered id _ (outline?_of_static hs hstatic)).top
    refine ⟨⟨fun o₀ ho₀ => absurd (static_iff_outline?.2 ⟨o₀, ho₀⟩) hfresh, fun _ => hparent,
      fun b hb => .inr ⟨hparent, hgiven b hb⟩⟩, hparent, ?_, fun b hb => (hlets.source b hb).1⟩
    exact hlets.admits hparent hlayer hdepth htop
  · cases hfollow x hx
    rw [outline?_newChild hm small hs hchild] at ho'
    cases ho'
    exact hparent

theorem Terraced.alike (h : Terraced t id heritage m₀ before m) (halike : Alike m m') :
    Terraced t id heritage m₀ before m' where
  tiered x o ho := h.tiered x o (halike.sameShape.outline x ▸ ho)
  permits x o ho := h.permits x o (halike.sameShape.outline x ▸ ho)
  links x o ho := h.links x o (halike.sameShape.outline x ▸ ho)
  follow x hx o ho := h.follow x hx o (halike.sameShape.outline x ▸ ho)
  gone x hx := (h.gone x hx).imp_left (halike.sameShape.stays x)

theorem Terraced.deriveChild (hm : m.Owned) (hself : m.Static id)
    (h : Terraced t id heritage m₀ before m) (hintact : before.destroyed = false)
    (hnew : ∀ x, ¬ m₀.Static x → t.layer x = t.layer id ∧ t.depth x = t.depth id + 1)
    {name : String} {sources : List SpaceId} (hlets : t.Lets m₀ id sources)
    (hname : heritage.spaces.get? name = some sources) :
    Returns (fun changes m' => m'.Addressable → Terraced t id heritage m₀ (before ++ changes) m' ∧
      (before ++ changes).destroyed = false) (Model.deriveChild id name sources) m := by
  unfold Model.deriveChild
  refine returns_read fun s hs => ?_
  replace hs := space_eq_ok.1 hs
  have hstatic := hself.isStatic hs
  have hgiven : ∀ b ∈ sources, b ∈ (heritage.spaces.get? name).getD [] := by
    rw [hname]
    exact fun b hb => hb
  have hkept : ∀ changes : Changes, changes.destroyed = false →
      (before ++ changes).destroyed = false := by
    intro changes hchanges
    show (before.destroyed || changes.destroyed) = false
    rw [hintact, hchanges, Bool.or_self]
  split
  next =>
    refine returns_update (returns_modify (returns_pure fun small => ⟨?_, hkept _ rfl⟩))
    have halike := fun m' => (forgetsSome_hideGlobal m' name).alike
    replace small := (halike _).addressable.1 small
    exact (h.addChild (c := (Space.fresh name (some id) true).setImplicitBases fun _ => sources)
      hm hintact hnew hs hstatic rfl rfl hlets (fun b hb => hgiven b hb) small
      fun _ hx => List.mem_singleton.1 hx).alike (halike _)
  next child hchild =>
    refine returns_read fun c hc => ?_
    replace hc := space_eq_ok.1 hc
    obtain ⟨u, hu, hustatic, hparent, rfl⟩ := hm.static_of_listed hs hstatic hchild
    cases hc.symm.trans hu
    split
    next =>
      refine returns_modify (returns_pure fun _ => ⟨?_, hkept _ rfl⟩)
      exact h.relink (outline?_of_static hc hustatic) hparent hlets.source hgiven
    next => exact returns_pure fun _ => ⟨h.unmoved (unmoved_refl id m), hkept _ rfl⟩

/-- Everything inside a space has its layer. -/
theorem Tiered.layer_within (ht : m.Tiered t) (hm : m.Owned) {c : SpaceId} {e : Entity}
    (hw : m.Within (.space c) e) :
    ∀ x, e = .space x → m.Static x → t.layer x = t.layer c := by
  induction hw with
  | self =>
    rintro x heq -
    cases heq
    rfl
  | @inside e a p ha hp _ ih =>
    rintro x rfl hx
    obtain ⟨s, hs, hstatic⟩ := hx
    have ho := outline?_of_static hs hstatic
    rw [home?_space hs] at ha
    cases ha
    rw [home_space?_of_static hstatic] at hp
    exact ((ht x _ ho).inside p hp).1.trans (ih p rfl (hm.parent_static ho hp))

theorem Terraced.dropChild (hm : m.Owned) (hself : m.Static id)
    (h : Terraced t id heritage m₀ before m) {s : Space} (hs : m.spaces.get? id = some s)
    {e : String × SpaceId} (hlisted : s.spaces.get? e.1 = some e.2) :
    Returns (fun changes m' => Terraced t id heritage m₀ (before ++ changes) m')
      (Model.dropChild id heritage e) m := by
  have hstatic := hself.isStatic hs
  unfold Model.dropChild
  split
  next => exact returns_pure (h.unmoved (unmoved_refl id m))
  next =>
    refine returns_read fun c hc => ?_
    replace hc := space_eq_ok.1 hc
    obtain ⟨u, hu, hustatic, hparent, -⟩ := hm.static_of_listed hs hstatic hlisted
    cases hc.symm.trans hu
    have hp := outline?_of_static hc hustatic
    split
    next =>
      refine returns_modify (returns_pure ?_)
      have hsevers := severs_child hm hs hstatic hlisted
      refine h.amend (amends_dropChild e.1 e.2) (fun _ _ _ hf => hf.elim)
        (fun _ hx => (List.not_mem_nil hx).elim) fun x hx => ?_
      obtain ⟨v, hv, hvstatic⟩ := hx
      rcases hsevers.kept x v hv with ⟨v', hv'⟩ | hw
      · obtain ⟨w, hw, hloses⟩ := hsevers.spaces x v' hv'
        cases hv.symm.trans hw
        exact .inl ⟨v', hv', hloses.isStatic.trans hvstatic⟩
      · refine .inr ⟨rfl, ?_⟩
        exact (h.tiered.layer_within hm hw x rfl ⟨v, hv, hvstatic⟩).trans
          ((h.tiered e.2 _ hp).inside id hparent).1
    next =>
      split
      next => exact returns_modify (returns_pure (h.relink hp hparent
        (fun _ hb => (List.not_mem_nil hb).elim) fun _ hb => (List.not_mem_nil hb).elim))
      next => exact returns_pure (h.unmoved (unmoved_refl id m))

end Terraces

/-! ## Phase by phase -/

section Phases

variable {id : SpaceId} {m₀ : Model} {t : Tiers} {heritage : Heritage}
  {sites around : SpaceId → Prop} {T : Changes → Model → Prop}

def Intact (t : Tiers) (id : SpaceId) (heritage : Heritage) (m₀ : Model) (before : Changes)
    (m : Model) : Prop :=
  Terraced t id heritage m₀ before m ∧ before.destroyed = false

theorem Intact.unmoved {m m' : Model} {before changes : Changes}
    (h : Intact t id heritage m₀ before m) (hunmoved : Unmoved id m changes m') :
    Intact t id heritage m₀ (before ++ changes) m' := by
  refine ⟨h.1.unmoved hunmoved, ?_⟩
  show (before.destroyed || changes.destroyed) = false
  rw [h.2, hunmoved.intact, Bool.or_self]

variable (hnew : ∀ x, ¬ m₀.Static x → t.layer x = t.layer id ∧ t.depth x = t.depth id + 1)
  (hlets : ∀ name sources, heritage.spaces.get? name = some sources → t.Lets m₀ id sources)
include hnew hlets

theorem ensures_terracedChildren (before : Changes) :
    Ensures (fun m => Deriving id sites around [] [] before m ∧ Intact t id heritage m₀ before m)
      (collect (fun e => deriveChild id e.1 e.2) heritage.spaces.entries)
      fun changes m => Deriving id sites around [] [] (before ++ changes) m ∧
        Intact t id heritage m₀ (before ++ changes) m :=
  ensures_alongEntries (P := fun _ before => Deriving id sites around [] [] before)
    (T := fun _ => Intact t id heritage m₀) before (fun e _ _ => ensures_deriveChild e.1 e.2)
    fun _ _ _ _ hname hm ht =>
      ht.1.deriveChild hm.owned hm.self ht.2 hnew (hlets _ _ hname) hname

/-- All members of the space, one phase after the other. -/
theorem ensures_terraced :
    Ensures (fun m => Deriving id sites around heritage.cells.values heritage.refs.values {} m ∧
        Intact t id heritage m₀ {} m)
      (deriveMembers id heritage) fun changes m => Deriving id sites around [] [] changes m ∧
        Terraced t id heritage m₀ changes m := by
  have hcells : Ensures (fun m => Deriving id sites around heritage.cells.values
      heritage.refs.values {} m ∧ Intact t id heritage m₀ {} m) _ _ :=
    ensures_alongEntries (P := fun l before =>
        Deriving id sites around (l.map Prod.snd) heritage.refs.values before)
      (T := fun _ => Intact t id heritage m₀) {}
      (fun e l _ => ensures_deriveCells e.1 e.2 (l.map Prod.snd))
      fun e _ _ _ _ _ ht => (veiled_deriveCells id e.1 e.2).mono fun _ _ h _ => ht.unmoved h.unmoved
  have hnoCells : ∀ before, Ensures (fun m =>
      Deriving id sites around [] heritage.refs.values before m ∧
        Intact t id heritage m₀ before m) _ _ :=
    fun before => ensures_alongListed before (fun e l _ => ensures_dropCells heritage e l)
      fun e _ _ _ _ _ _ _ ht => (veiled_dropCells id heritage e).mono
        fun _ _ h _ => ht.unmoved h.unmoved
  have hrefs : ∀ before, Ensures (fun m =>
      Deriving id sites around [] heritage.refs.values before m ∧
        Intact t id heritage m₀ before m) _ _ :=
    fun before => ensures_alongEntries
      (P := fun l before => Deriving id sites around [] (l.map Prod.snd) before)
      (T := fun _ => Intact t id heritage m₀) before
      (fun e l _ => ensures_deriveRef e.1 e.2 (l.map Prod.snd))
      fun e _ _ _ _ hm ht => (unmoved_deriveRef hm.owned e.1 e.2).mono
        fun _ _ h small => ht.unmoved (h small)
  have hnoRefs : ∀ before, Ensures (fun m =>
      Deriving id sites around [] [] before m ∧ Intact t id heritage m₀ before m) _ _ :=
    fun before => ensures_alongListed before (fun e l _ => ensures_dropRef heritage e l)
      fun e _ _ _ _ _ _ _ ht => (unmoved_dropRef e).mono fun _ _ h _ => ht.unmoved h
  have hnoSpaces : ∀ before, Ensures (fun m =>
      Deriving id sites around [] [] before m ∧ Terraced t id heritage m₀ before m) _ _ :=
    fun before => ensures_alongListed before (fun e l _ => ensures_dropChild heritage e l)
      fun _ _ _ _ hm hself hs hlisted ht =>
        (ht.dropChild hm hself hs hlisted).mono fun _ _ h _ => h
  have hphases := ensures_bind hcells fun cells =>
    ensures_bind (hnoCells _) fun noCells =>
    ensures_bind (hrefs _) fun refs =>
    ensures_bind (hnoRefs _) fun noRefs =>
    ensures_bind (ensures_terracedChildren hnew hlets _) fun spaces =>
    ensures_bind ((hnoSpaces _).mono (fun m hm => ⟨hm.1, hm.2.1⟩) fun _ _ hm => hm) fun noSpaces =>
    ensures_bind ((ensures_deriveSignature heritage).also fun m _ ht =>
      (veiled_deriveSignature id heritage).mono fun _ _ h _ => ht.unmoved h.unmoved)
      fun signature =>
    ensures_pure (Q := fun changes m => Deriving id sites around [] [] changes m ∧
        Terraced t id heritage m₀ changes m)
      (a := cells ++ noCells ++ refs ++ noRefs ++ spaces ++ noSpaces ++ signature) fun m hm => by
        rw [empty_append] at hm
        exact hm
  simp only [bind_assoc] at hphases
  exact hphases

end Phases

/-! ## A derivation -/

section Derivation

variable {m m₁ m' : Model} {id : SpaceId} {heritage : Heritage} {changes : Changes} {t t' : Tiers}

/-- Whoever is listed for the loss of a base had one that is no static space. -/
theorem returns_losers (hm : m.Owned) :
    Returns (fun losers _ => ∀ x ∈ losers, ∀ o, m.outline? x = some o →
      ∃ b ∈ o.links, ¬ m.Static b) (settle id changes) m := by
  unfold settle
  obtain ⟨hsame, -⟩ := dropStale_sameShape hm id changes
  refine returns_modify ?_
  split
  next =>
    refine returns_change fun x hx o ho => ?_
    rw [← hsame.outline] at ho
    obtain ⟨b, hb, hdead⟩ := (mem_losers ho).1 hx
    refine ⟨b, hb, fun hstatic => hdead ?_⟩
    obtain ⟨v, hv, -⟩ := hsame.stays b hstatic
    exact Pool.contains_iff.2 ⟨v, hv⟩
  next => exact returns_pure fun _ hx => (List.not_mem_nil hx).elim

theorem Unlinks.tiered {live : SpaceId → Bool} {losers : List SpaceId}
    (h : Unlinks live losers m m') (ht : m.Tiered t) : m'.Tiered t := by
  intro x o' ho'
  rw [h.outline] at ho'
  obtain ⟨o, ho, rfl⟩ := Option.map_eq_some_iff.1 ho'
  exact (ht x o ho).of_links rfl fun b hb => (Outline.mem_links_keepLinks hb).1

/-- What a derivation of the space does to tiers: whoever was there keeps the rank, and whoever
comes, is to follow or inherits from the space ranks below it. -/
structure Descends (t t' : Tiers) (id : SpaceId) (heritage : Heritage) (m : Model)
    (changes : Changes) (m' : Model) : Prop where
  tiered : m'.Tiered t'
  self : m'.Static id
  permits : ∀ x o, m'.outline? x = some o → m.Permits id heritage x o
  bases : ∀ x o, m'.outline? x = some o → ∀ b ∈ o.links, m.Static b
  live : m'.LiveBases
  rank : ∀ x, m.Static x → t'.rank x = t.rank x
  new : ∀ x, m'.Static x → ¬ m.Static x → t'.rank x < t.rank id
  follow : ∀ x ∈ changes.follow ++ m'.heirs id, m'.Static x → t'.rank x < t.rank id

theorem Faithful.descends {sites : SpaceId → Prop} (hm : m.Faithful sites) (hlive : m.LiveBases)
    (ht : m.Tiered t) (hself : m.Static id) (hh : m.heritage id = .ok heritage)
    (hrun : derive id m = some (.ok changes, m')) (small : m'.Addressable) :
    Descends t (t.beside m id) id heritage m changes m' := by
  have hend := steady_derive (lasting_keepsStatic m) id m _ m' hrun fun _ =>
    ⟨hm, fun x s hs hx => hx.isStatic hs⟩
  obtain ⟨-, hstatic⟩ := hend.1 small
  rcases derive_eq_ok hrun with ⟨hreplica, -⟩ |
    ⟨_, found, m₁, losers, -, hh', hmembers, hsettle, rfl⟩
  · exact absurd hself hreplica
  cases Except.ok.inj (hh.symm.trans hh')
  obtain ⟨s, hs, hisStatic⟩ := hself
  have hself : m.Static id := ⟨s, hs, hisStatic⟩
  have small₁ := addressable_of_settle hsettle small
  have htiered := ht.beside hm.owned hlive id
  obtain ⟨_, heq, hd, hterraced⟩ := (ensures_terraced (fun _ => Tiers.beside_of_new hself)
    (fun _ _ => htiered.lets hm.owned hlive hself hh) m _ m₁ hmembers).2 small₁
    ⟨hm.deriving hs hisStatic hh, terraced_refl htiered hlive, rfl⟩
  cases heq
  obtain ⟨live, hunlinks, hdead⟩ := returns_settle hd.owned found losers m' hsettle
  have hloser := returns_losers hd.owned losers m' hsettle
  have htiered' := hunlinks.tiered hterraced.tiered
  have hrank : (t.beside m id).rank id = t.rank id := Tiers.rank_beside hself
  have hold : ∀ x o', m'.outline? x = some o' → ∃ o, m₁.outline? x = some o ∧
      o.keepLinks live = o' :=
    fun x o' ho' => Option.map_eq_some_iff.1 ((hunlinks.outline x).symm.trans ho')
  refine ⟨htiered', ?_, fun x o' ho' => ?_, fun x o' ho' b hb => ?_,
    hunlinks.liveBases hterraced.links hterraced.stays hdead hstatic,
    fun _ => Tiers.rank_beside, fun x hx hnew => ?_, fun x hx hx' => ?_⟩
  · obtain ⟨o, ho⟩ := static_iff_outline?.1 hd.self
    exact static_iff_outline?.2 ⟨_, (hunlinks.outline id).trans (congrArg (Option.map _) ho)⟩
  · obtain ⟨o, ho, rfl⟩ := hold x o' ho'
    exact (hterraced.permits x o ho).of_links rfl rfl fun b hb => (Outline.mem_links_keepLinks hb).1
  · obtain ⟨o, ho, rfl⟩ := hold x o' ho'
    exact hterraced.links x o ho b (Outline.mem_links_keepLinks hb).1
  · obtain ⟨o, ho⟩ := static_iff_outline?.1 hx
    obtain ⟨hlayer, hdepth⟩ := Tiers.beside_of_new (t := t) hself hnew
    rw [← hrank]
    exact Tiers.rank_lt_of_depth hlayer (by omega) (htiered' x o ho).depth_le
  · rw [← hrank]
    rcases List.mem_append.1 hx with hx | hx
    · obtain ⟨o', ho'⟩ := static_iff_outline?.1 hx'
      obtain ⟨o, ho, -⟩ := hold x o' ho'
      rcases List.mem_append.1 hx with hx | hx
      · exact hterraced.rank_lt_of_follow ho hx
      · obtain ⟨b, hb, hgone⟩ := hloser x hx o ho
        exact hterraced.rank_lt_of_loss ho hb hgone
    · obtain ⟨o', ho', hlink⟩ := outline_of_heir small hx
      exact (htiered' x o' ho').rank_lt_of_link hlink rfl

end Derivation

end Recalc.Model
