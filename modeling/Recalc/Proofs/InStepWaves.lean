import Recalc.Proofs.DerivedInStep

set_option autoImplicit false

/-!
# Waves bring spaces in step

Once a wave is through its queue every static space is in step with its bases that was before, or
was in the queue.
-/

namespace Recalc

theorem Pool.length_entries_le {family : Family} {α : Type} (a : Pool family α) :
    a.entries.length ≤ a.capacity := by
  have hfrom : ∀ (l : List (Slot α)) n, (Pool.entriesFrom n l : List (Id family × α)).length ≤
      l.length := by
    intro l
    induction l with
    | nil => intro n; rfl
    | cons slot l ih =>
      intro n
      unfold Pool.entriesFrom
      split
      · exact Nat.succ_le_succ (ih _)
      · exact Nat.le_succ_of_le (ih _)
  exact hfrom a.slots.toList 0

namespace Model

open Recalc.Action

/-! ## Heritages -/

section Heritages

variable {m : Model} {id : SpaceId} {heritage : Heritage} {name : String}

/-- What a space inherits under a name is the reference that its first base with one lists. -/
theorem sourceOf?_of_heritage (hm : m.Owned) (hh : m.heritage id = .ok heritage) {r : RefId}
    (hr : heritage.refs.get? name = some r) : ∃ b ∈ m.allBases id, ∃ s q,
      m.spaces.get? b = some s ∧ s.refs.get? name = some r ∧ m.refs.get? r = some q ∧
        q.owner = some b ∧ q.name = name ∧ m.sourceOf? id name = some q := by
  obtain ⟨ss, hss, rfl⟩ := heritage_eq_ok hh
  rw [Heritage.refs_foldl] at hr
  replace hr : ss.findSome? (·.refs.get? name) = some r := (Option.none_or).symm.trans hr
  rw [sourceOf?]
  clear hh
  generalize m.allBases id = bases at hss
  induction bases generalizing ss with
  | nil =>
    cases ss with
    | nil => cases hr
    | cons => cases hss
  | cons b bases ih =>
    cases ss with
    | nil => cases hss
    | cons s ss =>
      rw [List.map_cons, List.map_cons, List.cons.injEq] at hss
      rw [List.findSome?_cons] at hr
      cases hlisted : s.refs.get? name with
      | some r' =>
        rw [hlisted] at hr
        cases hr
        obtain ⟨q, hq, howner, hname⟩ := hm.ref_of_listed hss.1 hlisted
        have href : m.refOf? b name = some q := refOf?_eq_some.2 ⟨s, r, hss.1, hlisted, hq⟩
        refine ⟨b, List.mem_cons_self, s, q, hss.1, hlisted, hq, howner, hname, ?_⟩
        rw [List.findSome?_cons, href]
      | none =>
        rw [hlisted] at hr
        obtain ⟨b', hb', t, q, ht, hlisted', hq, howner, hname, hsource⟩ := ih ss hr hss.2
        have href : m.refOf? b name = none := by
          simp only [refOf?, hss.1, hlisted, Option.bind_eq_bind, Option.bind_some,
            Option.bind_none]
        refine ⟨b', List.mem_cons_of_mem _ hb', t, q, ht, hlisted', hq, howner, hname, ?_⟩
        rw [List.findSome?_cons, href]
        exact hsource

theorem sourceRef_of_heritage (hm : m.Owned) (hsound : m.SoundRefs)
    (hh : m.heritage id = .ok heritage) {r : RefId} (hr : heritage.refs.get? name = some r) :
    SourceRef m name r := by
  obtain ⟨b, -, s, q, -, -, hq, howner, rfl, -⟩ := sourceOf?_of_heritage hm hh hr
  refine ⟨(hsound r q b hq howner).name, fun q' hq' => ?_⟩
  cases hq.symm.trans hq'
  exact ⟨b, howner⟩

/-- The sources of a child are static spaces. -/
theorem static_of_heritage (hm : m.Owned) (hlive : m.LiveBases) (hself : m.Static id)
    (hh : m.heritage id = .ok heritage) {sources : List SpaceId}
    (hsources : heritage.spaces.get? name = some sources) : ∀ c ∈ sources, m.Static c := by
  intro c hc
  obtain ⟨b, hb, s, hget, hlisted⟩ := (source_of_heritage_spaces hh hsources).2 c hc
  obtain ⟨o, ho⟩ := static_iff_outline?.1 hself
  obtain ⟨p, hp⟩ := hlive.base ho hb
  obtain ⟨s', hs', hstatic, -⟩ := outline?_eq_some.1 hp
  cases hget.symm.trans hs'
  obtain ⟨t, ht, htstatic, -⟩ := hm.static_of_listed hget hstatic hlisted
  exact ⟨t, ht, htstatic⟩

end Heritages

/-! ## Phase by phase -/

section Phases

variable {id : SpaceId} {m₀ : Model} {heritage : Heritage} {sites around : SpaceId → Prop}
  (before : Changes)

/-- A condition goes along while something is done for every entry of a map. -/
theorem ensures_alongEntries {β : Type} {t : NameMap β} {act : String × β → Action Changes}
    {P T : List (String × β) → Changes → Model → Prop}
    (step : ∀ e l before, Ensures (P (e :: l) before) (act e) fun changes => P l (before ++ changes))
    (along : ∀ e l before m, t.get? e.1 = some e.2 → P (e :: l) before m → T (e :: l) before m →
      Returns (fun changes m' => m'.Addressable → T l (before ++ changes) m') (act e) m) :
    Ensures (fun m => P t.entries before m ∧ T t.entries before m) (collect act t.entries)
      fun changes m => P [] (before ++ changes) m ∧ T [] (before ++ changes) m := by
  have hcollect := ensures_collect (P := fun l before m =>
      P l before m ∧ T l before m ∧ ∀ e ∈ l, t.get? e.1 = some e.2)
    (fun e l before => (step e l before).also fun m hp ht changes m' hrun small => ?_)
    t.entries before
  · exact hcollect.mono (fun m hm => ⟨hm.1, hm.2, fun e he => NameMap.mem_entries.1 he⟩)
      fun _ _ hm => ⟨hm.1, hm.2.1⟩
  · exact ⟨along e l before m (ht.2 e List.mem_cons_self) hp ht.1 changes m' hrun small,
      fun e' he' => ht.2 e' (List.mem_cons_of_mem e he')⟩

/-- A condition goes along while the members are dropped that were listed when it began. -/
theorem ensures_alongListed {β : Type} {listing : Space → NameMap β}
    {drop : String × β → Action Changes} {rs : List RefId} {T : Changes → Model → Prop}
    (step : ∀ e l before,
      Ensures (fun m => Deriving id sites around [] rs before m ∧ Lists listing id (e :: l) m)
        (drop e) fun changes m =>
          Deriving id sites around [] rs (before ++ changes) m ∧ Lists listing id l m)
    (along : ∀ (e : String × β) before m s, m.Owned → m.Static id → m.spaces.get? id = some s →
      (listing s).get? e.1 = some e.2 → T before m →
        Returns (fun changes m' => m'.Addressable → T (before ++ changes) m') (drop e) m) :
    Ensures (fun m => Deriving id sites around [] rs before m ∧ T before m)
      (do collect drop (listing (← read (·.space id))).entries)
      fun changes m => Deriving id sites around [] rs (before ++ changes) m ∧
        T (before ++ changes) m := by
  refine ensures_bind (ensures_space fun m hm => hm.1.live) fun s => ?_
  have hentries := ensures_alongEntries (P := fun l before m =>
      Deriving id sites around [] rs before m ∧ Lists listing id l m) (T := fun _ => T)
    (t := listing s) before step fun e l before m _ hm ht => by
      obtain ⟨s, hs, hlisted⟩ := hm.2.head
      exact along e before m s hm.1.owned hm.1.self hs hlisted ht
  exact hentries.mono (fun m hm => ⟨⟨hm.1.1, lists_entries hm.2⟩, hm.1.2⟩)
    fun _ _ hm => ⟨hm.1.1, hm.2⟩

theorem ensures_growCells (rs : List RefId) :
    Ensures (fun m => Deriving id sites around heritage.cells.values rs before m ∧
        Growing id m₀ before m)
      (collect (fun e => deriveCells id e.1 e.2) heritage.cells.entries)
      fun changes m => Deriving id sites around [] rs (before ++ changes) m ∧
        Growing id m₀ (before ++ changes) m :=
  ensures_alongEntries (P := fun l before => Deriving id sites around (l.map Prod.snd) rs before)
    (T := fun _ => Growing id m₀) before (fun e l _ => ensures_deriveCells e.1 e.2 (l.map Prod.snd))
    fun e _ _ _ _ _ hgrows => (returns_deriveCells hgrows e.1 e.2).mono fun _ _ h _ => h

variable (heritage) in
theorem ensures_growDropCells (rs : List RefId) :
    Ensures (fun m => Deriving id sites around [] rs before m ∧ Growing id m₀ before m)
      (do collect (dropCells id heritage) (← read (·.space id)).cells.entries)
      fun changes m => Deriving id sites around [] rs (before ++ changes) m ∧
        Growing id m₀ (before ++ changes) m :=
  ensures_alongListed before (fun e l _ => ensures_dropCells heritage e l)
    fun e _ _ _ _ _ _ _ hgrows => (returns_dropCells hgrows e).mono fun _ _ h _ => h

theorem ensures_growRefs (hsources : ∀ name r, heritage.refs.get? name = some r →
      SourceRef m₀ name r) :
    Ensures (fun m => Deriving id sites around [] heritage.refs.values before m ∧
        Growing id m₀ before m)
      (collect (fun e => deriveRef id e.1 e.2) heritage.refs.entries)
      fun changes m => Deriving id sites around [] [] (before ++ changes) m ∧
        Growing id m₀ (before ++ changes) m ∧ Following id heritage [] m :=
  (ensures_alongEntries (P := fun l before => Deriving id sites around [] (l.map Prod.snd) before)
    (T := fun l before m => Growing id m₀ before m ∧ Following id heritage l m) before
    (fun e l _ => ensures_deriveRef e.1 e.2 (l.map Prod.snd))
    fun _ _ _ _ hname hm ht => returns_deriveRef hm.owned ht.1 (hsources _ _ hname) hname ht.2).mono
    (fun _ hm => ⟨hm.1, hm.2, following_entries⟩) fun _ _ hm => hm

theorem ensures_growDropRefs :
    Ensures (fun m => Deriving id sites around [] [] before m ∧ Growing id m₀ before m ∧
        Following id heritage [] m)
      (do collect (dropRef id heritage) (← read (·.space id)).refs.entries)
      fun changes m => Deriving id sites around [] [] (before ++ changes) m ∧
        Growing id m₀ (before ++ changes) m ∧ Following id heritage [] m :=
  ensures_alongListed (T := fun before m => Growing id m₀ before m ∧ Following id heritage [] m)
    before (fun e l _ => ensures_dropRef heritage e l)
    fun e _ _ _ _ _ _ _ ht => (returns_dropRef ht.1 ht.2 e).mono fun _ _ h _ => h

theorem ensures_growChildren (hsources : ∀ name sources,
      heritage.spaces.get? name = some sources → ∀ c ∈ sources, m₀.Static c) :
    Ensures (fun m => Deriving id sites around [] [] before m ∧ Growing id m₀ before m ∧
        Following id heritage [] m)
      (collect (fun e => deriveChild id e.1 e.2) heritage.spaces.entries)
      fun changes m => Deriving id sites around [] [] (before ++ changes) m ∧
        Growing id m₀ (before ++ changes) m ∧ Following id heritage [] m ∧
          Parenting id heritage [] m :=
  (ensures_alongEntries (P := fun _ before => Deriving id sites around [] [] before)
    (T := fun l before m => Growing id m₀ before m ∧ Following id heritage [] m ∧
      Parenting id heritage l m) before
    (fun e _ _ => ensures_deriveChild e.1 e.2)
    fun _ _ _ _ hname hm ht => returns_deriveChild hm.owned hm.self ht.1 ht.2.1
      (hsources _ _ hname) hname ht.2.2).mono
    (fun _ hm => ⟨hm.1, hm.2.1, hm.2.2, parenting_entries⟩) fun _ _ hm => hm

theorem ensures_wane :
    Ensures (fun m => Deriving id sites around [] [] before m ∧ Waning id m₀ before m ∧
        Following id heritage [] m ∧ Parenting id heritage [] m)
      (do collect (dropChild id heritage) (← read (·.space id)).spaces.entries)
      fun changes m => Deriving id sites around [] [] (before ++ changes) m ∧
        Waning id m₀ (before ++ changes) m ∧ Following id heritage [] m ∧
          Parenting id heritage [] m :=
  ensures_alongListed (T := fun before m => Waning id m₀ before m ∧ Following id heritage [] m ∧
      Parenting id heritage [] m) before (fun e l _ => ensures_dropChild heritage e l)
    fun _ _ _ _ hm hself hs hlisted ht =>
      (returns_dropChild hm hself ht.1 ht.2.1 ht.2.2 hs hlisted).mono fun _ _ h _ => h

omit before in
/-- All members of the space, one phase after the other. -/
theorem ensures_membersInStep
    (hrefs : ∀ name r, heritage.refs.get? name = some r → SourceRef m₀ name r)
    (hchildren : ∀ name sources, heritage.spaces.get? name = some sources →
      ∀ c ∈ sources, m₀.Static c) :
    Ensures (fun m => Deriving id sites around heritage.cells.values heritage.refs.values {} m ∧
        Growing id m₀ {} m)
      (deriveMembers id heritage) fun changes m => Deriving id sites around [] [] changes m ∧
        Waning id m₀ changes m ∧ Following id heritage [] m ∧ Parenting id heritage [] m := by
  have hcells : Ensures (fun m => Deriving id sites around heritage.cells.values
      heritage.refs.values {} m ∧ Growing id m₀ {} m) _ _ :=
    ensures_growCells {} heritage.refs.values
  have hphases := ensures_bind hcells fun cells =>
    ensures_bind (ensures_growDropCells heritage _ _) fun noCells =>
    ensures_bind (ensures_growRefs _ hrefs) fun refs =>
    ensures_bind (ensures_growDropRefs _) fun noRefs =>
    ensures_bind (ensures_growChildren _ hchildren) fun spaces =>
    ensures_bind ((ensures_wane _).mono
      (fun m hm => ⟨hm.1, hm.2.1.waning, hm.2.2.1, hm.2.2.2⟩) fun _ _ hm => hm) fun noSpaces =>
    ensures_bind ((ensures_deriveSignature heritage).also fun m _ hr a m' hrun _ =>
      returns_deriveSignature hr.1 hr.2.1 hr.2.2 a m' hrun) fun signature =>
    ensures_pure (Q := fun changes m => Deriving id sites around [] [] changes m ∧
        Waning id m₀ changes m ∧ Following id heritage [] m ∧ Parenting id heritage [] m)
      (a := cells ++ noCells ++ refs ++ noRefs ++ spaces ++ noSpaces ++ signature) fun m hm => by
        rw [empty_append] at hm
        exact hm
  simp only [bind_assoc] at hphases
  exact hphases

end Phases

/-! ## Settling -/

/-- No identity of a static space is that of a replica. -/
def KeepsStatic (m₀ m : Model) : Prop :=
  ∀ x t, m.spaces.get? x = some t → m₀.Static x → t.isStatic = true

theorem lasting_keepsStatic (m₀ : Model) : Lasting (KeepsStatic m₀) fun _ _ => True where
  drops m m' _ _ hr hdrops _ x t' ht' hx := by
    obtain ⟨t, ht, heq, -⟩ := hdrops.space x t' ht'
    rw [heq]
    exact hr x t ht hx
  unlink m _ hr := by
    refine foldl_keeps (P := KeepsStatic m₀) (fun m' id hr x t' ht' hx => ?_) _ hr
    have hget := Pool.get?_modify m'.spaces id x fun s =>
      (s.setBases (·.filter m.spaces.contains)).setImplicitBases (·.filter m.spaces.contains)
    replace ht' := hget.symm.trans ht'
    split at ht'
    next heq =>
      obtain ⟨t, ht, rfl⟩ := Option.map_eq_some_iff.1 ht'
      have hpersists := (t.persists_setBases (List.filter m.spaces.contains)).trans
        (Space.persists_setImplicitBases (List.filter m.spaces.contains) _)
      exact hpersists.isStatic.trans (hr x t (heq ▸ ht) hx)
    next => exact hr x t' ht' hx
  heritage _ _ _ _ _ _ _ := trivial
  alters m m' id h _ _ hr _ _ halters x t' ht' hx := by
    cases ht : m.spaces.get? x with
    | none => exact Space.isStatic_of_isDerived (halters.newSpace x t' ht' ht).1
    | some t =>
      rcases halters.space x t ht with ⟨u, hu, hkept⟩ | ⟨hgone, -⟩
      · cases ht'.symm.trans hu
        exact hkept.isStatic.trans (hr x t ht hx)
      · rw [hgone] at ht'
        contradiction

/-- Links go that are not live; the spaces that lose one are listed. -/
structure Unlinks (live : SpaceId → Bool) (losers : List SpaceId) (m m' : Model) : Prop where
  ref : DropsRefs m m'
  outline : ∀ x, m'.outline? x = (m.outline? x).map (Outline.keepLinks live)
  here : ∀ b t, m'.spaces.get? b = some t → live b = true
  kept : ∀ x, x ∉ losers → ∀ o, m.outline? x = some o → ∀ b ∈ o.links, live b = true

section Settling

variable {m m' : Model} {id : SpaceId}

theorem dropStale_sameShape (hm : m.Owned) (id : SpaceId) (changes : Changes) :
    SameShape m (dropStale id changes m) ∧ DropsRefs m (dropStale id changes m) := by
  obtain ⟨m₁, hm₁, heq⟩ : ∃ m₁, Alike m m₁ ∧ dropStale id changes m =
      if changes.structural || changes.redefined then m₁.dropStaleInstances id else m₁ := by
    cases hstructural : changes.structural with
    | true =>
      refine ⟨(m.invalidateSpace id).2, (forgetsSome_invalidateSpace m id).alike, ?_⟩
      simp only [dropStale, hstructural, if_true]
    | false =>
      refine ⟨m, Frame.refl m, ?_⟩
      simp only [dropStale, hstructural, Bool.false_eq_true, if_false]
  rw [heq]
  split
  next =>
    obtain ⟨-, hdrops⟩ := under_dropStaleInstances m₁ id (hm₁.owned hm)
    exact ⟨Frame.trans hm₁.sameShape hdrops.sameShape,
      Frame.trans hm₁.dropsRefs fun r q hq => hdrops.refs r q hq⟩
  next => exact ⟨hm₁.sameShape, hm₁.dropsRefs⟩

theorem SameShape.settles (h : SameShape m m') (href : DropsRefs m m') :
    Unlinks (fun _ => true) [] m m' := by
  refine ⟨href, fun x => ?_, fun _ _ _ => rfl, fun _ _ _ _ _ _ => rfl⟩
  rw [h.outline]
  cases m.outline? x with
  | none => rfl
  | some o => rw [Option.map_some, Outline.keepLinks_of_all fun _ _ => rfl]

theorem live_unlinkDeadBases {x : SpaceId} {t : Space}
    (ht : m.unlinkDeadBases.2.spaces.get? x = some t) : m.spaces.contains x = true := by
  refine foldl_keeps (P := fun m' : Model => (∃ t, m'.spaces.get? x = some t) →
    m.spaces.contains x = true) (fun m' id h hlive => ?_) _ Pool.contains_iff.2 ⟨t, ht⟩
  exact h (live_modifySpace.1 hlive)

theorem SameShape.settles_unlink (h : SameShape m m') (href : DropsRefs m m') :
    Unlinks m'.spaces.contains m'.unlinkDeadBases.1 m m'.unlinkDeadBases.2 := by
  refine ⟨fun r q hq => ?_, fun x => ?_, fun b t ht => live_unlinkDeadBases ht,
    fun x hx o ho => live_of_not_loser hx ((h.outline x).trans ho)⟩
  · rw [refs_unlinkDeadBases] at hq
    exact href r q hq
  · rw [outline?_unlinkDeadBases, h.outline]

theorem returns_settle (hm : m.Owned) (changes : Changes) : Returns (fun losers m' => ∃ live,
      Unlinks live losers m m' ∧ ((changes.destroyed = false ∧ live = fun _ => true) ∨
        ∀ b, live b = true → ∃ t, m'.spaces.get? b = some t)) (settle id changes) m := by
  unfold settle
  obtain ⟨hsame, href⟩ := dropStale_sameShape hm id changes
  refine returns_modify ?_
  split
  next =>
    refine returns_change ⟨_, hsame.settles_unlink href, .inr fun b hb => ?_⟩
    refine foldl_keeps (P := fun m' : Model => ∃ t, m'.spaces.get? b = some t)
      (fun m' x hlive => live_modifySpace.2 hlive) _ (Pool.contains_iff.1 hb)
  next hintact =>
    exact returns_pure ⟨_, hsame.settles href, .inl ⟨Bool.not_eq_true _ ▸ hintact, rfl⟩⟩

end Settling

/-! ## A derivation -/

/-- What a derivation of the space did, where it went through. -/
structure Derived (id : SpaceId) (m : Model) (changes : Changes) (m' : Model) : Prop where
  reshapes : Reshapes (· = id) (· ∈ changes.follow) m m'
  live : m'.LiveBases
  sound : m'.SoundRefs
  step : m'.Static id → id ∉ changes.follow → (∀ o, m'.outline? id = some o → id ∉ o.links) →
    m'.InStep id

section Derivation

variable {m m₁ m' : Model} {id : SpaceId} {heritage : Heritage} {changes : Changes}
  {live : SpaceId → Bool} {losers : List SpaceId}

theorem Unlinks.reshapes (hunlinks : Unlinks live losers m₁ m')
    (hshaped : Shaped id m changes.follow m₁) :
    Reshapes (· = id) (· ∈ changes.follow ++ losers) m m' := by
  refine ⟨fun r q x hq howner hnot => hshaped.ref r q (hunlinks.ref r q hq) ?_, fun x o' ho' => ?_⟩
  · rw [howner]
    exact fun heq => hnot (Option.some.inj heq)
  · rw [hunlinks.outline] at ho'
    obtain ⟨o₁, ho₁, rfl⟩ := Option.map_eq_some_iff.1 ho'
    rcases hshaped.outline x o₁ ho₁ with ⟨hnone, hfollow⟩ | ⟨o, ho, hdrawn⟩
    · exact .inl ⟨hnone, List.mem_append_left _ hfollow⟩
    refine .inr ⟨o, ho, hdrawn.name, hdrawn.parent, fun hne => hdrawn.members hne, fun hnot => ?_,
      fun hparent c hc hlive => ?_⟩
    · rw [List.mem_append, not_or] at hnot
      rw [Outline.keepLinks_of_all (hunlinks.kept x hnot.2 o₁ ho₁)]
      exact ⟨hdrawn.bases, hdrawn.implicit (.inl hnot.1)⟩
    · obtain ⟨p, hp⟩ := hlive
      obtain ⟨t, ht, -⟩ := outline?_eq_some.1 hp
      refine List.mem_filter.2 ⟨?_, hunlinks.here c t ht⟩
      rw [hdrawn.implicit (.inr fun heq => hparent id heq rfl)]
      exact hc

theorem Unlinks.liveBases (hunlinks : Unlinks live losers m₁ m')
    (links : ∀ x o, m₁.outline? x = some o → ∀ b ∈ o.links, m.Static b)
    (stays : changes.destroyed = false → Stays m m₁)
    (hdead : (changes.destroyed = false ∧ live = fun _ => true) ∨
      ∀ b, live b = true → ∃ t, m'.spaces.get? b = some t)
    (hstatic : KeepsStatic m m') : m'.LiveBases := by
  intro x o' ho' b hb
  rw [hunlinks.outline] at ho'
  obtain ⟨o₁, ho₁, rfl⟩ := Option.map_eq_some_iff.1 ho'
  have hkept := Outline.mem_links_keepLinks hb
  have hbefore := links x o₁ ho₁ b hkept.1
  rcases hdead with ⟨hintact, -⟩ | hdead
  · obtain ⟨p, hp⟩ := static_iff_outline?.1 (stays hintact b hbefore)
    exact ⟨p.keepLinks live, by rw [hunlinks.outline, hp, Option.map_some]⟩
  · obtain ⟨t, ht⟩ := hdead b hkept.2
    exact ⟨t.outline, outline?_of_static ht (hstatic b t ht hbefore)⟩

/-- The bases of a space that is not to be derived again are as they were, and so is what they
list, unless it is a base of its own. -/
theorem Reshapes.bases {follow : SpaceId → Prop} (h : Reshapes (· = id) follow m m')
    (hlive : m.LiveBases) (hlive' : m'.LiveBases) {o' : Outline} (ho' : m'.outline? id = some o')
    (hnot : ¬ follow id) (hself : id ∉ o'.links) : m'.allBases id = m.allBases id ∧
      ∀ b ∈ m.allBases id, b ≠ id ∧ ∃ p p', m.outline? b = some p ∧ m'.outline? b = some p' ∧
        p'.spaces = p.spaces ∧ p'.refs = p.refs := by
  obtain ⟨o, ho, hshifts⟩ := (h.outline id o' ho').resolve_left fun hnew => hnot hnew.2
  have hlinks : o'.links = o.links := by
    rw [Outline.links, (hshifts.links hnot).1, (hshifts.links hnot).2, Outline.links]
  have hall := hlive.allBases_congr hlive' ho ho' hlinks
  refine ⟨hall, fun b hb => ?_⟩
  obtain ⟨p, hp⟩ := hlive.base ho hb
  obtain ⟨p', hp'⟩ := hlive'.base ho' (hall ▸ hb)
  have hne : b ≠ id := by
    rintro rfl
    exact hself (mem_links_of_mem_allBases ho' (hall ▸ hb))
  refine ⟨hne, p, p', hp, hp', ?_⟩
  rcases h.outline b p' hp' with ⟨hnone, -⟩ | ⟨p₁, hp₁, hkept⟩
  · rw [hp] at hnone
    contradiction
  · cases hp.symm.trans hp₁
    exact hkept.members hne

/-- The space itself is in step when it is not to be derived again. -/
theorem Unlinks.inStep (hunlinks : Unlinks live losers m₁ m') (hm : m.Owned) (hm' : m'.Owned)
    (hlive : m.LiveBases) (hlive' : m'.LiveBases) (hh : m.heritage id = .ok heritage)
    (hshaped : Shaped id m changes.follow m₁) (hfollows : Following id heritage [] m₁)
    (hparents : Parenting id heritage [] m₁) (hsourced : ∀ e, ¬ m₁.Unsourced id heritage e)
    (hnot : id ∉ changes.follow ++ losers) {o' : Outline} (ho' : m'.outline? id = some o')
    (hself : id ∉ o'.links) : m'.InStep id := by
  have hreshapes := hunlinks.reshapes hshaped
  obtain ⟨hall, hbases⟩ := hreshapes.bases hlive hlive' ho' hnot hself
  refine ⟨fun r q hq howner hderived => ?_, fun b hb t name c ht hc => ?_⟩
  · -- the heritage has a source for the reference, in a base that did not change
    have hgives : heritage.refs.contains q.name = true := by
      rw [← Bool.not_eq_false]
      exact fun hnone => hsourced _ (.ref (hunlinks.ref r q hq) howner hderived hnone)
    obtain ⟨d, hd⟩ := Option.isSome_iff_exists.1 hgives
    obtain ⟨b, hb, s, source, hs, hlisted, hsource, hsowner, -, hfound⟩ :=
      sourceOf?_of_heritage hm hh hd
    refine ⟨source, ?_, ?_⟩
    · rw [← hfound, sourceOf?, sourceOf?, hall, ← List.head?_filterMap, ← List.head?_filterMap]
      refine congrArg List.head? (List.filterMap_congr fun β hβ => ?_)
      obtain ⟨hne, p, p', hp, hp', -⟩ := hbases β hβ
      exact hreshapes.refOf? hm' hp hp' hne q.name
    · obtain ⟨hne, p, p', hp, hp', -, hrefs⟩ := hbases b hb
      obtain ⟨s₀, hs₀, -, rfl⟩ := outline?_eq_some.1 hp
      cases hs.symm.trans hs₀
      obtain ⟨s', hs', -, rfl⟩ := outline?_eq_some.1 hp'
      obtain ⟨q', hq', howner', -⟩ := hm'.ref_of_listed hs'
        (by rw [show s'.refs = s.refs from hrefs, hlisted])
      have hold := hreshapes.ref d q' b hq' howner' hne
      cases hsource.symm.trans hold
      refine hfollows r q (hunlinks.ref r q hq) howner hderived (by simp) d hd source
        (hunlinks.ref d source hq') ?_
      rw [hsowner]
      exact fun heq => hne (Option.some.inj heq)
  · rw [hall] at hb
    obtain ⟨-, p, p', hp, hp', hspaces, -⟩ := hbases b hb
    obtain ⟨t₀, ht₀, -, rfl⟩ := outline?_eq_some.1 hp
    obtain ⟨t', ht', hstatic, rfl⟩ := outline?_eq_some.1 hp'
    cases ht.symm.trans ht'
    rw [show t.spaces = t₀.spaces from hspaces] at hc
    have hmem := mem_heritage_spaces hh hb ht₀ hc
    obtain ⟨sources, hsources⟩ : ∃ sources, heritage.spaces.get? name = some sources := by
      cases hget : heritage.spaces.get? name with
      | none =>
        rw [hget] at hmem
        contradiction
      | some sources => exact ⟨sources, rfl⟩
    rw [hsources, Option.getD_some] at hmem
    obtain ⟨o, d, p₁, ho, hd, hp₁, himplicit⟩ := hparents name sources hsources (by simp)
    have ho₁ := hunlinks.outline id
    rw [ho', ho, Option.map_some, Option.some.injEq] at ho₁
    subst ho₁
    obtain ⟨s', hs', -, heq⟩ := outline?_eq_some.1 ho'
    have hp₁' : m'.outline? d = some (p₁.keepLinks live) := by
      rw [hunlinks.outline, hp₁, Option.map_some]
    obtain ⟨u, hu, -, hueq⟩ := outline?_eq_some.1 hp₁'
    obtain ⟨v, hv, -⟩ := hm'.child_of_listed ht
      (by rw [show t.spaces = t₀.spaces from hspaces, hc])
    refine ⟨s', d, u, hs', ?_, hu, ?_⟩
    · rw [show s'.spaces = o.spaces from congrArg Outline.spaces heq, hd]
    · rw [show u.implicitBases = p₁.implicitBases.filter live from
        congrArg Outline.implicitBases hueq, himplicit]
      exact List.mem_filter.2 ⟨hmem, hunlinks.here c v hv⟩

/-- How a derivation goes through: a replica is left alone, a static space gets its members. -/
theorem derive_eq_ok (hrun : derive id m = some (.ok changes, m')) :
    (¬ m.Static id ∧ changes = {} ∧ m' = m) ∨ ∃ heritage found m₁ losers, m.Static id ∧
      m.heritage id = .ok heritage ∧ deriveMembers id heritage m = some (.ok found, m₁) ∧
        settle id found m₁ = some (.ok losers, m') ∧
          changes = { found with follow := found.follow ++ losers } := by
  unfold derive at hrun
  rw [read_bind] at hrun
  split at hrun
  next s hs =>
    replace hs := space_eq_ok.1 hs
    split at hrun
    next hreplica =>
      cases hrun
      refine .inl ⟨fun hself => ?_, rfl, rfl⟩
      rw [hself.isStatic hs] at hreplica
      cases hreplica
    next hstatic =>
      rw [read_bind] at hrun
      split at hrun
      next heritage hh =>
        rcases (bind_eq_some m).1 hrun with ⟨found, m₁, hmembers, hrest⟩ | ⟨e, -, heq⟩
        · rcases (bind_eq_some m₁).1 hrest with ⟨losers, m₂, hsettle, hpure⟩ | ⟨e, -, heq⟩
          · cases hpure
            exact .inr ⟨heritage, found, m₁, losers, ⟨s, hs, by simpa using hstatic⟩, hh, hmembers,
              hsettle, rfl⟩
          · cases heq
        · cases heq
      next => cases hrun
  next => cases hrun

/-- There was room when the members had been derived. -/
theorem addressable_of_settle (hsettle : settle id changes m₁ = some (.ok losers, m'))
    (small : m'.Addressable) : m₁.Addressable :=
  ((ensures_settle (fun _ => False) (fun _ => False) changes).fits m₁ _ m' hsettle).addressable
    small

theorem Faithful.derived {sites : SpaceId → Prop} (hm : m.Faithful sites)
    (hlive : m.LiveBases) (hsound : m.SoundRefs)
    (hrun : derive id m = some (.ok changes, m')) (small : m'.Addressable) :
    Derived id m changes m' := by
  have hend := steady_derive (lasting_keepsStatic m) id m _ m' hrun fun _ =>
    ⟨hm, fun x t ht hx => hx.isStatic ht⟩
  obtain ⟨hfaithful', hstatic⟩ := hend.1 small
  rcases derive_eq_ok hrun with ⟨hreplica, rfl, rfl⟩ |
    ⟨heritage, found, m₁, losers, hself, hh, hmembers, hsettle, rfl⟩
  · exact ⟨(Frame.refl m' : SameShape m' m').reshapes, hlive, hsound,
      fun hself => absurd hself hreplica⟩
  · have small₁ := addressable_of_settle hsettle small
    obtain ⟨s, hs, hisStatic⟩ := hself
    have hderiving := hm.deriving hs hisStatic hh
    have hrefs : ∀ name r, heritage.refs.get? name = some r → SourceRef m name r :=
      fun name r hr => sourceRef_of_heritage hm.owned hsound hh hr
    have hbases := fun name sources (hsources : heritage.spaces.get? name = some sources) =>
      static_of_heritage hm.owned hlive ⟨s, hs, hisStatic⟩ hh hsources
    obtain ⟨_, heq, hd, hwanes, hfollows, hparents⟩ := (ensures_membersInStep hrefs hbases
      m _ m₁ hmembers).2 small₁ ⟨hderiving, Shaped.refl hlive hsound, Frame.refl m, rfl⟩
    cases heq
    obtain ⟨_, heq, -, -, hsourced⟩ := (ensures_deriveMembers
      (lasting_true.withstands trivial) m _ m₁ hmembers).2 small₁ ⟨hderiving, trivial⟩
    cases heq
    obtain ⟨live, hunlinks, hdead⟩ := returns_settle hd.owned found losers m' hsettle
    have hlive' := hunlinks.liveBases hwanes.links hwanes.stays hdead hstatic
    refine ⟨hunlinks.reshapes hwanes.toShaped, hlive', hunlinks.ref.sound hwanes.sound,
      fun hself' hnot hloop => ?_⟩
    obtain ⟨o', ho'⟩ := static_iff_outline?.1 hself'
    exact hunlinks.inStep hm.owned hfaithful'.owned hlive hlive' hh hwanes.toShaped hfollows
      hparents hsourced hnot ho' (hloop o' ho')

end Derivation

/-! ## A wave -/

theorem mem_enqueue {queue more : List SpaceId} {x : SpaceId} :
    x ∈ enqueue queue more ↔ x ∈ queue ∨ x ∈ more := by
  unfold enqueue
  induction more generalizing queue with
  | nil => simp
  | cons id more ih =>
    rw [List.foldl_cons, ih]
    split
    next h =>
      rw [List.contains_eq_mem, decide_eq_true_eq] at h
      grind
    next => grind

/-- Whoever has the space among its links is an heir. -/
theorem mem_heirs {m : Model} {id x : SpaceId} {o : Outline} (ho : m.outline? x = some o)
    (hid : id ∈ o.links) : x ∈ m.heirs id := by
  obtain ⟨s, hs, -, rfl⟩ := outline?_eq_some.1 ho
  refine List.mem_map.2 ⟨(x, s), List.mem_filter.2 ⟨Pool.mem_entries_of_get? hs, ?_⟩, rfl⟩
  rw [List.contains_eq_mem, decide_eq_true_eq]
  exact hid

section Waves

variable {m m' : Model} {id : SpaceId} {sites : SpaceId → Prop}

/-- After a derivation the space is in step or its own heir, and only spaces that were pending,
follow or inherit from it may be out of step. -/
theorem InStepBut.derive {pending : SpaceId → Prop} {changes : Changes} (hm : m.Faithful sites)
    (h : InStepBut pending m) (hrun : derive id m = some (.ok changes, m'))
    (hm' : m'.Owned) (small : m'.Addressable) : InStepBut (fun x => (pending x ∧ x ≠ id) ∨
      x ∈ changes.follow ∨ x ∈ m'.heirs id) m' := by
  have hderived := hm.derived h.live h.sound hrun small
  have hafter := h.reshape hm.owned hm' hderived.reshapes hderived.live hderived.sound
  refine ⟨hderived.live, hderived.sound, fun x hx hnot => ?_⟩
  simp only [not_or, not_and, Decidable.not_not] at hnot
  obtain ⟨hpending, hfollow, hheir⟩ := hnot
  have hlinks : ∀ o, m'.outline? x = some o → id ∉ o.links :=
    fun o ho hid => hheir (mem_heirs ho hid)
  by_cases heq : x = id
  · subst heq
    exact hderived.step hx hfollow hlinks
  · refine hafter.step x hx ?_
    rintro (hp | rfl | hf | ⟨o, ho, b, hb, rfl⟩)
    · exact heq (hpending hp)
    · exact heq rfl
    · exact hfollow hf
    · exact hlinks o ho hb

/-- When a wave is through nothing of its queue is pending any more. -/
theorem InStepBut.wave (fuel : Nat) {stalled : Nat} {queue : List SpaceId} {summary done : Summary}
    (hm : m.Faithful sites) (h : InStepBut (· ∈ queue) m)
    (hrun : wave fuel stalled queue summary m = some (.ok done, m')) (small : m'.Addressable) :
    InStepBut (fun _ => False) m' := by
  induction fuel generalizing stalled queue summary m with
  | zero => cases hrun
  | succ fuel ih =>
    cases queue with
    | nil =>
      cases hrun
      exact h.mono fun x _ hx => absurd hx List.not_mem_nil
    | cons id rest =>
      unfold Model.wave at hrun
      rw [get_bind] at hrun
      split at hrun
      next hgone =>
        refine ih hm (h.mono fun x hx hmem => (List.mem_cons.1 hmem).resolve_left ?_) hrun
        rintro rfl
        obtain ⟨s, hs, -⟩ := hx
        rw [Bool.not_eq_true', ← Bool.not_eq_true] at hgone
        exact hgone (Pool.contains_iff.2 ⟨s, hs⟩)
      next =>
        split at hrun
        next =>
          refine ih hm (h.mono fun x _ hmem => ?_) hrun
          rcases List.mem_cons.1 hmem with rfl | hmem
          · exact List.mem_append_right _ List.mem_cons_self
          · exact List.mem_append_left _ hmem
        next =>
          rcases (bind_eq_some m).1 hrun with ⟨changes, m₁, hderive, hrest⟩ | ⟨e, -, heq⟩
          swap
          · cases heq
          rw [get_bind] at hrest
          have hsteady := steady_derive lasting_true id m _ m₁ hderive fun _ => ⟨hm, trivial⟩
          have small₁ := (obeys_wave (R := fun _ => Under (Steady sites fun _ => True) Fits)
            (steady_derive lasting_true) fuel 0 _ _ m₁ _ m' hrest hsteady.1).2.addressable small
          have hm₁ := (hsteady.1 small₁).1
          refine ih hm₁ ((h.derive hm hderive hm₁.owned small₁).mono fun x _ hx => ?_) hrest
          rw [mem_enqueue, List.mem_append]
          rcases hx with ⟨hmem, hne⟩ | hfollow | hheir
          · exact .inl ((List.mem_cons.1 hmem).resolve_left hne)
          · exact .inr (.inl hfollow)
          · exact .inr (.inr hheir)

/-- A wave begins with the live spaces that it starts from, and with their heirs. -/
theorem frontier_closed (m : Model) (starts : List SpaceId) :
    (∀ x ∈ starts, (∃ s, m.spaces.get? x = some s) → x ∈ m.frontier starts) ∧
      ∀ x ∈ m.frontier starts, ∀ y ∈ m.heirs x, y ∈ m.frontier starts := by
  have hinside : ∀ x ∈ (starts.filter m.spaces.contains).reverse,
      m.spaces.ids.contains x = true := by
    intro x hx
    obtain ⟨s, hs⟩ := Pool.contains_iff.1 (List.mem_filter.1 (List.mem_reverse.1 hx)).2
    rw [List.contains_eq_mem, decide_eq_true_eq]
    exact List.mem_map.2 ⟨(x, s), Pool.mem_entries_of_get? hs, rfl⟩
  have hheirs : ∀ x, m.spaces.ids.contains x = true → ∀ y ∈ m.heirs x,
      m.spaces.ids.contains y = true := by
    intro x _ y hy
    obtain ⟨e, he, rfl⟩ := List.mem_map.1 hy
    rw [List.contains_eq_mem, decide_eq_true_eq]
    exact List.mem_map_of_mem (List.mem_filter.1 he).1
  have henough : m.spaces.ids.length ≤ m.spaces.capacity := by
    rw [Pool.ids, List.length_map]
    exact Pool.length_entries_le m.spaces
  obtain ⟨hstack, hclosed⟩ := reachFrom_closed m.heirs m.spaces.ids m.spaces.capacity
    (starts.filter m.spaces.contains).reverse hinside hheirs henough
  simp only [List.contains_eq_mem, decide_eq_true_eq] at hstack hclosed
  refine ⟨fun x hx hs => hstack x ?_, hclosed⟩
  exact List.mem_reverse.2 (List.mem_filter.2 ⟨hx, Pool.contains_iff.2 hs⟩)

/-- What is pending is derived from the spaces that were edited. -/
theorem InStepBut.deriveFrom (fuel : Nat) {pending : SpaceId → Prop} {starts : List SpaceId}
    {done : Summary} (hm : m.Faithful sites) (h : InStepBut pending m)
    (hpending : ∀ x, pending x → x ∈ starts ∨ ∃ y ∈ starts, m.Static y ∧ x ∈ m.heirs y)
    (hrun : deriveFrom fuel starts m = some (.ok done, m')) (small : m'.Addressable) :
    InStepBut (fun _ => False) m' := by
  obtain ⟨hstarts, hclosed⟩ := frontier_closed m starts
  have hfrontier : InStepBut (· ∈ m.frontier starts) m := by
    refine h.mono fun x hx hp => ?_
    rcases hpending x hp with hmem | ⟨y, hy, hstatic, hheir⟩
    · obtain ⟨s, hs, -⟩ := hx
      exact hstarts x hmem ⟨s, hs⟩
    · obtain ⟨s, hs, -⟩ := hstatic
      exact hclosed y (hstarts y hy ⟨s, hs⟩) x hheir
  exact hfrontier.wave fuel hm hrun small

end Waves

end Model

end Recalc
