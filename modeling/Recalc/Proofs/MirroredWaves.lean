import Recalc.Proofs.Arrangement

set_option autoImplicit false

/-!
# Waves keep mirrors

A space is derived as a whole or, when its bases conflict, not at all. In both cases replicas are
mirrors afterwards, and so they are after a wave. A condition that lasts holds after a wave when it
held before.
-/

namespace Recalc.Model

open Recalc.Action

/-- Everything is listed at home under a name of its own, and every replica is a mirror. No space of
`sites` has instances, and none around such a space. -/
structure Faithful (sites : SpaceId → Prop) (m : Model) : Prop where
  owned : m.Owned
  arranged : m.Arranged
  mirrored : m.Mirrored
  vacant : ∀ x, sites x → m.Vacant x

def Upright (sites : SpaceId → Prop) (m : Model) : Prop := m.Addressable → m.Faithful sites

def Steady (sites : SpaceId → Prop) (R : Model → Prop) (m : Model) : Prop :=
  m.Addressable → m.Faithful sites ∧ R m

section Settling

variable {m m' : Model} {id : SpaceId} {sites around : SpaceId → Prop} {changes : Changes}

theorem Drops.rests (h : Drops m m') : m.Rests m' := by
  intro x s s' hs hs'
  obtain ⟨t, ht, heq, hsub⟩ := h.space x s' hs'
  cases hs.symm.trans ht
  refine ⟨?_, fun k hk => ?_⟩
  · rw [heq]
    exact ⟨rfl, rfl, rfl, fun _ => rfl, fun _ => rfl⟩
  · cases hi : s'.instances.get? k with
    | none => rfl
    | some i =>
      rw [hsub k i hi] at hk
      contradiction

theorem Vacant.drops (h : m.Vacant id) (hm : m.Owned) (hm' : m'.Owned) (hdrops : Drops m m') :
    m'.Vacant id := by
  intro s' hs'
  obtain ⟨s, hs, -⟩ := hdrops.space id s' hs'
  exact h.rests hm hm' hdrops.rests hs s' hs'

theorem Faithful.drops (h : m.Faithful sites) (hm' : m'.Owned) (hdrops : Drops m m') :
    m'.Faithful sites :=
  ⟨hm', hdrops.thins.arranged h.owned h.arranged, h.mirrored.drops h.owned hm' hdrops,
    fun x hx => (h.vacant x hx).drops h.owned hm' hdrops⟩

/-- What is around a static space is static. -/
theorem Owned.static_of_mem_ancestry (hm : m.Owned) {s t : Space} {a : SpaceId}
    (hs : m.spaces.get? id = some s) (hstatic : s.isStatic = true) (ha : a ∈ m.ancestry id)
    (ht : m.spaces.get? a = some t) : t.isStatic = true := by
  have key : ∀ id, m.Grounded id → ∀ s, m.spaces.get? id = some s → s.isStatic = true →
      a ∈ m.ancestry id → t.isStatic = true := by
    intro id hid
    induction hid with
    | intro id u hu _ ih =>
      intro s hs hstatic ha
      cases hu.symm.trans hs
      rcases (hm.mem_ancestry hs hstatic).1 ha with rfl | ⟨p, hp, ha⟩
      · cases ht.symm.trans hs
        exact hstatic
      · obtain ⟨q, hq, hqstatic, -⟩ := hm.static_holder hs hstatic hp
        exact ih p (by rw [home_space?_of_static hstatic, hp]) q hq hqstatic ha
  exact key id (hm.grounded id s hs) s hs hstatic ha

theorem vacant_dropStaleInstances (hm : m.Owned) {s : Space} (hs : m.spaces.get? id = some s)
    (hstatic : s.isStatic = true) : (m.dropStaleInstances id).Vacant id := by
  obtain ⟨hm', hdrops⟩ := under_dropStaleInstances m id hm
  intro s' hs'
  refine ⟨(hdrops.rests id s s' hs hs').1.isStatic.trans hstatic, fun a ha => ?_⟩
  rw [hm.mem_ancestry_congr hm' (fun x t t' ht ht' => (hdrops.rests x t t' ht ht').1) hs hs'
    hstatic] at ha
  obtain ⟨t, ht⟩ := live_of_mem_ancestryFrom ha
  exact cleared_dropStaleInstances hm ha ht (hm.static_of_mem_ancestry hs hstatic ha ht)

/-- A child without instances of a vacant space. -/
theorem Vacant.child (hm : m.Owned) (h : m.Vacant id) {x : SpaceId} (hcleared : m.Cleared x)
    (hx : ∀ t, m.spaces.get? x = some t → t.isStatic = true ∧ t.parent = some id) :
    m.Vacant x := by
  intro t ht
  obtain ⟨hstatic, hparent⟩ := hx t ht
  refine ⟨hstatic, fun a ha => ?_⟩
  rcases (hm.mem_ancestry ht hstatic).1 ha with rfl | ⟨p, hp, ha⟩
  · exact hcleared
  · cases hparent.symm.trans hp
    obtain ⟨s, hs, -⟩ := hm.static_holder ht hstatic hparent
    exact (h s hs).2 a ha

/-- When the instances around the space are dropped all replicas left are mirrors. -/
theorem Deriving.dropped (h : Deriving id sites around [] [] changes m) (ha : m.Arranged) :
    (m.dropStaleInstances id).Faithful fun x => sites x ∨ x = id := by
  obtain ⟨s, hs, hstatic⟩ := h.self
  obtain ⟨hm', hdrops⟩ := under_dropStaleInstances m id h.owned
  have hself := vacant_dropStaleInstances h.owned hs hstatic
  refine ⟨hm', hdrops.thins.arranged h.owned ha, ?_, fun x hx => ?_⟩
  · refine MirroredBut.dropStale h.owned (h.mirrored.mono fun a ha => .inr ?_)
    exact (h.ancestry a).2 ha.2
  · rcases hx with hx | rfl
    · rcases h.vacant x hx with hvacant | ⟨-, hcleared, hnew⟩
      · exact hvacant.drops h.owned hm' hdrops
      · refine hself.child hm' (hcleared.drops hdrops) fun t' ht' => ?_
        obtain ⟨t, ht, heq, -⟩ := hdrops.space x t' ht'
        rw [heq]
        exact hnew t ht
    · exact hself

theorem Faithful.mono {sites' : SpaceId → Prop} (h : m.Faithful sites)
    (hsites : ∀ x, sites' x → sites x) : m.Faithful sites' :=
  { h with vacant := fun x hx => h.vacant x (hsites x hx) }

theorem Deriving.faithful (h : Deriving id sites around [] [] changes m) (ha : m.Arranged) :
    (dropStale id changes m).Faithful sites := by
  obtain ⟨m₁, hm₁, heq⟩ : ∃ m₁, Alike m m₁ ∧ dropStale id changes m =
      if changes.structural || changes.redefined then m₁.dropStaleInstances id else m₁ := by
    cases hstructural : changes.structural with
    | true =>
      refine ⟨(m.invalidateSpace id).2, (forgetsSome_invalidateSpace m id).alike, ?_⟩
      simp only [dropStale, hstructural, if_true]
    | false =>
      refine ⟨m, Frame.refl m, ?_⟩
      simp only [dropStale, hstructural, Bool.false_eq_true, if_false]
  replace ha := hm₁.drops.thins.arranged h.owned ha
  replace h := h.alike hm₁
  rw [heq]
  split
  next => exact (h.dropped ha).mono fun _ => .inl
  next hstale =>
    have hfresh : ¬ changes.Stale := by
      rw [Bool.or_eq_true] at hstale
      exact hstale
    refine ⟨h.owned, ha, h.mirrored.mono fun a hstale => hfresh hstale.1, fun x hx => ?_⟩
    exact (h.vacant x hx).resolve_right fun hnew => hfresh hnew.1

/-- Where there were no instances around the space none became stale. -/
theorem Deriving.vacated (h : Deriving id sites around [] [] changes m) (ha : m.Arranged)
    (hsite : sites id) : m.Faithful sites := by
  obtain ⟨s, hs, hstatic⟩ := h.self
  have hself : m.Vacant id := by
    refine (h.vacant id hsite).resolve_right fun ⟨_, _, hnew⟩ => ?_
    -- no space is its own parent
    have hhome : s.home.space? = some id := by
      rw [Space.home_of_static hstatic, (hnew s hs).2]
      rfl
    exact h.owned.not_within hs ⟨_, home?_space hs, hhome⟩ .self
  refine ⟨h.owned, ha, fun x t a ht hanchor _ => ?_, fun x hx => ?_⟩
  · by_cases hmem : a ∈ m.ancestry id
    · exact .static (hanchor.static_of_cleared h.owned ((hself s hs).2 a hmem) t ht)
    · exact h.mirrored x t a ht hanchor fun hstale => hmem ((h.ancestry a).2 hstale.2)
  · rcases h.vacant x hx with hvacant | ⟨-, hcleared, hnew⟩
    · exact hvacant
    · exact hself.child h.owned hcleared hnew

theorem Faithful.rebase (h : m.Faithful sites) {f : Space → Space}
    (hf : ∀ s, Space.Retouches s (f s)) (hsig : ∀ s, (f s).signature = s.signature)
    (hreplica : ∀ s, s.isStatic = false → f s = s) : (m.modifySpace id f).Faithful sites := by
  have hm' : (m.modifySpace id f).Owned := owned_retouch h.owned hf
  refine ⟨hm', (thins_modifySpace fun s => (hf s).toLike).arranged h.owned h.arranged,
    mirrored_rebase h.owned h.mirrored hf hsig hreplica, fun x hx s' hs' => ?_⟩
  obtain ⟨s, hs⟩ := live_modifySpace.1 ⟨s', hs'⟩
  exact (h.vacant x hx).rests h.owned hm' (rests_retouch hf) hs s' hs'

theorem Faithful.unlinkDeadBases (h : m.Faithful sites) : m.unlinkDeadBases.2.Faithful sites := by
  refine foldl_keeps (P := Faithful sites) (fun m' id h => ?_) _ h
  refine h.rebase (fun s => ?_) (fun s => ?_) fun s hs => ?_
  · have hbases := Space.retouches_setBases (List.filter m.spaces.contains) s
    exact hbases.trans (Space.retouches_setImplicitBases _ _)
  · rw [Space.signature_setImplicitBases, Space.signature_setBases]
  · rw [Space.setBases_of_replica _ s hs, Space.setImplicitBases_of_replica _ s hs]

end Settling

section Waves

variable {id : SpaceId} {sites around : SpaceId → Prop} {R : Model → Prop}
  {owes : SpaceId → Heritage → Prop}

section Phases

/-- What is done for every entry of a map ensures what each step ensures, and a condition that each
step leaves. -/
theorem ensures_every {β : Type} {t : NameMap β} {act : String × β → Action Changes}
    {P : List (String × β) → Changes → Model → Prop}
    (step : ∀ e l before, Ensures (P (e :: l) before) (act e) fun changes => P l (before ++ changes))
    (leaves : ∀ m e l before, P (e :: l) before m → t.get? e.1 = some e.2 → R m →
      Leaves R (act e) m) (before : Changes) :
    Ensures (fun m => P t.entries before m ∧ R m) (collect act t.entries)
      fun changes m => P [] (before ++ changes) m ∧ R m := by
  -- the entries that are still to come are entries of the map
  have hstep : ∀ (e : String × β) l before,
      Ensures (fun m => (P (e :: l) before m ∧ ∀ x ∈ e :: l, t.get? x.1 = some x.2) ∧ R m) (act e)
        fun changes m => (P l (before ++ changes) m ∧ ∀ x ∈ l, t.get? x.1 = some x.2) ∧ R m := by
    intro e l before
    have hentries := (step e l before).leaves (R := fun _ => ∀ x ∈ e :: l, t.get? x.1 = some x.2)
      (S := fun _ => ∀ x ∈ e :: l, t.get? x.1 = some x.2) fun _ _ h _ _ _ _ => h
    refine (hentries.leaves (R := R) (S := R) fun m hm hr => ?_).mono (fun _ hm => hm)
      fun _ _ hm => ?_
    · exact leaves m e l before hm.1 (hm.2 e List.mem_cons_self) hr
    · exact ⟨⟨hm.1.1, fun x hx => hm.1.2 x (List.mem_cons_of_mem _ hx)⟩, hm.2⟩
  have hcollect := ensures_collect (P := fun l before m =>
    (P l before m ∧ ∀ x ∈ l, t.get? x.1 = some x.2) ∧ R m) hstep t.entries before
  refine hcollect.mono (fun m hm => ⟨⟨hm.1, fun x hx => ?_⟩, hm.2⟩) fun _ _ hm => ⟨hm.1.1, hm.2⟩
  exact NameMap.mem_entries.1 hx

variable (before : Changes) (rs : List RefId) {heritage : Heritage}
  (withstands : Withstands R id heritage)
include withstands

/-- Members are dropped that were listed when it began, and then none is left that the heritage does
not account for. -/
theorem ensures_dropEvery {β : Type} {listing : Space → NameMap β}
    {drop : String × β → Action Changes} (entity : β → Entity) {kind : MemberKind}
    (lists : ∀ s name e, e.kind = kind → Space.lists s (kind.place id name) = some e →
      ∃ b, (listing s).get? name = some b ∧ entity b = e)
    (step : ∀ e l before,
      Ensures (fun m => Deriving id sites around [] rs before m ∧ Lists listing id (e :: l) m)
        (drop e) fun changes m =>
          Deriving id sites around [] rs (before ++ changes) m ∧ Lists listing id l m)
    (leaves : ∀ {R : Model → Prop}, Withstands R id heritage → ∀ m e s, m.Owned → m.Static id →
      R m → m.spaces.get? id = some s → (listing s).get? e.1 = some e.2 → Leaves R (drop e) m)
    (sourced : ∀ m e s, m.Owned → m.spaces.get? id = some s → s.isStatic = true →
      (listing s).get? e.1 = some e.2 →
        Ends (fun m' => ¬ m'.Unsourced id heritage (entity e.2)) (drop e) m) :
    Ensures (fun m => Deriving id sites around [] rs before m ∧ R m)
      (do collect drop (listing (← read (·.space id))).entries)
      fun changes m => Deriving id sites around [] rs (before ++ changes) m ∧
        R m ∧ Pending id heritage kind [] m := by
  refine ensures_bind (ensures_space fun m hm => hm.1.live) fun s => ?_
  have pending : ∀ e (l : List (String × β)) before, Ensures (fun m =>
        (Deriving id sites around [] rs before m ∧ Lists listing id (e :: l) m) ∧
          Pending id heritage kind ((e :: l).map fun e => entity e.2) m) (drop e) fun changes m =>
        (Deriving id sites around [] rs (before ++ changes) m ∧ Lists listing id l m) ∧
          Pending id heritage kind (l.map fun e => entity e.2) m := by
    refine fun e l before => (step e l before).leaves fun m hm hpending r m' hrun small => ?_
    obtain ⟨s, hs, hlisted⟩ := hm.2.head
    have hstatic := Static.isStatic hm.1.self hs
    have hkept := leaves (withstands_pending kind _) m e s hm.1.owned hm.1.self hpending hs hlisted
      r m' hrun small
    -- what was just looked at is accounted for, or has gone
    intro e' hunsourced hkind
    refine (List.mem_cons.1 (hkept e' hunsourced hkind)).resolve_left ?_
    rintro rfl
    exact sourced m e s hm.1.owned hs hstatic hlisted r m' hrun hunsourced
  have hevery := ensures_every (R := R) (t := listing s) (P := fun l before m =>
    (Deriving id sites around [] rs before m ∧ Lists listing id l m) ∧
      Pending id heritage kind (l.map fun e => entity e.2) m) pending
    (fun m e l before hm _ hr => ?_) before
  · refine hevery.mono (fun m hm => ⟨⟨⟨hm.1.1, lists_entries hm.2⟩, ?_⟩, hm.1.2⟩)
      fun _ _ hm => ⟨hm.1.1.1, hm.2, hm.1.2⟩
    intro e hunsourced hkind
    obtain ⟨l, hl, hholder, -⟩ := unsourced_iff.1 hunsourced
    have hlisted := (memberAt_iff.2 ⟨l, hl, hholder, rfl⟩).lists hm.1.1.owned hm.2
    rw [hkind] at hlisted
    obtain ⟨b, hb, rfl⟩ := lists s l.name e hkind hlisted
    exact List.mem_map.2 ⟨(l.name, b), NameMap.mem_entries.2 hb, rfl⟩
  · obtain ⟨s, hs, hlisted⟩ := hm.1.2.head
    exact leaves withstands m e s hm.1.1.owned hm.1.1.self hr hs hlisted

theorem ensures_everyCells :
    Ensures (fun m => Deriving id sites around heritage.cells.values rs before m ∧ R m)
      (collect (fun e => deriveCells id e.1 e.2) heritage.cells.entries)
      fun changes m => Deriving id sites around [] rs (before ++ changes) m ∧ R m :=
  ensures_every (P := fun l before => Deriving id sites around (l.map Prod.snd) rs before)
    (fun e l _ => ensures_deriveCells e.1 e.2 (l.map Prod.snd))
    (fun _ _ _ _ hm hname hr => leaves_deriveCells withstands hm.owned hm.self hr hname) before

theorem ensures_dropEveryCells :
    Ensures (fun m => Deriving id sites around [] rs before m ∧ R m)
      (do collect (dropCells id heritage) (← read (·.space id)).cells.entries)
      fun changes m => Deriving id sites around [] rs (before ++ changes) m ∧
        R m ∧ Pending id heritage .cells [] m := by
  refine ensures_dropEvery before rs withstands .cells (fun s name e _ h => ?_)
    (fun e l _ => ensures_dropCells heritage e l)
    (fun withstands m e s hm hself hr => leaves_dropCells withstands hm hself hr)
    fun m e s hm hs hstatic => sourced_dropCells hm hs hstatic
  exact Option.map_eq_some_iff.1 h

theorem ensures_everyRef :
    Ensures (fun m => Deriving id sites around [] heritage.refs.values before m ∧ R m)
      (collect (fun e => deriveRef id e.1 e.2) heritage.refs.entries)
      fun changes m => Deriving id sites around [] [] (before ++ changes) m ∧ R m :=
  ensures_every (P := fun l before => Deriving id sites around [] (l.map Prod.snd) before)
    (fun e l _ => ensures_deriveRef e.1 e.2 (l.map Prod.snd))
    (fun _ _ _ _ hm hname hr => leaves_deriveRef withstands hm.owned hm.self hr hname) before

theorem ensures_dropEveryRef :
    Ensures (fun m => Deriving id sites around [] [] before m ∧ R m)
      (do collect (dropRef id heritage) (← read (·.space id)).refs.entries)
      fun changes m => Deriving id sites around [] [] (before ++ changes) m ∧
        R m ∧ Pending id heritage .reference [] m := by
  refine ensures_dropEvery before [] withstands .ref (fun s name e _ h => ?_)
    (fun e l _ => ensures_dropRef heritage e l)
    (fun withstands m e s hm hself hr => leaves_dropRef withstands hm hself hr)
    fun m e s hm hs hstatic => sourced_dropRef hm hs hstatic
  exact Option.map_eq_some_iff.1 h

theorem ensures_everyChild :
    Ensures (fun m => Deriving id sites around [] [] before m ∧ R m)
      (collect (fun e => deriveChild id e.1 e.2) heritage.spaces.entries)
      fun changes m => Deriving id sites around [] [] (before ++ changes) m ∧ R m :=
  ensures_every (P := fun (_ : List (String × List SpaceId)) before =>
      Deriving id sites around [] [] before)
    (fun e _ _ => ensures_deriveChild e.1 e.2)
    (fun _ _ _ _ hm hname hr => leaves_deriveChild withstands hm.owned hm.self hr hname) before

theorem ensures_dropEveryChild :
    Ensures (fun m => Deriving id sites around [] [] before m ∧ R m)
      (do collect (dropChild id heritage) (← read (·.space id)).spaces.entries)
      fun changes m => Deriving id sites around [] [] (before ++ changes) m ∧
        R m ∧ Pending id heritage .space [] m := by
  refine ensures_dropEvery before [] withstands .space (fun s name e _ h => ?_)
    (fun e l _ => ensures_dropChild heritage e l)
    (fun withstands m e s hm hself hr => leaves_dropChild withstands hm hself hr)
    fun m e s hm hs hstatic => sourced_dropChild hm hs hstatic
  exact Option.map_eq_some_iff.1 h

end Phases

/-- Once the members are derived the heritage accounts for every derived one. -/
theorem ensures_deriveMembers {heritage : Heritage} (withstands : Withstands R id heritage) :
    Ensures (fun m =>
        Deriving id sites around heritage.cells.values heritage.refs.values {} m ∧ R m)
      (deriveMembers id heritage) fun changes m => Deriving id sites around [] [] changes m ∧
        R m ∧ ∀ e, ¬ m.Unsourced id heritage e := by
  have hcells : Ensures (fun m =>
      Deriving id sites around heritage.cells.values heritage.refs.values {} m ∧ R m) _ _ :=
    ensures_everyCells {} heritage.refs.values withstands
  have withCells := withstands.and (withstands_pending .cells [])
  have withRefs := withCells.and (withstands_pending .reference [])
  have withSpaces := withRefs.and (withstands_pending .space [])
  have hphases := ensures_bind hcells fun cells =>
    ensures_bind (ensures_dropEveryCells _ _ withstands) fun noCells =>
    ensures_bind (ensures_everyRef _ withCells) fun refs =>
    ensures_bind (ensures_dropEveryRef _ withCells) fun noRefs =>
    ensures_bind (ensures_everyChild _ withRefs) fun spaces =>
    ensures_bind (ensures_dropEveryChild _ withRefs) fun noSpaces =>
    ensures_bind ((ensures_deriveSignature heritage).leaves fun m hm hr =>
      leaves_deriveSignature withSpaces hm.owned hm.self hr) fun signature =>
    ensures_pure (Q := fun changes m => Deriving id sites around [] [] changes m ∧
        R m ∧ ∀ e, ¬ m.Unsourced id heritage e)
      (a := cells ++ noCells ++ refs ++ noRefs ++ spaces ++ noSpaces ++ signature) fun m hm => by
        rw [empty_append] at hm
        obtain ⟨hd, ⟨⟨hr, hcells⟩, hrefs⟩, hspaces⟩ := hm
        refine ⟨hd, hr, fun e hunsourced => ?_⟩
        cases hkind : e.kind with
        | cells => exact List.not_mem_nil (hcells e hunsourced hkind)
        | reference => exact List.not_mem_nil (hrefs e hunsourced hkind)
        | space => exact List.not_mem_nil (hspaces e hunsourced hkind)
  simp only [bind_assoc] at hphases
  exact hphases

theorem fits_dropStale (changes : Changes) (m : Model) : Fits m (dropStale id changes m) := by
  have hdrop : ∀ m', Fits m m' →
      Fits m (if changes.structural || changes.redefined then m'.dropStaleInstances id else m') := by
    intro m' h
    split
    · exact Frame.trans h (fits_dropStaleInstances m' id)
    · exact h
  refine hdrop _ ?_
  split
  · exact (forgetsSome_invalidateSpace m id).alike.fits
  · exact Frame.refl m

theorem ensures_settle (sites around : SpaceId → Prop) (changes : Changes) :
    Ensures (fun m => Deriving id sites around [] [] changes m ∧ m.Arranged) (settle id changes)
      fun _ => Faithful sites := by
  unfold settle
  refine ensures_bind (Q := fun _ => Faithful sites)
    (ensures_modify (fits_dropStale changes) fun m _ hm => hm.1.faithful hm.2) fun _ => ?_
  split
  next => exact ensures_update fits_unlinkDeadBases fun m _ hm => hm.unlinkDeadBases
  next => exact ensures_pure fun m hm => hm

/-- All that a derivation does once the heritage is known. -/
theorem ensures_derivation (sites around : SpaceId → Prop) {heritage : Heritage}
    (withstands : Withstands R id heritage) :
    Ensures (fun m =>
        Deriving id sites around heritage.cells.values heritage.refs.values {} m ∧
          Sorting id heritage m ∧ R m)
      (do
        let changes ← deriveMembers id heritage
        let losers ← settle id changes
        return { changes with follow := changes.follow ++ losers })
      fun _ m => Faithful sites m ∧ R m := by
  refine ensures_bind (ensures_deriveMembers (withstands_sorting.and withstands)) fun changes => ?_
  have hsettle := (ensures_settle sites around changes).leaves
    (R := R) (S := R) fun m hm hr => leaves_settle withstands.toEndures hm.1.owned hr id changes
  refine ensures_bind (hsettle.mono (fun m hm => ?_) fun _ _ hm => hm) fun losers => ?_
  · obtain ⟨hd, ⟨hsorting, hr⟩, hsourced⟩ := hm
    exact ⟨⟨hd, hsorting.arranged hsourced⟩, hr⟩
  · exact ensures_pure fun m hm => hm

/-- A derivation begins in a faithful model. -/
theorem Faithful.deriving {m : Model} (h : m.Faithful sites) {s : Space}
    (hs : m.spaces.get? id = some s) (hstatic : s.isStatic = true) {heritage : Heritage}
    (hh : m.heritage id = .ok heritage) : Deriving id sites (· ∈ m.ancestry id)
      heritage.cells.values heritage.refs.values {} m := by
  refine ⟨h.owned, ⟨s, hs, hstatic⟩, fun _ => Iff.rfl, h.mirrored.mono fun _ hf => hf.elim,
    fun x hx => .inl (h.vacant x hx), fun c hc => ?_, fun r hr => ?_⟩
  · obtain ⟨name, hname⟩ := NameMap.mem_values.1 hc
    obtain ⟨b, -, t, ht, hlist⟩ := source_of_heritage_cells hh hname
    obtain ⟨d, hd, -⟩ := h.owned.cells_of_listed ht hlist
    exact ⟨d, hd⟩
  · obtain ⟨name, hname⟩ := NameMap.mem_values.1 hr
    obtain ⟨b, -, t, ht, hlist⟩ := source_of_heritage_refs hh hname
    obtain ⟨q, hq, -⟩ := h.owned.ref_of_listed ht hlist
    exact ⟨q, hq⟩

theorem fits_derive (id : SpaceId) : Obeys Fits (derive id) := by
  intro m r m' h
  unfold derive at h
  rw [read_bind] at h
  split at h
  next =>
    split at h
    next =>
      cases h
      exact Frame.refl m
    next =>
      rw [read_bind] at h
      split at h
      next =>
        exact (ensures_derivation (fun _ => False) (· ∈ m.ancestry id)
          (lasting_true.withstands trivial)).fits m r m' h
      next =>
        cases h
        exact Frame.refl m
  next =>
    cases h
    exact Frame.refl m

variable (lasting : Lasting R owes)
include lasting

/-- A derivation keeps replicas mirrors, and a condition that lasts. -/
theorem steady_derive (id : SpaceId) : Obeys (Under (Steady sites R) Fits) (derive id) := by
  intro m r m' h hm
  have hfits := fits_derive id m r m' h
  refine ⟨fun small => ?_, hfits⟩
  obtain ⟨hfaithful, hr⟩ := hm (hfits.addressable small)
  unfold derive at h
  rw [read_bind] at h
  split at h
  next s hs =>
    split at h
    next =>
      cases h
      exact ⟨hfaithful, hr⟩
    next hstatic =>
      rw [read_bind] at h
      split at h
      next heritage hh =>
        have hstatic : s.isStatic = true := by simpa using hstatic
        have hs := space_eq_ok.1 hs
        have ho := lasting.heritage m id heritage hfaithful.owned hr ⟨s, hs, hstatic⟩ hh
        have hsorting := hfaithful.arranged.sorting hfaithful.owned ⟨s, hs, hstatic⟩ hh
        obtain ⟨_, -, hend⟩ := (ensures_derivation _ _ (lasting.withstands ho) m r m' h).2 small
          ⟨hfaithful.deriving hs hstatic hh, hsorting, hr⟩
        exact hend
      next =>
        cases h
        exact ⟨hfaithful, hr⟩
  next =>
    cases h
    exact ⟨hfaithful, hr⟩

theorem steady_deriveFrom (fuel : Nat) (starts : List SpaceId) :
    Obeys (Under (Steady sites R) Fits) (deriveFrom fuel starts) :=
  obeys_deriveFrom (steady_derive lasting) fuel starts

omit lasting in
theorem upright_deriveFrom (fuel : Nat) (starts : List SpaceId) :
    Obeys (Under (Upright sites) Fits) (deriveFrom fuel starts) := by
  intro m r m' h hm
  obtain ⟨hsteady, hfits⟩ := steady_deriveFrom lasting_true fuel starts m r m' h
    fun small => ⟨hm small, trivial⟩
  exact ⟨fun small => (hsteady small).1, hfits⟩

end Waves

end Recalc.Model
