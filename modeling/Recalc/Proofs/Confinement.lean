import Recalc.Proofs.Growth
import Recalc.Proofs.Locations

set_option autoImplicit false

/-!
# Waves stay in bounds

A derivation brings members only to locations below the space that inherits, and where locations are
closed under inheritance they stay so. Hence a wave never holds more than what was there before it
and one member at each of the locations, and its pools need slots for no more than twice as many.
-/

namespace Recalc

namespace NameMap

variable {α : Type} (l : NameMap α)

theorem nodup_names : l.names.Nodup := List.pairwise_map.2 l.pairwise_ne

end NameMap

theorem Heritage.nodup_names (h : Heritage) (kind : MemberKind) : (h.names kind).Nodup := by
  cases kind <;> exact NameMap.nodup_names _

theorem Heritage.gives_of_mem_names {h : Heritage} {kind : MemberKind} {name : String}
    (hname : name ∈ h.names kind) : h.gives name kind = true := by
  cases kind <;> exact NameMap.mem_names.1 hname

namespace Model

open Recalc.Action

/-! ## What is inherited has a location -/

section Inheriting

variable {m : Model} {id : SpaceId} {o : Outline} {h : Heritage} {P : MemberKind → List Location}

variable (hm : m.Owned) (hlive : m.LiveBases) (ho : m.outline? id = some o)
  (hh : m.heritage id = .ok h)
include hm hlive ho hh

/-- The sources of an inherited child are children of bases under its name. -/
theorem base_of_source {name : String} {c : SpaceId}
    (hc : c ∈ (h.spaces.get? name).getD []) :
    ∃ b ∈ o.links, m.Static b ∧ m.MemberAt b name (.space c) := by
  cases hsources : h.spaces.get? name with
  | none =>
    rw [hsources] at hc
    cases hc
  | some sources =>
    rw [hsources, Option.getD_some] at hc
    obtain ⟨b, hb, s, hs, hlisted⟩ := (source_of_heritage_spaces hh hsources).2 c hc
    have hlink := mem_links_of_mem_allBases ho hb
    have hstatic := static_iff_outline?.2 (hlive id o ho b hlink)
    exact ⟨b, hlink, hstatic, hm.static_of_listed hs (hstatic.isStatic hs) hlisted⟩

/-- Everything inherited has a source of its kind and name in a base. -/
theorem exists_source {name : String} {kind : MemberKind} (hgives : h.gives name kind = true) :
    ∃ b ∈ o.links, m.Static b ∧ ∃ e, e.kind = kind ∧ m.MemberAt b name e := by
  have hbase : ∀ b ∈ m.allBases id, b ∈ o.links ∧ m.Static b := fun b hb =>
    ⟨mem_links_of_mem_allBases ho hb, static_iff_outline?.2 (hlive.base ho hb)⟩
  cases kind with
  | cells =>
    obtain ⟨c, hc⟩ := Option.isSome_iff_exists.1 hgives
    obtain ⟨b, hb, s, hs, hlisted⟩ := source_of_heritage_cells hh hc
    exact ⟨b, (hbase b hb).1, (hbase b hb).2, .cells c, rfl, hm.cells_of_listed hs hlisted⟩
  | reference =>
    obtain ⟨r, hr⟩ := Option.isSome_iff_exists.1 hgives
    obtain ⟨b, hb, s, hs, hlisted⟩ := source_of_heritage_refs hh hr
    exact ⟨b, (hbase b hb).1, (hbase b hb).2, .ref r, rfl, hm.ref_of_listed hs hlisted⟩
  | space =>
    obtain ⟨sources, hsources⟩ := Option.isSome_iff_exists.1 hgives
    obtain ⟨c, hc⟩ := List.exists_mem_of_ne_nil _ (source_of_heritage_spaces hh hsources).1
    have hsource : c ∈ (h.spaces.get? name).getD [] := by rwa [hsources, Option.getD_some]
    obtain ⟨b, hb, hstatic, hhere⟩ := base_of_source hm hlive ho hh hsource
    exact ⟨b, hb, hstatic, .space c, rfl, hhere⟩

theorem Fenced.inherits (hfenced : Fenced P m) {name : String} {kind : MemberKind}
    (hgives : h.gives name kind = true) : m.location id ++ [name] ∈ P kind := by
  obtain ⟨b, hb, hstatic, e, rfl, hhere⟩ := exists_source hm hlive ho hh hgives
  refine hfenced.link id o ho b hb e.kind [name] (hfenced.member e _ ?_)
  exact locationOf?_eq_some.2 ⟨b, name, hhere, hstatic, rfl⟩

/-- There are no more inherited members than locations. -/
theorem Fenced.length_names_le (hfenced : Fenced P m) (kind : MemberKind) :
    (h.names kind).length ≤ (P kind).length := by
  rw [← List.length_map fun name => m.location id ++ [name]]
  refine (List.Nodup.subperm ?_ fun q hq => ?_).length_le
  · refine (h.nodup_names kind).map fun name name' heq => ?_
    exact List.head_eq_of_cons_eq (List.append_cancel_left heq)
  · obtain ⟨name, hname, rfl⟩ := List.mem_map.1 hq
    exact hfenced.inherits hm hlive ho hh (Heritage.gives_of_mem_names hname)

end Inheriting

/-! ## What a derivation brings -/

/-- While the members of the space are derived from its heritage, what comes is inherited by it. -/
structure Roster (id : SpaceId) (h : Heritage) (m₀ m : Model) : Prop where
  came : ∀ e l, m.membership? e = some l →
    m₀.membership? e = some l ∨ (l.holder = some id ∧ h.gives l.name e.kind = true)
  static : ∀ p name e, m.MemberAt p name e → m.Static p → m₀.Static p

section Rosters

variable {m₀ m m' : Model} {id p : SpaceId} {h heritage : Heritage} {name : String} {e : Entity}
  {changes : Changes} {sites : SpaceId → Prop}

theorem roster_refl (m : Model) (id : SpaceId) (h : Heritage) : Roster id h m m :=
  ⟨fun _ _ hl => .inl hl, fun _ _ _ _ hp => hp⟩

/-- The space that a member is in is there. -/
theorem MemberAt.holder (hhere : m.MemberAt p name e) (hm : m.Owned) :
    ∃ s, m.spaces.get? p = some s := by
  have hplace : (e.kind.place p name).space? = some p := by cases e <;> rfl
  obtain ⟨s, hs, -⟩ := hm.holder hhere.home hplace
  exact ⟨s, hs⟩

theorem withstands_roster (hself : m₀.Static id) : Withstands (Roster id h m₀) id h where
  drops m m' _ _ hroster hdrops _ := by
    refine ⟨fun e l hl => hroster.came e l (hdrops.membership hl), fun p name e hhere hp => ?_⟩
    obtain ⟨s', hs', hstatic⟩ := hp
    obtain ⟨s, hs, heq, -⟩ := hdrops.space p s' hs'
    rw [heq] at hstatic
    exact hroster.static p name e (hdrops.came hhere).1 ⟨s, hs, hstatic⟩
  unlink m _ hroster := by
    refine ⟨fun e l hl => hroster.came e l (membership?_unlinkDeadBases.symm.trans hl),
      fun p name e hhere hp => ?_⟩
    refine hroster.static p name e ((memberAt_congr membership?_unlinkDeadBases).1 hhere) ?_
    rw [static_iff_outline?, outline?_unlinkDeadBases] at hp
    obtain ⟨o, ho⟩ := hp
    obtain ⟨o₀, ho₀, -⟩ := Option.map_eq_some_iff.1 ho
    exact static_iff_outline?.2 ⟨o₀, ho₀⟩
  alters m m' hm _ hroster _ halters := by
    refine ⟨fun e l hl => ?_, fun p name e hhere hp => ?_⟩
    · rcases halters.membership hl with hold | ⟨hholder, -, hgives⟩
      · exact hroster.came e l hold
      · exact .inr ⟨hholder, hgives⟩
    · rcases halters.came hhere with ⟨hold, -⟩ | ⟨rfl, -⟩
      · obtain ⟨s, hs⟩ := hold.holder hm
        refine hroster.static p name e hold ?_
        rcases halters.space p s hs with ⟨s', hs', hstep⟩ | ⟨hgone, -⟩
        · exact ⟨s, hs, hstep.isStatic.symm.trans (hp.isStatic hs')⟩
        · obtain ⟨s', hs', -⟩ := hp
          rw [hgone] at hs'
          cases hs'
      · exact hself

theorem Faithful.roster (hm : m.Faithful sites) (hself : m.Static id)
    (hh : m.heritage id = .ok heritage) (hrun : derive id m = some (.ok changes, m'))
    (small : m'.Addressable) : Roster id heritage m m' := by
  rcases derive_eq_ok hrun with ⟨hreplica, -⟩ |
    ⟨_, found, m₁, losers, -, hh', hmembers, hsettle, rfl⟩
  · exact absurd hself hreplica
  cases Except.ok.inj (hh.symm.trans hh')
  obtain ⟨s, hs, hstatic⟩ := hself
  have hphases : (do
      let changes ← deriveMembers id heritage
      let losers ← settle id changes
      return { changes with follow := changes.follow ++ losers }) m = some (.ok _, m') :=
    (bind_eq_some m).2 (.inl ⟨found, m₁, hmembers,
      (bind_eq_some m₁).2 (.inl ⟨losers, m', hsettle, rfl⟩)⟩)
  obtain ⟨_, -, -, hroster⟩ := (ensures_derivation sites (· ∈ m.ancestry id)
    (withstands_roster ⟨s, hs, hstatic⟩) m _ m' hphases).2 small
      ⟨hm.deriving hs hstatic hh, hm.arranged.sorting hm.owned ⟨s, hs, hstatic⟩ hh,
        roster_refl m id heritage⟩
  exact hroster

end Rosters

/-! ## Locations after a derivation -/

section Derivations

variable {m₀ m m' : Model} {t t' : Tiers} {id x : SpaceId} {h : Heritage} {changes : Changes}
  {P : MemberKind → List Location}

variable (hd : Descends t t' id h m changes m') (hm : m.Owned) (hm' : m'.Owned)
include hd hm hm'

/-- Spaces that stay keep their locations. -/
theorem Descends.location (hx : m.Static x) (hx' : m'.Static x) :
    m'.location x = m.location x := by
  refine hm'.static_induction (P := fun x => m.Static x → m'.location x = m.location x)
    (fun x o' ho' ih hx => ?_) hx' hx
  obtain ⟨o, ho⟩ := static_iff_outline?.1 hx
  obtain ⟨hname, hparent⟩ := (hd.permits x o' ho').kept o ho
  rw [hm'.location_eq ho', hm.location_eq ho, hname, hparent]
  cases hp : o.parent with
  | none => rfl
  | some p =>
    rw [Option.elim_some, Option.elim_some,
      (ih p (hparent.trans hp)).2 (hm.parent_static ho hp)]

theorem Descends.fenced (hfenced : Fenced P m) (hlive : m.LiveBases) (hself : m.Static id)
    (hh : m.heritage id = .ok h) (hroster : Roster id h m m') : Fenced P m' := by
  obtain ⟨o, ho⟩ := static_iff_outline?.1 hself
  refine ⟨fun e q hq => ?_, fun x o' ho' b hb kind s hs => ?_⟩
  · obtain ⟨p, name, hhere, hstatic, rfl⟩ := locationOf?_eq_some.1 hq
    have hbefore := hroster.static p name e hhere hstatic
    rw [hd.location hm hm' hbefore hstatic]
    obtain ⟨l, hl, hholder, rfl⟩ := memberAt_iff.1 hhere
    rcases hroster.came e l hl with hold | ⟨hnew, hgives⟩
    · refine hfenced.member e _ (locationOf?_eq_some.2 ⟨p, l.name, ?_, hbefore, rfl⟩)
      exact memberAt_iff.2 ⟨l, hold, hholder, rfl⟩
    · cases hholder.symm.trans hnew
      exact hfenced.inherits hm hlive ho hh hgives
  · have hbase := hd.bases x o' ho' b hb
    rw [hd.location hm hm' hbase (static_iff_outline?.2 (hd.live x o' ho' b hb))] at hs
    rcases (hd.permits x o' ho').links b hb with ⟨o₀, ho₀, hb₀⟩ | ⟨hparent, hsource⟩
    · rw [hd.location hm hm' (static_iff_outline?.2 ⟨o₀, ho₀⟩) (static_iff_outline?.2 ⟨o', ho'⟩)]
      exact hfenced.link x o₀ ho₀ b hb₀ kind s hs
    · -- a child of the space inherits from children of the bases of the space
      obtain ⟨c, hc, hstatic, hhere⟩ := base_of_source hm hlive ho hh hsource
      obtain ⟨u, hu, hustatic, huparent, huname⟩ := hhere
      rw [hm.location_eq (outline?_of_static hu hustatic),
        show u.outline.parent = some c from huparent, show u.outline.name = o'.name from huname,
        Option.elim_some, List.append_assoc] at hs
      rw [hm'.location_eq ho', hparent, Option.elim_some, hd.location hm hm' hself hd.self,
        List.append_assoc]
      exact hfenced.link id o ho c hc kind _ hs

omit hm in
theorem Descends.kin (hkin : Kin m₀ m) (hkeeps : KeepsStatic m m') (hroster : Roster id h m m') :
    Kin m₀ m' := by
  intro e l hl
  rcases hroster.came e l hl with hold | ⟨hholder, -⟩
  · refine (hkin e l hold).imp_right fun ⟨q, hq⟩ => ?_
    obtain ⟨p, name, hhere, hstatic, -⟩ := locationOf?_eq_some.1 hq
    have hhere' := (memberAt_congr (hl.trans hold.symm)).2 hhere
    obtain ⟨s, hs⟩ := hhere'.holder hm'
    exact ⟨_, locationOf?_eq_some.2 ⟨p, name, hhere', ⟨s, hs, hkeeps p s hs hstatic⟩, rfl⟩⟩
  · refine .inr ⟨_, locationOf?_eq_some.2 ⟨id, l.name, ?_, hd.self, rfl⟩⟩
    exact memberAt_iff.2 ⟨l, hl, hholder, rfl⟩

end Derivations

/-! ## Room -/

/-- There is room for two more members at each location that inheritance can bring members to. -/
def Ample (m : Model) : Prop :=
  ∀ kind, (m.load kind).capacity + 2 * (m.expanse kind).length ≤ UInt32.size

instance (m : Model) : Decidable m.Ample :=
  decidable_of_iff (∀ kind ∈ [MemberKind.cells, .space, .reference],
    (m.load kind).capacity + 2 * (m.expanse kind).length ≤ UInt32.size)
    ⟨fun h kind => h kind (by cases kind <;> decide), fun h kind _ => h kind⟩

/-- A wave that began in `m₀` has come to `m` and brought members to locations of `P` only. -/
structure Confined (P : MemberKind → List Location) (m₀ m : Model) : Prop where
  fenced : Fenced P m
  kin : Kin m₀ m
  spare : ∀ kind, (m.load kind).capacity + (m₀.load kind).free + (m₀.load kind).population ≤
    (m₀.load kind).capacity + (m.load kind).free + (m.load kind).population
  capacity : ∀ kind, (m.load kind).capacity ≤ (m₀.load kind).capacity + 2 * (P kind).length

section Rooms

variable {m₀ m m' : Model} {t : Tiers} {id : SpaceId} {h : Heritage} {changes : Changes}
  {P : MemberKind → List Location} {sites : SpaceId → Prop}

theorem Fenced.confined (hfenced : Fenced P m) : Confined P m m :=
  ⟨hfenced, fun _ _ hl => .inl (Option.isSome_of_eq_some hl), fun _ => Nat.le_refl _,
    fun _ => Nat.le_add_right _ _⟩

theorem addressable_of_capacity (h : ∀ kind, (m.load kind).capacity ≤ UInt32.size) :
    m.Addressable :=
  ⟨h .space, h .cells, h .reference⟩

theorem takes_derive (hself : m.Static id) (hh : m.heritage id = .ok h)
    (hrun : derive id m = some (.ok changes, m')) (kind : MemberKind) :
    Takes kind (h.names kind).length m m' := by
  rcases derive_eq_ok hrun with ⟨hreplica, -⟩ |
    ⟨_, found, m₁, losers, -, hh', hmembers, hsettle, rfl⟩
  · exact absurd hself hreplica
  cases Except.ok.inj (hh.symm.trans hh')
  exact Graded.mono (Nat.le_of_eq (Nat.add_zero _))
    (Graded.trans (takes_deriveMembers id h m _ m₁ hmembers)
      (takes_settle id found m₁ _ m' hsettle))

theorem Confined.derive (hconfined : Confined P m₀ m)
    (room : ∀ kind, (m₀.load kind).capacity + 2 * (P kind).length ≤ UInt32.size)
    (hm : m.Faithful sites) (hlive : m.LiveBases) (ht : m.Tiered t) (hself : m.Static id)
    (hrun : derive id m = some (.ok changes, m')) :
    m'.Faithful sites ∧ ∃ h, Descends t (t.beside m id) id h m changes m' ∧ Confined P m₀ m' := by
  obtain ⟨h, hh⟩ : ∃ h, m.heritage id = .ok h := by
    rcases derive_eq_ok hrun with ⟨hreplica, -⟩ | ⟨h, _, _, _, -, hh, -⟩
    · exact absurd hself hreplica
    · exact ⟨h, hh⟩
  obtain ⟨o, ho⟩ := static_iff_outline?.1 hself
  have small := addressable_of_capacity fun kind => (hconfined.capacity kind).trans (room kind)
  have hcapacity : ∀ kind,
      (m'.load kind).capacity ≤ (m₀.load kind).capacity + 2 * (P kind).length := by
    intro kind
    have hhigh := ((takes_derive hself hh hrun kind).load hm.owned.tidy).high
    have hnames := hconfined.fenced.length_names_le hm.owned hlive ho hh kind
    have hpopulation := hconfined.fenced.population_le hconfined.kin hm.owned small kind
    have hspare := hconfined.spare kind
    have hbefore := hconfined.capacity kind
    omega
  have small' := addressable_of_capacity fun kind => (hcapacity kind).trans (room kind)
  have hend := steady_derive (lasting_keepsStatic m) id m _ m' hrun fun _ =>
    ⟨hm, fun x s hs hx => hx.isStatic hs⟩
  obtain ⟨hm', hkeeps⟩ := hend.1 small'
  have hd := hm.descends hlive ht hself hh hrun small'
  have hroster := hm.roster hself hh hrun small'
  refine ⟨hm', h, hd, hd.fenced hm.owned hm'.owned hconfined.fenced hlive hself hh hroster,
    hd.kin hm'.owned hconfined.kin hkeeps hroster, fun kind => ?_, hcapacity⟩
  have hspare := ((takes_derive hself hh hrun kind).load hm.owned.tidy).spare
  have hbefore := hconfined.spare kind
  omega

end Rooms

end Model

end Recalc
