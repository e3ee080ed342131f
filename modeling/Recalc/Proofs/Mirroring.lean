import Recalc.Proofs.AncestryLaws

set_option autoImplicit false

/-!
# Mirrors

A replica is anchored in the static space whose instance it lies in, outermost. It mirrors its
counterpart, which lies in the anchor. A change of what a static space defines makes the replicas
stale that are anchored in the space or around it; those are excused until they are dropped.
-/

namespace Recalc.Model

open Recalc.Action

/-- The static space in which a space lies, through the instances around it. -/
inductive Anchored (m : Model) : SpaceId → SpaceId → Prop
  | static {id : SpaceId} {s : Space} : m.spaces.get? id = some s → s.isStatic = true →
      Anchored m id id
  | replica {id p a : SpaceId} {s : Space} : m.spaces.get? id = some s → s.isStatic = false →
      s.home.space? = some p → Anchored m p a → Anchored m id a

def setting (m : Model) (s : Space) (name : String) : Option (Option Formula × Option Bool) :=
  ((s.cells.get? name).bind m.cells.get?).map fun c => (c.formula, c.allowNone)

structure Copies (m : Model) (s : Space) (c : SpaceId) (source : Space) : Prop where
  live : m.spaces.get? c = some source
  isStatic : source.isStatic = true
  cells : ∀ name, m.setting s name = m.setting source name

/-- A replica is what its counterpart makes of it. -/
inductive Reflects (m : Model) (s : Space) : Prop
  | static : s.isStatic = true → Reflects m s
  | item {owner c : SpaceId} {args : Key} {enclosing : List SpaceId} {source : Space}
      {spec : Signature} : s.kind = .item owner c args enclosing → m.counterpart owner = .ok c →
      m.Copies s c source → source.signature = some spec →
      args.values.length = spec.params.length → Reflects m s
  | dynamic {c root p pc : SpaceId} {source outer : Space} : s.kind = .dynamic c root →
      s.parent = some p → m.instanceRoot? p = some root → m.counterpart p = .ok pc →
      m.spaces.get? pc = some outer → outer.spaces.get? s.name = some c → m.Copies s c source →
      Reflects m s

/-- Every replica is what its counterpart makes of it, unless it is anchored in `stale`. -/
def MirroredBut (stale : SpaceId → Prop) (m : Model) : Prop :=
  ∀ id s a, m.spaces.get? id = some s → m.Anchored id a → ¬ stale a → m.Reflects s

abbrev Mirrored (m : Model) : Prop := m.MirroredBut fun _ => False

theorem MirroredBut.mono {stale stale' : SpaceId → Prop} {m : Model} (h : m.MirroredBut stale)
    (hs : ∀ a, stale a → stale' a) : m.MirroredBut stale' :=
  fun id s a hid ha hn => h id s a hid ha fun hstale => hn (hs a hstale)

section Counterparts

variable {m : Model} {id : SpaceId} {s : Space}

theorem counterpart_of_static (hs : m.spaces.get? id = some s) (hstatic : s.isStatic = true) :
    m.counterpart id = .ok id := by
  unfold Space.isStatic at hstatic
  unfold counterpart
  rw [space_eq_ok.2 hs]
  split at hstatic
  next hk =>
    show Except.ok _ = _
    rw [hk]
  next => contradiction

theorem counterpart_of_item {owner c : SpaceId} {args : Key} {enclosing : List SpaceId}
    (hs : m.spaces.get? id = some s) (hk : s.kind = .item owner c args enclosing) :
    m.counterpart id = .ok c := by
  unfold counterpart
  rw [space_eq_ok.2 hs]
  show Except.ok _ = _
  rw [hk]

theorem counterpart_of_dynamic {c root : SpaceId} (hs : m.spaces.get? id = some s)
    (hk : s.kind = .dynamic c root) : m.counterpart id = .ok c := by
  unfold counterpart
  rw [space_eq_ok.2 hs]
  show Except.ok _ = _
  rw [hk]

/-- What a space is a replica of stays when the space is not moved. -/
theorem counterpart_of_like {m' : Model} {s' : Space} (hs : m.spaces.get? id = some s)
    (hs' : m'.spaces.get? id = some s') (like : s.Like s') :
    m'.counterpart id = m.counterpart id := by
  cases hstatic : s.isStatic with
  | true => rw [counterpart_of_static hs hstatic, counterpart_of_static hs' (like.isStatic.trans hstatic)]
  | false =>
    unfold counterpart
    rw [space_eq_ok.2 hs, space_eq_ok.2 hs']
    show Except.ok _ = Except.ok _
    rw [like.kind hstatic]

theorem instanceRoot?_of_static (hs : m.spaces.get? id = some s) (hstatic : s.isStatic = true) :
    m.instanceRoot? id = none := by
  unfold Space.isStatic at hstatic
  unfold instanceRoot?
  split at hstatic
  next hk => simp only [hs, hk]
  next => contradiction

theorem instanceRoot?_of_like {m' : Model} {s' : Space} (hs : m.spaces.get? id = some s)
    (hs' : m'.spaces.get? id = some s') (like : s.Like s') :
    m'.instanceRoot? id = m.instanceRoot? id := by
  cases hstatic : s.isStatic with
  | true =>
    rw [instanceRoot?_of_static hs hstatic,
      instanceRoot?_of_static hs' (like.isStatic.trans hstatic)]
  | false =>
    unfold instanceRoot?
    simp only [hs, hs', like.kind hstatic]

end Counterparts

section Anchors

variable {m : Model} {stale : SpaceId → Prop}

theorem Anchored.live {id a : SpaceId} (h : m.Anchored id a) : ∃ s, m.spaces.get? id = some s := by
  cases h with
  | static hs _ => exact ⟨_, hs⟩
  | replica hs _ _ _ => exact ⟨_, hs⟩

theorem Anchored.anchor {id a : SpaceId} (h : m.Anchored id a) :
    ∃ s, m.spaces.get? a = some s ∧ s.isStatic = true := by
  induction h with
  | static hs hstatic => exact ⟨_, hs, hstatic⟩
  | replica _ _ _ _ ih => exact ih

theorem Anchored.of_static {id a : SpaceId} {s : Space} (h : m.Anchored id a)
    (hs : m.spaces.get? id = some s) (hstatic : s.isStatic = true) : a = id := by
  cases h with
  | static => rfl
  | replica hs' hreplica _ _ =>
    rw [hs] at hs'
    cases hs'
    rw [hstatic] at hreplica
    contradiction

theorem Anchored.holder {id a p : SpaceId} {s : Space} (h : m.Anchored id a)
    (hs : m.spaces.get? id = some s) (hreplica : s.isStatic = false) (hp : s.home.space? = some p) :
    m.Anchored p a := by
  cases h with
  | static hs' hstatic =>
    rw [hs] at hs'
    cases hs'
    rw [hstatic] at hreplica
    contradiction
  | replica hs' _ hp' h =>
    rw [hs] at hs'
    cases hs'
    rw [hp] at hp'
    cases hp'
    exact h

/-- A replica has a home in a space. -/
theorem Placed.holder {s : Space} (h : m.Placed s) (hreplica : s.isStatic = false) :
    ∃ p, s.home.space? = some p := by
  cases hk : s.kind with
  | static =>
    rw [Space.isStatic, hk] at hreplica
    contradiction
  | item owner _ _ _ =>
    rw [home_of_item hk]
    exact ⟨owner, rfl⟩
  | dynamic c root =>
    obtain ⟨p, hp, -⟩ := h.dynamic c root hk
    rw [home_of_dynamic hk hp]
    exact ⟨p, rfl⟩

theorem Owned.anchored (hm : m.Owned) {id : SpaceId} {s : Space} (hs : m.spaces.get? id = some s) :
    ∃ a, m.Anchored id a := by
  have key : ∀ id, m.Grounded id → ∃ a, m.Anchored id a := by
    intro id hid
    induction hid with
    | intro id s hs hp ih =>
      cases hstatic : s.isStatic with
      | true => exact ⟨id, .static hs hstatic⟩
      | false =>
        obtain ⟨p, hholder⟩ := (hm.placed id s hs).holder hstatic
        obtain ⟨a, ha⟩ := ih p hholder
        exact ⟨a, .replica hs hstatic hholder ha⟩
  exact key id (hm.grounded id s hs)

/-- The counterpart of what is anchored in a space lies in that space. -/
theorem MirroredBut.anchor_mem_ancestry (h : m.MirroredBut stale) (hm : m.Owned) {id a c : SpaceId}
    (ha : m.Anchored id a) (hn : ¬ stale a) (hc : m.counterpart id = .ok c) :
    a ∈ m.ancestry c := by
  induction ha generalizing c with
  | static hs hstatic =>
    rw [counterpart_of_static hs hstatic] at hc
    cases hc
    exact hm.mem_ancestry_self hs hstatic
  | @replica id p a s hs hreplica hp ha ih =>
    cases h id s a hs (.replica hs hreplica hp ha) hn with
    | static hstatic =>
      rw [hstatic] at hreplica
      contradiction
    | item hk howner _ _ _ =>
      rw [counterpart_of_item hs hk] at hc
      cases hc
      rw [home_of_item hk] at hp
      cases hp
      exact ih hn howner
    | @dynamic _ root q pc source outer hk hparent hroot hpc houter hlist hcopies =>
      rw [counterpart_of_dynamic hs hk] at hc
      cases hc
      rw [home_of_dynamic hk hparent] at hp
      cases hp
      have hmem := ih hn hpc
      -- the counterpart is listed in the counterpart of the parent, so that is its parent
      obtain ⟨t, ht, hparent', -⟩ := hm.child_of_listed houter hlist
      cases hcopies.live.symm.trans ht
      exact (hm.mem_ancestry hcopies.live hcopies.isStatic).2 (.inr ⟨pc, hparent', hmem⟩)

/-- What replicas take from a static space is as before. -/
def SameFace (m m' : Model) (c : SpaceId) : Prop :=
  ∀ s, m.spaces.get? c = some s → s.isStatic = true → ∃ s', m'.spaces.get? c = some s' ∧
    s'.isStatic = true ∧ s'.spaces = s.spaces ∧ s'.signature = s.signature ∧
    ∀ name, m'.setting s' name = m.setting s name

theorem Copies.transfer {m' : Model} {s s' source : Space} {c : SpaceId}
    (h : m.Copies s c source) (face : m.SameFace m' c)
    (settings : ∀ name, m'.setting s' name = m.setting s name) :
    ∃ source', m'.Copies s' c source' ∧ source'.signature = source.signature := by
  obtain ⟨source', hlive, hstatic, -, hsig, hset⟩ := face source h.live h.isStatic
  refine ⟨source', ⟨hlive, hstatic, fun name => ?_⟩, hsig⟩
  rw [settings, hset, h.cells]

/-- The counterpart of a space is static. -/
theorem Reflects.counterpart {id c : SpaceId} {s : Space} (h : m.Reflects s)
    (hs : m.spaces.get? id = some s) (hc : m.counterpart id = .ok c) :
    ∃ source, m.spaces.get? c = some source ∧ source.isStatic = true := by
  cases h with
  | static hstatic =>
    cases (counterpart_of_static hs hstatic).symm.trans hc
    exact ⟨s, hs, hstatic⟩
  | item hk _ hcopies _ _ =>
    cases (counterpart_of_item hs hk).symm.trans hc
    exact ⟨_, hcopies.live, hcopies.isStatic⟩
  | dynamic hk _ _ _ _ _ hcopies =>
    cases (counterpart_of_dynamic hs hk).symm.trans hc
    exact ⟨_, hcopies.live, hcopies.isStatic⟩

/-- What was there before is anchored as before. -/
theorem Anchored.transfer {m' : Model} (hm : m.Owned)
    (like : ∀ id s s', m.spaces.get? id = some s → m'.spaces.get? id = some s' → s.Like s')
    {id a : SpaceId} (ha : m'.Anchored id a) {s : Space} (hs : m.spaces.get? id = some s) :
    m.Anchored id a := by
  induction ha generalizing s with
  | @static id s' hs' hstatic =>
    exact .static hs ((like id s s' hs hs').isStatic.symm.trans hstatic)
  | @replica id p a s' hs' hreplica hp ha ih =>
    have hlike := like id s s' hs hs'
    rw [hlike.home] at hp
    obtain ⟨q, hq, -⟩ := hm.holder (home?_space hs) hp
    exact .replica hs (hlike.isStatic.symm.trans hreplica) hp (ih hq)

/-- Replicas stay mirrors when they are as before and what they mirror is; a new one has to be a
mirror. -/
theorem MirroredBut.transfer {stale' : SpaceId → Prop} {m' : Model} (h : m.MirroredBut stale)
    (hm : m.Owned)
    (like : ∀ id s s', m.spaces.get? id = some s → m'.spaces.get? id = some s' → s.Like s')
    (settings : ∀ id s s', m.spaces.get? id = some s → m'.spaces.get? id = some s' →
      s.isStatic = false → ∀ name, m'.setting s' name = m.setting s name)
    (face : ∀ c a s', a ∈ m.ancestry c → m'.spaces.get? a = some s' → ¬ stale' a →
      m.SameFace m' c)
    (weaker : ∀ a, stale a → stale' a)
    (new : ∀ id s', m'.spaces.get? id = some s' → m.spaces.get? id = none → m'.Reflects s') :
    m'.MirroredBut stale' := by
  intro id s' a hs' ha' hn'
  cases hs : m.spaces.get? id with
  | none => exact new id s' hs' hs
  | some s =>
    have hlike := like id s s' hs hs'
    have hn : ¬ stale a := fun hstale => hn' (weaker a hstale)
    have ha := ha'.transfer hm like hs
    have hface : ∀ y c, m.Anchored y a → m.counterpart y = .ok c → m.SameFace m' c := by
      intro y c hy hc
      obtain ⟨t, ht, -⟩ := ha'.anchor
      exact face c a t (h.anchor_mem_ancestry hm hy hn hc) ht hn'
    have hholder : ∀ p, m.Anchored p a → m'.Anchored p a →
        m'.counterpart p = m.counterpart p ∧ m'.instanceRoot? p = m.instanceRoot? p := by
      intro p hp hp'
      obtain ⟨q, hq⟩ := hp.live
      obtain ⟨q', hq'⟩ := hp'.live
      have hlike := like p q q' hq hq'
      exact ⟨counterpart_of_like hq hq' hlike, instanceRoot?_of_like hq hq' hlike⟩
    cases h id s a hs ha hn with
    | static hstatic => exact .static (hlike.isStatic.trans hstatic)
    | @item owner c args enclosing source spec hk howner hcopies hspec hargs =>
      have hreplica := isStatic_of_item hk
      have hk' := (hlike.kind hreplica).trans hk
      have hp : s.home.space? = some owner := by rw [home_of_item hk]; rfl
      have hp' : s'.home.space? = some owner := by rw [home_of_item hk']; rfl
      have how := ha.holder hs hreplica hp
      have how' := ha'.holder hs' (isStatic_of_item hk') hp'
      obtain ⟨source', hcopies', hsig⟩ := hcopies.transfer
        (hface id c ha (counterpart_of_item hs hk)) (settings id s s' hs hs' hreplica)
      exact .item hk' ((hholder owner how how').1.trans howner) hcopies' (hsig.trans hspec) hargs
    | @dynamic c root p pc source outer hk hparent hroot hpc houter hlist hcopies =>
      have hreplica := isStatic_of_dynamic hk
      have hk' := (hlike.kind hreplica).trans hk
      have hparent' := hlike.parent.trans hparent
      have hp : s.home.space? = some p := by rw [home_of_dynamic hk hparent]; rfl
      have hp' : s'.home.space? = some p := by rw [home_of_dynamic hk' hparent']; rfl
      have hap := ha.holder hs hreplica hp
      have hap' := ha'.holder hs' (isStatic_of_dynamic hk') hp'
      obtain ⟨hcounterpart, hinstance⟩ := hholder p hap hap'
      obtain ⟨source', hcopies', -⟩ := hcopies.transfer
        (hface id c ha (counterpart_of_dynamic hs hk)) (settings id s s' hs hs' hreplica)
      -- the counterpart of the parent is a static space, since the parent mirrors it
      obtain ⟨q, hq⟩ := hap.live
      obtain ⟨t, ht, hstatic⟩ := (h p q a hq hap hn).counterpart hq hpc
      cases houter.symm.trans ht
      obtain ⟨outer', houter', -, hspaces, -⟩ := hface p pc hap hpc outer houter hstatic
      refine .dynamic hk' hparent' (hinstance.trans hroot) (hcounterpart.trans hpc) houter' ?_
        hcopies'
      rw [hspaces, hlike.name]
      exact hlist

end Anchors

/-! ## Instances that go -/

section Dropping

variable {m m' : Model} {stale : SpaceId → Prop}

/-- What a space has under a name is as before when it lists the same cells, and these are. -/
theorem setting_eq {loose : Entity → Prop} (linked : m'.Linked loose) {id : SpaceId}
    {s s' : Space} (hs' : m'.spaces.get? id = some s') {name : String}
    (hcells : s'.cells.get? name = s.cells.get? name)
    (old : ∀ c d', s.cells.get? name = some c → m'.cells.get? c = some d' →
      ∃ d, m.cells.get? c = some d ∧ d.formula = d'.formula ∧ d.allowNone = d'.allowNone) :
    m'.setting s' name = m.setting s name := by
  unfold setting
  cases hc : s.cells.get? name with
  | none => rw [hcells, hc, Option.bind_none, Option.bind_none]
  | some c =>
    have hlisted : m'.listed (.cells id name) = some (.cells c) := by
      rw [listed_of_space rfl hs', Space.lists, hcells, hc, Option.map_some]
    obtain ⟨b, hb, -⟩ := linked.sound _ _ hlisted
    obtain ⟨d', hd', -⟩ := cells_of_home? hb
    obtain ⟨d, hd, hformula, hallow⟩ := old c d' hc hd'
    rw [hcells, hc, Option.bind_some, Option.bind_some, hd', hd, Option.map_some, Option.map_some,
      hformula, hallow]

theorem formula_of_bare {c d : Cells} (h : c.bare = d.bare) :
    d.formula = c.formula ∧ d.allowNone = c.allowNone := by
  have hformula := congrArg Cells.formula h
  have hallow := congrArg Cells.allowNone h
  exact ⟨hformula.symm, hallow.symm⟩

theorem Drops.like (h : Drops m m') {id : SpaceId} {s s' : Space}
    (hs : m.spaces.get? id = some s) (hs' : m'.spaces.get? id = some s') :
    s' = { s with instances := s'.instances } := by
  obtain ⟨t, ht, heq, -⟩ := h.space id s' hs'
  rw [hs] at ht
  cases ht
  exact heq

theorem Drops.setting (h : Drops m m') (hm' : m'.Owned) {id : SpaceId} {s s' : Space}
    (hs : m.spaces.get? id = some s) (hs' : m'.spaces.get? id = some s') (name : String) :
    m'.setting s' name = m.setting s name := by
  have hlike := h.like hs hs'
  refine setting_eq hm'.linked hs' (by rw [hlike]) fun c d' _ hd' => ?_
  obtain ⟨d, hd, hbare⟩ := h.cells c d' hd'
  exact ⟨d, hd, formula_of_bare hbare⟩

theorem Drops.sameFace (h : Drops m m') (hm' : m'.Owned) (c : SpaceId) : m.SameFace m' c := by
  intro s hs hstatic
  obtain ⟨s', hs', heq⟩ := h.static' hs hstatic
  refine ⟨s', hs', ?_, ?_, ?_, fun name => h.setting hm' hs hs' name⟩
  · rw [heq]
    exact hstatic
  · rw [heq]
  · rw [heq]

/-- Instances go, and mirrors stay mirrors. -/
theorem MirroredBut.drops (h : m.MirroredBut stale) (hm : m.Owned) (hm' : m'.Owned)
    (hdrops : Drops m m') : m'.MirroredBut stale := by
  refine h.transfer hm (fun id s s' hs hs' => ?_)
    (fun id s s' hs hs' _ name => hdrops.setting hm' hs hs' name)
    (fun c _ _ _ _ _ => hdrops.sameFace hm' c) (fun _ h => h) fun id s' hs' hnone => ?_
  · rw [hdrops.like hs hs']
    exact ⟨rfl, rfl, rfl, fun _ => rfl, fun _ => rfl⟩
  · obtain ⟨s, hs, -⟩ := hdrops.space id s' hs'
    rw [hnone] at hs
    contradiction

/-- Nothing is anchored in a static space without instances but the static space. -/
theorem Anchored.static_of_cleared (hm : m.Owned) {id a : SpaceId} (h : m.Anchored id a)
    (hcleared : m.Cleared a) : ∀ s, m.spaces.get? id = some s → s.isStatic = true := by
  induction h with
  | static hs hstatic =>
    intro s hs'
    rw [hs] at hs'
    cases hs'
    exact hstatic
  | @replica id p a t ht hreplica hp ha ih =>
    intro s hs
    rw [ht] at hs
    cases hs
    obtain ⟨q, hq, hlist⟩ := hm.holder (home?_space ht) hp
    have hstatic := ih hcleared q hq
    have heq := ha.of_static hq hstatic
    subst heq
    cases hk : t.kind with
    | static =>
      rw [Space.isStatic, hk] at hreplica
      contradiction
    | item owner c args enclosing =>
      rw [home_of_item hk] at hp hlist
      cases hp
      rw [Space.lists, hcleared q args hq, Option.map_none] at hlist
      contradiction
    | dynamic c root =>
      obtain ⟨r, hr, hdynamic⟩ := (hm.placed id t ht).dynamic c root hk
      rw [home_of_dynamic hk hr] at hp
      cases hp
      rw [hdynamic q hq] at hstatic
      contradiction

/-- When the stale instances around a static space are dropped, every replica is a mirror. -/
theorem MirroredBut.dropStale {id : SpaceId} (hm : m.Owned)
    (h : m.MirroredBut fun a => stale a ∨ a ∈ m.ancestry id) :
    (m.dropStaleInstances id).MirroredBut stale := by
  obtain ⟨hm', hdrops⟩ := under_dropStaleInstances m id hm
  have h' := h.drops hm hm' hdrops
  intro y t a ht ha hn
  by_cases hmem : a ∈ m.ancestry id
  · obtain ⟨s', hs', hstatic'⟩ := ha.anchor
    obtain ⟨s, hs, heq, -⟩ := hdrops.space a s' hs'
    have hstatic : s.isStatic = true := by
      rw [heq] at hstatic'
      exact hstatic'
    exact .static (ha.static_of_cleared hm' (cleared_dropStaleInstances hm hmem hs hstatic) t ht)
  · exact h' y t a ht ha (not_or.2 ⟨hn, hmem⟩)

end Dropping

end Recalc.Model
