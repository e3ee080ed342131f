import Recalc.Proofs.InStepWaves

set_option autoImplicit false

/-!
# Tiers

Where every base of a static space lies under a root with a smaller number the spaces stand on
tiers: those of one tree share a layer, a child is one deeper than its parent, and no space is much
deeper than its bases. A tree can grow by derivation, but only as far down as the layers below it
allow, so the tiers that a derivation brings are bounded before it begins.
-/

namespace Recalc

/-- A layer and a depth for every space. -/
structure Tiers where
  layer : SpaceId → Nat
  depth : SpaceId → Nat
  /-- How much deeper a space can be than its bases. -/
  slack : Nat
  /-- The highest layer. -/
  top : Nat

namespace Tiers

structure Admits (t : Tiers) (x : SpaceId) (o : Outline) : Prop where
  inside : ∀ p, o.parent = some p → t.layer x = t.layer p ∧ t.depth x = t.depth p + 1
  links : ∀ b ∈ o.links, t.layer b < t.layer x ∧ t.depth x ≤ t.depth b + t.slack
  top : t.layer x ≤ t.top
  deep : t.depth x ≤ (t.layer x + 1) * t.slack

def bottom (t : Tiers) : Nat := (t.top + 1) * t.slack

/-- Spaces of higher layers have smaller ranks and so, within a layer, have deeper ones. -/
def rank (t : Tiers) (x : SpaceId) : Nat :=
  (t.top - t.layer x) * (t.bottom + 1) + (t.bottom - t.depth x)

section Ranks

variable {t : Tiers} {x y : SpaceId} {o : Outline}

theorem Admits.depth_le (h : t.Admits x o) : t.depth x ≤ t.bottom :=
  h.deep.trans (Nat.mul_le_mul_right t.slack (Nat.succ_le_succ h.top))

theorem Admits.of_links {o' : Outline} (h : t.Admits x o) (parent : o'.parent = o.parent)
    (links : ∀ b ∈ o'.links, b ∈ o.links) : t.Admits x o' :=
  { h with inside := fun p hp => h.inside p (parent.symm.trans hp)
           links := fun b hb => h.links b (links b hb) }

theorem rank_lt_of_layer (h : t.layer x < t.layer y) (htop : t.layer y ≤ t.top) :
    t.rank y < t.rank x := by
  have hlayers : t.top - t.layer y + 1 ≤ t.top - t.layer x := by omega
  calc
    t.rank y ≤ (t.top - t.layer y) * (t.bottom + 1) + t.bottom :=
      Nat.add_le_add_left (Nat.sub_le _ _) _
    _ < (t.top - t.layer y + 1) * (t.bottom + 1) := by
      rw [Nat.add_mul]
      omega
    _ ≤ (t.top - t.layer x) * (t.bottom + 1) := Nat.mul_le_mul_right _ hlayers
    _ ≤ t.rank x := Nat.le_add_right _ _

theorem rank_lt_of_depth (hlayer : t.layer y = t.layer x) (h : t.depth x < t.depth y)
    (hbottom : t.depth y ≤ t.bottom) : t.rank y < t.rank x := by
  unfold rank
  rw [hlayer]
  omega

/-- What inherits from a space ranks below it. -/
theorem Admits.rank_lt_of_link (h : t.Admits y o) {b : SpaceId} (hb : b ∈ o.links)
    (hlayer : t.layer b = t.layer x) : t.rank y < t.rank x :=
  rank_lt_of_layer (hlayer ▸ (h.links b hb).1) h.top

/-- A child ranks below its parent. -/
theorem Admits.rank_lt_of_parent (h : t.Admits y o) (hparent : o.parent = some x) :
    t.rank y < t.rank x := by
  obtain ⟨hlayer, hdepth⟩ := h.inside x hparent
  exact rank_lt_of_depth hlayer (by omega) h.depth_le

end Ranks

end Tiers

namespace Model

instance (m : Model) (x : SpaceId) : Decidable (m.Static x) :=
  decidable_of_iff ((m.outline? x).isSome = true) (by
    rw [Option.isSome_iff_exists, static_iff_outline?])

def Tiered (m : Model) (t : Tiers) : Prop := ∀ x o, m.outline? x = some o → t.Admits x o

end Model

namespace Tiers

/-- Whatever is not a static space of the model gets the tier of a child of the space. -/
def beside (t : Tiers) (m : Model) (id : SpaceId) : Tiers :=
  { t with layer := fun x => if m.Static x then t.layer x else t.layer id
           depth := fun x => if m.Static x then t.depth x else t.depth id + 1 }

/-- Below the space there is room for a child with these sources. -/
structure Lets (t : Tiers) (m : Model) (id : SpaceId) (sources : List SpaceId) : Prop where
  deep : t.depth id + 1 ≤ (t.layer id + 1) * t.slack
  source : ∀ b ∈ sources, m.Static b ∧ t.layer b < t.layer id ∧
    t.depth id + 1 ≤ t.depth b + t.slack

theorem Lets.admits {t : Tiers} {m : Model} {id x : SpaceId} {o : Outline}
    (h : t.Lets m id o.links) (hparent : o.parent = some id) (hlayer : t.layer x = t.layer id)
    (hdepth : t.depth x = t.depth id + 1) (htop : t.layer id ≤ t.top) : t.Admits x o := by
  refine ⟨fun p hp => ?_, fun b hb => ?_, hlayer ▸ htop, ?_⟩
  · cases hparent.symm.trans hp
    exact ⟨hlayer, hdepth⟩
  · rw [hlayer, hdepth]
    exact (h.source b hb).2
  · rw [hlayer, hdepth]
    exact h.deep

section Beside

variable {t : Tiers} {m : Model} {id x : SpaceId}

theorem layer_beside (hx : m.Static x) : (t.beside m id).layer x = t.layer x := if_pos hx

theorem depth_beside (hx : m.Static x) : (t.beside m id).depth x = t.depth x := if_pos hx

theorem rank_beside (hx : m.Static x) : (t.beside m id).rank x = t.rank x := by
  unfold rank
  rw [layer_beside hx, depth_beside hx]
  rfl

/-- What comes stands as a child of the space would. -/
theorem beside_of_new (hself : m.Static id) (hx : ¬ m.Static x) :
    (t.beside m id).layer x = (t.beside m id).layer id ∧
      (t.beside m id).depth x = (t.beside m id).depth id + 1 := by
  rw [layer_beside hself, depth_beside hself]
  exact ⟨if_neg hx, if_neg hx⟩

end Beside

end Tiers

namespace Model

section Tiering

variable {t : Tiers} {m : Model} {id : SpaceId} {heritage : Heritage}

theorem isStatic_of_mem_links {s : Space} {b : SpaceId} (hb : b ∈ s.outline.links) :
    s.isStatic = true := by
  change b ∈ s.bases ++ s.implicitBases at hb
  cases hk : s.kind <;> simp [Space.isStatic, Space.bases, Space.implicitBases, hk] at hb ⊢

/-- Heirs are static spaces with the space among their links. -/
theorem outline_of_heir (small : m.Addressable) {x : SpaceId} (hx : x ∈ m.heirs id) :
    ∃ o, m.outline? x = some o ∧ id ∈ o.links := by
  obtain ⟨⟨y, s⟩, hmem, rfl⟩ := List.mem_map.1 hx
  obtain ⟨hmem, hlink⟩ := List.mem_filter.1 hmem
  rw [List.contains_eq_mem, decide_eq_true_eq] at hlink
  exact ⟨s.outline, outline?_of_static ((Pool.mem_entries small.spaces).1 hmem)
    (isStatic_of_mem_links hlink), hlink⟩

theorem Owned.parent_static (hm : m.Owned) {x p : SpaceId} {o : Outline}
    (ho : m.outline? x = some o) (hp : o.parent = some p) : m.Static p := by
  obtain ⟨s, hs, hstatic, rfl⟩ := outline?_eq_some.1 ho
  obtain ⟨q, hq, hqstatic, -⟩ := hm.static_holder hs hstatic hp
  exact ⟨q, hq, hqstatic⟩

/-- No static space stands elsewhere, nor do its parent and its bases. -/
theorem Tiered.beside (h : m.Tiered t) (hm : m.Owned) (hlive : m.LiveBases) (id : SpaceId) :
    m.Tiered (t.beside m id) := by
  intro x o ho
  have hx : m.Static x := static_iff_outline?.2 ⟨o, ho⟩
  have hadmits := h x o ho
  refine ⟨fun p hp => ?_, fun b hb => ?_, ?_, ?_⟩
  · have hparent := hm.parent_static ho hp
    rw [Tiers.layer_beside hx, Tiers.layer_beside hparent, Tiers.depth_beside hx,
      Tiers.depth_beside hparent]
    exact hadmits.inside p hp
  · have hbase : m.Static b := static_iff_outline?.2 (hlive x o ho b hb)
    rw [Tiers.layer_beside hx, Tiers.layer_beside hbase, Tiers.depth_beside hx,
      Tiers.depth_beside hbase]
    exact hadmits.links b hb
  · rw [Tiers.layer_beside hx]
    exact hadmits.top
  · rw [Tiers.layer_beside hx, Tiers.depth_beside hx]
    exact hadmits.deep

/-- Every inherited child has room: its sources are children of bases of the space. -/
theorem Tiered.lets (h : m.Tiered t) (hm : m.Owned) (hlive : m.LiveBases) (hself : m.Static id)
    (hh : m.heritage id = .ok heritage) {name : String} {sources : List SpaceId}
    (hsources : heritage.spaces.get? name = some sources) : t.Lets m id sources := by
  obtain ⟨o, ho⟩ := static_iff_outline?.1 hself
  obtain ⟨hne, hlisted⟩ := source_of_heritage_spaces hh hsources
  have hsource : ∀ c ∈ sources, m.Static c ∧ t.layer c < t.layer id ∧
      t.depth id + 1 ≤ t.depth c + t.slack ∧ t.depth c ≤ (t.layer c + 1) * t.slack := by
    intro c hc
    obtain ⟨b, hb, s, hs, hname⟩ := hlisted c hc
    obtain ⟨p, hp⟩ := hlive.base ho hb
    obtain ⟨u, hu, hstatic, rfl⟩ := outline?_eq_some.1 hp
    cases hs.symm.trans hu
    obtain ⟨q, hq, hparent⟩ := hm.outline_of_listed hp hname
    obtain ⟨hlayer, hdepth⟩ := (h c q hq).inside b hparent
    have hlink := (h id o ho).links b (mem_links_of_mem_allBases ho hb)
    refine ⟨static_iff_outline?.2 ⟨q, hq⟩, ?_, ?_, (h c q hq).deep⟩
    · omega
    · omega
  refine ⟨?_, fun c hc => ⟨(hsource c hc).1, (hsource c hc).2.1, (hsource c hc).2.2.1⟩⟩
  -- any source bounds how deep the child will be
  obtain ⟨c, hc⟩ := List.exists_mem_of_ne_nil sources hne
  obtain ⟨-, hlayer, hdepth, hdeep⟩ := hsource c hc
  calc
    t.depth id + 1 ≤ (t.layer c + 1) * t.slack + t.slack := by omega
    _ = (t.layer c + 1 + 1) * t.slack := (Nat.succ_mul _ _).symm
    _ ≤ (t.layer id + 1) * t.slack := Nat.mul_le_mul_right _ (Nat.succ_le_succ hlayer)

end Tiering

/-! ## Numbered roots -/

/-- Every base of a static space, explicit or implicit, is a static space that lies under a root
with a smaller number than the root of the space. -/
def Layered (m : Model) (number : SpaceId → Nat) : Prop :=
  ∀ x o, m.outline? x = some o → ∀ b ∈ o.links, m.Static b ∧
    ∃ q r, m.rootOf? b = some q ∧ m.rootOf? x = some r ∧ number q < number r

/-- The layer of a space is the number of its root; no space is deeper than there are spaces. -/
def tiersOf (m : Model) (number : SpaceId → Nat) : Tiers where
  layer x := (m.rootOf? x).elim 0 number
  depth x := (m.ancestry x).length
  slack := m.spaces.capacity
  top := (m.spaces.ids.map fun x => (m.rootOf? x).elim 0 number).max?.getD 0

section Numbering

variable {m : Model} {number : SpaceId → Nat}

theorem Layered.liveBases (h : m.Layered number) : m.LiveBases :=
  fun x o ho b hb => static_iff_outline?.1 (h x o ho b hb).1

theorem Layered.tiered (h : m.Layered number) (hm : m.Owned) : m.Tiered (m.tiersOf number) := by
  intro x o ho
  obtain ⟨s, hs, hstatic, rfl⟩ := outline?_eq_some.1 ho
  have hancestry := hm.ancestry_eq hs hstatic
  have hdepth : (m.ancestry x).length ≤ m.spaces.capacity := length_ancestryFrom_le m _ x
  refine ⟨fun p hp => ?_, fun b hb => ?_, ?_, ?_⟩
  · rw [show s.parent = some p from hp, Option.elim_some] at hancestry
    obtain ⟨q, hq, hqstatic, -⟩ := hm.static_holder hs hstatic hp
    have hroot : m.rootOf? x = m.rootOf? p := by
      rw [rootOf?, rootOf?, hancestry, hm.ancestry_eq hq hqstatic, List.getLast?_cons_cons]
    refine ⟨congrArg (Option.elim · 0 number) hroot, ?_⟩
    exact (congrArg List.length hancestry).trans List.length_cons
  · obtain ⟨-, q, r, hq, hr, hlt⟩ := h x _ ho b hb
    refine ⟨?_, hdepth.trans (Nat.le_add_left _ _)⟩
    show (m.rootOf? b).elim 0 number < (m.rootOf? x).elim 0 number
    rw [hq, hr]
    exact hlt
  · refine List.le_max?_getD_of_mem (List.mem_map.2 ⟨x, ?_, rfl⟩)
    exact List.mem_map.2 ⟨(x, s), Pool.mem_entries_of_get? hs, rfl⟩
  · exact hdepth.trans (Nat.le_mul_of_pos_left _ (Nat.succ_pos _))

end Numbering

end Model

end Recalc
