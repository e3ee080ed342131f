import Recalc.Proofs.Fitting
import Recalc.Proofs.HeritageLaws
import Recalc.Proofs.MirroredChanges
import Recalc.Wave

set_option autoImplicit false

/-!
# Derivation keeps mirrors

Once the heritage of a space is known its members are derived without failure. While they are,
the replicas around the space may be stale as soon as a change was noted, and they are dropped
before the derivation ends.
-/

namespace Recalc

/-- Replicas may be stale after these changes. -/
def Changes.Stale (c : Changes) : Prop := c.structural = true ∨ c.redefined = true

namespace Model

open Recalc.Action

theorem stale_append (a b : Changes) : (a ++ b).Stale ↔ a.Stale ∨ b.Stale := by
  show (Changes.append a b).Stale ↔ _
  simp only [Changes.Stale, Changes.append, Bool.or_eq_true]
  tauto

/-- The space is static, if it is there at all, and neither it nor one around it has instances. -/
def Vacant (m : Model) (id : SpaceId) : Prop :=
  ∀ s, m.spaces.get? id = some s → s.isStatic = true ∧ ∀ a ∈ m.ancestry id, m.Cleared a

/-- The members of a static space are being derived; the cells of `cs` and the references of `rs`
are still needed. A site that was vacant still is, unless it came just now. -/
structure Deriving (id : SpaceId) (sites around : SpaceId → Prop) (cs : List CellId)
    (rs : List RefId) (changes : Changes) (m : Model) : Prop where
  owned : m.Owned
  self : ∃ s, m.spaces.get? id = some s ∧ s.isStatic = true
  ancestry : ∀ a, a ∈ m.ancestry id ↔ around a
  mirrored : m.MirroredBut fun a => changes.Stale ∧ around a
  vacant : ∀ x, sites x → m.Vacant x ∨ (changes.Stale ∧ m.Cleared x ∧
    ∀ s, m.spaces.get? x = some s → s.isStatic = true ∧ s.parent = some id)
  cells : ∀ c ∈ cs, ∃ d, m.cells.get? c = some d
  refs : ∀ r ∈ rs, ∃ q, m.refs.get? r = some q

/-- Spaces are not moved, and no instances come. -/
def Rests (m m' : Model) : Prop :=
  ∀ id s s', m.spaces.get? id = some s → m'.spaces.get? id = some s' →
    s.Like s' ∧ ∀ k, s.instances.get? k = none → s'.instances.get? k = none

theorem Cleared.rests {m m' : Model} {id : SpaceId} {s : Space} (h : m.Cleared id)
    (hrests : m.Rests m') (hs : m.spaces.get? id = some s) : m'.Cleared id :=
  fun s' k hs' => (hrests id s s' hs hs').2 k (h s k hs)

theorem Vacant.rests {m m' : Model} {id : SpaceId} {s : Space} (h : m.Vacant id) (hm : m.Owned)
    (hm' : m'.Owned) (hrests : m.Rests m') (hs : m.spaces.get? id = some s) : m'.Vacant id := by
  intro s' hs'
  have like : ∀ id s s', m.spaces.get? id = some s → m'.spaces.get? id = some s' → s.Like s' :=
    fun id s s' hs hs' => (hrests id s s' hs hs').1
  obtain ⟨hstatic, hcleared⟩ := h s hs
  refine ⟨(like id s s' hs hs').isStatic.trans hstatic, fun a ha => ?_⟩
  rw [hm.mem_ancestry_congr hm' like hs hs' hstatic] at ha
  obtain ⟨t, ht⟩ := live_of_mem_ancestryFrom ha
  exact (hcleared a ha).rests hrests ht

section Steps

variable {m m' : Model} {id : SpaceId} {sites around : SpaceId → Prop} {cs : List CellId}
  {rs : List RefId} {before : Changes}

theorem Deriving.step (h : Deriving id sites around cs rs before m) {changes : Changes}
    {cs' : List CellId} {rs' : List RefId} (owned : m'.Owned) (rests : m.Rests m')
    (self : ∃ s', m'.spaces.get? id = some s')
    (new : ∀ x s', m.spaces.get? x = none → m'.spaces.get? x = some s' →
      changes.Stale ∧ (s'.isStatic = true ∧ s'.parent = some id) ∧
        ∀ k, s'.instances.get? k = none)
    (mirrored : ∀ stale, m.MirroredBut stale →
      m'.MirroredBut fun a => stale a ∨ (changes.Stale ∧ a ∈ m.ancestry id))
    (hcells : ∀ c ∈ cs', ∃ d, m'.cells.get? c = some d)
    (hrefs : ∀ r ∈ rs', ∃ q, m'.refs.get? r = some q) :
    Deriving id sites around cs' rs' (before ++ changes) m' := by
  have like : ∀ id s s', m.spaces.get? id = some s → m'.spaces.get? id = some s' → s.Like s' :=
    fun id s s' hs hs' => (rests id s s' hs hs').1
  obtain ⟨s, hs, hstatic⟩ := h.self
  obtain ⟨s', hs'⟩ := self
  refine ⟨owned, ⟨s', hs', (like id s s' hs hs').isStatic.trans hstatic⟩, fun a => ?_, ?_,
    fun x hx => ?_, hcells, hrefs⟩
  · rw [h.owned.mem_ancestry_congr owned like hs hs' hstatic]
    exact h.ancestry a
  · refine (mirrored _ h.mirrored).mono fun a ha => ?_
    rw [stale_append]
    rcases ha with ⟨hstale, ha⟩ | ⟨hstale, ha⟩
    · exact ⟨.inl hstale, ha⟩
    · exact ⟨.inr hstale, (h.ancestry a).1 ha⟩
  · cases ht : m.spaces.get? x with
    | none =>
      cases ht' : m'.spaces.get? x with
      | none =>
        refine .inl fun t' hlive => ?_
        rw [ht'] at hlive
        contradiction
      | some t' =>
        obtain ⟨hstale, hparent, hinstances⟩ := new x t' ht ht'
        refine .inr ⟨(stale_append _ _).2 (.inr hstale), fun u k hu => ?_, fun u hu => ?_⟩
        · rw [ht'] at hu
          cases hu
          exact hinstances k
        · cases hu
          exact hparent
    | some t =>
      rcases h.vacant x hx with hvacant | ⟨hstale, hcleared, hparent⟩
      · exact .inl (hvacant.rests h.owned owned rests ht)
      · refine .inr ⟨(stale_append _ _).2 (.inl hstale), hcleared.rests rests ht, fun t' ht' => ?_⟩
        have hlike := like x t t' ht ht'
        exact ⟨hlike.isStatic.trans (hparent t ht).1, hlike.parent.trans (hparent t ht).2⟩

/-- More changes only excuse more. -/
theorem Deriving.append (h : Deriving id sites around cs rs before m) (changes : Changes) :
    Deriving id sites around cs rs (before ++ changes) m := by
  refine { h with mirrored := h.mirrored.mono fun a ha => ⟨?_, ha.2⟩, vacant := fun x hx => ?_ }
  · rw [stale_append]
    exact .inl ha.1
  · refine (h.vacant x hx).imp_right fun hnew => ⟨?_, hnew.2⟩
    rw [stale_append]
    exact .inl hnew.1

theorem rests_of_sameSpaces (h : m'.spaces = m.spaces) : m.Rests m' := by
  intro x s s' hs hs'
  rw [h, hs] at hs'
  cases hs'
  exact ⟨.refl s, fun _ hk => hk⟩

/-- Neither a space nor what replicas take from one changes. -/
theorem Deriving.aside (h : Deriving id sites around cs rs before m) (owned : m'.Owned)
    (spaces : m'.spaces = m.spaces) (changes : Changes)
    (mirrored : ∀ stale, m.MirroredBut stale →
      m'.MirroredBut fun a => stale a ∨ (changes.Stale ∧ a ∈ m.ancestry id))
    {cs' : List CellId} {rs' : List RefId} (hcells : ∀ c ∈ cs', ∃ d, m'.cells.get? c = some d)
    (hrefs : ∀ r ∈ rs', ∃ q, m'.refs.get? r = some q) :
    Deriving id sites around cs' rs' (before ++ changes) m' := by
  refine h.step owned (rests_of_sameSpaces spaces) ?_ (fun x s' hs hs' => ?_) mirrored hcells hrefs
  · obtain ⟨s, hs, -⟩ := h.self
    exact ⟨s, spaces ▸ hs⟩
  · rw [spaces, hs] at hs'
    contradiction

theorem Deriving.alike (h : Deriving id sites around cs rs before m) (halike : Alike m m') :
    Deriving id sites around cs rs before m' := by
  have howned := halike.owned h.owned
  rw [← append_empty before]
  refine h.aside howned halike.spaces {} (fun stale hmirror => ?_) (fun c hc => ?_) fun r hr => ?_
  · exact (hmirror.drops h.owned howned halike.drops).mono fun _ ha => .inl ha
  · obtain ⟨d, hd⟩ := h.cells c hc
    have hcells := halike.cells c
    rw [hd, Option.map_some] at hcells
    obtain ⟨d', hd', -⟩ := Option.map_eq_some_iff.1 hcells
    exact ⟨d', hd'⟩
  · rw [halike.refs]
    exact h.refs r hr

section Updates

variable {s t : Space}

/-- One space changes. -/
theorem rests_of_update (hs : m.spaces.get? id = some s)
    (hget : ∀ x, m'.spaces.get? x = if id = x then some t else m.spaces.get? x)
    (like : s.Like t) (instances : t.instances = s.instances) : m.Rests m' := by
  intro x u u' hu hu'
  rw [hget] at hu'
  split at hu'
  next heq =>
    subst heq
    cases hs.symm.trans hu
    cases hu'
    exact ⟨like, fun k hk => by rw [instances, hk]⟩
  next =>
    cases hu.symm.trans hu'
    exact ⟨.refl u, fun _ hk => hk⟩

theorem new_of_update {p : Prop} (hs : m.spaces.get? id = some s)
    (hget : ∀ x, m'.spaces.get? x = if id = x then some t else m.spaces.get? x) {x : SpaceId}
    {s' : Space} (hnone : m.spaces.get? x = none) (hs' : m'.spaces.get? x = some s') : p := by
  rw [hget] at hs'
  split at hs'
  next heq =>
    rw [← heq, hs] at hnone
    contradiction
  next =>
    rw [hnone] at hs'
    contradiction

end Updates

/-! ## What can happen to a member -/

section Members

variable {name : String} {s : Space}

theorem Deriving.static (h : Deriving id sites around cs rs before m) (hs : m.spaces.get? id = some s) :
    s.isStatic = true := by
  obtain ⟨t, ht, hstatic⟩ := h.self
  rw [hs] at ht
  cases ht
  exact hstatic

theorem Deriving.addCells (h : Deriving id sites around cs rs before m) {c : Cells}
    (small : (m.addCells c).2.Addressable) (hs : m.spaces.get? id = some s) (hspace : c.space = id)
    (hfree : s.cells.get? c.name = none) :
    Deriving id sites around cs rs (before ++ .memberCreated) (m.addCells c).2 := by
  subst hspace
  have hstatic := h.static hs
  have hadds := addsCells h.owned.tidy small hs
  refine h.step (owned_addCells h.owned small hs hfree)
    (rests_of_update hs hadds.spaces ⟨rfl, rfl, rfl, fun _ => rfl, fun _ => rfl⟩ rfl)
    ⟨_, (hadds.spaces _).trans (if_pos rfl)⟩ (fun x s' => new_of_update hs hadds.spaces)
    (fun stale hmirror => ?_) (fun c' hc' => ?_) fun r hr => ?_
  · exact (mirrored_addCells hs hstatic h.owned hmirror small rfl hfree).mono fun a ha =>
      ha.imp_right fun ha => ⟨.inl rfl, ha⟩
  · obtain ⟨d, hd⟩ := h.cells c' hc'
    rw [hadds.cells]
    split
    · exact ⟨_, rfl⟩
    · exact ⟨d, hd⟩
  · rw [hadds.refs]
    exact h.refs r hr

theorem Deriving.modifyCell (h : Deriving id sites around cs rs before m) {c : CellId} {d : Cells}
    {f : Cells → Cells} (hd : m.cells.get? c = some d) (hspace : d.space = id)
    (hf : ∀ c, (f c).home = c.home) (changes : Changes) (hstale : changes.Stale) :
    Deriving id sites around cs rs (before ++ changes) (m.modifyCell c f) := by
  obtain ⟨s, hs, hstatic⟩ := h.self
  refine h.aside (owned_modifyCell h.owned hf) rfl changes (fun stale hmirror => ?_)
    (fun c' hc' => ?_) h.refs
  · exact (mirrored_modifyCell hs hstatic h.owned hmirror hd hspace hf).mono fun a ha =>
      ha.imp_right fun ha => ⟨hstale, ha⟩
  · exact Pool.contains_iff.1 ((Pool.contains_modify m.cells c f c').trans
      (Pool.contains_iff.2 (h.cells c' hc')))

theorem spaces_destroyCells (m : Model) (c : CellId) : (m.destroyCells c).spaces = m.spaces :=
  (alike_unloadCells m c).spaces

theorem refs_destroyCells (m : Model) (c : CellId) : (m.destroyCells c).refs = m.refs :=
  (alike_unloadCells m c).refs

theorem spaces_destroyReference (m : Model) (r : RefId) :
    (m.destroyReference r).spaces = m.spaces :=
  (alike_unloadReference m r).spaces

/-- A member goes, and the replicas around the space are stale. -/
theorem Deriving.sever (h : Deriving id sites around cs rs before m) {e : Entity}
    (hsevers : Severs m m' e) (hhome : ∀ p, m.HomeIn e p → p = id)
    (self : ∃ s', m'.spaces.get? id = some s') {changes : Changes} (hstale : changes.Stale)
    {cs' : List CellId} {rs' : List RefId}
    (hcells : ∀ c ∈ cs', ∃ d, m'.cells.get? c = some d)
    (hrefs : ∀ r ∈ rs', ∃ q, m'.refs.get? r = some q) :
    Deriving id sites around cs' rs' (before ++ changes) m' := by
  refine h.step hsevers.owned (fun x s s' hs hs' => ?_) self (fun x s' hs hs' => ?_)
    (fun stale hmirror => ?_) hcells hrefs
  · obtain ⟨t, ht, hloses⟩ := hsevers.spaces x s' hs'
    cases hs.symm.trans ht
    exact ⟨hloses.toLike, fun k hk => by rw [hloses.instances, hk]⟩
  · obtain ⟨t, ht, -⟩ := hsevers.spaces x s' hs'
    rw [hs] at ht
    contradiction
  · refine hmirror.sever h.owned hsevers (fun _ h => .inl h) fun p a hp ha => .inr ⟨hstale, ?_⟩
    rwa [hhome p hp] at ha

theorem HomeIn.unique {e : Entity} {p q : SpaceId} (h : m.HomeIn e p) (h' : m.HomeIn e q) :
    p = q := by
  obtain ⟨a, ha, hp⟩ := h
  obtain ⟨b, hb, hq⟩ := h'
  rw [ha] at hb
  cases hb
  rw [hp] at hq
  exact Option.some.inj hq

theorem homeIn_of_listed (hm : m.Owned) {e : Entity} {a : Address} (h : m.listed a = some e)
    (ha : a.space? = some id) : m.HomeIn e id := by
  obtain ⟨b, hb, hba⟩ := hm.linked.sound a e h
  exact ⟨b, hb, hba.space?.trans ha⟩

/-- One of the cells of the space goes. -/
theorem Deriving.dropCells (h : Deriving id sites around cs rs before m)
    (hs : m.spaces.get? id = some s) {c : CellId} (hc : s.cells.get? name = some c) :
    Deriving id sites around [] rs (before ++ .memberRemoved) ((m.modifySpace id fun s =>
      { s with cells := s.cells.erase name }).destroyCells c) := by
  have hlisted : m.listed (.cells id name) = some (.cells c) := by
    rw [listed_of_space rfl hs, Space.lists, hc, Option.map_some]
  refine h.sever (severs_cells h.owned hs (h.static hs) hc)
    (fun p hp => hp.unique (homeIn_of_listed h.owned hlisted rfl)) ?_ (.inl rfl) (by simp)
    fun r hr => ?_
  · rw [spaces_destroyCells, get?_modifySpace hs, if_pos rfl]
    exact ⟨_, rfl⟩
  · rw [refs_destroyCells]
    exact h.refs r hr

theorem Deriving.addRef (h : Deriving id sites around cs rs before m) {r : Reference}
    (small : (m.addRef r).2.Addressable) (hs : m.spaces.get? id = some s)
    (howner : r.owner = some id) (hfree : s.refs.get? r.name = none) :
    Deriving id sites around [] rs (before ++ .memberCreated) (m.addRef r).2 := by
  have hstatic := h.static hs
  have hspaces := spaces_addRef howner hs
  refine h.step (owned_addRef hs hstatic h.owned small howner hfree)
    (rests_of_update hs hspaces ⟨rfl, rfl, rfl, fun _ => rfl, fun hreplica => ?_⟩ rfl)
    ⟨_, (hspaces id).trans (if_pos rfl)⟩ (fun x s' => new_of_update hs hspaces)
    (fun stale hmirror => ?_) (by simp) fun q hq => ?_
  · rw [hstatic] at hreplica
    contradiction
  · exact (mirrored_addRef hs hstatic h.owned hmirror small howner hfree).mono fun _ ha => .inl ha
  · exact Pool.contains_iff.1 ((widens_addRef m r).refs h.owned.tidy q
      (Pool.contains_iff.2 (h.refs q hq)))

theorem Deriving.modifyRef (h : Deriving id sites around cs rs before m) {r : RefId}
    {f : Reference → Reference} (hf : ∀ r, (f r).home = r.home) (changes : Changes) :
    Deriving id sites around [] rs (before ++ changes) (m.modifyRef r f) := by
  refine h.aside (owned_modifyRef h.owned hf) rfl changes (fun stale hmirror => ?_) (by simp)
    fun q hq => ?_
  · have hmirror' : (m.modifyRef r f).MirroredBut stale := hmirror.of_sameSpaces h.owned rfl rfl
    exact hmirror'.mono fun _ ha => .inl ha
  · exact Pool.contains_iff.1 ((Pool.contains_modify m.refs r f q).trans
      (Pool.contains_iff.2 (h.refs q hq)))

/-- One of the references of the space goes. -/
theorem Deriving.dropRef (h : Deriving id sites around cs rs before m)
    (hs : m.spaces.get? id = some s) {r : RefId} (hr : s.refs.get? name = some r) :
    Deriving id sites around [] [] (before ++ .memberRemoved) ((m.modifySpace id fun s =>
      { s with refs := s.refs.erase name }).destroyReference r) := by
  have hlisted : m.listed (.ref id name) = some (.ref r) := by
    rw [listed_of_space rfl hs, Space.lists, hr, Option.map_some]
  refine h.sever (severs_reference h.owned hs (h.static hs) hr)
    (fun p hp => hp.unique (homeIn_of_listed h.owned hlisted rfl)) ?_ (.inl rfl) (by simp) (by simp)
  rw [spaces_destroyReference, get?_modifySpace hs, if_pos rfl]
  exact ⟨_, rfl⟩

/-- A child comes. -/
theorem Deriving.addChild (h : Deriving id sites around [] [] before m) {t : Space}
    (small : (m.addChild id t).2.Addressable) (hs : m.spaces.get? id = some s)
    (hfree : s.spaces.get? t.name = none) (hparent : t.parent = some id)
    (hstatic : t.isStatic = true) (empty : ∀ a, t.lists a = none) (changes : Changes)
    (hstale : changes.Stale) :
    Deriving id sites around [] [] (before ++ changes) (m.addChild id t).2 := by
  have hself := h.static hs
  have hadds := addsChild h.owned.tidy small hs
  refine h.step (owned_addChild h.owned small hs hfree hparent hstatic hself empty)
    (fun x u u' hu hu' => ?_) ⟨_, (hadds.spaces id).trans (if_pos rfl)⟩ (fun x u' hu hu' => ?_)
    (fun stale hmirror => ?_) (by simp) (by simp)
  · rw [hadds.spaces] at hu'
    split at hu'
    next heq =>
      subst heq
      cases hs.symm.trans hu
      cases hu'
      exact ⟨⟨rfl, rfl, rfl, fun _ => rfl, fun _ => rfl⟩, fun _ hk => hk⟩
    next =>
      split at hu'
      next heq =>
        rw [← heq, hadds.fresh] at hu
        contradiction
      next =>
        cases hu.symm.trans hu'
        exact ⟨.refl u, fun _ hk => hk⟩
  · rw [hadds.spaces] at hu'
    split at hu'
    next heq =>
      rw [← heq, hs] at hu
      contradiction
    next =>
      split at hu'
      next =>
        cases hu'
        refine ⟨hstale, ⟨hstatic, hparent⟩, fun k => ?_⟩
        exact Option.map_eq_none_iff.1 (empty (.item id k))
      next =>
        rw [hu] at hu'
        contradiction
  · exact (mirrored_addChild hs hself h.owned hmirror small hfree hparent hstatic empty).mono
      fun a ha => ha.imp_right fun ha => ⟨hstale, ha⟩

theorem rests_retouch {f : Space → Space} {c : SpaceId} (hf : ∀ s, Space.Retouches s (f s)) :
    m.Rests (m.modifySpace c f) := by
  intro x u u' hu hu'
  have hget := Pool.get?_modify m.spaces c x f
  replace hu' := hget.symm.trans hu'
  split at hu'
  next heq =>
    subst heq
    rw [hu, Option.map_some, Option.some.injEq] at hu'
    rw [← hu']
    exact ⟨(hf u).toLike, fun k hk => by rw [(hf u).instances, hk]⟩
  next =>
    cases hu.symm.trans hu'
    exact ⟨.refl u, fun _ hk => hk⟩

theorem live_modifySpace {f : Space → Space} {c x : SpaceId} :
    (∃ s', (m.modifySpace c f).spaces.get? x = some s') ↔ ∃ s, m.spaces.get? x = some s := by
  rw [← Pool.contains_iff, ← Pool.contains_iff]
  exact iff_of_eq (congrArg (· = true) (Pool.contains_modify m.spaces c f x))

/-- A space changes in place. -/
theorem Deriving.retouch (h : Deriving id sites around [] [] before m) {c : SpaceId}
    {f : Space → Space} (hf : ∀ s, Space.Retouches s (f s)) (changes : Changes)
    (mirrored : ∀ stale, m.MirroredBut stale →
      (m.modifySpace c f).MirroredBut fun a => stale a ∨ (changes.Stale ∧ a ∈ m.ancestry id)) :
    Deriving id sites around [] [] (before ++ changes) (m.modifySpace c f) := by
  obtain ⟨s, hs, -⟩ := h.self
  refine h.step (owned_retouch h.owned hf) (rests_retouch hf) (live_modifySpace.2 ⟨s, hs⟩)
    (fun x s' hnone hs' => ?_) mirrored (by simp) (by simp)
  obtain ⟨t, ht⟩ := live_modifySpace.1 ⟨s', hs'⟩
  rw [hnone] at ht
  contradiction

theorem Deriving.rebase (h : Deriving id sites around [] [] before m) {c : SpaceId}
    {f : Space → Space} (hf : ∀ s, Space.Retouches s (f s))
    (hsig : ∀ s, (f s).signature = s.signature) (hreplica : ∀ s, s.isStatic = false → f s = s)
    (changes : Changes) :
    Deriving id sites around [] [] (before ++ changes) (m.modifySpace c f) :=
  h.retouch hf changes fun _ hmirror =>
    (mirrored_rebase h.owned hmirror hf hsig hreplica).mono fun _ ha => .inl ha

theorem Deriving.resign (h : Deriving id sites around [] [] before m) {f : Space → Space}
    (hf : ∀ s, Space.Retouches s (f s)) (changes : Changes) (hstale : changes.Stale) :
    Deriving id sites around [] [] (before ++ changes) (m.modifySpace id f) := by
  obtain ⟨s, hs, hstatic⟩ := h.self
  exact h.retouch hf changes fun _ hmirror =>
    (mirrored_resign hs hstatic h.owned hmirror hf).mono fun a ha =>
      ha.imp_right fun ha => ⟨hstale, ha⟩

theorem Within.trans {e₁ e₂ e₃ : Entity} (h : m.Within e₁ e₂) (h' : m.Within e₂ e₃) :
    m.Within e₁ e₃ := by
  induction h' with
  | self => exact h
  | inside ha hp _ ih => exact .inside ha hp ih

/-- No space lies inside one that is at home in it. -/
theorem Owned.not_within (hm : m.Owned) {c : SpaceId} (hs : m.spaces.get? id = some s)
    (hc : m.HomeIn (.space c) id) : ¬ m.Within (.space c) (.space id) := by
  have key : ∀ id, m.Grounded id → ∀ c, m.HomeIn (.space c) id →
      ¬ m.Within (.space c) (.space id) := by
    intro id hid
    induction hid with
    | intro id s hs _ ih =>
      intro c hc hw
      have hhome := hc
      obtain ⟨a, ha, hp⟩ := hhome
      cases hw with
      | self =>
        rw [home?_space hs] at ha
        cases ha
        exact ih _ hp _ hc .self
      | @inside _ b p hb hbp hw =>
        rw [home?_space hs] at hb
        cases hb
        exact ih p hbp id ⟨_, home?_space hs, hbp⟩ ((Within.inside ha hp .self).trans hw)
  exact key id (hm.grounded id s hs) c hc

/-- One of the children of the space goes with everything inside it. -/
theorem Deriving.dropChild (h : Deriving id sites around [] [] before m)
    (hs : m.spaces.get? id = some s) {c : SpaceId} (hc : s.spaces.get? name = some c)
    (changes : Changes) (hstale : changes.Stale) :
    Deriving id sites around [] [] (before ++ changes) ((m.modifySpace id fun s =>
        { s with spaces := s.spaces.erase name }).destroySpace c) ∧
      ((m.modifySpace id fun s =>
        { s with spaces := s.spaces.erase name }).destroySpace c).spaces.get? id =
          some { s with spaces := s.spaces.erase name } := by
  have hlisted : m.listed (.child id name) = some (.space c) := by
    rw [listed_of_space rfl hs, Space.lists, hc, Option.map_some]
  have hhome := homeIn_of_listed h.owned hlisted rfl
  have hself := severs_child_self h.owned hs (h.static hs) hc (h.owned.not_within hs hhome)
  exact ⟨h.sever (severs_child h.owned hs (h.static hs) hc) (fun p hp => hp.unique hhome)
    ⟨_, hself⟩ hstale (by simp) (by simp), hself⟩

end Members

end Steps

end Model

end Recalc
