import Recalc.Proofs.FailedReads
import Recalc.Proofs.SettingEdits
import Recalc.Proofs.Subtrees

set_option autoImplicit false

/-!
# Requests leave no forbidden value

When the setting of a space changes, every space inside it is left without computed values, and no
space that the change can reach has instances. Forgetting cannot leave what was not there, and an
evaluation stores an empty value only where the setting that is then in force allows it.
-/

namespace Recalc.Model

open Recalc.Action

variable {m m' : Model} {id : SpaceId}

/-! ## The setting of a space -/

/-- The spaces of both models have one bearing, apart from the space that everything inside was
taken from. -/
structure Repeals (id : SpaceId) (m m' : Model) : Prop where
  carries : CarriesOver m m'
  config : m'.config = m.config
  spaces : ∀ x s', x ≠ id → m'.spaces.get? x = some s' →
    ∃ s, m.spaces.get? x = some s ∧ s'.bearing = s.bearing
  static : m'.Static id
  around : ∀ a ∈ m'.ancestry id, m'.Cleared a
  inside : ∀ x, m'.Static x → m'.Inside id (.space x) → m'.Emptied x

/-- What is still computed is not under the setting that changed: its static counterpart would lie
inside the space, so the space that it is anchored in would lie inside or around it. -/
theorem Repeals.outside {sites : SpaceId → Prop} (h : Repeals id m m') (hm' : m'.Faithful sites)
    {c : CellId} {d : Cells} {k : Key} {v : Value} {s : Space} (hd : m'.cells.get? c = some d)
    (hv : d.contents.values.get? k = some v) (hs : m'.spaces.get? d.space = some s) :
    ¬ m'.Inside id (.space (s.bearing.counterpart.getD d.space)) := by
  intro hinside
  have hcounterpart := counterpart_of_bearing hs
  obtain ⟨source, hsource, hstatic⟩ := hm'.counterpart hs hcounterpart
  obtain ⟨a, ha⟩ := hm'.owned.anchored hs
  have haround := hm'.mirrored.anchor_mem_ancestry hm'.owned ha (fun hf => hf) hcounterpart
  rw [← hm'.owned.inside_iff_mem_ancestry ⟨source, hsource, hstatic⟩] at haround
  have hcleared : m'.Cleared a := by
    rcases hinside.nested haround with hin | hout
    · exact (h.inside a ha.anchor hin).cleared
    · exact h.around a ((hm'.owned.inside_iff_mem_ancestry h.static).1 hout)
  have hself := ha.static_of_cleared hm'.owned hcleared s hs
  have hsame := (counterpart_of_static hs hself).symm.trans hcounterpart
  rw [← Except.ok.inj hsame] at hinside
  have hnone := (h.inside d.space ⟨s, hs, hself⟩ hinside).values c d k hd rfl
  rw [hnone] at hv
  contradiction

theorem Repeals.abides {sites sites' : SpaceId → Prop} (h : Repeals id m m') (hm : m.Faithful sites)
    (hm' : m'.Faithful sites') (habides : m.Abides) : m'.Abides := by
  intro c d' k hd' hv'
  obtain ⟨d, hd, hv, hallow, hspace⟩ := h.carries c d' k _ hd' hv'
  have hbefore := habides c d k hd hv
  cases hown : d.allowNone with
  | some flag =>
    rw [mayBeEmpty_of_own hd hown] at hbefore
    rw [mayBeEmpty_of_own hd' (hallow.trans hown), hbefore]
  | none =>
    obtain ⟨s', hs', -⟩ := hm'.owned.cells_holder hd'
    obtain ⟨source, hsource, hstatic⟩ := hm'.counterpart hs' (counterpart_of_bearing hs')
    have hout := h.outside hm' hd' hv' hs'
    have hne : d'.space ≠ id := by
      intro heq
      obtain ⟨t, ht, htstatic⟩ := h.static
      rw [heq] at hs'
      have hnone := (h.inside id ⟨t, ht, htstatic⟩ .self).values c d' k hd' heq
      rw [hnone] at hv'
      contradiction
    obtain ⟨s, hs, heq⟩ := h.spaces _ s' hne hs'
    -- around the counterpart nothing changed, since the space is not there
    have hrules := (hm'.rules hs').within (fun x => m'.Static x ∧ ¬ m'.Inside id (.space x))
      (fun x t hx ht => h.spaces x t (fun heq => hx.2 (heq ▸ .self)) ht) h.config
      (fun x t p hx ht hp => by
        obtain ⟨⟨u, hu, hustatic⟩, hxout⟩ := hx
        cases ht.symm.trans hu
        obtain ⟨q, hq, hqstatic, -⟩ := hm'.owned.static_holder ht hustatic hp
        exact ⟨⟨q, hq, hqstatic⟩, fun hpin => hxout (.member (home?_space ht)
          ((home_space?_of_static hustatic).trans hp) hpin)⟩)
      ⟨⟨source, hsource, hstatic⟩, hout⟩
    rw [mayBeEmpty_of_around hd hown (hspace ▸ hs)] at hbefore
    rw [mayBeEmpty_of_around hd' (hallow.trans hown) hs', ← hbefore]
    rw [heq, hspace] at hrules ⊢
    exact hrules.unique (hm.rules (hspace ▸ hs))

/-- The stale instances around the space are dropped, and then everything inside it is forgotten. -/
theorem repeals_forgetSpaces {m₁ m₂ : Model} (hcarries : CarriesOver m m₁)
    (hconfig : m₁.config = m.config)
    (hspaces : ∀ x, x ≠ id → m₁.spaces.get? x = m.spaces.get? x) (howned : m₁.Owned)
    (hcalm : m₁.Calm) (hstatic : m₁.Static id) (hm₂ : m₂ = m₁.dropStaleInstances id) :
    (forgetSpaces m₂.spaces.capacity [id] 0 m₂).2.Calm ∧
      Repeals id m (forgetSpaces m₂.spaces.capacity [id] 0 m₂).2 := by
  have H := shrinkFrame_subsides
  have hdropped := H.dropStaleInstances m₁ id hcalm
  have hunder := under_dropStaleInstances m₁ id howned
  have hcleared : ∀ a ∈ m₁.ancestry id, m₂.Cleared a := by
    intro a ha
    obtain ⟨s, hs, hs'⟩ := hstatic
    obtain ⟨t, ht⟩ := live_of_mem_ancestryFrom ha
    have htstatic := howned.static_of_mem_ancestry hs hs' ha ht
    exact hm₂ ▸ cleared_dropStaleInstances howned ha ht htstatic
  rw [← hm₂] at hdropped hunder
  obtain ⟨hcalm₂, hsubsides₂⟩ := hdropped
  obtain ⟨howned₂, hdrops₂⟩ := hunder
  have hstatic₂ := (hstatic.drops hdrops₂).1
  have hemptied : ∀ x, m₂.Static x → m₂.Inside id (.space x) →
      (forgetSpaces m₂.spaces.capacity [id] 0 m₂).2.Emptied x :=
    fun _ => howned₂.emptied_forgetWithin hcalm₂ hstatic₂ 0
  obtain ⟨hcalm₃, hsubsides₃⟩ := H.forgetSpaces m₂.spaces.capacity [id] 0 m₂ hcalm₂
  obtain ⟨howned₃, hdrops₃⟩ := under_forgetSpaces m₂.spaces.capacity [id] 0 m₂ howned₂
  generalize (forgetSpaces m₂.spaces.capacity [id] 0 m₂).2 = m₃ at *
  have hdrops := Frame.trans hdrops₂ hdrops₃
  have hsubsides := Frame.trans hsubsides₂ hsubsides₃
  refine ⟨hcalm₃, Frame.trans hcarries hsubsides.carries, hsubsides.houses.config.trans hconfig,
    fun x s' hne hs' => ?_, (hstatic.drops hdrops).1, fun a ha => ?_, fun x hx hinside => ?_⟩
  · obtain ⟨s, hs, heq⟩ := hsubsides.houses.spaces x s' hs'
    exact ⟨s, (hspaces x hne).symm.trans hs, heq⟩
  · obtain ⟨s, hs, hs'⟩ := hstatic
    obtain ⟨t, ht, -⟩ := hdrops.static' hs hs'
    refine (hcleared a ?_).drops hdrops₃
    exact (howned.mem_ancestry_congr howned₃ (fun y u u' hu hu' => (hdrops.rests y u u' hu hu').1)
      hs ht hs').1 ha
  · obtain ⟨s', hs', hstatic'⟩ := hx
    obtain ⟨s, hs, heq, -⟩ := hdrops₃.space x s' hs'
    exact hemptied x ⟨s, hs, by rwa [heq] at hstatic'⟩ (hdrops₃.inside hinside)

theorem heeds_letSpaceBeEmpty (hm : m.Faithful fun _ => False) (h : m.Heeds) (id : SpaceId)
    (allow : Option Bool) : Leaves Heeds (letSpaceBeEmpty id allow) m := by
  refine ends_read (fun _ => h) fun s hs => ends_modify ?_
  have hretouch : ∀ s : Space, Space.Retouches s { s with allowNone := allow } := fun s =>
    ⟨⟨rfl, rfl, rfl, fun _ => rfl, fun _ => rfl⟩, rfl, rfl, rfl, rfl⟩
  have hproper := (follows_retouch (fun _ => hm) hs hretouch).holds
  obtain ⟨hs, hstatic⟩ := editable_eq_ok hs
  have hget := get?_modifySpace hs fun s => { s with allowNone := allow }
  obtain ⟨hcalm₁, hupholds₁⟩ := editFrame_upholds.permit m id allow h.calm
  have hid : (m.modifySpace id fun s => { s with allowNone := allow }).Static id :=
    ⟨{ s with allowNone := allow }, by rw [hget, if_pos rfl], hstatic⟩
  have howned₁ : (m.modifySpace id fun s => { s with allowNone := allow }).Owned :=
    owned_retouch hm.owned hretouch
  obtain ⟨hcalm₃, hrepeals⟩ := repeals_forgetSpaces hupholds₁.carries rfl
    (fun x hne => (hget x).trans (if_neg (Ne.symm hne))) howned₁ hcalm₁ hid rfl
  obtain ⟨t, ht, -⟩ := (hid.drops (under_dropStaleInstances _ id howned₁).2).1
  refine ends_then (ends_found (space_eq_ok.2 ht) (ends_change fun small => ?_))
    fun _ _ h => ends_pure h
  have hm' := (proper_forgetSpaces _ [id] 0 _ hproper).1 small
  exact ⟨hcalm₃, hrepeals.abides hm hm' h.abides⟩

/-! ## Evaluation -/

structure Minds (m m' : Model) : Prop where
  adds : Adds m m'
  abides : (m.Addressable → m.Abides) → m'.Addressable → m'.Abides

instance : Frame Minds where
  refl m := ⟨Frame.refl m, fun h => h⟩
  trans h h' := ⟨Frame.trans h.adds h'.adds, fun habides => h'.abides (h.abides habides)⟩

theorem Enriches.houses (h : Enriches m m') : m'.Houses m := by
  refine ⟨fun x s hs => ?_, h.config.symm⟩
  obtain ⟨s', hs', hext⟩ := h.spaces x s hs
  refine ⟨s', hs', ?_⟩
  rw [hext.same]
  rfl

theorem Enriches.carriesOver (h : Enriches m m') (fresh : ∀ c d', m'.cells.get? c = some d' →
    d'.contents = .empty ∨ ∃ d, m.cells.get? c = some d ∧ d'.contents = d.contents) :
    CarriesOver m m' := by
  intro c d' k v hd' hv
  rcases fresh c d' hd' with hnew | ⟨d, hd, hsame⟩
  · rw [hnew, Contents.empty, Table.get?_empty] at hv
    contradiction
  · obtain ⟨e', he', hext⟩ := h.cells c d hd
    cases hd'.symm.trans he'
    have hallow := congrArg Cells.allowNone hext.bare
    have hspace := congrArg Cells.space hext.bare
    exact ⟨d, hd, hsame ▸ hv, hallow, hspace⟩

theorem minds_of_fresh (h : Under Running Adds m m') (fresh : m.Running → ∀ c d',
    m'.cells.get? c = some d' →
      d'.contents = .empty ∨ ∃ d, m.cells.get? c = some d ∧ d'.contents = d.contents) :
    Under Running Minds m m' := by
  intro hm
  obtain ⟨hm', hadds⟩ := h hm
  refine ⟨hm', hadds, fun habides room => ?_⟩
  have hbefore := hadds.grows.fits.addressable room
  have henriches := hadds.enriches room
  exact (habides hbefore).carry (hm.faithful hbefore) (hm'.faithful room)
    (henriches.carriesOver (fresh hm)) henriches.houses (Frame.refl m')

theorem minds_of_cells (h : Under Running Adds m m') (hcells : m'.cells = m.cells) :
    Under Running Minds m m' :=
  minds_of_fresh h fun _ _ d' hd' => .inr ⟨d', hcells ▸ hd', rfl⟩

theorem fresh_addReplica {m₁ : Model} (hm : m.Running) {s : Space} {c x : SpaceId}
    (hadd : m.addReplica s c = (x, m₁)) (hcells : m'.cells = m₁.cells) (d : CellId) (e' : Cells)
    (he' : m'.cells.get? d = some e') :
    e'.contents = .empty ∨ ∃ e, m.cells.get? d = some e ∧ e'.contents = e.contents :=
  (widens_addReplica hadd).fresh hm.tracked.tidy d e' (hcells ▸ he')

theorem minds_ensureChild (p : SpaceId) (name : String) :
    Obeys (Under Running Minds) (ensureChild p name) := by
  intro m r m' h
  refine minds_of_fresh (evaluationFrame_adds.child p name m r m' h) fun hm d e' he' => ?_
  rcases ensureChild_cases h with ⟨rfl, -⟩ |
      ⟨q, root, pc, outer, c, x, m₁, -, -, -, -, -, -, hadd, rfl, -⟩
  · exact .inr ⟨e', he', rfl⟩
  · exact fresh_addReplica hm hadd (by rfl) d e' he'

theorem minds_ensureItem {p : SpaceId} {key : Key} {r : Except Failure Handle}
    (hkey : m.KeyFits p key) (h : ensureItem p key m = some (r, m')) :
    Under Running Minds m m' := by
  refine minds_of_fresh (evaluationFrame_adds.item p key m r m' hkey h) fun hm d e' he' => ?_
  rcases ensureItem_cases h with ⟨rfl, -⟩ | ⟨q, -, ⟨item, -, rfl, -⟩ | ⟨c, x, m₁, -, -, hadd, rfl, -⟩⟩
  · exact .inr ⟨e', he', rfl⟩
  · exact .inr ⟨e', by rwa [cells_noteRead] at he', rfl⟩
  · exact fresh_addReplica hm hadd (by rw [cells_noteRead]; rfl) d e' he'

theorem mayBeEmpty_of_outcome {c : CellId} {n : Node} {r : Except Failure Value}
    (h : outcome c n r m = .ok .empty) : m.mayBeEmpty c = true := by
  cases r with
  | error e => contradiction
  | ok v =>
    simp only [outcome] at h
    split at h
    next => contradiction
    next hv =>
      cases h
      simpa [Value.isEmpty] using hv

/-- What a node leaves stored is its result, or was stored when its formula had run. -/
theorem values_of_finish {c : CellId} {key : Key} {q r : Except Failure Value}
    (h : finish c key q m = some (r, m')) {x : CellId} {e' : Cells} {k : Key} {v : Value}
    (he' : m'.cells.get? x = some e') (hv : e'.contents.values.get? k = some v) :
    (x = c ∧ q = .ok v) ∨
      ∃ e, m.cells.get? x = some e ∧ e.contents.values.get? k = some v := by
  cases q with
  | error f =>
    cases h
    exact .inr ⟨e', he', hv⟩
  | ok w =>
    cases hd : m.cells.get? c with
    | none =>
      simp only [finish, read_bind, cell, hd] at h
      cases h
      exact .inr ⟨e', he', hv⟩
    | some d =>
      cases hstore : d.contents.store? key w with
      | none =>
        simp only [finish, read_bind, cell_eq_ok.2 hd, hstore] at h
        cases h
        exact .inr ⟨e', he', hv⟩
      | some contents =>
        rw [finish_of_store hd hstore] at h
        cases h
        obtain ⟨-, rfl⟩ := Contents.store?_eq_some.1 hstore
        rw [cells_noteRead, get?_modifyContents m c fun _ => _] at he'
        obtain ⟨e, he, rfl⟩ := Option.map_eq_some_iff.1 he'
        split at hv
        next heq =>
          subst heq
          cases hd.symm.trans he
          change (d.contents.values.insert key w).get? k = some v at hv
          rw [Table.get?_insert] at hv
          split at hv
          next =>
            cases hv
            exact .inl ⟨rfl, rfl⟩
          next => exact .inr ⟨d, hd, hv⟩
        next => exact .inr ⟨e, he, hv⟩

theorem minds_compute {run : RunFormula} {c : CellId} {d : Cells} {key : Key}
    {r : Except Failure Value} (hrun : ∀ id f args, Obeys (Under Running Minds) (run id f args))
    (hd : m.cells.get? c = some d) (hnone : d.contents.get? key = none)
    (h : compute run c d key m = some (r, m')) : Under Running Minds m m' := by
  intro hm
  have hruns : ∀ id f args, Obeys (Under Running Adds) (run id f args) :=
    fun id f args m r m' hf hm => (hrun id f args m r m' hf hm).imp_right Minds.adds
  obtain ⟨hm', hadds⟩ := adds_compute hruns hd hnone h hm
  refine ⟨hm', hadds, fun habides room => ?_⟩
  rcases compute_cases h with ⟨rfl, -⟩ | ⟨stack, q, m₁, hpush, -, hcells, hfinish⟩
  · exact habides room
  obtain ⟨hfinished, -⟩ := alike_finish hfinish
  have halike := Frame.trans (alike_stack m₁ m₁.stack.pop) hfinished
  have room₁ := halike.addressable.1 room
  have hpushed := hm.pushed hpush hd hnone
  have hready : ({ m with stack } : Model).Addressable → ({ m with stack } : Model).Abides := by
    intro small
    have hbefore := (alike_stack m stack).addressable.1 small
    exact (habides hbefore).carry (hm.faithful hbefore) (hpushed.faithful small)
      (fun _ e _ _ he hv => ⟨e, he, hv, rfl, rfl⟩) (Frame.refl m)
      (SameBearings.houses (sameBearings_of_eq rfl rfl))
  obtain ⟨hm₁, habides₁, hconfig₁, hempty⟩ : m₁.Running ∧ m₁.Abides ∧ m₁.config = m.config ∧
      (q = .ok .empty → m₁.mayBeEmpty c = true) := by
    rcases runCells_cases hcells with ⟨-, rfl, rfl⟩ | ⟨f, p, -, hf, rfl⟩
    · exact ⟨hpushed, hready room₁, rfl, mayBeEmpty_of_outcome⟩
    · obtain ⟨hm₁, hminds⟩ := hrun _ _ _ _ _ _ hf hpushed
      exact ⟨hm₁, hminds.abides hready room₁, (hminds.adds.enriches room₁).config,
        mayBeEmpty_of_outcome⟩
  -- the setting that was looked up for the result is in force when it is stored
  have hbearings := sameBearings_of_eq halike.spaces ((hadds.enriches room).config.trans hconfig₁.symm)
  intro x e' k he' hv
  obtain ⟨e, he, hbare⟩ : ∃ e, m₁.cells.get? x = some e ∧ e'.bare = e.bare := by
    have hcells := halike.cells x
    rw [he', Option.map_some] at hcells
    obtain ⟨e, he, hbare⟩ := Option.map_eq_some_iff.1 hcells.symm
    exact ⟨e, he, hbare.symm⟩
  have hallow := congrArg Cells.allowNone hbare
  have hspace := congrArg Cells.space hbare
  rw [(hm₁.faithful room₁).same_setting (hm'.faithful room) (Frame.refl m₁) hbearings.houses he he'
    hallow hspace]
  rcases values_of_finish hfinish he' hv with ⟨rfl, hq⟩ | ⟨e₁, he₁, hv₁⟩
  · exact hempty hq
  · exact habides₁ x e₁ k he₁ hv₁

theorem evaluationFrame_minds : EvaluationFrame Running Minds where
  frame := inferInstance
  start m := minds_of_cells (evaluationFrame_adds.start m) rfl
  note m n hn := minds_of_cells (evaluationFrame_adds.note m n hn) (cells_noteRead n m)
  child := minds_ensureChild
  signature _ _ h _ _ hspec := h.adds.grows.retains.signature hspec
  item _ _ _ _ _ hkey h := minds_ensureItem hkey h
  node _ hrun _ _ _ _ _ _ hd hnone h := minds_compute hrun (cell_eq_ok.1 hd) hnone h

theorem runs_minds (fuel : Nat) (id : SpaceId) (f : Formula) (args : List Value) :
    Obeys (Under Running Minds) (runFormula fuel id f args) :=
  evaluationFrame_minds.runFormula fuel id f args

/-! ## Requests -/

structure Sober (m : Model) : Prop where
  calm : m.Calm
  orderly : m.Orderly
  abides : m.Addressable → m.Abides

section Requests

variable {α : Type} {x : Action α}

theorem Sober.running (h : m.Sober) : m.Running := ⟨h.calm.toTracked, h.orderly⟩

theorem sober_of_heeds (hcalm : Obeys (Action.Keeps Calm) x) (hproper : Obeys (Under Proper Fits) x)
    (hx : ∀ m, m.Faithful (fun _ => False) → m.Heeds → Leaves Heeds x m) :
    Obeys (Action.Keeps Sober) x := by
  intro m r m' hrun hm
  obtain ⟨hproper', hfits⟩ := hproper m r m' hrun hm.orderly.proper
  refine ⟨hcalm m r m' hrun hm.calm, ⟨hfits.tidy hm.orderly.tidy, hproper'⟩, fun room => ?_⟩
  have hbefore := hfits.addressable room
  exact (hx m (hm.orderly.proper hbefore) ⟨hm.calm, hm.abides hbefore⟩ r m' hrun room).abides

theorem sober_of_subsides (hproper : Obeys (Under Proper Fits) x)
    (hx : Obeys (Under Calm Subsides) x) : Obeys (Action.Keeps Sober) x := by
  refine sober_of_heeds (fun m r m' hrun hm => (hx m r m' hrun hm).1) hproper ?_
  intro m hm h r m' hrun small
  exact h.turns hm ((hproper m r m' hrun fun _ => hm).1 small)
    (turns_of_shrink (hx m r m' hrun))

theorem sober_of_minds (hcalm : Obeys (Action.Keeps Calm) x) (hx : Obeys (Under Running Minds) x) :
    Obeys (Action.Keeps Sober) x := by
  intro m r m' hrun hm
  obtain ⟨hm', hminds⟩ := hx m r m' hrun hm.running
  exact ⟨hcalm m r m' hrun hm.calm, hm'.orderly, hminds.abides hm.abides⟩

theorem sober_reclaimFirst (held : List Handle) : Obeys (Action.Keeps Sober) (reclaimFirst held) := by
  refine sober_of_subsides (proper_reclaimFirst held) (obeys_modify fun m => ?_)
  split
  · exact reclaim_obeys shrinkFrame_subsides.removeInstance held m
  · exact Frame.refl m

theorem sober_discardInstance (fuel : Nat) (id : SpaceId) (args : List Value) :
    Obeys (Action.Keeps Sober) (discardInstance fuel id args) := by
  have hkey : Obeys (Action.Keeps Sober) (itemKey (runFormula fuel) id { positional := args }) :=
    sober_of_minds (calm_itemKey fuel id _) fun m r m' h hm =>
      (evaluationFrame_minds.itemKey (runs_minds fuel) id _ hm h).1
  exact obeys_bind hkey fun key => obeys_bind (obeys_read _) fun _ =>
    sober_of_subsides (obeys_update fun m => proper_removeInstance m id key)
      (obeys_update fun m => shrinkFrame_subsides.removeInstance m id key)

theorem minds_childNamed (id : SpaceId) (name : String) :
    Obeys (Under Running Minds) (childNamed id name) := by
  refine obeys_bind (obeys_read _) fun s => ?_
  split
  · exact obeys_pure _
  · split
    · exact obeys_bind obeys_get fun _ => obeys_fail _
    · exact minds_ensureChild id name

theorem subsides_forgetAll : Obeys (Under Calm Subsides) forgetAll := by
  have hwithin : ∀ ids, Obeys (Under Calm Subsides) (forgetEach ids) := by
    intro ids
    induction ids with
    | nil => exact obeys_pure _
    | cons id rest ih => exact obeys_bind (shrinkFrame_subsides.forgetWithin id) fun _ => ih
  refine obeys_bind obeys_get fun m => obeys_bind (hwithin _) fun _ => obeys_modify fun m hm => ?_
  exact ⟨calm_emptyGraph m hm, fun _ c _ _ hc hv => ⟨c, hc, hv, rfl, rfl⟩,
    SameBearings.houses (sameBearings_of_eq rfl rfl)⟩

theorem subsides_restoreFlag (e : SpaceId × StoredSpace) :
    Obeys (Under Calm Subsides) (restoreFlag e) := by
  unfold restoreFlag
  split
  · exact obeys_bind (obeys_read _) fun _ => obeys_modify fun m =>
      shrinkFrame_subsides.modifySpace m e.1 _ (preserves_setDerived true)
  · exact obeys_pure _

theorem subsides_of_upholds (hx : Obeys (Under Calm Upholds) x) (hbearings : Obeys SameBearings x) :
    Obeys (Under Calm Subsides) x := by
  intro m r m' hrun hm
  obtain ⟨hcalm, hupholds⟩ := hx m r m' hrun hm
  exact ⟨hcalm, hupholds.carries, (hbearings m r m' hrun).houses⟩

theorem subsides_putInput (id : CellId) (args : List Value) (v : Value) :
    Obeys (Under Calm Subsides) (putInput id args v) := by
  refine subsides_of_upholds (calm_upholds_putInput id args v) ?_
  refine obeys_bind (obeys_read _) fun key => obeys_modify fun m => ?_
  exact Frame.trans (forgetsAll_invalidate m _).forgetsSome.sameBearings
    (sameBearings_of_eq rfl rfl)

theorem subsides_takeInput (id : CellId) (args : List Value) :
    Obeys (Under Calm Subsides) (takeInput id args) := by
  refine subsides_of_upholds (calm_upholds_takeInput id args) ?_
  refine obeys_bind (obeys_read _) fun key => obeys_bind (obeys_read _) fun c => ?_
  split
  · refine obeys_bind (obeys_modify fun m => ?_) fun _ => obeys_pure _
    have hdrop : SameBearings m (m.modifyCell id fun c =>
        { c with contents := c.contents.dropInput key }) := sameBearings_of_eq rfl rfl
    exact Frame.trans hdrop (forgetsAll_invalidate _ _).forgetsSome.sameBearings
  · exact obeys_pure _

theorem hostFrame_sober : HostFrame (Action.Keeps Sober) where
  frame := inferInstance
  createSpace fuel parent name := sober_of_heeds (hostFrame_calm.createSpace fuel parent name)
    (proper_createSpace fuel parent name) fun _ hm h => heeds_createSpace fuel hm h parent name
  removeSpace fuel id := sober_of_heeds (hostFrame_calm.removeSpace fuel id)
    (proper_removeSpace fuel id) fun _ hm h => heeds_removeSpace fuel hm h id
  childNamed id name := sober_of_minds (calm_childNamed id name) (minds_childNamed id name)
  letSpaceBeEmpty id allow := sober_of_heeds (hostFrame_calm.letSpaceBeEmpty id allow)
    (proper_letSpaceBeEmpty id allow) fun _ hm h => heeds_letSpaceBeEmpty hm h id allow
  document id doc := sober_of_heeds (hostFrame_calm.document id doc) (proper_document id doc)
    fun _ hm h => heeds_document hm h id doc
  defineCells fuel id name formula := sober_of_heeds (hostFrame_calm.defineCells fuel id name formula)
    (proper_defineCells fuel id name formula) fun _ hm h => heeds_defineCells fuel hm h id name formula
  redefine fuel id formula := sober_of_heeds (hostFrame_calm.redefine fuel id formula)
    (proper_redefine fuel id formula) fun _ hm h => heeds_redefine fuel hm h id formula
  removeCells fuel id := sober_of_heeds (hostFrame_calm.removeCells fuel id)
    (proper_removeCells fuel id) fun _ hm h => heeds_removeCells fuel hm h id
  letCellsBeEmpty fuel id allow := sober_of_heeds (hostFrame_calm.letCellsBeEmpty fuel id allow)
    (proper_letCellsBeEmpty fuel id allow) fun _ hm h => heeds_letCellsBeEmpty fuel hm h id allow
  dropOverride fuel id := sober_of_heeds (hostFrame_calm.dropOverride fuel id)
    (proper_dropOverride fuel id) fun _ hm h => heeds_dropOverride fuel hm h id
  bindName fuel id name value mode := sober_of_heeds (hostFrame_calm.bindName fuel id name value mode)
    (proper_bindName fuel id name value mode) fun _ hm h => heeds_bindName fuel hm h id name value mode
  rebind fuel id value := sober_of_heeds (hostFrame_calm.rebind fuel id value)
    (proper_rebind fuel id value) fun _ hm h => heeds_rebind fuel hm h id value
  unbind fuel id := sober_of_heeds (hostFrame_calm.unbind fuel id) (proper_unbind fuel id)
    fun _ hm h => heeds_unbind fuel hm h id
  bindGlobal name value := sober_of_heeds (hostFrame_calm.bindGlobal name value)
    (proper_bindGlobal name value) fun _ hm h => heeds_bindGlobal hm h name value
  linkBase fuel id base := sober_of_heeds (hostFrame_calm.linkBase fuel id base)
    (proper_linkBase fuel id base) fun _ hm h => heeds_linkBase fuel hm h id base
  unlinkBase fuel id base := sober_of_heeds (hostFrame_calm.unlinkBase fuel id base)
    (proper_unlinkBase fuel id base) fun _ hm h => heeds_unlinkBase fuel hm h id base
  declareParams fuel id params binder :=
    sober_of_heeds (hostFrame_calm.declareParams fuel id params binder)
      (proper_declareParams fuel id params binder)
      fun _ hm h => heeds_declareParams fuel hm h id params binder
  call fuel held id a := obeys_bind (sober_reclaimFirst held) fun _ =>
    sober_of_minds (obeys_calm_of_under (evaluationFrame_tracked.evaluate (runs_tracked fuel) id a))
      (evaluationFrame_minds.evaluate (runs_minds fuel) id a)
  selectInstance fuel held id a := obeys_bind (sober_reclaimFirst held) fun _ =>
    sober_of_minds (calm_instantiate fuel id a)
      (evaluationFrame_minds.instantiate (runs_minds fuel) id a)
  readFrom fuel held id name := obeys_bind (sober_reclaimFirst held) fun _ =>
    sober_of_minds
      (obeys_calm_of_under (evaluationFrame_tracked.readName (runs_tracked fuel) id name none))
      (evaluationFrame_minds.readName (runs_minds fuel) id name none)
  putInput id args v := sober_of_subsides (proper_putInput id args v) (subsides_putInput id args v)
  takeInput id args := sober_of_subsides (proper_takeInput id args) (subsides_takeInput id args)
  forgetCells id := sober_of_subsides (proper_forgetCells id)
    (obeys_bind (obeys_read _) fun _ => obeys_update fun m =>
      shrinkFrame_subsides.forget (forgetsAll_invalidateCells m id).forgetsSome)
  forgetAt id args := sober_of_subsides (proper_forgetAt id args)
    (obeys_bind (obeys_read _) fun _ => obeys_update fun m =>
      shrinkFrame_subsides.forget (forgetsAll_invalidate m _).forgetsSome)
  forgetWithin id := sober_of_subsides (proper_forgetWithin id)
    (shrinkFrame_subsides.forgetWithin id)
  forgetAll := sober_of_subsides proper_forgetAll subsides_forgetAll
  discardInstance := sober_discardInstance
  discardInstances id := sober_of_subsides (proper_discardInstances id)
    (obeys_bind (obeys_read _) fun _ => obeys_update fun m =>
      shrinkFrame_subsides.removeEveryInstance m id)
  reclaim held m := sober_of_subsides (x := update (reclaim held))
    (obeys_update (proper_reclaim held))
    (obeys_update (reclaim_obeys shrinkFrame_subsides.removeInstance held)) m _ _ rfl
  flag e := sober_of_subsides (proper_restoreFlag e) (subsides_restoreFlag e)

theorem sober_new (name : String) (config : Config) (order : WalkOrder) :
    ({ name, config, order } : Model).Sober := by
  refine ⟨calm_new name config order, orderly_new name config order, fun _ id c k hc => ?_⟩
  exact absurd (hc.symm.trans (Pool.get?_empty id)) (by simp)

end Requests

/-- The setting in force for cells: their own, else that of the nearest space with one around their
static counterpart, else the one of the model. -/
inductive Governs (m : Model) (flag : Bool) (c : Cells) : Prop
  | own : c.allowNone = some flag → Governs m flag c
  | around {x : SpaceId} : c.allowNone = none → m.counterpart c.space = .ok x → m.Rules flag x →
      Governs m flag c

theorem Faithful.governs_iff {sites : SpaceId → Prop} (hm : m.Faithful sites) {id : CellId}
    {c : Cells} (hc : m.cells.get? id = some c) (flag : Bool) :
    m.Governs flag c ↔ m.mayBeEmpty id = flag := by
  obtain ⟨s, hs, -⟩ := hm.owned.cells_holder hc
  have hcounterpart := counterpart_of_bearing hs
  have hrules := hm.rules hs
  constructor
  · intro h
    cases h with
    | own hown => exact mayBeEmpty_of_own hc hown
    | around hown hx hrules' =>
      cases hcounterpart.symm.trans hx
      rw [mayBeEmpty_of_around hc hown hs]
      exact hrules.unique hrules'
  · intro h
    cases hown : c.allowNone with
    | some own =>
      rw [mayBeEmpty_of_own hc hown] at h
      exact .own (h ▸ hown)
    | none =>
      rw [mayBeEmpty_of_around hc hown hs] at h
      exact .around hown hcounterpart (h ▸ hrules)

def Allows (m : Model) : Prop :=
  ∀ id c k, m.cells.get? id = some c → c.contents.values.get? k = some .empty → m.Governs true c

/-- What holds of the empty values of a model between two requests. -/
structure EmptySound (m : Model) : Prop where
  /-- One setting is in force for cells, and evaluation asks for that one. -/
  governed : ∀ id c flag, m.cells.get? id = some c → (m.Governs flag c ↔ m.mayBeEmpty id = flag)
  allowed : m.Allows
  /-- No request leaves a forbidden value anywhere, whatever setting it changes. -/
  after : ∀ (q : Request) fuel held r m', q.run fuel held m = some (r, m') → m'.Addressable →
    m'.Allows

end Recalc.Model

namespace Recalc

open Recalc.Model

variable {m : Model}

theorem Reachable.sober (h : Reachable m) : m.Sober :=
  hostFrame_sober.reachable (fun hkeep => hkeep) sober_new h

theorem Reachable.allows (h : Reachable m) (room : m.Addressable) : m.Allows := by
  intro id c k hc hv
  rw [(h.orderly.proper room).governs_iff hc]
  exact h.sober.abides room id c k hc hv

theorem Reachable.emptySound (h : Reachable m) (room : m.Addressable) : m.EmptySound where
  governed _ _ flag hc := (h.orderly.proper room).governs_iff hc flag
  allowed := h.allows room
  after _ _ _ _ _ hrun room' := (h.next hrun).allows room'

/-- The till in each shop may be empty, since the shop may be. -/
def emptyTillRequests : List Request :=
  [.createSpace none "Shop", .declareParams ⟨0, 0⟩ [{ name := "quantity" }] none,
    .createSpace (some ⟨0, 0⟩) "Till", .defineCells ⟨1, 0⟩ "note" none,
    .letSpaceBeEmpty ⟨0, 0⟩ (some true), .selectInstance ⟨0, 0⟩ { positional := [.int 4] },
    .childNamed ⟨2, 0⟩ "Till", .call ⟨1, 0⟩ {}]

/-- The note in the till of one shop is empty, under the setting of the space around the static
till. -/
theorem emptyTill_emptySound : ∃ m c,
    Request.runAll 9 [{ id := ⟨2, 0⟩, pins := [⟨2, 0⟩] }] emptyTillRequests Shop.start = some m ∧
      m.cells.get? ⟨1, 0⟩ = some c ∧ c.space = ⟨3, 0⟩ ∧ c.allowNone = none ∧
      c.contents.values.get? ⟨[], rfl⟩ = some .empty ∧ m.config.allowNone = false ∧
      m.Addressable ∧ m.EmptySound := by
  have hrun : ((Request.runAll 9 [{ id := ⟨2, 0⟩, pins := [⟨2, 0⟩] }] emptyTillRequests
      Shop.start).any fun m => (m.cells.get? ⟨1, 0⟩).any fun c =>
        (c.contents.values.get? ⟨[], rfl⟩).any fun v => decide (v.isEmpty = true ∧
          c.space = ⟨3, 0⟩ ∧ c.allowNone = none ∧ m.config.allowNone = false ∧
          m.Addressable)) = true := by decide +kernel
  obtain ⟨m, hm, hrun⟩ := (Option.any_eq_true _ _).1 hrun
  obtain ⟨c, hc, hrun⟩ := (Option.any_eq_true _ _).1 hrun
  obtain ⟨v, hv, hfacts⟩ := (Option.any_eq_true _ _).1 hrun
  obtain ⟨hempty, hspace, hallow, hconfig, room⟩ := of_decide_eq_true hfacts
  obtain rfl : v = .empty := by
    cases v with
    | empty => rfl
    | _ => contradiction
  exact ⟨m, c, hm, hc, hspace, hallow, hv, hconfig, room,
    Reachable.emptySound ⟨_, .new "doc" {}, Request.becomes_of_runAll emptyTillRequests hm⟩ room⟩

end Recalc
