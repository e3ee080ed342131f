import Recalc.Proofs.DerivedReferences
import Recalc.Proofs.LazyReads
import Recalc.Proofs.Recalling

set_option autoImplicit false

/-!
# Relative references

A relative reference to a space below its author means, wherever it is inherited, what lies on the
same way below the heir. An heir has a child of each name that its base has one of, so the way is
there in every heir; in a replica of an heir what is missing on it is made by the read.
-/

namespace Recalc

def Place.start : Place → SpaceId
  | .existing id => id
  | .pending start _ => start

def Place.rest : Place → List String
  | .existing _ => []
  | .pending _ path => path

namespace Model

open Recalc.Action

variable {m m' : Model} {id : SpaceId} {s : Space} {name : String} {path : List String}
  {x : SpaceId}

/-! ## What is found along a way -/

theorem endOf_append (path rest : List String) (id : SpaceId) :
    m.endOf (path ++ rest) id = (m.endOf path id).bind (m.endOf rest) := by
  induction path generalizing id with
  | nil => rfl
  | cons name more ih =>
    simp only [List.cons_append, endOf, bind, Option.bind_assoc]
    exact congrArg _ (funext fun s => congrArg _ (funext ih))

theorem Owned.static_of_way (hm : m.Owned) (hstatic : m.Static id)
    (hway : m.endOf path id = some x) : m.Static x := by
  induction path generalizing id with
  | nil =>
    cases hway
    exact hstatic
  | cons name rest ih =>
    obtain ⟨s, child, hs, hchild, hrest⟩ := endOf_cons.1 hway
    obtain ⟨s', hs', hfixed⟩ := hstatic
    cases hs.symm.trans hs'
    obtain ⟨t, ht, hchildStatic, -⟩ := hm.static_of_listed hs hfixed hchild
    exact ih ⟨t, ht, hchildStatic⟩ hrest

theorem SameDefinitions.endOf (h : SameDefinitions m m') (hm : m.Owned) (hstatic : m.Static id)
    (hway : m.endOf path id = some x) : m'.endOf path id = some x := by
  induction path generalizing id with
  | nil => exact hway
  | cons name rest ih =>
    obtain ⟨s, child, hs, hchild, hrest⟩ := endOf_cons.1 hway
    obtain ⟨s', hs', hfixed⟩ := hstatic
    cases hs.symm.trans hs'
    obtain ⟨t, ht, hchildStatic, -⟩ := hm.static_of_listed hs hfixed hchild
    obtain ⟨instances, hkept⟩ := h.spaces id s hs hfixed
    exact endOf_cons.2 ⟨_, child, hkept, hchild, ih ⟨t, ht, hchildStatic⟩ hrest⟩

/-- A place on a way is where the way ends, or where the rest of it starts. -/
theorem endOf_of_descend {place : Place} (h : m.descend path id = .ok (some place)) :
    ∃ before, path = before ++ place.rest ∧ m.endOf before id = some place.start := by
  induction path generalizing id with
  | nil =>
    cases h
    exact ⟨[], rfl, rfl⟩
  | cons name rest ih =>
    unfold descend at h
    obtain ⟨s, hs, h⟩ := except_bind_eq_ok.1 h
    split at h
    next child hchild =>
      obtain ⟨before, rfl, hend⟩ := ih h
      exact ⟨name :: before, rfl, endOf_cons.2 ⟨s, child, space_eq_ok.1 hs, hchild, hend⟩⟩
    next =>
      split at h
      next => cases h
      next =>
        obtain ⟨c, -, h⟩ := except_bind_eq_ok.1 h
        obtain ⟨source, -, h⟩ := except_bind_eq_ok.1 h
        split at h
        next =>
          cases h
          exact ⟨[], rfl, rfl⟩
        next => cases h

theorem descend_of_endOf (hway : m.endOf path id = some x) :
    m.descend path id = .ok (some (.existing x)) := by
  induction path generalizing id with
  | nil =>
    cases hway
    rfl
  | cons name rest ih =>
    obtain ⟨s, child, hs, hchild, hrest⟩ := endOf_cons.1 hway
    exact (descend_of_child hs hchild).trans (ih hrest)

theorem Running.way_of_made {m₁ : Model} {y : SpaceId} (hm : m.Running)
    (h : ensurePath path id m = some (.ok y, m₁)) (room : m₁.Addressable) :
    m₁.endOf path id = some y := by
  induction path generalizing m id with
  | nil =>
    cases h
    rfl
  | cons name rest ih =>
    rcases (bind_eq_some m).1 h with ⟨child, m₂, hchild, hpath⟩ | ⟨e, -, heq⟩
    · obtain ⟨hm₂, -⟩ := evaluationFrame_adds.child id name m _ m₂ hchild hm
      obtain ⟨-, hmore⟩ := evaluationFrame_adds.ensurePath rest child m₂ _ m₁ hpath hm₂
      obtain ⟨s, hs, hlisted⟩ := hm.lists_given hchild (hmore.grows.fits.addressable room)
      obtain ⟨s', hs', hext⟩ := (hmore.enriches room).spaces id s hs
      exact endOf_cons.2 ⟨s', child, hs', hext.spaces name child hlisted, ih hm₂ hpath⟩
    · cases heq

/-- A handle to a place is one to the end of the way that goes on with what is to be made. -/
theorem Running.handleValue_way {m₁ : Model} {place : Place} {a : Handle} (hm : m.Running)
    (hbefore : m.endOf path id = some place.start)
    (h : handleValue place m = some (.ok (.space a), m₁)) (room : m₁.Addressable) :
    m₁.endOf (path ++ place.rest) id = some a.id := by
  have hadds := (evaluationFrame_adds.handleValue place m _ m₁ h hm).2
  rw [endOf_append, (hadds.enriches room).endOf hbefore]
  show m₁.endOf place.rest place.start = some a.id
  rcases (bind_eq_some m).1 h with ⟨y, m₂, hmade, hvalue⟩ | ⟨e, -, heq⟩
  · rw [read_bind] at hvalue
    split at hvalue
    next found hfound =>
      cases hvalue
      obtain ⟨t, -, rfl⟩ := handleTo_eq_ok.1 hfound
      cases place with
      | existing z =>
        rw [ensurePlace_existing] at hmade
        cases hz : m.space z with
        | error e =>
          rw [hz] at hmade
          cases hmade
        | ok t =>
          rw [hz] at hmade
          cases hmade
          rfl
      | pending start rest => exact hm.way_of_made hmade room
    next => cases hvalue
  · cases heq

/-! ## The way from an author -/

section Replaying

variable {sites : SpaceId → Prop} (hm : m.Faithful sites)
include hm

theorem Faithful.ancestry_child {c : SpaceId} (hs : m.spaces.get? id = some s)
    (hchild : s.spaces.get? name = some c) : m.ancestry c = c :: m.ancestry id := by
  obtain ⟨t, ht, hparent, -, -⟩ := hm.owned.child_of_listed hs hchild
  rw [← hm.owned.ancestry_ends hm.arranged.beside (Nat.le_succ m.spaces.capacity),
    ancestryFrom_succ ht, hparent]
  rfl

/-- Upwards from the end of a way are the spaces on it, and then what is around its start. -/
theorem Faithful.ancestry_way (hway : m.endOf path id = some x) :
    ∃ l, m.ancestry x = l ++ m.ancestry id ∧
      (l.filterMap fun y => (m.spaces.get? y).map Space.name).reverse = path := by
  induction path generalizing id with
  | nil =>
    cases hway
    exact ⟨[], rfl, rfl⟩
  | cons name rest ih =>
    obtain ⟨s, child, hs, hchild, hrest⟩ := endOf_cons.1 hway
    obtain ⟨t, ht, -, hname, -⟩ := hm.owned.child_of_listed hs hchild
    obtain ⟨l, hl, hnames⟩ := ih hrest
    refine ⟨l ++ [child], ?_, ?_⟩
    · rw [hl, hm.ancestry_child hs hchild, List.append_assoc, List.singleton_append]
    · rw [List.filterMap_append, List.reverse_append, hnames]
      simp [ht, hname]

/-- To replay a way that goes downwards only is to follow it. -/
theorem Faithful.replay_way {author target current : SpaceId} {place : Place}
    (hauthor : m.Static author) (hway : m.endOf path author = some target)
    (hshort : path.length ≤ m.config.maxDepth)
    (hplace : m.descend path current = .ok (some place)) :
    m.replay author target current = .ok place := by
  rw [replay_eq]
  by_cases hself : (author == current) = true
  · cases eq_of_beq hself
    cases (descend_of_endOf hway).symm.trans hplace
    rw [if_pos hself]
  · rw [if_neg hself]
    obtain ⟨t, ht, htarget⟩ := hm.owned.static_of_way hauthor hway
    obtain ⟨s, hs, -⟩ := hauthor
    obtain ⟨l, hl, hnames⟩ := hm.ancestry_way hway
    obtain ⟨around, haround⟩ : ∃ around, m.ancestry author = author :: around := by
      rw [← hm.owned.ancestry_ends hm.arranged.beside (Nat.le_succ m.spaces.capacity),
        ancestryFrom_succ hs]
      exact ⟨_, rfl⟩
    rw [haround] at hl
    -- the author is met once on the way upwards
    have houtside : ∀ y ∈ l, (y != author) = true := by
      obtain ⟨n, hn⟩ := (hm.owned.grounded target t ht).depth hm.owned.placed t ht htarget
      have hnodup : (m.ancestry target).Nodup := hn.nodup_ancestryFrom _
      rw [hl, List.nodup_append] at hnodup
      exact fun y hy => bne_iff_ne.2 (hnodup.2.2 y hy author List.mem_cons_self)
    have hcommon : (m.ancestry author).find? (m.ancestry target).contains = some author := by
      rw [haround, hl]
      exact List.find?_cons_of_pos (by simp)
    have hups : (m.ancestry author).findIdx (· == author) = 0 := by
      rw [haround, List.findIdx_cons, beq_self_eq_true, cond_true]
    have hdowns : (m.ancestry target).takeWhile (· != author) = l := by
      rw [hl, List.takeWhile_append_of_pos houtside]
      simp
    rw [hcommon]
    simp only [hups, hdowns, hnames, Nat.zero_add]
    rw [if_neg (Nat.not_lt.2 hshort)]
    show Except.map _ (m.descend path current) = .ok place
    rw [hplace]
    rfl

/-- A reference of its counterpart is what the name means in a space: nothing of another kind has
the name. -/
theorem Faithful.meaning_of_ref {c : SpaceId} {source : Space} {r : RefId} {found : RefMeaning}
    (hs : m.spaces.get? id = some s) (hc : m.counterpart id = .ok c)
    (hsource : m.spaces.get? c = some source) (hr : source.refs.get? name = some r)
    (hname : SystemName.ofString? name = none) (hfound : m.refMeaning r id = .ok found) :
    m.meaning id name = .ok (.ref r found) := by
  obtain ⟨source', hsource', hfixed⟩ := hm.counterpart hs hc
  cases hsource.symm.trans hsource'
  obtain ⟨q, hq, howner, rfl⟩ := hm.owned.ref_of_listed hsource hr
  have hmember : m.MemberAt c q.name (.ref r) := ⟨q, hq, howner, rfl⟩
  have hnoCells : source.cells.get? q.name = none := by
    refine Option.eq_none_iff_forall_ne_some.2 fun d hd => ?_
    have hcells := memberAt_of_lists (e := .cells d) hm.owned hsource hfixed
      (by rw [Entity.kind, MemberKind.place, Space.lists, hd]; rfl)
    cases hm.arranged.names c q.name _ _ hmember hcells
  have hnoChild : source.spaces.get? q.name = none := by
    refine Option.eq_none_iff_forall_ne_some.2 fun d hd => ?_
    obtain ⟨t, ht, htstatic, hparent, htname⟩ := hm.owned.static_of_listed hsource hfixed hd
    have hchild : m.MemberAt c q.name (.space d) := ⟨t, ht, htstatic, hparent, htname⟩
    cases hm.arranged.names c q.name _ _ hmember hchild
  have hcells : s.cells.get? q.name = none := by
    have hcopied : (s.cells.get? q.name).isSome = (source.cells.get? q.name).isSome := by
      cases hm.reflects hs with
      | static hstatic =>
        cases (counterpart_of_static hs hstatic).symm.trans hc
        cases hs.symm.trans hsource
        rfl
      | item hk _ hcopies =>
        cases (counterpart_of_item hs hk).symm.trans hc
        cases hsource.symm.trans hcopies.live
        exact hm.owned.cells_of_setting hsource ⟨hm.owned, hs⟩ (hcopies.cells _)
      | dynamic hk _ _ _ _ _ hcopies =>
        cases (counterpart_of_dynamic hs hk).symm.trans hc
        cases hsource.symm.trans hcopies.live
        exact hm.owned.cells_of_setting hsource ⟨hm.owned, hs⟩ (hcopies.cells _)
    rw [hnoCells, Option.isSome_none] at hcopied
    exact Option.not_isSome_iff_eq_none.1 (Bool.not_eq_true _ ▸ hcopied)
  have hchild : m.descend [q.name] id = .ok none := by
    cases hstatic : s.isStatic with
    | true =>
      cases (counterpart_of_static hs hstatic).symm.trans hc
      cases hs.symm.trans hsource
      exact descend_of_static hs hnoChild hstatic
    | false =>
      have hnone : s.spaces.get? q.name = none := by
        refine Option.eq_none_iff_forall_ne_some.2 fun d hd => ?_
        obtain ⟨y, hy⟩ := hm.child_of_replica hs hc hsource hstatic hd
        rw [hnoChild] at hy
        cases hy
      rw [descend_of_replica hs hnone hstatic hc hsource, NameMap.contains, hnoChild]
      rfl
  rw [meaning_of_bare hs hname, hm.memberMeaning_eq hs hcells hc hsource, hchild]
  simp only [except_ok_bind, hr, hfound]
  rfl

end Replaying

/-- Reading a relative reference that its counterpart inherits gives a space what lies below it as
the target lies below the author. -/
theorem Running.reads_way (hm : m.Running) (room : m.Addressable)
    (hs : m.spaces.get? id = some s) {heir author : SpaceId} {source : Space} {r : RefId}
    {q : Reference} {a : Handle} (hc : m.counterpart id = .ok heir)
    (hsource : m.spaces.get? heir = some source) (hr : source.refs.get? name = some r)
    (hq : m.refs.get? r = some q) (hname : SystemName.ofString? name = none)
    (hvalue : q.value = .space a) (hrelative : q.relative = true) (horigin : q.origin = some author)
    (hauthor : m.Static author) (hend : m.endOf path author = some a.id)
    (hshort : path.length ≤ m.config.maxDepth) (hway : m.endOf path heir = some x)
    (run : RunFormula) : ∃ r m', readName run id name none m = some (r, m') ∧
      (m'.Addressable → ∃ b, r = .ok (.space b) ∧ m'.endOf path id = some b.id ∧
        m'.counterpart b.id = .ok x) := by
  have hf := hm.faithful room
  obtain ⟨place, hplace, hpromises⟩ := hf.descend_of_way hs hc hway
  have hmeans : m.refMeaning r id = .ok (.space place) := by
    rcases refMeaning_cases hq id with ⟨h, o, hh, -, ho, heq⟩ | ⟨hplain, -⟩
    · cases hvalue.symm.trans hh
      cases horigin.symm.trans ho
      rw [heq, hf.replay_way hauthor hend hshort hplace]
      rfl
    · exact absurd horigin (hplain a author hvalue hrelative)
  have hfound := hf.meaning_of_ref hs hc hsource hr hname hmeans
  obtain ⟨hnoted, hadds⟩ := evaluationFrame_adds.note m _ (isLive_ref_of_meaning hq) hm
  have hroom : (noteRead (.ref r) m).Addressable := (alike_noteRead m _).addressable.2 room
  have henriches := hadds.enriches hroom
  obtain ⟨before, rfl, hbefore⟩ := endOf_of_descend hplace
  obtain ⟨result, m', hrun⟩ := total_handleValue place (noteRead (.ref r) m)
  refine ⟨result, m', ?_, fun room' => ?_⟩
  · rw [readName_of_target hfound, handleValue_read, hrun]
  · obtain ⟨b, rfl, -, hcounterpart, -⟩ := hnoted.handleValue_embodies
      (henriches.promises hf (hnoted.faithful hroom) hpromises) hrun room'
    exact ⟨b, rfl, hnoted.handleValue_way (henriches.endOf hbefore) hrun room', hcounterpart⟩

/-! ## Spaces that are held -/

/-- A space stays while the host holds handles that pin the instances it lies in. -/
theorem Faithful.kept_reclaim {sites : SpaceId → Prop} (hm : m.Faithful sites)
    (room : m.Addressable) (hs : m.spaces.get? id = some s) {held : List Handle}
    (hheld : ∀ i ∈ m.pinsOf id, i ∈ held.flatMap Handle.pins) :
    (m.reclaim held).2.spaces.contains id = true := by
  let Q : Model → Prop := fun m' => m'.Addressable ∧ Drops m m' ∧ m'.spaces.contains id = true
  refine (hm.owned.reclaim_keeps (Q := Q) ?_ ⟨room, Frame.refl m, Pool.contains_iff.2 ⟨s, hs⟩⟩).2.2
  intro m₁ m₂ hm₁ hq₁ hm₂ hdrops hq₂ owner key hfree
  obtain ⟨hroom₂, hsince, hkept⟩ := hq₂
  obtain ⟨howned, hdropped⟩ := under_removeInstance m₂ owner key hm₂
  have hroom := hdropped.addressable.2 hroom₂
  refine ⟨hroom, Frame.trans hsince hdropped, ?_⟩
  obtain ⟨item, hlisted, hunpinned, -⟩ := hm₁.of_mem_freeInstances hq₁.1 hfree
  cases hitem : (m₂.spaces.get? owner).bind (·.instances.get? key) with
  | none =>
    unfold removeInstance
    rw [hitem]
    exact hkept
  | some y =>
    obtain ⟨t₂, ht₂, hy⟩ := Option.bind_eq_some_iff.1 hitem
    obtain ⟨t₁, ht₁, -, hsub⟩ := hdrops.space owner t₂ ht₂
    rw [ht₁, Option.bind_some, hsub key y hy, Option.some.injEq] at hlisted
    subst hlisted
    obtain ⟨s₂, hs₂⟩ := Pool.contains_iff.1 hkept
    refine hm₂.kept_removeInstance hitem hs₂ fun hinside => hunpinned ?_
    obtain ⟨u₂, c, args, enclosing, hu₂, hk₂, -⟩ := hm₂.item_of_listed ht₂ hy
    obtain ⟨u, hu, heq, -⟩ := hsince.space y u₂ hu₂
    have hk : u.kind = .item owner c args enclosing := by
      rw [heq] at hk₂
      exact hk₂
    have hself : y ∈ m.pinsOf y := by
      rw [pinsOf_of_enclosing hu hk]
      exact List.mem_cons_self
    have hpin := hheld y (hm.mem_pinsOf_of_inside hself (hsince.inside hinside))
    refine List.mem_append_left _ ?_
    rw [List.flatMap_append]
    exact List.mem_append_left _ hpin

end Model

open Recalc.Action Recalc.Model

section Heirs

variable {m : Model} {name : String} {path : List String} {author x : SpaceId}

theorem Reachable.ready_of_pinned (h : Reachable m) (room : m.Addressable) {id : SpaceId}
    {s : Space} (hs : m.spaces.get? id = some s) {held : List Handle}
    (hheld : ∀ i ∈ m.pinsOf id, i ∈ held.flatMap Handle.pins) :
    ∃ instances, (m.ready held).spaces.get? id = some { s with instances } := by
  have hkept : (m.ready held).spaces.contains id = true := by
    rcases ready_cases m held with heq | heq
    · rw [heq]
      exact Pool.contains_iff.2 ⟨s, hs⟩
    · rw [heq]
      exact (h.orderly.proper room).kept_reclaim room hs hheld
  obtain ⟨t, ht⟩ := Pool.contains_iff.1 hkept
  exact ⟨t.instances, ht.trans (congrArg some ((h.sifted room held).drops.like hs ht))⟩

/-! ## Heirs of an author -/

/-- The reference of the name is the authored one of `author`, or derived from it through any number
of levels. -/
inductive Model.Stems (m : Model) (name : String) (author : SpaceId) : SpaceId → Prop
  | own {q : Reference} : m.refOf? author name = some q → q.derived = false →
      Stems m name author author
  | derived {x b : SpaceId} {q source : Reference} : m.refOf? x name = some q → q.derived = true →
      m.sourceOf? x name = some source → source.owner = some b → Stems m name author b →
      Stems m name author x

theorem Model.Owned.base_of_sourceOf? (hm : m.Owned) {source : Reference} {b : SpaceId}
    (h : m.sourceOf? x name = some source) (howner : source.owner = some b) :
    b ∈ m.allBases x ∧ m.refOf? b name = some source := by
  obtain ⟨b', hb', hfirst⟩ := List.exists_of_findSome?_eq_some h
  obtain ⟨s, d, hs, hlisted, hsource⟩ := refOf?_eq_some.1 hfirst
  obtain ⟨source', hsource', howner', -⟩ := hm.ref_of_listed hs hlisted
  cases hsource.symm.trans hsource'
  cases howner.symm.trans howner'
  exact ⟨hb', hfirst⟩

/-- What lies below a base lies below its heirs. -/
theorem Model.Aligned.way_of_base (h : m.Aligned) (hm : m.Owned) {id b : SpaceId}
    (hstatic : m.Static id) (hb : b ∈ m.allBases id) (hway : m.endOf path b = some x) :
    ∃ y, m.endOf path id = some y := by
  induction path generalizing id b with
  | nil => exact ⟨id, rfl⟩
  | cons name rest ih =>
    obtain ⟨t, c, ht, hc, hrest⟩ := endOf_cons.1 hway
    obtain ⟨s, d, u, hs, hd, hu, hlinked⟩ :=
      (h.step id hstatic fun hf => hf).child b hb t name c ht hc
    obtain ⟨s', hs', hfixed⟩ := hstatic
    cases hs.symm.trans hs'
    obtain ⟨u', hu', hufixed, -⟩ := hm.static_of_listed hs hfixed hd
    cases hu.symm.trans hu'
    have hbase : c ∈ m.allBases d :=
      h.live.mem_allBases (outline?_of_static hu hufixed) (List.mem_append_right _ hlinked)
    obtain ⟨y, hy⟩ := ih ⟨u, hu, hufixed⟩ hbase hrest
    exact ⟨y, endOf_cons.2 ⟨s, d, hs, hd, hy⟩⟩

theorem Model.Stems.static (h : m.Stems name author x) (hm : m.Owned) : m.Static x := by
  have hlisted : ∀ {y q}, m.refOf? y name = some q → m.Static y := by
    intro y q hq
    obtain ⟨s, r, hs, hlisted, hr⟩ := refOf?_eq_some.1 hq
    obtain ⟨q', hq', howner, -⟩ := hm.ref_of_listed hs hlisted
    exact hm.static_of_ref hq' howner
  cases h with
  | own hq => exact hlisted hq
  | derived hq => exact hlisted hq

theorem Model.Stems.way (h : m.Stems name author x) (haligned : m.Aligned) (hm : m.Owned)
    {t : SpaceId} (hway : m.endOf path author = some t) : ∃ y, m.endOf path x = some y := by
  induction h with
  | own => exact ⟨t, hway⟩
  | @derived x b q source hq hderived hsource howner hstems ih =>
    obtain ⟨y, hy⟩ := ih
    exact haligned.way_of_base hm (Stems.static (.derived hq hderived hsource howner hstems) hm)
      (hm.base_of_sourceOf? hsource howner).1 hy

/-- An heir of the reference has its target, its mode and its origin. -/
theorem Model.Stems.ref (h : m.Stems name author x) (haligned : m.Aligned) (hm : m.Owned)
    {q : Reference} {a : Handle} (hq : m.refOf? author name = some q)
    (hauthored : q.derived = false) (hvalue : q.value = .space a) :
    ∃ p b, m.refOf? x name = some p ∧ p.value = .space b ∧
      b.id = a.id ∧ p.mode = q.mode ∧ p.origin = some author := by
  induction h with
  | own =>
    obtain ⟨s, r, hs, hlisted, hr⟩ := refOf?_eq_some.1 hq
    obtain ⟨q', hq', howner, -⟩ := hm.ref_of_listed hs hlisted
    cases hr.symm.trans hq'
    have horigin := (haligned.sound r q author hr howner).origin hauthored
    exact ⟨q, a, hq, hvalue, rfl, rfl, horigin.trans howner⟩
  | @derived x b p source hp hderived hsource howner hstems ih =>
    obtain ⟨source', c, hsource', hc, hid, hmode, horigin⟩ := ih
    cases (hm.base_of_sourceOf? hsource howner).2.symm.trans hsource'
    obtain ⟨s, r, hs, hlisted, hr⟩ := refOf?_eq_some.1 hp
    obtain ⟨p', hp', howner', hname⟩ := hm.ref_of_listed hs hlisted
    cases hr.symm.trans hp'
    obtain ⟨source'', hsource'', hfollows⟩ :=
      (haligned.step x (hm.static_of_ref hr howner') fun hf => hf).ref r p hr howner' hderived
    rw [hname] at hsource''
    cases hsource.symm.trans hsource''
    obtain ⟨d, hd, hsame⟩ := Value.space_of_beq hc (BEq.symm hfollows.value)
    exact ⟨p, d, hp, hd, hsame.trans hid, hfollows.mode.trans hmode,
      hfollows.origin.trans horigin⟩

end Heirs

def Value.space? : Value → Option SpaceId
  | .space h => some h.id
  | _ => none

theorem Value.space?_eq_some {v : Value} {id : SpaceId} (h : v.space? = some id) :
    ∃ pins, v = .space ⟨id, pins⟩ := by
  cases v with
  | space handle =>
    cases h
    exact ⟨_, rfl⟩
  | _ => cases h

/-- Where no edit was rejected, to read a relative reference in an heir of its author gives what
lies on the way of the target below the heir, and to read it in a replica of an heir gives what lies
there below the replica. The host holds handles that pin the instances around the replica. A copy of
an automatic reference is relative if it was decided to be. -/
theorem Peaceful.relative_read {m : Model} (h : Peaceful m) (room : m.Addressable) {name : String}
    {author heir id : SpaceId} {path : List String} {q p : Reference} {a : Handle}
    (hq : m.refOf? author name = some q) (hauthored : q.derived = false)
    (hrelative : q.relative = true) (hvalue : q.value = .space a)
    (hend : m.endOf path author = some a.id) (hshort : path.length ≤ m.config.maxDepth)
    (hstems : m.Stems name author heir) (hp : m.refOf? heir name = some p)
    (hdecided : p.mode = .auto → p.relative = true) (hcounterpart : m.counterpart id = .ok heir)
    {held : List Handle} (hheld : ∀ i ∈ m.pinsOf id, i ∈ held.flatMap Handle.pins) (fuel : Nat) :
    ∃ x, m.endOf path heir = some x ∧ ∃ r m', readFrom fuel held id name m = some (r, m') ∧
      (m'.Addressable → ∃ b, r = .ok (.space b) ∧ m'.endOf path id = some b.id ∧
        m'.counterpart b.id = .ok x) := by
  have haligned := h.aligned room
  have hreach := h.reachable
  have hm := (hreach.orderly.proper room).owned
  obtain ⟨p', b, hp', hb, hid, hmode, horigin⟩ :=
    hstems.ref haligned hm hq hauthored hvalue
  cases hp.symm.trans hp'
  obtain ⟨x, hway⟩ := hstems.way haligned hm hend
  refine ⟨x, hway, ?_⟩
  obtain ⟨source, r, hsource, hlisted, hr⟩ := refOf?_eq_some.1 hp
  obtain ⟨p', hr', howner, rfl⟩ := hm.ref_of_listed hsource hlisted
  cases hr.symm.trans hr'
  have hsound := haligned.sound r p heir hr howner
  have hmodes : p.relative = true := by
    cases hcase : p.mode with
    | auto => exact hdecided hcase
    | relative => exact hsound.relative hcase b hb
    | absolute =>
      obtain ⟨s, d, hs, hd, hq'⟩ := refOf?_eq_some.1 hq
      obtain ⟨q', hq'', howner', -⟩ := hm.ref_of_listed hs hd
      cases hq'.symm.trans hq''
      have hoff := (haligned.sound d q author hq' howner').absolute (hmode.symm.trans hcase)
      rw [hrelative] at hoff
      cases hoff
  -- nothing but instances that are not held goes before the name is read
  obtain ⟨s, hs⟩ : ∃ s, m.spaces.get? id = some s := by
    obtain ⟨s, hs, -⟩ := except_bind_eq_ok.1 hcounterpart
    exact ⟨s, space_eq_ok.1 hs⟩
  obtain ⟨hrunning, -, -, hsame⟩ := hreach.ready held
  have hroom := (hreach.sifted room held).drops.addressable.2 room
  obtain ⟨instances, hs'⟩ := hreach.ready_of_pinned room hs hheld
  have hcounterpart' : (m.ready held).counterpart id = .ok heir := by
    rw [← hcounterpart]
    simp only [Model.counterpart, space_eq_ok.2 hs, space_eq_ok.2 hs', bind, Except.bind]
  obtain ⟨author', hauthor, hfixed⟩ := Stems.static (.own hq hauthored) hm
  obtain ⟨heir', hheir, hheirFixed⟩ := hstems.static hm
  cases hsource.symm.trans hheir
  obtain ⟨nested, hsource'⟩ := (hsame room).spaces heir source hsource hheirFixed
  obtain ⟨items, hauthor'⟩ := (hsame room).spaces author author' hauthor hfixed
  exact hrunning.reads_way hroom hs' hcounterpart' hsource' hlisted
    (((hsame room).refs r).trans hr) hsound.name hb hmodes horigin ⟨_, hauthor', hfixed⟩
    ((hsame room).endOf hm ⟨author', hauthor, hfixed⟩ (hid ▸ hend))
    ((hsame room).config ▸ hshort) ((hsame room).endOf hm ⟨source, hsource, hheirFixed⟩ hway)
    (runFormula fuel)

/-- `X` inherits from `O` a reference to its child `c`, and has an instance. -/
def inheritedRequests : List Request :=
  [.createSpace none "O", .createSpace (some ⟨0, 0⟩) "c",
    .bindName ⟨0, 0⟩ "r" (.space ⟨⟨1, 0⟩, []⟩) .auto, .createSpace none "X",
    .linkBase ⟨2, 0⟩ ⟨0, 0⟩, .declareParams ⟨2, 0⟩ [{ name := "n" }] none,
    .selectInstance ⟨2, 0⟩ { positional := [.int 1] }]

/-- Reading `r` in `X[1]` makes `X[1].c` and gives it. -/
theorem inherited_relative_read : ∃ m x r m', Peaceful m ∧ m.Stems "r" ⟨0, 0⟩ ⟨2, 0⟩ ∧
    m.counterpart ⟨4, 0⟩ = .ok ⟨2, 0⟩ ∧ m.endOf ["c"] ⟨2, 0⟩ = some x ∧
    m.endOf ["c"] ⟨4, 0⟩ = none ∧
    readFrom 3 [⟨⟨4, 0⟩, [⟨4, 0⟩]⟩] ⟨4, 0⟩ "r" m = some (r, m') ∧ m'.Addressable ∧
    ∃ b, r = .ok (.space b) ∧ m'.endOf ["c"] ⟨4, 0⟩ = some b.id ∧ m'.counterpart b.id = .ok x := by
  obtain ⟨m, hm, hp⟩ := Request.exists_arises Step.undisputed_of_isUndisputed 9 inheritedRequests
    (fun m => (m.refOf? ⟨0, 0⟩ "r").any fun q : Reference =>
      (m.refOf? ⟨2, 0⟩ "r").any fun p : Reference =>
      (m.sourceOf? ⟨2, 0⟩ "r").any fun source : Reference =>
      (readFrom 3 [⟨⟨4, 0⟩, [⟨4, 0⟩]⟩] ⟨4, 0⟩ "r" m).any
        fun o : Except Failure Value × Model => decide ((m.Addressable ∧
        o.2.Addressable) ∧ (q.derived = false ∧ q.relative = true ∧
        q.value.space? = some ⟨1, 0⟩ ∧ m.endOf ["c"] ⟨0, 0⟩ = some ⟨1, 0⟩) ∧
        (p.derived = true ∧ p.relative = true ∧ source.owner = some ⟨0, 0⟩) ∧
        1 ≤ m.config.maxDepth ∧ (m.counterpart ⟨4, 0⟩).toOption = some ⟨2, 0⟩ ∧
        m.pinsOf ⟨4, 0⟩ = [⟨4, 0⟩] ∧ m.endOf ["c"] ⟨4, 0⟩ = none)) (by decide +kernel)
  obtain ⟨q, hq, hp⟩ := (Option.any_eq_true _ _).1 hp
  obtain ⟨p, hheir, hp⟩ := (Option.any_eq_true _ _).1 hp
  obtain ⟨source, hsource, hp⟩ := (Option.any_eq_true _ _).1 hp
  obtain ⟨⟨r, m'⟩, hrun, hp⟩ := (Option.any_eq_true _ _).1 hp
  obtain ⟨⟨room, room'⟩, ⟨hauthored, hrelative, hvalue, hend⟩, ⟨hderived, hdecided, howner⟩, hshort,
    hcounterpart, hpins, hpending⟩ := of_decide_eq_true hp
  obtain ⟨pins, hvalue⟩ := Value.space?_eq_some hvalue
  rw [toOption_eq_some] at hcounterpart
  have hstems : m.Stems "r" ⟨0, 0⟩ ⟨2, 0⟩ :=
    .derived hheir hderived hsource howner (.own hq hauthored)
  have hheld : ∀ i ∈ m.pinsOf ⟨4, 0⟩,
      i ∈ ([⟨⟨4, 0⟩, [⟨4, 0⟩]⟩] : List Handle).flatMap Handle.pins := by
    rw [hpins]
    exact fun i hi => hi
  obtain ⟨x, hway, r', m'', hrun', hgives⟩ := Peaceful.relative_read hm room hq hauthored hrelative
    hvalue hend hshort hstems hheir (fun _ => hdecided) hcounterpart hheld 3
  cases hrun.symm.trans hrun'
  exact ⟨m, x, r, m', hm, hstems, hcounterpart, hway, hpending, hrun, room', hgives room'⟩

def Action.answered? (x : Action Value) (m : Model) : Option SpaceId :=
  (x m).bind fun o => o.1.toOption.bind Value.space?

theorem Action.answered?_eq_some {x : Action Value} {m : Model} {id : SpaceId}
    (h : answered? x m = some id) : ∃ pins m', x m = some (.ok (.space ⟨id, pins⟩), m') := by
  obtain ⟨⟨r, m'⟩, hrun, h⟩ := Option.bind_eq_some_iff.1 h
  obtain ⟨v, hv, h⟩ := Option.bind_eq_some_iff.1 h
  obtain ⟨pins, rfl⟩ := Value.space?_eq_some h
  cases r with
  | ok w =>
    cases hv
    exact ⟨pins, m', hrun⟩
  | error e => cases hv

/-- `C` refers to itself, defining `n` in `B` is rejected, and then `C` refers to its child. -/
def staleRequests : List Request :=
  loopedRequests ++ [.bindName ⟨1, 0⟩ "r" (.space ⟨⟨1, 0⟩, []⟩) .auto,
    .defineCells ⟨0, 0⟩ "n" none, .rebind ⟨1, 0⟩ (.space ⟨⟨2, 0⟩, []⟩)]

/-- `W` inherits a relative reference to the child `c2`, and reads itself, not its own child. -/
theorem stale_reads_itself : ∃ m q q' pins m',
    Arises Step.LinksWell m ∧
      (m.refOf? ⟨1, 0⟩ "r" = some q ∧ q.derived = false ∧ q.relative = true ∧
        q.value.space? = some ⟨2, 0⟩ ∧ m.endOf ["c2"] ⟨1, 0⟩ = some ⟨2, 0⟩) ∧
      (m.refOf? ⟨4, 0⟩ "r" = some q' ∧ q'.derived = true ∧ q'.origin = some ⟨1, 0⟩ ∧
        m.endOf ["c2"] ⟨4, 0⟩ = some ⟨5, 0⟩) ∧
      readFrom 3 [] ⟨4, 0⟩ "r" m = some (.ok (.space ⟨⟨4, 0⟩, pins⟩), m') := by
  obtain ⟨m, hm, hp⟩ := Request.exists_arises
    (fun s (h : s.request.linksWell s.outcome = true) => (h : s.LinksWell)) 12 staleRequests
    (fun m => (m.refOf? ⟨1, 0⟩ "r").any fun q : Reference =>
      (m.refOf? ⟨4, 0⟩ "r").any fun q' : Reference => decide ((q.derived = false ∧
        q.relative = true ∧ q.value.space? = some ⟨2, 0⟩ ∧
        m.endOf ["c2"] ⟨1, 0⟩ = some ⟨2, 0⟩) ∧
        (q'.derived = true ∧ q'.origin = some ⟨1, 0⟩ ∧ m.endOf ["c2"] ⟨4, 0⟩ = some ⟨5, 0⟩) ∧
        answered? (readFrom 3 [] ⟨4, 0⟩ "r") m = some ⟨4, 0⟩)) (by decide +kernel)
  obtain ⟨q, hq, hp⟩ := (Option.any_eq_true _ _).1 hp
  obtain ⟨q', hq', hp⟩ := (Option.any_eq_true _ _).1 hp
  obtain ⟨hauthor, hheir, hread⟩ := of_decide_eq_true hp
  obtain ⟨pins, m', hrun⟩ := answered?_eq_some hread
  exact ⟨m, q, q', pins, m', hm, ⟨hq, hauthor⟩, ⟨hq', hheir⟩, hrun⟩

end Recalc
