import Recalc.Proofs.InStep

set_option autoImplicit false

/-!
# Derivation brings a space in step

Deriving a space leaves it in step with its bases, unless it is its own base or it is to be derived
again. Other spaces stay in step but its heirs and those that are to follow.
-/

namespace Recalc.Action

section Returns

variable {α β : Type} {Q : β → Model → Prop} {S : α → Model → Prop} {m : Model}

def Returns (S : α → Model → Prop) (x : Action α) (m : Model) : Prop :=
  ∀ a m', x m = some (.ok a, m') → S a m'

theorem returns_pure {a : α} (h : S a m) : Returns S (pure a) m := by
  intro b m' hx
  cases hx
  exact h

theorem returns_fail {e : Failure} : Returns S (fail e) m := by
  intro b m' hx
  cases hx

theorem returns_read {f : Model → Except Failure α} {k : α → Action β}
    (h : ∀ a, f m = .ok a → Returns Q (k a) m) : Returns Q (read f >>= k) m := by
  intro b m' hx
  rw [read_bind] at hx
  split at hx
  next a ha => exact h a ha b m' hx
  next => cases hx

theorem returns_get {k : Model → Action β} (h : Returns Q (k m) m) : Returns Q (get >>= k) m := h

theorem returns_modify {f : Model → Model} {k : Unit → Action β} (h : Returns Q (k ()) (f m)) :
    Returns Q (modify f >>= k) m := h

theorem returns_update {f : Model → α × Model} {k : α → Action β}
    (h : Returns Q (k (f m).1) (f m).2) : Returns Q (update f >>= k) m := h

theorem returns_change {f : Model → α × Model} (h : S (f m).1 (f m).2) :
    Returns S (update f) m := by
  intro b m' hx
  cases hx
  exact h

theorem returns_bind {x : Action α} {k : α → Action β} (hx : Returns S x m)
    (hk : ∀ a m', S a m' → Returns Q (k a) m') : Returns Q (x >>= k) m := by
  intro b m' h
  rcases (bind_eq_some m).1 h with ⟨a, m₁, h₁, h₂⟩ | ⟨e, -, heq⟩
  · exact hk a m₁ (hx a m₁ h₁) b m' h₂
  · cases heq

theorem Returns.mono {S' : α → Model → Prop} {x : Action α} (hx : Returns S x m)
    (h : ∀ a m', S a m' → S' a m') : Returns S' x m :=
  fun a m' hrun => h a m' (hx a m' hrun)

theorem returns_attempt {x : Action α} {k : Except Failure α → Action β} (hx : Returns S x m)
    (hok : ∀ a m', S a m' → Returns Q (k (.ok a)) m')
    (herror : ∀ e m', Returns Q (k (.error e)) m') : Returns Q (attempt x >>= k) m := by
  intro b m' h
  rw [attempt_bind] at h
  split at h
  next r m₁ hrun =>
    cases r with
    | ok a => exact hok a m₁ (hx a m₁ hrun) b m' h
    | error e => exact herror e m₁ b m' h
  next => cases h

/-- Nothing comes of an action that fails in the end. -/
theorem returns_thenFail {x : Action α} {e : Failure} : Returns Q (x >>= fun _ => fail e) m :=
  returns_bind (S := fun _ _ => True) (fun _ _ _ => trivial) fun _ _ _ => returns_fail

theorem returns_map {f : α → β} {x : Action α} {P : Model → Prop}
    (hx : Returns (fun _ m' => P m') x m) : Returns (fun _ m' => P m') (f <$> x) m := by
  rw [map_eq_pure_bind]
  exact returns_bind hx fun _ _ h => returns_pure h

theorem returns_admitName {name : String} {k : Unit → Action β}
    (h : SystemName.ofString? name = none → Returns Q (k ()) m) :
    Returns Q (Model.admitName name >>= k) m := by
  unfold Model.admitName
  split
  next =>
    intro b m' hx
    cases hx
  next hname =>
    simp only [Bool.or_eq_true, not_or, Bool.not_eq_true, Option.isSome_eq_false_iff,
      Option.isNone_iff_eq_none] at hname
    exact h hname.2

end Returns

end Recalc.Action

namespace Recalc

namespace Model

open Recalc.Action

/-- What an action ensures and what it returns go together. -/
theorem Ensures.also {α : Type} {P R : Model → Prop} {Q S : α → Model → Prop} {x : Action α}
    (hx : Ensures P x Q)
    (hr : ∀ m, P m → R m → Returns (fun a m' => m'.Addressable → S a m') x m) :
    Ensures (fun m => P m ∧ R m) x fun a m => Q a m ∧ S a m := by
  intro m r m' hrun
  obtain ⟨hfits, hspec⟩ := hx m r m' hrun
  refine ⟨hfits, fun small hm => ?_⟩
  obtain ⟨a, rfl, ha⟩ := hspec small hm.1
  exact ⟨a, rfl, ha, hr m hm.1 hm.2 a m' hrun small⟩

/-! ## Links -/

section Links

variable {m : Model} {id x : SpaceId} {o : Outline}

theorem outline?_setImplicitBases (m : Model) (id : SpaceId) (f : List SpaceId → List SpaceId)
    (x : SpaceId) :
    (m.modifySpace id (Space.setImplicitBases f)).outline? x = if id = x then
      (m.outline? x).map fun o => { o with implicitBases := f o.implicitBases }
      else m.outline? x := by
  refine outline?_modifySpace (g := fun o => { o with implicitBases := f o.implicitBases })
    (fun s => (s.persists_setImplicitBases f).isStatic) (fun s hs => ?_) x
  have hkeeps := s.persists_setImplicitBases f
  simp only [Space.outline, hkeeps.name, hkeeps.parent, s.bases_setImplicitBases,
    s.implicitBases_setImplicitBases f hs, (Space.retouches_setImplicitBases f s).spaces,
    (Space.retouches_setImplicitBases f s).references]

theorem outline?_setBases (m : Model) (id : SpaceId) (f : List SpaceId → List SpaceId)
    (x : SpaceId) :
    (m.modifySpace id (Space.setBases f)).outline? x = if id = x then
      (m.outline? x).map fun o => { o with bases := f o.bases } else m.outline? x := by
  refine outline?_modifySpace (g := fun o => { o with bases := f o.bases })
    (fun s => (s.persists_setBases f).isStatic) (fun s hs => ?_) x
  have hkeeps := s.persists_setBases f
  simp only [Space.outline, hkeeps.name, hkeeps.parent, s.implicitBases_setBases,
    s.bases_setBases f hs, (Space.retouches_setBases f s).spaces,
    (Space.retouches_setBases f s).references]

theorem stays_setImplicitBases (c : SpaceId) (f : List SpaceId → List SpaceId) :
    Stays m (m.modifySpace c (Space.setImplicitBases f)) := by
  refine stays_of_outline fun x o ho => ?_
  rw [outline?_setImplicitBases, ho]
  split <;> exact ⟨_, rfl⟩

theorem stays_setBases (c : SpaceId) (f : List SpaceId → List SpaceId) :
    Stays m (m.modifySpace c (Space.setBases f)) := by
  refine stays_of_outline fun x o ho => ?_
  rw [outline?_setBases, ho]
  split <;> exact ⟨_, rfl⟩

end Links

end Model

def Outline.keepLinks (live : SpaceId → Bool) (o : Outline) : Outline :=
  { o with bases := o.bases.filter live, implicitBases := o.implicitBases.filter live }

theorem Outline.keepLinks_of_all {live : SpaceId → Bool} {o : Outline}
    (h : ∀ b ∈ o.links, live b = true) : o.keepLinks live = o := by
  have hbases : o.bases.filter live = o.bases :=
    List.filter_eq_self.2 fun b hb => h b (List.mem_append_left _ hb)
  have himplicit : o.implicitBases.filter live = o.implicitBases :=
    List.filter_eq_self.2 fun b hb => h b (List.mem_append_right _ hb)
  rw [keepLinks, hbases, himplicit]

theorem Outline.mem_links_keepLinks {live : SpaceId → Bool} {o : Outline} {b : SpaceId}
    (hb : b ∈ (o.keepLinks live).links) : b ∈ o.links ∧ live b = true := by
  rcases List.mem_append.1 hb with hb | hb
  · exact ⟨List.mem_append_left _ (List.mem_filter.1 hb).1, (List.mem_filter.1 hb).2⟩
  · exact ⟨List.mem_append_right _ (List.mem_filter.1 hb).1, (List.mem_filter.1 hb).2⟩

namespace Model

/-! ## Dead links -/

section Unlinking

variable {m : Model} {x : SpaceId} {o : Outline}

theorem lostBase_iff (ho : m.outline? x = some o) :
    m.lostBase x = true ↔ ∃ b ∈ o.links, ¬ m.spaces.contains b = true := by
  obtain ⟨s, hs, -, rfl⟩ := outline?_eq_some.1 ho
  rw [lostBase, hs, Bool.not_eq_true', List.all_eq_false]
  rfl

/-- The losers are the spaces that lost a base, in whichever order the spaces are searched. -/
theorem mem_losers (ho : m.outline? x = some o) :
    x ∈ m.unlinkDeadBases.1 ↔ ∃ b ∈ o.links, ¬ m.spaces.contains b = true := by
  obtain ⟨s, hs, -⟩ := outline?_eq_some.1 ho
  have hmem : x ∈ m.order.of m.spaces.ids :=
    (m.order.perm _).mem_iff.2 (List.mem_map.2 ⟨(x, s), Pool.mem_entries_of_get? hs, rfl⟩)
  rw [← lostBase_iff ho]
  exact List.mem_filter.trans (and_iff_right hmem)

/-- A space that is not among the losers has live links only. -/
theorem live_of_not_loser (hx : x ∉ m.unlinkDeadBases.1) (ho : m.outline? x = some o) :
    ∀ b ∈ o.links, m.spaces.contains b = true := by
  intro b hb
  by_contra hdead
  exact hx ((mem_losers ho).2 ⟨b, hb, hdead⟩)

theorem outline?_unlinkDeadBases (x : SpaceId) : m.unlinkDeadBases.2.outline? x =
    (m.outline? x).map (Outline.keepLinks m.spaces.contains) := by
  have hstep : ∀ (m' : Model) id, (m'.modifySpace id fun s =>
      (s.setBases (·.filter m.spaces.contains)).setImplicitBases
        (·.filter m.spaces.contains)).outline? x =
      if id = x then (m'.outline? x).map (Outline.keepLinks m.spaces.contains)
      else m'.outline? x := by
    intro m' id
    refine outline?_modifySpace (fun s => ?_) (fun s hs => ?_) x
    · exact ((s.persists_setBases _).trans (Space.persists_setImplicitBases _ _)).isStatic
    · have hbases := s.persists_setBases (List.filter m.spaces.contains)
      have hretouch := Space.retouches_setBases (List.filter m.spaces.contains) s
      have himplicit := (s.setBases (List.filter m.spaces.contains)).persists_setImplicitBases
        (List.filter m.spaces.contains)
      have hretouch' := Space.retouches_setImplicitBases (List.filter m.spaces.contains)
        (s.setBases (List.filter m.spaces.contains))
      have hs' := hbases.isStatic.trans hs
      simp only [Space.outline, Outline.keepLinks, himplicit.name, hbases.name, himplicit.parent,
        hbases.parent, Space.bases_setImplicitBases, s.bases_setBases _ hs,
        Space.implicitBases_setImplicitBases _ _ hs', s.implicitBases_setBases, hretouch'.spaces,
        hretouch.spaces, hretouch'.references, hretouch.references]
  have hfold : ∀ (l : List SpaceId) (m' : Model), (l.foldl (fun m' id => m'.modifySpace id fun s =>
      (s.setBases (·.filter m.spaces.contains)).setImplicitBases
        (·.filter m.spaces.contains)) m').outline? x =
      if x ∈ l then (m'.outline? x).map (Outline.keepLinks m.spaces.contains)
      else m'.outline? x := by
    intro l
    induction l with
    | nil => intro m'; rfl
    | cons id l ih =>
      intro m'
      rw [List.foldl_cons, ih, hstep]
      by_cases heq : id = x
      · subst heq
        have htwice : ∀ o : Outline, (o.keepLinks m.spaces.contains).keepLinks m.spaces.contains =
            o.keepLinks m.spaces.contains := fun o => by simp [Outline.keepLinks]
        simp [Function.comp_def, htwice]
      · simp [heq, Ne.symm heq]
  show (List.foldl _ m m.unlinkDeadBases.1).outline? x = _
  rw [hfold]
  split
  next => rfl
  next hx =>
    cases ho : m.outline? x with
    | none => rfl
    | some o => rw [Option.map_some, Outline.keepLinks_of_all (live_of_not_loser hx ho)]

theorem refs_unlinkDeadBases (m : Model) : m.unlinkDeadBases.2.refs = m.refs := by
  refine foldl_keeps (P := fun m' : Model => m'.refs = m.refs) (fun m' x h => ?_) _ rfl
  exact h

end Unlinking

end Model

/-! ## While members are derived -/

/-- A space while the members of the space `id` are derived; the spaces of `follow` are to be
derived in turn. -/
structure Outline.Redrawn (id : SpaceId) (follow : List SpaceId) (x : SpaceId) (o o' : Outline) :
    Prop where
  name : o'.name = o.name
  parent : o'.parent = o.parent
  bases : o'.bases = o.bases
  implicit : x ∉ follow ∨ o.parent ≠ some id → o'.implicitBases = o.implicitBases
  members : x ≠ id → o'.spaces = o.spaces ∧ o'.refs = o.refs

namespace Model

open Recalc.Action

/-- What became of a model while the members of the space `id` are derived. -/
structure Shaped (id : SpaceId) (m₀ : Model) (follow : List SpaceId) (m : Model) : Prop where
  ref : ∀ r q, m.refs.get? r = some q → q.owner ≠ some id → m₀.refs.get? r = some q
  outline : ∀ x o, m.outline? x = some o → (m₀.outline? x = none ∧ x ∈ follow) ∨
    ∃ o₀, m₀.outline? x = some o₀ ∧ o₀.Redrawn id follow x o
  links : ∀ x o, m.outline? x = some o → ∀ b ∈ o.links, m₀.Static b
  sound : m.SoundRefs

/-- Nothing has gone yet. -/
structure Growing (id : SpaceId) (m₀ : Model) (before : Changes) (m : Model) : Prop
    extends Shaped id m₀ before.follow m where
  stays : Stays m₀ m
  intact : before.destroyed = false

/-- Nothing comes any more, and static spaces have gone only if that was noted. -/
structure Waning (id : SpaceId) (m₀ : Model) (before : Changes) (m : Model) : Prop
    extends Shaped id m₀ before.follow m where
  stays : before.destroyed = false → Stays m₀ m

/-- The derived references of the space follow their sources, but for the entries that are still to
come. -/
def Following (id : SpaceId) (h : Heritage) (l : List (String × RefId)) (m : Model) : Prop :=
  ∀ r q, m.refs.get? r = some q → q.owner = some id → q.derived = true → (∀ e ∈ l, e.1 ≠ q.name) →
    ∀ b, h.refs.get? q.name = some b → ∀ source, m.refs.get? b = some source →
      source.owner ≠ some id → q.Follows source

/-- The space has the children that it inherits, but for the entries that are still to come. -/
def Parenting (id : SpaceId) (h : Heritage) (l : List (String × List SpaceId)) (m : Model) : Prop :=
  ∀ name sources, h.spaces.get? name = some sources → (∀ e ∈ l, e.1 ≠ name) → ∃ o c p,
    m.outline? id = some o ∧ o.spaces.get? name = some c ∧ m.outline? c = some p ∧
      p.implicitBases = sources

section Steps

variable {id : SpaceId} {m₀ m m' : Model} {follow more : List SpaceId} {before changes : Changes}
  {fresh : SpaceId → Outline → Prop} {h : Heritage}

theorem redrawn_refl (id : SpaceId) (follow : List SpaceId) (x : SpaceId) (o : Outline) :
    o.Redrawn id follow x o :=
  ⟨rfl, rfl, rfl, fun _ => rfl, fun _ => ⟨rfl, rfl⟩⟩

theorem Shaped.refl (hlive : m.LiveBases) (sound : m.SoundRefs) : Shaped id m [] m :=
  ⟨fun _ _ hq _ => hq, fun x o ho => .inr ⟨o, ho, redrawn_refl id [] x o⟩,
    fun x o ho b hb => static_iff_outline?.2 (hlive x o ho b hb), sound⟩

theorem Shaped.step (hshaped : Shaped id m₀ follow m)
    (ref : ∀ r q, m'.refs.get? r = some q → q.owner ≠ some id → m.refs.get? r = some q)
    (outline : ∀ x o', m'.outline? x = some o' → (m₀.outline? x = none ∧ x ∈ more) ∨
      ∃ o, m.outline? x = some o ∧ o.Redrawn id more x o')
    (links : ∀ x o', m'.outline? x = some o' → ∀ b ∈ o'.links, m₀.Static b)
    (sound : m'.SoundRefs) : Shaped id m₀ (follow ++ more) m' := by
  refine ⟨fun r q hq hnot => hshaped.ref r q (ref r q hq hnot) hnot, fun x o' ho' => ?_, links,
    sound⟩
  rcases outline x o' ho' with ⟨hnone, hmore⟩ | ⟨o, ho, hdrawn⟩
  · exact .inl ⟨hnone, List.mem_append_right _ hmore⟩
  · refine (hshaped.outline x o ho).imp (fun hnew => ⟨hnew.1, List.mem_append_left _ hnew.2⟩) ?_
    rintro ⟨o₀, ho₀, hbefore⟩
    refine ⟨o₀, ho₀, hdrawn.name.trans hbefore.name, hdrawn.parent.trans hbefore.parent,
      hdrawn.bases.trans hbefore.bases, fun hkept => ?_, fun hne => ?_⟩
    · rw [List.mem_append, not_or] at hkept
      rw [hdrawn.implicit (hkept.imp And.right fun hp => by rwa [hbefore.parent]),
        hbefore.implicit (hkept.imp_left And.left)]
    · exact ⟨(hdrawn.members hne).1.trans (hbefore.members hne).1,
        (hdrawn.members hne).2.trans (hbefore.members hne).2⟩

theorem Shaped.amend (hshaped : Shaped id m₀ follow m) (hamends : Amends id fresh m m')
    (hfresh : ∀ x o, m.outline? x = none → fresh x o →
      m₀.outline? x = none ∧ x ∈ more ∧ ∀ b ∈ o.links, m₀.Static b)
    (sound : m'.SoundRefs) : Shaped id m₀ (follow ++ more) m' := by
  refine hshaped.step hamends.ref (fun x o' ho' => ?_) (fun x o' ho' => ?_) sound
  · rcases hamends.outline x o' ho' with ⟨hnone, hnew⟩ | ⟨o, ho, heq, hsame⟩
    · exact .inl ⟨(hfresh x o' hnone hnew).1, (hfresh x o' hnone hnew).2.1⟩
    · refine .inr ⟨o, ho, ?_, ?_, ?_, fun _ => ?_, fun hne => ?_⟩
      iterate 4 rw [heq]
      rw [hsame hne]
      exact ⟨rfl, rfl⟩
  · rcases hamends.outline x o' ho' with ⟨hnone, hnew⟩ | ⟨o, ho, heq, -⟩
    · exact (hfresh x o' hnone hnew).2.2
    · rw [heq]
      exact hshaped.links x o ho

/-- A child of the space takes other implicit bases. -/
theorem Shaped.relink (hshaped : Shaped id m₀ follow m) {c : SpaceId} {p : Outline}
    (hp : m.outline? c = some p) (hparent : p.parent = some id) {sources : List SpaceId}
    (hsources : ∀ b ∈ sources, m₀.Static b) : Shaped id m₀ (follow ++ [c])
      (m.modifySpace c (Space.setImplicitBases fun _ => sources)) := by
  have houtline := fun x => outline?_setImplicitBases m c (fun _ => sources) x
  refine hshaped.step (fun r q hq _ => hq) (fun x o' ho' => .inr ?_) (fun x o' ho' b hb => ?_)
    hshaped.sound
  · rw [houtline] at ho'
    split at ho'
    next heq =>
      subst heq
      obtain ⟨o, ho, rfl⟩ := Option.map_eq_some_iff.1 ho'
      cases hp.symm.trans ho
      refine ⟨p, hp, rfl, rfl, rfl, fun hnot => ?_, fun _ => ⟨rfl, rfl⟩⟩
      rcases hnot with hnot | hnot
      · exact absurd List.mem_cons_self hnot
      · exact absurd hparent hnot
    next => exact ⟨o', ho', redrawn_refl id [c] x o'⟩
  · rw [houtline] at ho'
    split at ho'
    next =>
      obtain ⟨o, ho, rfl⟩ := Option.map_eq_some_iff.1 ho'
      rcases List.mem_append.1 hb with hb | hb
      · exact hshaped.links x o ho b (List.mem_append_left _ hb)
      · exact hsources b hb
    next => exact hshaped.links x o' ho' b hb

/-- Members change and nothing goes. -/
theorem Growing.amend (hgrows : Growing id m₀ before m) (hamends : Amends id fresh m m')
    (hstays : Stays m m') (sound : m'.SoundRefs) (hintact : changes.destroyed = false)
    (hfresh : ∀ x o, m.outline? x = none → fresh x o →
      x ∈ changes.follow ∧ ∀ b ∈ o.links, m₀.Static b) : Growing id m₀ (before ++ changes) m' := by
  refine ⟨hgrows.toShaped.amend hamends (fun x o hnone hnew => ⟨?_, hfresh x o hnone hnew⟩) sound,
    Frame.trans hgrows.stays hstays, ?_⟩
  · cases ho : m₀.outline? x with
    | none => rfl
    | some o₀ =>
      obtain ⟨o', ho'⟩ := static_iff_outline?.1 (hgrows.stays x (static_iff_outline?.2 ⟨o₀, ho⟩))
      rw [hnone] at ho'
      contradiction
  · show (before.destroyed || changes.destroyed) = false
    rw [hgrows.intact, hintact, Bool.or_self]

/-- Heirs see nothing of what happens to cells. -/
theorem Growing.aside (hgrows : Growing id m₀ before m) (hsame : SameShape m m')
    (href : DropsRefs m m') (hintact : changes.destroyed = false) :
    Growing id m₀ (before ++ changes) m' :=
  hgrows.amend (amends_of_sameShape hsame href) hsame.stays (href.sound hgrows.sound) hintact
    fun _ _ _ hf => hf.elim

theorem Waning.amend (hwanes : Waning id m₀ before m)
    (hamends : Amends id (fun _ _ => False) m m') (href : DropsRefs m m')
    (hstays : changes.destroyed = false → Stays m m') : Waning id m₀ (before ++ changes) m' := by
  refine ⟨hwanes.toShaped.amend hamends (fun _ _ _ hf => hf.elim) (href.sound hwanes.sound),
    fun hintact => ?_⟩
  replace hintact : (before.destroyed || changes.destroyed) = false := hintact
  rw [Bool.or_eq_false_iff] at hintact
  exact Frame.trans (hwanes.stays hintact.1) (hstays hintact.2)

/-- A child of the space takes other implicit bases and is to be derived in turn. -/
theorem Growing.relink (hgrows : Growing id m₀ before m) {c : SpaceId} {p : Outline}
    (hp : m.outline? c = some p) (hparent : p.parent = some id) {sources : List SpaceId}
    (hsources : ∀ b ∈ sources, m₀.Static b) : Growing id m₀ (before ++ { follow := [c] })
      (m.modifySpace c (Space.setImplicitBases fun _ => sources)) := by
  refine ⟨hgrows.toShaped.relink hp hparent hsources,
    Frame.trans hgrows.stays (stays_setImplicitBases c _), ?_⟩
  show (before.destroyed || false) = false
  rw [hgrows.intact, Bool.or_self]

theorem Waning.relink (hwanes : Waning id m₀ before m) {c : SpaceId} {p : Outline}
    (hp : m.outline? c = some p) (hparent : p.parent = some id) {sources : List SpaceId}
    (hsources : ∀ b ∈ sources, m₀.Static b) : Waning id m₀ (before ++ { follow := [c] })
      (m.modifySpace c (Space.setImplicitBases fun _ => sources)) := by
  refine ⟨hwanes.toShaped.relink hp hparent hsources, fun hintact => ?_⟩
  replace hintact : (before.destroyed || false) = false := hintact
  rw [Bool.or_false] at hintact
  exact Frame.trans (hwanes.stays hintact) (stays_setImplicitBases c _)

theorem Growing.waning (hgrows : Growing id m₀ before m) : Waning id m₀ before m :=
  ⟨hgrows.toShaped, fun _ => hgrows.stays⟩

/-- References that go need not follow any more. -/
theorem Following.rest {l : List (String × RefId)} (hfollows : Following id h l m)
    (href : DropsRefs m m') : Following id h l m' :=
  fun r q hq howner hderived hl b hb source hsource hother =>
    hfollows r q (href r q hq) howner hderived hl b hb source (href b source hsource) hother

/-- Nothing is said while every entry is still to come. -/
theorem following_entries : Following id h h.refs.entries m := by
  intro r q _ _ _ hl b hb
  exact absurd rfl (hl (q.name, b) (NameMap.mem_entries.2 hb))

theorem parenting_entries : Parenting id h h.spaces.entries m := by
  intro name sources hsources hl
  exact absurd rfl (hl (name, sources) (NameMap.mem_entries.2 hsources))

theorem Parenting.rest {l : List (String × List SpaceId)} (hparents : Parenting id h l m)
    (hsame : SameShape m m') : Parenting id h l m' := by
  intro name sources hsources hl
  obtain ⟨o, c, p, ho, hc, hp, heq⟩ := hparents name sources hsources hl
  exact ⟨o, c, p, (hsame.outline id).trans ho, hc, (hsame.outline c).trans hp, heq⟩

end Steps

/-! ## Member by member -/

section Members

variable {id : SpaceId} {m₀ m : Model} {before : Changes} {heritage : Heritage}

theorem Growing.still (hgrows : Growing id m₀ before m) : Growing id m₀ (before ++ {}) m :=
  hgrows.aside (Frame.refl m) (Frame.refl m) rfl

/-- Heirs see nothing of the changes, and nothing is to follow. -/
structure Veiled (m : Model) (changes : Changes) (m' : Model) : Prop where
  shape : SameShape m m'
  refs : DropsRefs m m'
  follow : changes.follow = []
  intact : changes.destroyed = false

theorem veiled_refl (m : Model) : Veiled m {} m := ⟨Frame.refl m, Frame.refl m, rfl, rfl⟩

theorem veiled_deriveCells (id : SpaceId) (name : String) (source : CellId) :
    Returns (Veiled m) (deriveCells id name source) m := by
  unfold deriveCells
  refine returns_read fun src _ => returns_read fun s _ => ?_
  split
  next =>
    refine returns_modify (returns_pure ?_)
    have halike := fun m' => (forgetsSome_hideGlobal m' name).alike
    refine ⟨Frame.trans sameShape_addCells (halike _).sameShape, fun r q hq => ?_, rfl, rfl⟩
    rwa [(halike _).refs] at hq
  next own _ =>
    refine returns_read fun current _ => ?_
    split
    next =>
      refine returns_modify (returns_pure ?_)
      have halike := fun m' => (forgetsAll_invalidateCells m' own).forgetsSome.alike
      refine ⟨Frame.trans (sameShape_modifyCell own _) (halike _).sameShape, fun r q hq => ?_,
        rfl, rfl⟩
      rwa [(halike _).refs] at hq
    next => exact returns_pure (veiled_refl m)

theorem veiled_dropCells (id : SpaceId) (heritage : Heritage) (e : String × CellId) :
    Returns (Veiled m) (dropCells id heritage e) m := by
  unfold dropCells
  split
  next => exact returns_pure (veiled_refl m)
  next =>
    refine returns_read fun c _ => ?_
    split
    next =>
      refine returns_modify (returns_pure ?_)
      refine ⟨sameShape_dropCells e.1 e.2, fun r q hq => ?_, rfl, rfl⟩
      rwa [refs_destroyCells] at hq
    next => exact returns_pure (veiled_refl m)

theorem veiled_deriveSignature (id : SpaceId) (heritage : Heritage) :
    Returns (Veiled m) (deriveSignature id heritage) m := by
  unfold deriveSignature
  refine returns_read fun s _ => ?_
  split
  next =>
    refine returns_modify (returns_pure ⟨?_, fun _ _ hq => hq, rfl, rfl⟩)
    exact sameShape_modifySpace (fun _ => rfl) fun _ => rfl
  next => exact returns_pure (veiled_refl m)

theorem returns_deriveCells (hgrows : Growing id m₀ before m) (name : String) (source : CellId) :
    Returns (fun changes m' => Growing id m₀ (before ++ changes) m')
      (deriveCells id name source) m :=
  (veiled_deriveCells id name source).mono fun _ _ h => hgrows.aside h.shape h.refs h.intact

theorem returns_dropCells (hgrows : Growing id m₀ before m) (e : String × CellId) :
    Returns (fun changes m' => Growing id m₀ (before ++ changes) m')
      (dropCells id heritage e) m :=
  (veiled_dropCells id heritage e).mono fun _ _ h => hgrows.aside h.shape h.refs h.intact

/-- The entry that comes first has had its turn. -/
theorem Following.cons {m' : Model} {name : String} {source : RefId} {l : List (String × RefId)}
    (hfollows : Following id heritage ((name, source) :: l) m)
    (hname : heritage.refs.get? name = some source)
    (hown : ∀ r q, m'.refs.get? r = some q → q.owner = some id → q.derived = true →
      (q.name = name ∧ ∀ src, m'.refs.get? source = some src → src.owner ≠ some id →
        q.Follows src) ∨ (q.name ≠ name ∧ m.refs.get? r = some q))
    (hother : ∀ r q, m'.refs.get? r = some q → q.owner ≠ some id → m.refs.get? r = some q) :
    Following id heritage l m' := by
  intro r q hq howner hderived hl b hb src hsrc hsrcOwner
  rcases hown r q hq howner hderived with ⟨rfl, hdone⟩ | ⟨hne, hold⟩
  · cases hname.symm.trans hb
    exact hdone src hsrc hsrcOwner
  · refine hfollows r q hold howner hderived (fun e he => ?_) b hb src (hother b src hsrc hsrcOwner)
      hsrcOwner
    rcases List.mem_cons.1 he with rfl | he
    · exact Ne.symm hne
    · exact hl e he

/-- Where the source of an inherited reference was when the derivation began. -/
structure SourceRef (m₀ : Model) (name : String) (source : RefId) : Prop where
  name : SystemName.ofString? name = none
  owned : ∀ q, m₀.refs.get? source = some q → ∃ x, q.owner = some x

theorem Shaped.sound_source {follow : List SpaceId} {name : String} {source : RefId}
    {src : Reference} (hshaped : Shaped id m₀ follow m) (hsource : SourceRef m₀ name source)
    (hsrc : m.refs.get? source = some src) : src.Sound := by
  by_cases howner : src.owner = some id
  · exact hshaped.sound source src id hsrc howner
  · obtain ⟨x, hx⟩ := hsource.owned src (hshaped.ref source src hsrc howner)
    exact hshaped.sound source src x hsrc hx

theorem Owned.ref_sole (hm : m.Owned) {s : Space} {name : String} {own : RefId}
    (hs : m.spaces.get? id = some s) (hown : s.refs.get? name = some own) (r : RefId)
    (q : Reference) (hq : m.refs.get? r = some q) (howner : q.owner = some id)
    (hname : q.name = name) : r = own := by
  subst hname
  exact Option.some.inj ((hm.ref_listed hq howner hs).symm.trans hown)

section Entry

variable {changes : Changes} {name : String} {source own slot : RefId} {l : List (String × RefId)}
  {src current q : Reference} {s : Space} {m₁ m' : Model}

/-- The one reference of the space with the name was written after its source. -/
theorem Growing.written (hgrows : Growing id m₀ before m)
    (hname : heritage.refs.get? name = some source)
    (hfollows : Following id heritage ((name, source) :: l) m)
    (hsrc : m.refs.get? source = some src)
    (hsole : ∀ r p, m.refs.get? r = some p → p.owner = some id → p.name = name → r = slot)
    (hrefs : ∀ r p, m₁.refs.get? r = some p →
      (r = slot ∧ p = q) ∨ (r ≠ slot ∧ m.refs.get? r = some p))
    (hq : q.name = name) (hsound : q.Sound) (hagrees : q.Follows src)
    (hamends : Amends id (fun _ _ => False) m m₁) (hstays : Stays m m₁) (halike : Alike m₁ m')
    (hintact : changes.destroyed = false) :
    Growing id m₀ (before ++ changes) m' ∧ Following id heritage l m' := by
  refine ⟨hgrows.amend (hamends.alike halike) (Frame.trans hstays halike.sameShape.stays)
    (fun r p x hp howner => ?_) hintact fun _ _ _ hf => hf.elim,
    hfollows.cons hname (fun r p hp howner _ => ?_) fun r p hp hnot => ?_⟩ <;>
    rw [halike.refs] at hp
  · rcases hrefs r p hp with ⟨-, rfl⟩ | ⟨-, hold⟩
    · exact hsound
    · exact hgrows.sound r p x hold howner
  · rcases hrefs r p hp with ⟨-, rfl⟩ | ⟨hne, hold⟩
    · refine .inl ⟨hq, fun src' hsrc' hother => ?_⟩
      rw [halike.refs] at hsrc'
      cases hsrc.symm.trans (hamends.ref source src' hsrc' hother)
      exact hagrees
    · exact .inr ⟨fun heq => hne (hsole r p hold howner heq), hold⟩
  · exact hamends.ref r p hp hnot

/-- No reference of the space has the name: a copy of the source comes. -/
theorem Growing.copied (hm : m.Owned) (hgrows : Growing id m₀ before m)
    (hsource : SourceRef m₀ name source) (hname : heritage.refs.get? name = some source)
    (hfollows : Following id heritage ((name, source) :: l) m)
    (hsrc : m.refs.get? source = some src) (hs : m.spaces.get? id = some s)
    (hfree : s.refs.get? name = none)
    (small : (m.addRef { src with name, owner := some id, derived := true }).2.Addressable)
    (halike : Alike (m.addRef { src with name, owner := some id, derived := true }).2 m') :
    Growing id m₀ (before ++ .memberCreated) m' ∧ Following id heritage l m' := by
  have hsound := hgrows.toShaped.sound_source hsource hsrc
  obtain ⟨-, hrefs⟩ := refs_addRef hm.tidy small
  obtain ⟨hamends, hstays⟩ := amends_addRef hm small rfl
  let q : Reference := { src with name, owner := some id, derived := true }
  have hq : q.Sound := ⟨hsource.name, fun hauthored => Bool.noConfusion hauthored, hsound.space,
    hsound.absolute, hsound.relative⟩
  have hnone : ∀ r p, m.refs.get? r = some p → p.owner = some id → p.name = name →
      r = (m.addRef q).1 := by
    intro r p hp howner heq
    subst heq
    rw [hm.ref_listed hp howner hs] at hfree
    contradiction
  refine hgrows.written (q := q) hname hfollows hsrc hnone (fun r p hp => ?_) rfl hq
    ⟨BEq.rfl, rfl, rfl⟩ hamends hstays halike rfl
  rw [hrefs] at hp
  split at hp
  next heq => exact .inl ⟨heq.symm, (Option.some.inj hp).symm⟩
  next hne => exact .inr ⟨Ne.symm hne, hp⟩

/-- The derived reference of the name takes over what its source says. -/
theorem Growing.refreshed (hm : m.Owned) (hgrows : Growing id m₀ before m)
    (hsource : SourceRef m₀ name source) (hname : heritage.refs.get? name = some source)
    (hfollows : Following id heritage ((name, source) :: l) m)
    (hsrc : m.refs.get? source = some src) (hs : m.spaces.get? id = some s)
    (hown : s.refs.get? name = some own) (hcurrent : m.refs.get? own = some current)
    (hderived : current.derived = true)
    (halike : Alike (m.modifyRef own fun r => { r with
      value := src.value, mode := src.mode, relative := src.relative, origin := src.origin }) m') :
    Growing id m₀ (before ++ { updated := 1 }) m' ∧ Following id heritage l m' := by
  obtain ⟨q₀, hq₀, howner₀, hname₀⟩ := hm.ref_of_listed hs hown
  cases hcurrent.symm.trans hq₀
  have hsound := hgrows.toShaped.sound_source hsource hsrc
  let q : Reference := { current with
    value := src.value, mode := src.mode, relative := src.relative, origin := src.origin }
  have hq : q.Sound := ⟨(hgrows.sound own current id hcurrent howner₀).name,
    fun hauthored => absurd hderived (by rw [hauthored]; simp), hsound.space, hsound.absolute,
    hsound.relative⟩
  have hamends : Amends id (fun _ _ => False) m (m.modifyRef own fun r => { r with
      value := src.value, mode := src.mode, relative := src.relative, origin := src.origin }) :=
    amends_modifyRef fun p hp => by
      cases hcurrent.symm.trans hp
      exact howner₀
  refine hgrows.written (q := q) hname hfollows hsrc (hm.ref_sole hs hown) (fun r p hp => ?_) hname₀
    hq ⟨BEq.rfl, rfl, rfl⟩ hamends (stays_modifyRef own _) halike rfl
  rw [show (m.modifyRef own _).refs.get? r = _ from Pool.get?_modify m.refs own r _] at hp
  split at hp
  next heq =>
    rw [hcurrent] at hp
    exact .inl ⟨heq.symm, (Option.some.inj hp).symm⟩
  next hne => exact .inr ⟨Ne.symm hne, hp⟩

/-- An authored reference, or one that agrees with its source already, is left alone. -/
theorem Following.settled (hm : m.Owned) (hname : heritage.refs.get? name = some source)
    (hfollows : Following id heritage ((name, source) :: l) m)
    (hsrc : m.refs.get? source = some src) (hs : m.spaces.get? id = some s)
    (hown : s.refs.get? name = some own) (hcurrent : m.refs.get? own = some current)
    (hagrees : current.derived = true → current.Follows src) : Following id heritage l m := by
  refine hfollows.cons hname (fun r q hq howner hderived => ?_) fun _ _ hq _ => hq
  by_cases heq : q.name = name
  · refine .inl ⟨heq, fun src' hsrc' _ => ?_⟩
    cases hsrc.symm.trans hsrc'
    cases hm.ref_sole hs hown r q hq howner heq
    cases hcurrent.symm.trans hq
    exact hagrees hderived
  · exact .inr ⟨heq, hq⟩

theorem returns_deriveRef (hm : m.Owned) (hgrows : Growing id m₀ before m)
    (hsource : SourceRef m₀ name source) (hname : heritage.refs.get? name = some source)
    (hfollows : Following id heritage ((name, source) :: l) m) :
    Returns (fun changes m' => m'.Addressable → Growing id m₀ (before ++ changes) m' ∧
      Following id heritage l m') (deriveRef id name source) m := by
  unfold deriveRef
  refine returns_read fun src hsrc => returns_read fun s hs => ?_
  replace hsrc := reference_eq_ok.1 hsrc
  replace hs := space_eq_ok.1 hs
  split
  next hfree =>
    refine returns_modify (returns_pure fun small => ?_)
    have halike := fun m' => (forgetsSome_hideGlobal m' name).alike
    exact hgrows.copied hm hsource hname hfollows hsrc hs hfree
      ((halike _).addressable.1 small) (halike _)
  next own hown =>
    refine returns_read fun current hcurrent => ?_
    replace hcurrent := reference_eq_ok.1 hcurrent
    split
    next hdiffers =>
      rw [Bool.and_eq_true] at hdiffers
      exact returns_modify (returns_pure fun _ => hgrows.refreshed hm hsource hname hfollows hsrc
        hs hown hcurrent hdiffers.1 (forgetsAll_invalidate _ (.ref own)).forgetsSome.alike)
    next hsame =>
      refine returns_pure fun _ => ⟨hgrows.still,
        hfollows.settled hm hname hsrc hs hown hcurrent fun hderived => ?_⟩
      simp only [hderived, Bool.true_and, Bool.or_eq_true, bne_iff_ne, ne_eq, not_or,
        Decidable.not_not] at hsame
      exact ⟨by simpa [bne] using hsame.1.1, hsame.1.2, hsame.2⟩

end Entry

theorem returns_dropRef (hgrows : Growing id m₀ before m) (hfollows : Following id heritage [] m)
    (e : String × RefId) : Returns (fun changes m' => Growing id m₀ (before ++ changes) m' ∧
      Following id heritage [] m') (dropRef id heritage e) m := by
  unfold dropRef
  split
  next => exact returns_pure ⟨hgrows.still, hfollows⟩
  next =>
    refine returns_read fun r _ => ?_
    split
    next =>
      refine returns_modify (returns_pure ?_)
      have href : DropsRefs m ((m.modifySpace id fun s =>
          { s with refs := s.refs.erase e.1 }).destroyReference e.2) := dropsRefs_dropRef e.1 e.2
      exact ⟨hgrows.amend (amends_dropRef e.1 e.2) (stays_dropRef e.1 e.2)
        (href.sound hgrows.sound) rfl fun _ _ _ hf => hf.elim, hfollows.rest href⟩
    next => exact returns_pure ⟨hgrows.still, hfollows⟩

/-- Two children of a space have two names. -/
theorem Owned.child_unique (hm : m.Owned) {o : Outline} (ho : m.outline? id = some o)
    {name name' : String} {c : SpaceId} (hc : o.spaces.get? name = some c)
    (hc' : o.spaces.get? name' = some c) : name' = name := by
  obtain ⟨s, hs, -, rfl⟩ := outline?_eq_some.1 ho
  obtain ⟨t, ht, -, rfl, -⟩ := hm.child_of_listed hs hc
  obtain ⟨t', ht', -, rfl, -⟩ := hm.child_of_listed hs hc'
  cases ht.symm.trans ht'
  rfl

theorem Owned.outline_of_listed (hm : m.Owned) {o : Outline} (ho : m.outline? id = some o)
    {name : String} {c : SpaceId} (hc : o.spaces.get? name = some c) :
    ∃ p, m.outline? c = some p ∧ p.parent = some id := by
  obtain ⟨s, hs, hstatic, rfl⟩ := outline?_eq_some.1 ho
  obtain ⟨t, ht, htstatic, hparent, -⟩ := hm.static_of_listed hs hstatic hc
  exact ⟨t.outline, outline?_of_static ht htstatic, hparent⟩

/-- The entry that comes first has had its turn, and the other children are as they were. -/
theorem Parenting.cons {m' : Model} {name : String} {sources : List SpaceId}
    {l : List (String × List SpaceId)} (hparents : Parenting id heritage ((name, sources) :: l) m)
    (hname : heritage.spaces.get? name = some sources)
    (hown : ∃ o c p, m'.outline? id = some o ∧ o.spaces.get? name = some c ∧
      m'.outline? c = some p ∧ p.implicitBases = sources)
    (hother : ∀ other o c p, other ≠ name → m.outline? id = some o → o.spaces.get? other = some c →
      m.outline? c = some p → ∃ o' p', m'.outline? id = some o' ∧ o'.spaces.get? other = some c ∧
        m'.outline? c = some p' ∧ p'.implicitBases = p.implicitBases) :
    Parenting id heritage l m' := by
  intro other sources' hsources hl
  by_cases heq : other = name
  · subst heq
    cases hname.symm.trans hsources
    exact hown
  · obtain ⟨o, c, p, ho, hc, hp, himplicit⟩ := hparents other sources' hsources fun e he => by
      rcases List.mem_cons.1 he with rfl | he
      · exact Ne.symm heq
      · exact hl e he
    obtain ⟨o', p', ho', hc', hp', himplicit'⟩ := hother other o c p heq ho hc hp
    exact ⟨o', c, p', ho', hc', hp', himplicit'.trans himplicit⟩

/-- Other children keep their implicit bases when one takes others. -/
theorem relink_other (hm : m.Owned) {o p : Outline} {name other : String} {c child : SpaceId}
    (f : List SpaceId → List SpaceId) (ho : m.outline? id = some o)
    (hchild : o.spaces.get? name = some child) (hne : other ≠ name)
    (hc : o.spaces.get? other = some c) (hp : m.outline? c = some p) : ∃ o' p',
      (m.modifySpace child (Space.setImplicitBases f)).outline? id = some o' ∧
        o'.spaces.get? other = some c ∧
          (m.modifySpace child (Space.setImplicitBases f)).outline? c = some p' ∧
            p'.implicitBases = p.implicitBases := by
  have houtline := fun x => outline?_setImplicitBases m child f x
  have hcne : child ≠ c := by
    rintro rfl
    exact hne (hm.child_unique ho hchild hc)
  refine ⟨if child = id then { o with implicitBases := f o.implicitBases } else o, p, ?_, ?_, ?_,
    rfl⟩
  · rw [houtline, ho]
    split <;> rfl
  · split <;> exact hc
  · rw [houtline, if_neg hcne, hp]

theorem Parenting.addChild (hm : m.Owned) {s t : Space} (hs : m.spaces.get? id = some s)
    (hself : s.isStatic = true) (hstatic : t.isStatic = true)
    (small : (m.addChild id t).2.Addressable) {l : List (String × List SpaceId)}
    (hparents : Parenting id heritage ((t.name, t.implicitBases) :: l) m)
    (hname : heritage.spaces.get? t.name = some t.implicitBases) :
    Parenting id heritage l (m.addChild id t).2 := by
  have houtline := outline?_addChild hm small hs hstatic
  have ho := outline?_of_static hs hself
  have hfresh : m.outline? (m.addChild id t).1 = none := by
    rw [outline?, (addsChild hm.tidy small hs).fresh]
  have hne : id ≠ (m.addChild id t).1 := by
    intro heq
    rw [← heq, ho] at hfresh
    contradiction
  have ho' : (m.addChild id t).2.outline? id = some { s.outline with
      spaces := s.outline.spaces.insert t.name (m.addChild id t).1 } := by
    rw [houtline, if_pos rfl, ho, Option.map_some]
  refine hparents.cons hname ⟨_, (m.addChild id t).1, t.outline, ho', ?_, ?_, rfl⟩
    fun other o c p hother hold hc hp => ?_
  · exact (NameMap.get?_insert _ _ _ _).trans (if_pos rfl)
  · rw [houtline, if_neg hne, if_pos rfl]
  · cases ho.symm.trans hold
    have hcne : (m.addChild id t).1 ≠ c := by
      rintro rfl
      rw [hfresh] at hp
      contradiction
    refine ⟨_,
      if id = c then { p with spaces := p.spaces.insert t.name (m.addChild id t).1 } else p, ho',
      (NameMap.get?_insert _ _ _ _).trans ((if_neg (Ne.symm hother)).trans hc), ?_, ?_⟩
    · rw [houtline, if_neg hcne, hp]
      split <;> rfl
    · split <;> rfl

theorem returns_deriveChild (hm : m.Owned) (hself : m.Static id) (hgrows : Growing id m₀ before m)
    (hfollows : Following id heritage [] m) {name : String} {sources : List SpaceId}
    {l : List (String × List SpaceId)} (hsources : ∀ b ∈ sources, m₀.Static b)
    (hname : heritage.spaces.get? name = some sources)
    (hparents : Parenting id heritage ((name, sources) :: l) m) :
    Returns (fun changes m' => m'.Addressable → Growing id m₀ (before ++ changes) m' ∧
      Following id heritage [] m' ∧ Parenting id heritage l m')
      (deriveChild id name sources) m := by
  unfold deriveChild
  refine returns_read fun s hs => ?_
  replace hs := space_eq_ok.1 hs
  have hstatic := hself.isStatic hs
  have ho := outline?_of_static hs hstatic
  split
  next hfree =>
    refine returns_update (returns_modify (returns_pure fun small => ?_))
    have halike := fun m' => (forgetsSome_hideGlobal m' name).alike
    replace small := (halike _).addressable.1 small
    obtain ⟨hamends, hstays⟩ := amends_addChild hm small hs rfl
    have href : DropsRefs m (m.addChild id ((Space.fresh name (some id) true).setImplicitBases
        fun _ => sources)).2 := fun r q hq => by rwa [(addsChild hm.tidy small hs).refs] at hq
    replace href := Frame.trans href (halike _).dropsRefs
    refine ⟨hgrows.amend (hamends.alike (halike _))
      (Frame.trans hstays (halike _).sameShape.stays) (href.sound hgrows.sound) rfl
      (fun x o _ hnew => ?_), hfollows.rest href, ?_⟩
    · obtain ⟨rfl, rfl⟩ := hnew
      exact ⟨List.mem_cons_self, hsources⟩
    · exact (hparents.addChild hm hs hstatic rfl small hname).rest (halike _).sameShape
  next child hchild =>
    refine returns_read fun c hc => ?_
    replace hc := space_eq_ok.1 hc
    obtain ⟨t, ht, htstatic, hparent, -⟩ := hm.static_of_listed hs hstatic hchild
    cases hc.symm.trans ht
    have hoc := outline?_of_static hc htstatic
    split
    next =>
      refine returns_modify (returns_pure fun _ => ?_)
      have houtline := fun x => outline?_setImplicitBases m child (fun _ => sources) x
      refine ⟨hgrows.relink hoc hparent hsources, hfollows.rest fun _ _ hq => hq,
        hparents.cons hname ?_ fun other o d p hne hold hd hp => ?_⟩
      · refine ⟨if child = id then { s.outline with implicitBases := sources } else s.outline,
          child, { c.outline with implicitBases := sources }, ?_, ?_, ?_, rfl⟩
        · rw [houtline, ho]
          split <;> rfl
        · split <;> exact hchild
        · rw [houtline, if_pos rfl, hoc, Option.map_some]
      · cases ho.symm.trans hold
        exact relink_other hm _ ho hchild hne hd hp
    next hsame =>
      rw [htstatic, Bool.true_and, Bool.not_eq_true, bne_eq_false_iff_eq] at hsame
      refine returns_pure fun _ => ⟨hgrows.still, hfollows, hparents.cons hname ?_ ?_⟩
      · exact ⟨_, child, _, ho, hchild, hoc, hsame⟩
      · exact fun other o d p _ hold hd hp => ⟨o, p, hold, hd, hp, rfl⟩

theorem Waning.still (hwanes : Waning id m₀ before m) : Waning id m₀ (before ++ {}) m :=
  hwanes.amend (amends_of_sameShape (Frame.refl m) (Frame.refl m)) (Frame.refl m)
    fun _ => Frame.refl m

/-- A child goes that is not inherited; the others stay as they were. -/
theorem Parenting.dropChild (hm : m.Owned) (hself : m.Static id)
    (hparents : Parenting id heritage [] m) {s : Space} (hs : m.spaces.get? id = some s)
    {e : String × SpaceId} (hlisted : s.spaces.get? e.1 = some e.2)
    (hname : ¬ heritage.spaces.contains e.1 = true) :
    Parenting id heritage [] ((m.modifySpace id fun s =>
      { s with spaces := s.spaces.erase e.1 }).destroySpace e.2) := by
  have hstatic := hself.isStatic hs
  intro name sources hsources _
  obtain ⟨o, c, p, ho, hc, hp, himplicit⟩ := hparents name sources hsources (by simp)
  cases ho.symm.trans (outline?_of_static hs hstatic)
  have hne : e.1 ≠ name := by
    rintro rfl
    exact hname (Option.isSome_of_eq_some hsources)
  have hsevers := severs_child hm hs hstatic hlisted
  have hhome : m.HomeIn (.space e.2) id := homeIn_of_listed (a := .child id e.1) hm
    (by rw [listed_of_space rfl hs, Space.lists, hlisted, Option.map_some]) rfl
  have hself' := severs_child_self hm hs hstatic hlisted (hm.not_within hs hhome)
  have ho' := outline?_of_static hself' hstatic
  have hc' : (s.spaces.erase e.1).get? name = some c := by
    rw [NameMap.get?_erase, if_neg hne]
    exact hc
  -- the child is still listed, so it is still there
  obtain ⟨p', hp', -⟩ := hsevers.owned.outline_of_listed ho' hc'
  refine ⟨_, c, p', ho', hc', hp', ?_⟩
  obtain ⟨p₁, hp₁, heq, -⟩ := ((amends_dropChild e.1 e.2).outline c p' hp').resolve_left
    fun hnew => hnew.2
  cases hp.symm.trans hp₁
  rw [heq]
  exact himplicit

theorem returns_dropChild (hm : m.Owned) (hself : m.Static id) (hwanes : Waning id m₀ before m)
    (hfollows : Following id heritage [] m) (hparents : Parenting id heritage [] m) {s : Space}
    (hs : m.spaces.get? id = some s) {e : String × SpaceId}
    (hlisted : s.spaces.get? e.1 = some e.2) :
    Returns (fun changes m' => Waning id m₀ (before ++ changes) m' ∧ Following id heritage [] m' ∧
      Parenting id heritage [] m') (dropChild id heritage e) m := by
  have hstatic := hself.isStatic hs
  have ho := outline?_of_static hs hstatic
  unfold dropChild
  split
  next => exact returns_pure ⟨hwanes.still, hfollows, hparents⟩
  next hname =>
    refine returns_read fun c hc => ?_
    replace hc := space_eq_ok.1 hc
    obtain ⟨t, ht, htstatic, hparent, -⟩ := hm.static_of_listed hs hstatic hlisted
    cases hc.symm.trans ht
    split
    next =>
      refine returns_modify (returns_pure ⟨?_, ?_, ?_⟩)
      · exact hwanes.amend (amends_dropChild e.1 e.2) (dropsRefs_dropChild e.1 e.2)
          fun hintact => by cases hintact
      · exact hfollows.rest (dropsRefs_dropChild e.1 e.2)
      · exact hparents.dropChild hm hself hs hlisted hname
    next =>
      split
      next =>
        refine returns_modify (returns_pure ⟨?_, hfollows.rest fun _ _ hq => hq, ?_⟩)
        · exact hwanes.relink (outline?_of_static hc htstatic) hparent (by simp)
        · intro name sources hsources _
          obtain ⟨o, d, p, ho', hd, hp, himplicit⟩ := hparents name sources hsources (by simp)
          cases ho.symm.trans ho'
          have hne : name ≠ e.1 := by
            rintro rfl
            exact hname (Option.isSome_of_eq_some hsources)
          obtain ⟨o', p', ho', hd', hp', heq⟩ :=
            relink_other hm (fun _ => []) ho hlisted hne hd hp
          exact ⟨o', d, p', ho', hd', hp', heq.trans himplicit⟩
      next => exact returns_pure ⟨hwanes.still, hfollows, hparents⟩

theorem returns_deriveSignature (hwanes : Waning id m₀ before m)
    (hfollows : Following id heritage [] m) (hparents : Parenting id heritage [] m) :
    Returns (fun changes m' => Waning id m₀ (before ++ changes) m' ∧ Following id heritage [] m' ∧
      Parenting id heritage [] m') (deriveSignature id heritage) m :=
  (veiled_deriveSignature id heritage).mono fun _ _ h =>
    ⟨hwanes.amend (amends_of_sameShape h.shape h.refs) h.refs fun _ => h.shape.stays,
      hfollows.rest h.refs, hparents.rest h.shape⟩

end Members

end Model

end Recalc
