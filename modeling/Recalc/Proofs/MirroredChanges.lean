import Recalc.Proofs.Mirroring
import Recalc.Proofs.OwnedAdditions
import Recalc.Derive

set_option autoImplicit false

/-!
# Changes of definitions and the mirrors of them

What happens to mirrors when the definition of one static space changes: the replicas anchored in
the space or around it are stale from then on, unless what replicas take from the space is as
before.
-/

namespace Recalc

namespace Space

/-- A change of a static space that moves nothing and leaves its listings alone. -/
structure Retouches (s s' : Space) : Prop extends Like s s' where
  cells : s'.cells = s.cells
  spaces : s'.spaces = s.spaces
  references : s'.refs = s.refs
  instances : s'.instances = s.instances

theorem Retouches.trans {s₁ s₂ s₃ : Space} (h : Retouches s₁ s₂) (h' : Retouches s₂ s₃) :
    Retouches s₁ s₃ :=
  ⟨h.toLike.trans h'.toLike, h'.cells.trans h.cells, h'.spaces.trans h.spaces,
    h'.references.trans h.references, h'.instances.trans h.instances⟩

theorem Retouches.lists {s s' : Space} (h : Retouches s s') (a : Address) :
    s'.lists a = s.lists a := by
  cases a <;> simp only [Space.lists, h.cells, h.spaces, h.references, h.instances]

/-- What a space is after something that was listed in it, if `holder`, went. -/
structure Loses (s s' : Space) (holder : Prop) : Prop extends Like s s' where
  signature : s'.signature = s.signature
  cells : s.isStatic = false → s'.cells = s.cells
  instances : s'.instances = s.instances
  same : ¬ holder → s' = s

section Bases

variable (f : List SpaceId → List SpaceId) (s : Space)

theorem retouches_setBases : Retouches s (s.setBases f) := by
  unfold setBases
  split
  next hk =>
    refine ⟨⟨rfl, rfl, ?_, fun hs => ?_, fun _ => rfl⟩, rfl, rfl, rfl, rfl⟩
    · simp [isStatic, hk]
    · simp [isStatic, hk] at hs
  next => exact ⟨.refl s, rfl, rfl, rfl, rfl⟩

theorem retouches_setImplicitBases : Retouches s (s.setImplicitBases f) := by
  unfold setImplicitBases
  split
  next hk =>
    refine ⟨⟨rfl, rfl, ?_, fun hs => ?_, fun _ => rfl⟩, rfl, rfl, rfl, rfl⟩
    · simp [isStatic, hk]
    · simp [isStatic, hk] at hs
  next => exact ⟨.refl s, rfl, rfl, rfl, rfl⟩

theorem retouches_setDerived (flag : Bool) : Retouches s (s.setDerived flag) := by
  unfold setDerived
  split
  next hk =>
    refine ⟨⟨rfl, rfl, ?_, fun hs => ?_, fun _ => rfl⟩, rfl, rfl, rfl, rfl⟩
    · simp [isStatic, hk]
    · simp [isStatic, hk] at hs
  next => exact ⟨.refl s, rfl, rfl, rfl, rfl⟩

theorem signature_setBases : (s.setBases f).signature = s.signature := by
  unfold setBases
  split <;> rfl

theorem signature_setImplicitBases : (s.setImplicitBases f).signature = s.signature := by
  unfold setImplicitBases
  split <;> rfl

theorem signature_setDerived (flag : Bool) : (s.setDerived flag).signature = s.signature := by
  unfold setDerived
  split <;> rfl

theorem setBases_of_replica (hs : s.isStatic = false) : s.setBases f = s := by
  unfold setBases
  split
  next hk => simp [isStatic, hk] at hs
  next => rfl

theorem setImplicitBases_of_replica (hs : s.isStatic = false) : s.setImplicitBases f = s := by
  unfold setImplicitBases
  split
  next hk => simp [isStatic, hk] at hs
  next => rfl

theorem setDerived_of_replica (flag : Bool) (hs : s.isStatic = false) : s.setDerived flag = s := by
  unfold setDerived
  split
  next hk => simp [isStatic, hk] at hs
  next => rfl

end Bases

end Space

namespace Model

open Recalc.Action

/-- Only one static space and its cells change, and static spaces may come. -/
structure EditsAt (m m' : Model) (id : SpaceId) : Prop where
  self : ∃ s s', m.spaces.get? id = some s ∧ m'.spaces.get? id = some s' ∧ s.isStatic = true ∧
    s.Like s'
  others : ∀ other, other ≠ id → m'.spaces.get? other = m.spaces.get? other ∨
    (m.spaces.get? other = none ∧ ∀ s', m'.spaces.get? other = some s' → s'.isStatic = true)
  cells : ∀ c d d', m.cells.get? c = some d → m'.cells.get? c = some d' → d.space ≠ id →
    d'.bare = d.bare

section Edits

variable {m m' : Model} {id : SpaceId}

theorem EditsAt.like (h : EditsAt m m' id) {other : SpaceId} {s s' : Space}
    (hs : m.spaces.get? other = some s) (hs' : m'.spaces.get? other = some s') : s.Like s' := by
  by_cases heq : other = id
  · subst heq
    obtain ⟨t, t', ht, ht', -, hlike⟩ := h.self
    rw [ht] at hs
    rw [ht'] at hs'
    cases hs
    cases hs'
    exact hlike
  · rcases h.others other heq with hsame | ⟨hnone, -⟩
    · rw [hsame, hs] at hs'
      cases hs'
      exact .refl s
    · rw [hnone] at hs
      contradiction

theorem EditsAt.setting (h : EditsAt m m' id) (hm : m.Owned) (hm' : m'.Owned) {other : SpaceId}
    {s s' : Space} (hne : other ≠ id) (hs : m.spaces.get? other = some s)
    (hs' : m'.spaces.get? other = some s') (name : String) :
    m'.setting s' name = m.setting s name := by
  rcases h.others other hne with hsame | ⟨hnone, -⟩
  · rw [hsame, hs] at hs'
    cases hs'
    refine setting_eq hm'.linked (hsame.trans hs) rfl fun c d' hc hd' => ?_
    obtain ⟨d, hd, hspace, -⟩ := hm.cells_of_listed hs hc
    exact ⟨d, hd, formula_of_bare (h.cells c d d' hd hd' (hspace ▸ hne))⟩
  · rw [hnone] at hs
    contradiction

theorem MirroredBut.editAt {stale stale' : SpaceId → Prop} (h : m.MirroredBut stale)
    (hm : m.Owned) (hm' : m'.Owned) (hedit : EditsAt m m' id) (weaker : ∀ a, stale a → stale' a)
    (face : m.SameFace m' id ∨ ∀ a ∈ m.ancestry id, stale' a) : m'.MirroredBut stale' := by
  refine h.transfer hm (fun _ s s' hs hs' => hedit.like hs hs') (fun other s s' hs hs' hreplica =>
    ?_) (fun c a _ ha _ hn => ?_) weaker fun other s' hs' hnone => ?_
  · refine hedit.setting hm hm' ?_ hs hs'
    rintro rfl
    obtain ⟨t, t', ht, -, hstatic, -⟩ := hedit.self
    rw [hs] at ht
    cases ht
    rw [hreplica] at hstatic
    contradiction
  · by_cases heq : c = id
    · subst heq
      exact face.resolve_right fun hstale => hn (hstale a ha)
    · intro s hs hstatic
      rcases hedit.others c heq with hsame | ⟨hnone, -⟩
      · have hs' := hsame.trans hs
        exact ⟨s, hs', hstatic, rfl, rfl, hedit.setting hm hm' heq hs hs'⟩
      · rw [hnone] at hs
        contradiction
  · by_cases heq : other = id
    · subst heq
      obtain ⟨t, -, ht, -⟩ := hedit.self
      rw [ht] at hnone
      contradiction
    · rcases hedit.others other heq with hsame | ⟨-, hnew⟩
      · rw [hsame, hnone] at hs'
        contradiction
      · exact .static (hnew s' hs')

end Edits

/-! ## Changes in place -/

section InPlace

variable {m : Model} {id : SpaceId} {s : Space} {stale : SpaceId → Prop}

theorem owned_retouch {f : Space → Space} (hm : m.Owned) (hf : ∀ s, Space.Retouches s (f s)) :
    (m.modifySpace id f).Owned := by
  cases hs : m.spaces.get? id with
  | none =>
    have hsame : m.modifySpace id f = m := by
      unfold modifySpace
      rw [Pool.modify_of_get?_none _ _ _ hs]
    rwa [hsame]
  | some s =>
    have hget := get?_modifySpace hs f
    refine hm.transfer (tidy_modifySpace hm.tidy id f) (hm.linked.congr
      (home?_modifySpace fun t => (hf t).home) fun a => ?_) (fun other t t' ht ht' => ?_)
      fun other t' ht' hnone => ?_
    · by_cases ha : a.space? = some id
      · rw [listed_of_space ha (hget id ▸ if_pos rfl), listed_of_space ha hs]
        exact (hf s).lists a
      · exact listed_modifySpace_of_ne ha
    · rw [hget] at ht'
      split at ht'
      next h =>
        subst h
        rw [hs] at ht
        cases ht
        cases ht'
        exact (hf s).toLike
      next =>
        rw [ht] at ht'
        cases ht'
        exact .refl t
    · rw [hget] at ht'
      split at ht'
      next h =>
        rw [← h, hs] at hnone
        contradiction
      next =>
        rw [hnone] at ht'
        contradiction

variable (hs : m.spaces.get? id = some s) (hstatic : s.isStatic = true)
include hs hstatic

theorem editsAt_modifySpace {f : Space → Space} (hf : s.Like (f s)) :
    EditsAt m (m.modifySpace id f) id := by
  have hget := get?_modifySpace hs f
  refine ⟨⟨s, f s, hs, by rw [hget, if_pos rfl], hstatic, hf⟩, fun other hne => .inl ?_,
    fun c d d' hd hd' _ => ?_⟩
  · rw [hget, if_neg fun h => hne h.symm]
  · have hd' : m.cells.get? c = some d' := hd'
    rw [hd] at hd'
    cases hd'
    rfl

theorem mirrored_retouch {f : Space → Space} (hm : m.Owned) (h : m.MirroredBut stale)
    (hf : ∀ s, Space.Retouches s (f s)) (hsig : (f s).signature = s.signature) :
    (m.modifySpace id f).MirroredBut stale := by
  have hm' : (m.modifySpace id f).Owned := owned_retouch hm hf
  refine h.editAt hm hm' (editsAt_modifySpace hs hstatic (hf s).toLike) (fun _ h => h) (.inl ?_)
  intro t ht _
  rw [hs] at ht
  cases ht
  have hget := get?_modifySpace hs f id
  rw [if_pos rfl] at hget
  refine ⟨f s, hget, (hf s).isStatic.trans hstatic, (hf s).spaces, hsig, fun name => ?_⟩
  refine setting_eq hm'.linked hget (by rw [(hf s).cells]) fun c d' _ hd' => ?_
  exact ⟨d', hd', rfl, rfl⟩

theorem mirrored_resign {f : Space → Space} (hm : m.Owned) (h : m.MirroredBut stale)
    (hf : ∀ s, Space.Retouches s (f s)) :
    (m.modifySpace id f).MirroredBut fun a => stale a ∨ a ∈ m.ancestry id :=
  h.editAt hm (owned_retouch hm hf) (editsAt_modifySpace hs hstatic (hf s).toLike)
    (fun _ h => .inl h) (.inr fun _ h => .inr h)

omit hs hstatic

/-- A change of bases and settings, which only static spaces have. -/
theorem mirrored_rebase {f : Space → Space} (hm : m.Owned) (h : m.MirroredBut stale)
    (hf : ∀ s, Space.Retouches s (f s)) (hsig : ∀ s, (f s).signature = s.signature)
    (hreplica : ∀ s, s.isStatic = false → f s = s) : (m.modifySpace id f).MirroredBut stale := by
  cases hs : m.spaces.get? id with
  | none =>
    have hsame : m.modifySpace id f = m := by
      unfold modifySpace
      rw [Pool.modify_of_get?_none _ _ _ hs]
    rwa [hsame]
  | some s =>
    cases hstatic : s.isStatic with
    | true => exact mirrored_retouch hs hstatic hm h hf (hsig s)
    | false =>
      have hget := get?_modifySpace hs f
      have hsame : ∀ other, (m.modifySpace id f).spaces.get? other = m.spaces.get? other := by
        intro other
        rw [hget, hreplica s hstatic]
        split
        next heq => rw [← heq, hs]
        next => rfl
      refine h.drops hm (owned_retouch hm hf) ⟨fun other t ht => ⟨t, ?_, rfl, fun _ _ hi => hi⟩,
        fun other t ht _ => ⟨t, ?_⟩, fun _ c hc => ⟨c, hc, rfl⟩, fun _ _ hr => hr, rfl, rfl,
        addressable_modifySpace id f⟩
      · rwa [hsame] at ht
      · rwa [hsame]

end InPlace

/-! ## Cells and references -/

section Members

variable {m m' : Model} {id : SpaceId} {s : Space} {stale : SpaceId → Prop}

theorem linked_modifyCell {loose : Entity → Prop} {c : CellId} {f : Cells → Cells}
    (hf : ∀ c, (f c).home = c.home) (h : m.Linked loose) : (m.modifyCell c f).Linked loose := by
  refine h.congr (fun e => ?_) fun _ => rfl
  cases e with
  | space _ => rfl
  | ref _ => rfl
  | cells other =>
    have hget := Pool.get?_modify m.cells c other f
    show Option.map _ (Option.map _ (Option.map _ ((m.cells.modify c f).get? other))) =
      Option.map _ (Option.map _ (Option.map _ (m.cells.get? other)))
    rw [hget]
    split
    next heq =>
      subst heq
      cases m.cells.get? c with
      | none => rfl
      | some d => exact congrArg some (hf d)
    next => rfl

theorem Owned.of_sameSpaces (hm : m.Owned) (hspaces : m'.spaces = m.spaces) (tidy : m'.Tidy)
    (linked : m'.Linked fun _ => False) : m'.Owned := by
  refine hm.transfer tidy linked (fun id s s' hs hs' => ?_) fun id s' hs' hnone => ?_
  · rw [hspaces, hs] at hs'
    cases hs'
    exact .refl s
  · rw [hspaces, hnone] at hs'
    contradiction

theorem owned_modifyCell {c : CellId} {f : Cells → Cells} (hm : m.Owned)
    (hf : ∀ c, (f c).home = c.home) : (m.modifyCell c f).Owned :=
  hm.of_sameSpaces rfl ⟨hm.tidy.spaces, Pool.tidy_modify _ _ _ hm.tidy.cells, hm.tidy.refs⟩
    (linked_modifyCell hf hm.linked)

theorem owned_modifyRef {r : RefId} {f : Reference → Reference} (hm : m.Owned)
    (hf : ∀ r, (f r).home = r.home) : (m.modifyRef r f).Owned := by
  refine hm.of_sameSpaces rfl ⟨hm.tidy.spaces, hm.tidy.cells, Pool.tidy_modify _ _ _ hm.tidy.refs⟩
    (hm.linked.congr (fun e => ?_) fun _ => rfl)
  cases e with
  | space _ => rfl
  | cells _ => rfl
  | ref other =>
    have hget := Pool.get?_modify m.refs r other f
    show Option.map _ (Option.map _ ((m.refs.modify r f).get? other)) =
      Option.map _ (Option.map _ (m.refs.get? other))
    rw [hget]
    split
    next heq =>
      subst heq
      cases m.refs.get? r with
      | none => rfl
      | some d => exact congrArg some (hf d)
    next => rfl

/-- Only what spaces define matters to mirrors. -/
theorem MirroredBut.of_sameSettings (h : m.MirroredBut stale) (hm : m.Owned)
    (hspaces : m'.spaces = m.spaces) (hsetting : ∀ s name, m'.setting s name = m.setting s name) :
    m'.MirroredBut stale := by
  refine h.transfer hm (fun id s s' hs hs' => ?_) (fun id s s' hs hs' _ name => ?_)
    (fun _ _ _ _ _ _ s hs hstatic => ?_) (fun _ h => h) fun id s' hs' hnone => ?_
  · rw [hspaces, hs] at hs'
    cases hs'
    exact .refl s
  · rw [hspaces, hs] at hs'
    cases hs'
    exact hsetting s name
  · exact ⟨s, by rwa [hspaces], hstatic, rfl, rfl, hsetting s⟩
  · rw [hspaces, hnone] at hs'
    contradiction

theorem MirroredBut.of_sameSpaces (h : m.MirroredBut stale) (hm : m.Owned)
    (hspaces : m'.spaces = m.spaces) (hcells : m'.cells = m.cells) : m'.MirroredBut stale := by
  refine h.of_sameSettings hm hspaces fun s name => ?_
  unfold setting
  rw [hcells]

theorem setting_modifyCell {c : CellId} {f : Cells → Cells}
    (hf : ∀ c, (f c).formula = c.formula ∧ (f c).allowNone = c.allowNone) (s : Space)
    (name : String) : (m.modifyCell c f).setting s name = m.setting s name := by
  unfold setting
  cases s.cells.get? name with
  | none => rfl
  | some d =>
    have hget := Pool.get?_modify m.cells c d f
    show Option.map _ ((m.cells.modify c f).get? d) = Option.map _ (m.cells.get? d)
    rw [hget]
    split
    next heq =>
      subst heq
      cases m.cells.get? c with
      | none => rfl
      | some e =>
        show some ((f e).formula, (f e).allowNone) = some (e.formula, e.allowNone)
        rw [(hf e).1, (hf e).2]
    next => rfl

variable (hs : m.spaces.get? id = some s) (hstatic : s.isStatic = true)
include hs hstatic

theorem editsAt_modifyCell {c : CellId} {d : Cells} {f : Cells → Cells}
    (hd : m.cells.get? c = some d) (hspace : d.space = id) : EditsAt m (m.modifyCell c f) id := by
  refine ⟨⟨s, s, hs, hs, hstatic, .refl s⟩, fun _ _ => .inl rfl, fun c' e e' he he' hne => ?_⟩
  have hget := Pool.get?_modify m.cells c c' f
  have he' := hget.symm.trans he'
  split at he'
  next heq =>
    subst heq
    rw [hd] at he
    cases he
    exact absurd hspace hne
  next =>
    rw [he] at he'
    cases he'
    rfl

theorem mirrored_modifyCell {c : CellId} {d : Cells} {f : Cells → Cells} (hm : m.Owned)
    (h : m.MirroredBut stale) (hd : m.cells.get? c = some d) (hspace : d.space = id)
    (hf : ∀ c, (f c).home = c.home) :
    (m.modifyCell c f).MirroredBut fun a => stale a ∨ a ∈ m.ancestry id :=
  h.editAt hm (owned_modifyCell hm hf) (editsAt_modifyCell hs hstatic hd hspace)
    (fun _ h => .inl h) (.inr fun _ h => .inr h)

theorem editsAt_addCells {c : Cells} (hm : m.Owned) (small : (m.addCells c).2.Addressable)
    (hspace : c.space = id) : EditsAt m (m.addCells c).2 id := by
  subst hspace
  have hadds := addsCells hm.tidy small hs
  have hself := hadds.spaces c.space
  rw [if_pos rfl] at hself
  refine ⟨⟨s, _, hs, hself, hstatic,
    ⟨rfl, rfl, rfl, fun _ => rfl, fun _ => rfl⟩⟩, fun other hne => .inl ?_,
    fun c' d d' hd hd' _ => ?_⟩
  · rw [hadds.spaces, if_neg fun h => hne h.symm]
  · rw [hadds.cells] at hd'
    split at hd'
    next heq =>
      rw [← heq, hadds.fresh] at hd
      contradiction
    next =>
      rw [hd] at hd'
      cases hd'
      rfl

theorem mirrored_addCells {c : Cells} (hm : m.Owned) (h : m.MirroredBut stale)
    (small : (m.addCells c).2.Addressable) (hspace : c.space = id)
    (hfree : s.cells.get? c.name = none) :
    (m.addCells c).2.MirroredBut fun a => stale a ∨ a ∈ m.ancestry id :=
  h.editAt hm (owned_addCells hm small (hspace ▸ hs) hfree)
    (editsAt_addCells hs hstatic hm small hspace) (fun _ h => .inl h) (.inr fun _ h => .inr h)

/-- A reference comes into a static space. -/
theorem owned_addRef {r : Reference} (hm : m.Owned) (small : (m.addRef r).2.Addressable)
    (howner : r.owner = some id) (hfree : s.refs.get? r.name = none) : (m.addRef r).2.Owned := by
  have hspaces := spaces_addRef howner hs
  refine hm.transfer ((widens_addRef m r).tidy hm.tidy)
    (linked_addRef hm.tidy small howner hs hfree hm.linked) (fun other t t' ht ht' => ?_)
    fun other t' ht' hnone => ?_
  · rw [hspaces] at ht'
    split at ht'
    next heq =>
      subst heq
      rw [hs] at ht
      cases ht
      cases ht'
      exact ⟨rfl, rfl, rfl, fun _ => rfl, fun hreplica => by rw [hstatic] at hreplica; contradiction⟩
    next =>
      rw [ht] at ht'
      cases ht'
      exact .refl t
  · rw [hspaces] at ht'
    split at ht'
    next heq =>
      rw [← heq, hs] at hnone
      contradiction
    next =>
      rw [hnone] at ht'
      contradiction

theorem mirrored_addRef {r : Reference} (hm : m.Owned) (h : m.MirroredBut stale)
    (small : (m.addRef r).2.Addressable) (howner : r.owner = some id)
    (hfree : s.refs.get? r.name = none) : (m.addRef r).2.MirroredBut stale := by
  have hspaces := spaces_addRef howner hs
  have hcells := cells_addRef m r
  have hm' := owned_addRef hs hstatic hm small howner hfree
  have hself := hspaces id
  rw [if_pos rfl] at hself
  have hlike : s.Like { s with refs := s.refs.insert r.name (m.addRef r).1 } :=
    ⟨rfl, rfl, rfl, fun _ => rfl, fun hreplica => by rw [hstatic] at hreplica; contradiction⟩
  have hedit : EditsAt m (m.addRef r).2 id := by
    refine ⟨⟨s, _, hs, hself, hstatic, hlike⟩, fun other hne => .inl ?_, fun c d d' hd hd' _ => ?_⟩
    · rw [hspaces, if_neg fun h => hne h.symm]
    · rw [hcells, hd] at hd'
      cases hd'
      rfl
  refine h.editAt hm hm' hedit (fun _ h => h) (.inl fun t ht _ => ?_)
  rw [hs] at ht
  cases ht
  refine ⟨_, hself, hstatic, rfl, rfl, fun name => ?_⟩
  unfold setting
  rw [hcells]

theorem editsAt_addChild {t : Space} (hm : m.Owned) (small : (m.addChild id t).2.Addressable)
    (ht : t.isStatic = true) : EditsAt m (m.addChild id t).2 id := by
  have hadds := addsChild hm.tidy small hs
  have hself := hadds.spaces id
  rw [if_pos rfl] at hself
  refine ⟨⟨s, _, hs, hself, hstatic,
    ⟨rfl, rfl, rfl, fun _ => rfl, fun _ => rfl⟩⟩, fun other hne => ?_, fun c d d' hd hd' _ => ?_⟩
  · rw [hadds.spaces, if_neg fun h => hne h.symm]
    split
    next heq =>
      subst heq
      refine .inr ⟨hadds.fresh, fun t' ht' => ?_⟩
      cases ht'
      exact ht
    next => exact .inl rfl
  · rw [hadds.cells, hd] at hd'
    cases hd'
    rfl

theorem mirrored_addChild {t : Space} (hm : m.Owned) (h : m.MirroredBut stale)
    (small : (m.addChild id t).2.Addressable) (hfree : s.spaces.get? t.name = none)
    (hparent : t.parent = some id) (ht : t.isStatic = true) (empty : ∀ a, t.lists a = none) :
    (m.addChild id t).2.MirroredBut fun a => stale a ∨ a ∈ m.ancestry id :=
  h.editAt hm (owned_addChild hm small hs hfree hparent ht hstatic empty)
    (editsAt_addChild hs hstatic hm small ht) (fun _ h => .inl h) (.inr fun _ h => .inr h)

end Members

/-! ## Roots -/

section Roots

variable {m : Model} {stale : SpaceId → Prop}

/-- Put a new root into the pool and list it. -/
theorem spaces_addRoot {s : Space} (hm : m.Owned) (small : (m.addSpace s).2.Addressable)
    (other : SpaceId) : (m.addSpace s).2.spaces.get? other =
      if (m.addSpace s).1 = other then some s else m.spaces.get? other :=
  (Pool.insert_fresh hm.tidy.spaces small.spaces).2 other

theorem owned_addRoot {s : Space} (hm : m.Owned) (small : (m.addSpace s).2.Addressable)
    (hfree : m.roots.get? s.name = none) (hparent : s.parent = none) (hstatic : s.isStatic = true)
    (empty : ∀ a, s.lists a = none) : Owned { (m.addSpace s).2 with
      roots := m.roots.insert s.name (m.addSpace s).1 } := by
  have hfresh := Pool.insert_fresh hm.tidy.spaces small.spaces
  have hinserts := inserts_space hfresh empty
  have hhome : s.home = .root s.name := by
    rw [Space.home_of_static hstatic, hparent]
    rfl
  have hlist := relists_roots (m := (m.addSpace s).2)
    (g := fun t => t.insert s.name (m.addSpace s).1) (c := some (m.addSpace s).1)
    fun t n => NameMap.get?_insert t s.name n _
  have hspaces := spaces_addRoot hm small
  have htidy := (widens_addSpace m s).tidy hm.tidy
  refine hm.transfer ⟨htidy.spaces, htidy.cells, htidy.refs⟩ ?_ (fun id t t' ht ht' => ?_)
    fun id t' ht' hnone => ?_
  · refine (hm.linked.insert hinserts).enlist hlist hinserts.home (by rw [hhome]; exact .refl _) ?_
    rw [hinserts.listed]
    show (m.roots.get? s.name).map Entity.space = none
    rw [hfree, Option.map_none]
  · replace ht' := (hspaces id).symm.trans ht'
    split at ht'
    next heq =>
      rw [← heq] at ht
      cases hfresh.1.symm.trans ht
    next =>
      cases ht.symm.trans ht'
      exact .refl t
  · replace ht' := (hspaces id).symm.trans ht'
    split at ht'
    next =>
      cases ht'
      refine ⟨⟨fun _ p q hp => ?_, fun c root hk => ?_, fun hreplica => ?_⟩, fun p hp => ?_⟩
      · rw [hparent] at hp
        contradiction
      · rw [Space.isStatic, hk] at hstatic
        contradiction
      · rw [hstatic] at hreplica
        contradiction
      · rw [hhome] at hp
        cases hp
    next => cases hnone.symm.trans ht'

theorem mirrored_addRoot {s : Space} (hm : m.Owned) (h : m.MirroredBut stale)
    (small : (m.addSpace s).2.Addressable) (hstatic : s.isStatic = true) (roots : NameMap SpaceId) :
    MirroredBut stale { (m.addSpace s).2 with roots } := by
  have hspaces := spaces_addRoot hm small
  have hfresh := Pool.insert_fresh hm.tidy.spaces small.spaces
  have hold : ∀ id t t', m.spaces.get? id = some t → (m.addSpace s).2.spaces.get? id = some t' →
      t' = t := by
    intro id t t' ht ht'
    rw [hspaces] at ht'
    split at ht'
    next heq =>
      rw [← heq] at ht
      cases hfresh.1.symm.trans ht
    next =>
      cases ht.symm.trans ht'
      rfl
  refine h.transfer hm (fun id t t' ht ht' => ?_) (fun id t t' ht ht' _ name => ?_)
    (fun c a t _ _ _ u hu hustatic => ?_) (fun _ h => h) fun id t' ht' hnone => ?_
  · rw [hold id t t' ht ht']
    exact .refl t
  · rw [hold id t t' ht ht']
    rfl
  · refine ⟨u, ?_, hustatic, rfl, rfl, fun _ => rfl⟩
    refine (hspaces c).trans ?_
    rw [if_neg, hu]
    rintro rfl
    cases hfresh.1.symm.trans hu
  · replace ht' := (hspaces id).symm.trans ht'
    split at ht'
    next =>
      cases ht'
      exact .static hstatic
    next => cases hnone.symm.trans ht'

end Roots

/-! ## Members that go -/

/-- An entity and everything at home in it, directly or through others. -/
inductive Within (m : Model) (top : Entity) : Entity → Prop
  | self : Within m top top
  | inside {e : Entity} {a : Address} {p : SpaceId} : m.home? e = some a → a.space? = some p →
      Within m top (.space p) → Within m top e

def HomeIn (m : Model) (e : Entity) (id : SpaceId) : Prop :=
  ∃ a, m.home? e = some a ∧ a.space? = some id

structure Unlists (m m' : Model) (e : Entity) : Prop where
  place : ∃ a, m.listed a = some e ∧ Relists m m' a none
  cells : m'.cells = m.cells
  spaces : ∀ x s', m'.spaces.get? x = some s' →
    ∃ s, m.spaces.get? x = some s ∧ Space.Loses s s' (m.HomeIn e x)
  back : ∀ x s, m.spaces.get? x = some s → ∃ s', m'.spaces.get? x = some s'
  tidy : m.Tidy → m'.Tidy

structure Severs (m m' : Model) (e : Entity) : Prop where
  spaces : ∀ x s', m'.spaces.get? x = some s' →
    ∃ s, m.spaces.get? x = some s ∧ Space.Loses s s' (m.HomeIn e x)
  kept : ∀ x s, m.spaces.get? x = some s → (∃ s', m'.spaces.get? x = some s') ∨
    m.Within e (.space x)
  cells : ∀ c d', m'.cells.get? c = some d' → ∃ d, m.cells.get? c = some d ∧ d'.bare = d.bare
  home : ∀ e' a, m'.home? e' = some a → m.home? e' = some a
  gone : m'.home? e = none
  owned : m'.Owned

section Severing

variable {m m₁ m' : Model} {e : Entity} {id : SpaceId} {s : Space}
  {stale stale' : SpaceId → Prop}

theorem Unlists.closed (h : Unlists m m₁ e) (hm : m.Owned) : Closed (m.Within e) m₁ := by
  intro a e' p ha hw he
  obtain ⟨b, -, hrelists⟩ := h.place
  have he : m.listed a = some e' := by
    by_cases hsame : b.Same a
    · rw [hrelists.same a hsame] at he
      contradiction
    · rwa [hrelists.other a hsame] at he
  obtain ⟨c, hc, hca⟩ := hm.linked.sound a e' he
  exact .inside hc (hca.space?.trans ha) hw

theorem Unlists.linked (h : Unlists m m₁ e) (hm : m.Owned) :
    m₁.Linked (fun e' => False ∨ e' = e) ∧ ∀ a, m₁.listed a ≠ some e := by
  obtain ⟨a, ha, hrelists⟩ := h.place
  exact hm.linked.delist ha hrelists

theorem Unlists.severs (h : Unlists m m₁ e) (hm : m.Owned) (hsheds : Sheds (m.Within e) m₁ m')
    (linked : m'.Linked fun _ => False) : Severs m m' e := by
  have hspaces : ∀ x s', m'.spaces.get? x = some s' →
      ∃ s, m.spaces.get? x = some s ∧ Space.Loses s s' (m.HomeIn e x) :=
    fun x s' hs' => h.spaces x s' (hsheds.space hs')
  refine ⟨hspaces, fun x s hs => ?_, fun c d' hd' => ?_, fun e' a ha => ?_, ?_, ?_⟩
  · obtain ⟨s₁, hs₁⟩ := h.back x s hs
    rcases hsheds.spaces x with heq | ⟨hw, -⟩
    · exact .inl ⟨s₁, heq.trans hs₁⟩
    · exact .inr hw
  · rcases hsheds.record (.cells c) with heq | ⟨-, hnone⟩
    · simp only [record?, hd', Option.map_some, h.cells] at heq
      obtain ⟨b, hb, hrecord⟩ := Option.map_eq_some_iff.1 heq.symm
      obtain ⟨d, hd, rfl⟩ := Option.map_eq_some_iff.1 hb
      exact ⟨d, hd, (Record.cells.inj hrecord).symm⟩
    · simp [record?, hd'] at hnone
  · obtain ⟨_, -, hrelists⟩ := h.place
    exact (hrelists.home e').symm.trans (hsheds.home ha)
  · cases hhome : m'.home? e with
    | none => rfl
    | some a =>
      exact absurd (hsheds.listed (linked.complete e a hhome fun hf => hf)) ((h.linked hm).2 a)
  · refine hm.transfer (hsheds.tidy (h.tidy hm.tidy)) linked (fun x s s' hs hs' => ?_)
      fun x s' hs' hnone => ?_
    · obtain ⟨t, ht, hloses⟩ := hspaces x s' hs'
      rw [hs] at ht
      cases ht
      exact hloses.toLike
    · obtain ⟨t, ht, -⟩ := hspaces x s' hs'
      rw [hnone] at ht
      contradiction

/-- Every space inside an entity goes with it. -/
theorem Severs.gone_within (h : Severs m m' e) {e' : Entity} (hw : m.Within e e') :
    ∀ c, e' = .space c → m'.spaces.get? c = none := by
  induction hw with
  | self =>
    rintro c rfl
    cases hs : m'.spaces.get? c with
    | none => rfl
    | some s =>
      have hgone := h.gone
      rw [home?_space hs] at hgone
      contradiction
  | @inside e' a p ha hp hw ih =>
    rintro c rfl
    cases hs' : m'.spaces.get? c with
    | none => rfl
    | some s' =>
      obtain ⟨s, hs, hloses⟩ := h.spaces c s' hs'
      rw [home?_space hs] at ha
      cases ha
      rw [← hloses.home] at hp
      obtain ⟨q, hq, -⟩ := h.owned.holder (home?_space hs') hp
      rw [ih p rfl] at hq
      contradiction

/-- What is around a static space that goes, and stays, is around what was severed. -/
theorem Severs.mem_ancestry (h : Severs m m' e) (hm : m.Owned) {e' : Entity}
    (hw : m.Within e e') {a : SpaceId} {t : Space} (ht : m'.spaces.get? a = some t) :
    ∀ c s, e' = .space c → m.spaces.get? c = some s → s.isStatic = true → a ∈ m.ancestry c →
      ∃ p, m.HomeIn e p ∧ a ∈ m.ancestry p := by
  have hother : ∀ {c}, m.Within e (.space c) → a ≠ c := by
    rintro c hw rfl
    rw [h.gone_within hw a rfl] at ht
    contradiction
  induction hw with
  | self =>
    rintro c s rfl hs hstatic ha
    rcases (hm.mem_ancestry hs hstatic).1 ha with heq | ⟨p, hp, ha⟩
    · exact absurd heq (hother .self)
    · refine ⟨p, ⟨s.home, home?_space hs, ?_⟩, ha⟩
      rw [Space.home_of_static hstatic, hp]
      rfl
  | @inside e' b q hb hq hw ih =>
    rintro c s rfl hs hstatic ha
    rcases (hm.mem_ancestry hs hstatic).1 ha with heq | ⟨p, hp, ha⟩
    · exact absurd heq (hother (.inside hb hq hw))
    · rw [home?_space hs] at hb
      cases hb
      rw [home_space?_of_static hstatic, hp] at hq
      cases hq
      obtain ⟨r, hr, hrstatic, -⟩ := hm.static_holder hs hstatic hp
      exact ih q r rfl hr hrstatic ha

theorem MirroredBut.sever (h : m.MirroredBut stale) (hm : m.Owned) (hsevers : Severs m m' e)
    (weaker : ∀ a, stale a → stale' a)
    (around : ∀ p a, m.HomeIn e p → a ∈ m.ancestry p → stale' a) :
    m'.MirroredBut stale' := by
  have hm' := hsevers.owned
  have hsetting : ∀ x s s', m.spaces.get? x = some s → m'.spaces.get? x = some s' →
      s'.cells = s.cells → ∀ name, m'.setting s' name = m.setting s name := by
    intro x s s' hs hs' hcells name
    refine setting_eq hm'.linked hs' (by rw [hcells]) fun c d' _ hd' => ?_
    obtain ⟨d, hd, hbare⟩ := hsevers.cells c d' hd'
    exact ⟨d, hd, formula_of_bare hbare⟩
  refine h.transfer hm (fun x s s' hs hs' => ?_) (fun x s s' hs hs' hreplica => ?_)
    (fun c a t ha ht hn s hs hstatic => ?_) weaker fun x s' hs' hnone => ?_
  · obtain ⟨t, ht, hloses⟩ := hsevers.spaces x s' hs'
    rw [hs] at ht
    cases ht
    exact hloses.toLike
  · obtain ⟨t, ht, hloses⟩ := hsevers.spaces x s' hs'
    rw [hs] at ht
    cases ht
    exact hsetting x s s' hs hs' (hloses.cells hreplica)
  · rcases hsevers.kept c s hs with ⟨s', hs'⟩ | hw
    · obtain ⟨u, hu, hloses⟩ := hsevers.spaces c s' hs'
      rw [hs] at hu
      cases hu
      have heq := hloses.same fun hhome => hn (around c a hhome ha)
      exact ⟨s', hs', hloses.isStatic.trans hstatic, by rw [heq], hloses.signature,
        hsetting c s s' hs hs' (by rw [heq])⟩
    · obtain ⟨p, hhome, hmem⟩ := hsevers.mem_ancestry hm hw ht c s rfl hs hstatic ha
      exact absurd (around p a hhome hmem) hn
  · obtain ⟨t, ht, -⟩ := hsevers.spaces x s' hs'
    rw [hnone] at ht
    contradiction

/-! Members of a static space go. -/

section Members

variable {name : String} (hm : m.Owned) (hs : m.spaces.get? id = some s)
  (hstatic : s.isStatic = true)
include hm hs hstatic

theorem unlists_modifySpace {f : Space → Space} {a : Address} (ha : a.space? = some id)
    (hlisted : m.listed a = some e) (hrelists : Relists m (m.modifySpace id f) a none)
    (hlike : s.Like (f s)) (hsig : (f s).signature = s.signature)
    (hinstances : (f s).instances = s.instances) : Unlists m (m.modifySpace id f) e := by
  have hget := get?_modifySpace hs f
  obtain ⟨b, hb, hba⟩ := hm.linked.sound a e hlisted
  refine ⟨⟨a, hlisted, hrelists⟩, rfl, fun x s' hs' => ?_, fun x t ht => ?_,
    fun ht => tidy_modifySpace ht id f⟩
  · rw [hget] at hs'
    split at hs'
    next heq =>
      subst heq
      cases hs'
      refine ⟨s, hs, hlike, hsig, fun hreplica => ?_, hinstances, fun hhome => ?_⟩
      · rw [hstatic] at hreplica
        contradiction
      · exact absurd ⟨b, hb, hba.space?.trans ha⟩ hhome
    next => exact ⟨s', hs', .refl s', rfl, fun _ => rfl, rfl, fun _ => rfl⟩
  · rw [hget]
    split
    next => exact ⟨_, rfl⟩
    next => exact ⟨t, ht⟩

theorem severs_cells {c : CellId} (hc : s.cells.get? name = some c) :
    Severs m ((m.modifySpace id fun s => { s with cells := s.cells.erase name }).destroyCells c)
      (.cells c) := by
  have hlisted : m.listed (.cells id name) = some (.cells c) := by
    rw [listed_of_space rfl hs, Space.lists, hc, Option.map_some]
  have hrelists := relists_cells hs (g := fun t => t.erase name) (c := none)
    fun t n => NameMap.get?_erase t name n
  have hunlists := unlists_modifySpace hm hs hstatic rfl hlisted hrelists
    ⟨rfl, rfl, rfl, fun _ => rfl, fun _ => rfl⟩ rfl rfl
  obtain ⟨hlinked, hfree⟩ := hunlists.linked hm
  exact hunlists.severs hm (sheds_destroyCells _ c .self) (linked_destroyCells c hlinked hfree)

theorem severs_reference {r : RefId} (hr : s.refs.get? name = some r) :
    Severs m ((m.modifySpace id fun s =>
      { s with refs := s.refs.erase name }).destroyReference r) (.ref r) := by
  have hlisted : m.listed (.ref id name) = some (.ref r) := by
    rw [listed_of_space rfl hs, Space.lists, hr, Option.map_some]
  have hrelists := relists_refs hs (g := fun t => t.erase name) (r := none)
    fun t n => NameMap.get?_erase t name n
  have hunlists := unlists_modifySpace hm hs hstatic rfl hlisted hrelists
    ⟨rfl, rfl, rfl, fun _ => rfl, fun hreplica => by rw [hstatic] at hreplica; contradiction⟩ rfl rfl
  obtain ⟨hlinked, hfree⟩ := hunlists.linked hm
  exact hunlists.severs hm (sheds_destroyReference _ r .self)
    (linked_destroyReference r hlinked hfree)

theorem unlists_child {c : SpaceId} (hc : s.spaces.get? name = some c) :
    Unlists m (m.modifySpace id fun s => { s with spaces := s.spaces.erase name }) (.space c) := by
  have hlisted : m.listed (.child id name) = some (.space c) := by
    rw [listed_of_space rfl hs, Space.lists, hc, Option.map_some]
  have hrelists := relists_children hs (g := fun t => t.erase name) (c := none)
    fun t n => NameMap.get?_erase t name n
  exact unlists_modifySpace hm hs hstatic rfl hlisted hrelists
    ⟨rfl, rfl, rfl, fun _ => rfl, fun _ => rfl⟩ rfl rfl

theorem severs_child {c : SpaceId} (hc : s.spaces.get? name = some c) :
    Severs m ((m.modifySpace id fun s =>
      { s with spaces := s.spaces.erase name }).destroySpace c) (.space c) := by
  have hunlists := unlists_child hm hs hstatic hc
  obtain ⟨hlinked, hfree⟩ := hunlists.linked hm
  exact hunlists.severs hm (sheds_destroySpace .self (hunlists.closed hm))
    (linked_destroySpace hlinked hfree)

/-- The space that loses a child is not inside it, so it loses nothing else. -/
theorem severs_child_self {c : SpaceId} (hc : s.spaces.get? name = some c)
    (outside : ¬ m.Within (.space c) (.space id)) :
    ((m.modifySpace id fun s =>
      { s with spaces := s.spaces.erase name }).destroySpace c).spaces.get? id =
        some { s with spaces := s.spaces.erase name } := by
  have hsheds := sheds_destroySpace (W := m.Within (.space c)) .self
    ((unlists_child hm hs hstatic hc).closed hm)
  rw [(hsheds.spaces id).resolve_right fun h => outside h.1, get?_modifySpace hs, if_pos rfl]

end Members

theorem unlists_root {name : String} (hroot : m.roots.get? name = some id) :
    Unlists m { m with roots := m.roots.erase name } (.space id) := by
  have hlisted : m.listed (.root name) = some (.space id) := by
    show (m.roots.get? name).map Entity.space = _
    rw [hroot, Option.map_some]
  have hrelists : Relists m { m with roots := m.roots.erase name } (.root name) none :=
    relists_roots (g := fun t => t.erase name) (c := none)
      fun t n => NameMap.get?_erase t name n
  exact ⟨⟨_, hlisted, hrelists⟩, rfl,
    fun x s hs => ⟨s, hs, .refl s, rfl, fun _ => rfl, rfl, fun _ => rfl⟩,
    fun x s hs => ⟨s, hs⟩, fun ht => ⟨ht.spaces, ht.cells, ht.refs⟩⟩

/-- A root goes with everything inside it. -/
theorem severs_root (hm : m.Owned) {name : String} (hroot : m.roots.get? name = some id) :
    Severs m (destroySpace { m with roots := m.roots.erase name } id) (.space id) := by
  have hunlists := unlists_root hroot
  obtain ⟨hlinked, hfree⟩ := hunlists.linked hm
  exact hunlists.severs hm (sheds_destroySpace .self (hunlists.closed hm))
    (linked_destroySpace hlinked hfree)

/-- A reference at the level of the model goes. -/
theorem severs_global (hm : m.Owned) {name : String} {r : RefId}
    (hr : m.globals.get? name = some r) :
    Severs m (destroyReference { m with globals := m.globals.erase name } r) (.ref r) := by
  have hlisted : m.listed (.global name) = some (.ref r) := by
    show (m.globals.get? name).map Entity.ref = _
    rw [hr, Option.map_some]
  have hrelists : Relists m { m with globals := m.globals.erase name } (.global name) none :=
    relists_globals (g := fun t => t.erase name) (r := none)
      fun t n => NameMap.get?_erase t name n
  have hunlists : Unlists m { m with globals := m.globals.erase name } (.ref r) :=
    ⟨⟨_, hlisted, hrelists⟩, rfl, fun x s hs => ⟨s, hs, .refl s, rfl, fun _ => rfl, rfl, fun _ => rfl⟩,
      fun x s hs => ⟨s, hs⟩, fun ht => ⟨ht.spaces, ht.cells, ht.refs⟩⟩
  obtain ⟨hlinked, hfree⟩ := hunlists.linked hm
  exact hunlists.severs hm (sheds_destroyReference _ r .self)
    (linked_destroyReference r hlinked hfree)

end Severing

end Model

end Recalc
