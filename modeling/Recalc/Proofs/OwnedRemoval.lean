import Recalc.Proofs.OwnedChanges

set_option autoImplicit false

/-!
# Owned models stay owned when things go

Destroying a space takes it off the pool first and then everything that it listed, with what that
listed in turn. No entity outside a set that is closed under listing goes, and nothing is left
behind whose home is gone.
-/

namespace Recalc.Model

/-- Entities go, all of them among those of `W`; the others and the listings of the model stay as
they are. -/
structure Sheds (W : Entity → Prop) (m m' : Model) : Prop where
  record : ∀ e, m'.record? e = m.record? e ∨ (W e ∧ m'.record? e = none)
  roots : m'.roots = m.roots
  globals : m'.globals = m.globals
  addressable : m'.Addressable ↔ m.Addressable
  tidy : m.Tidy → m'.Tidy
  population : m'.spaces.population ≤ m.spaces.population

instance (W : Entity → Prop) : Action.Frame (Sheds W) where
  refl _ := ⟨fun _ => .inl rfl, rfl, rfl, Iff.rfl, fun h => h, Nat.le_refl _⟩
  trans h h' := by
    refine ⟨fun e => ?_, h'.roots.trans h.roots, h'.globals.trans h.globals,
      h'.addressable.trans h.addressable, fun ht => h'.tidy (h.tidy ht),
      Nat.le_trans h'.population h.population⟩
    rcases h'.record e with heq' | hnone
    · rcases h.record e with heq | ⟨hw, hnone⟩
      · exact .inl (heq'.trans heq)
      · exact .inr ⟨hw, heq'.trans hnone⟩
    · exact .inr hnone

namespace Sheds

variable {W : Entity → Prop} {m m' : Model}

theorem spaces (h : Sheds W m m') (id : SpaceId) : m'.spaces.get? id = m.spaces.get? id ∨
    (W (.space id) ∧ m'.spaces.get? id = none) := by
  rcases h.record (.space id) with heq | ⟨hw, hnone⟩
  · refine .inl ?_
    have hinj : Function.Injective Record.space := fun _ _ heq => Record.space.inj heq
    exact Option.map_injective hinj heq
  · exact .inr ⟨hw, Option.map_eq_none_iff.1 hnone⟩

theorem home (h : Sheds W m m') {e : Entity} {a : Address} (ha : m'.home? e = some a) :
    m.home? e = some a := by
  unfold home? at ha ⊢
  rcases h.record e with heq | ⟨-, hnone⟩
  · rwa [heq] at ha
  · rw [hnone] at ha
    contradiction

theorem space (h : Sheds W m m') {id : SpaceId} {s : Space} (hs : m'.spaces.get? id = some s) :
    m.spaces.get? id = some s := by
  rcases h.spaces id with heq | ⟨-, hnone⟩
  · rwa [heq] at hs
  · rw [hnone] at hs
    contradiction

theorem listed (h : Sheds W m m') {a : Address} {e : Entity} (ha : m'.listed a = some e) :
    m.listed a = some e := by
  unfold Model.listed at ha ⊢
  split at ha
  next id hid =>
    obtain ⟨s, hs, hlist⟩ := Option.bind_eq_some_iff.1 ha
    simp only [h.space hs, Option.bind_some, hlist]
  next hid =>
    unfold listsTop at ha ⊢
    rw [h.roots, h.globals] at ha
    exact ha

end Sheds

theorem Alike.sheds {m m' : Model} (h : Alike m m') (W : Entity → Prop) : Sheds W m m' :=
  ⟨fun e => .inl (h.record e), h.roots, h.globals, h.addressable, h.tidy', by rw [h.spaces]⟩

def Closed (W : Entity → Prop) (m : Model) : Prop :=
  ∀ a e id, a.space? = some id → W (.space id) → m.listed a = some e → W e

theorem Closed.sheds {W : Entity → Prop} {m m' : Model} (h : Closed W m) (hm : Sheds W m m') :
    Closed W m' := fun a e id ha hw he => h a e id ha hw (hm.listed he)

section Erasing

variable {W : Entity → Prop} {m : Model}

theorem addressable_iff {m m' : Model} (hs : m'.spaces.slots.size = m.spaces.slots.size)
    (hc : m'.cells.slots.size = m.cells.slots.size) (hr : m'.refs.slots.size = m.refs.slots.size) :
    m'.Addressable ↔ m.Addressable := by
  constructor
  · rintro ⟨h₁, h₂, h₃⟩
    unfold Pool.Addressable at h₁ h₂ h₃
    rw [hs] at h₁
    rw [hc] at h₂
    rw [hr] at h₃
    exact ⟨h₁, h₂, h₃⟩
  · rintro ⟨h₁, h₂, h₃⟩
    unfold Pool.Addressable at h₁ h₂ h₃
    rw [← hs] at h₁
    rw [← hc] at h₂
    rw [← hr] at h₃
    exact ⟨h₁, h₂, h₃⟩

theorem sheds_eraseCells (id : CellId) (hw : W (.cells id)) :
    Sheds W m { m with cells := m.cells.erase id } := by
  refine ⟨fun e => ?_, rfl, rfl, addressable_iff rfl (Pool.size_erase _ _) rfl,
    fun h => ⟨h.spaces, Pool.tidy_erase _ _ h.cells, h.refs⟩, Nat.le_refl _⟩
  cases e with
  | cells other =>
    have hget := Pool.get?_erase m.cells id other
    by_cases h : id = other
    · subst h
      refine .inr ⟨hw, ?_⟩
      simp only [record?, hget, if_true, Option.map_none]
    · simp only [record?, hget, if_neg h, true_or]
  | _ => exact .inl rfl

theorem sheds_eraseRef (id : RefId) (hw : W (.ref id)) :
    Sheds W m { m with refs := m.refs.erase id } := by
  refine ⟨fun e => ?_, rfl, rfl, addressable_iff rfl rfl (Pool.size_erase _ _),
    fun h => ⟨h.spaces, h.cells, Pool.tidy_erase _ _ h.refs⟩, Nat.le_refl _⟩
  cases e with
  | ref other =>
    have hget := Pool.get?_erase m.refs id other
    by_cases h : id = other
    · subst h
      refine .inr ⟨hw, ?_⟩
      simp only [record?, hget, if_true, Option.map_none]
    · simp only [record?, hget, if_neg h, true_or]
  | _ => exact .inl rfl

theorem sheds_eraseSpace {id : SpaceId} {s : Space} (hs : m.spaces.get? id = some s)
    (hw : W (.space id)) : Sheds W m { m with spaces := m.spaces.erase id } := by
  have hpop := Pool.population_erase hs
  refine ⟨fun e => ?_, rfl, rfl, addressable_iff (Pool.size_erase _ _) rfl rfl,
    fun h => ⟨Pool.tidy_erase _ _ h.spaces, h.cells, h.refs⟩, by
      show (m.spaces.erase id).population ≤ _
      omega⟩
  cases e with
  | space other =>
    have hget := Pool.get?_erase m.spaces id other
    by_cases h : id = other
    · subst h
      refine .inr ⟨hw, ?_⟩
      simp only [record?, hget, if_true, Option.map_none]
    · simp only [record?, hget, if_neg h, true_or]
  | _ => exact .inl rfl

/-- Everything a destruction of cells does before the cells go. -/
theorem alike_unloadCells (m : Model) (id : CellId) :
    Alike m ((m.invalidateCells id).2.prune (.cells id)) :=
  Action.Frame.trans (forgetsAll_invalidateCells m id).forgetsSome.alike (alike_prune _ _)

theorem alike_unloadReference (m : Model) (id : RefId) :
    Alike m ((m.invalidate (.ref id)).2.prune (.ref id)) :=
  Action.Frame.trans (forgetsAll_invalidate m (.ref id)).forgetsSome.alike (alike_prune _ _)

theorem sheds_destroyCells (m : Model) (id : CellId) (hw : W (.cells id)) :
    Sheds W m (m.destroyCells id) :=
  Action.Frame.trans ((alike_unloadCells m id).sheds W) (sheds_eraseCells id hw)

theorem sheds_destroyReference (m : Model) (id : RefId) (hw : W (.ref id)) :
    Sheds W m (m.destroyReference id) :=
  Action.Frame.trans ((alike_unloadReference m id).sheds W) (sheds_eraseRef id hw)

/-- A destruction takes only what belongs to every closed set around the space. -/
theorem sheds_destroyTree (fuel : Nat) (m : Model) (id : SpaceId) (hw : W (.space id))
    (closed : Closed W m) : Sheds W m (destroyTree fuel m id) := by
  induction fuel generalizing m id with
  | zero => exact Action.Frame.refl m
  | succ fuel ih =>
    unfold destroyTree
    split
    next => exact Action.Frame.refl m
    next s spaces hremove =>
      obtain ⟨hs, rfl⟩ := (Pool.remove?_eq_some _ _).1 hremove
      have member : ∀ e, (∃ a, a.space? = some id ∧ s.lists a = some e) → W e := by
        rintro e ⟨a, ha, he⟩
        refine closed a e id ha hw ?_
        rw [listed_of_space ha hs, he]
      have hcut : Sheds W m { m with spaces := m.spaces.erase id } := sheds_eraseSpace hs hw
      have hinstances := List.foldlRecOn (motive := Sheds W m) s.instances.entries
        (fun m (e : Key × SpaceId) => destroyTree fuel (m.invalidate (.item id e.1)).2 e.2) hcut
        fun m₁ h₁ e he => by
          have hitem := member (.space e.2) ((Space.lists_iff s id _).2
            (.inl (List.mem_map_of_mem (f := fun i : Key × SpaceId => Entity.space i.2) he)))
          have hforget := (forgetsAll_invalidate m₁ (.item id e.1)).forgetsSome.alike.sheds W
          have hm₁ := Action.Frame.trans h₁ hforget
          exact Action.Frame.trans hm₁ (ih _ _ hitem (closed.sheds hm₁))
      have hpruned := Action.Frame.trans hinstances ((alike_prune _ (.space id)).sheds W)
      have hcells := List.foldlRecOn (motive := Sheds W m) s.cells.values destroyCells hpruned
        fun m₁ h₁ c hc => by
          have hcell := member (.cells c) ((Space.lists_iff s id _).2
            (.inr (.inl (List.mem_map_of_mem hc))))
          exact Action.Frame.trans h₁ (sheds_destroyCells m₁ c hcell)
      have hrefs := List.foldlRecOn (motive := Sheds W m) s.refs.values destroyReference hcells
        fun m₁ h₁ r hr => by
          have href := member (.ref r) ((Space.lists_iff s id _).2
            (.inr (.inr (.inl (List.mem_map_of_mem hr)))))
          exact Action.Frame.trans h₁ (sheds_destroyReference m₁ r href)
      exact List.foldlRecOn (motive := Sheds W m) s.spaces.values (destroyTree fuel) hrefs
        fun m₁ h₁ c hc => by
          have hchild := member (.space c) ((Space.lists_iff s id _).2
            (.inr (.inr (.inr (List.mem_map_of_mem hc)))))
          exact Action.Frame.trans h₁ (ih _ _ hchild (closed.sheds h₁))

end Erasing

/-! ## Nothing is left behind -/

section Linking

variable {loose : Entity → Prop} {m m' : Model}

theorem Linked.unique (h : m.Linked loose) {a b : Address} {e : Entity}
    (ha : m.listed a = some e) (hb : m.listed b = some e) : a.Same b := by
  obtain ⟨c, hc, hca⟩ := h.sound a e ha
  obtain ⟨d, hd, hdb⟩ := h.sound b e hb
  rw [hc] at hd
  cases hd
  exact hca.symm.trans hdb

/-- An entity without listings of its own goes, and is loose no more. -/
theorem Linked.drop {e : Entity} (h : m.Linked fun e' => loose e' ∨ e' = e)
    (hfree : ∀ a, m.listed a ≠ some e) (hchange : Removes m m' e)
    (leaf : ∀ id, e ≠ .space id) : m'.Linked loose := by
  refine (h.remove hfree hchange).mono fun e' a ha hl => ?_
  rcases hl with (hl | rfl) | ⟨b, -, hb⟩
  · exact hl
  · rw [hchange.gone] at ha
    contradiction
  · obtain ⟨id, -, hid⟩ := Option.map_eq_some_iff.1 hb
    exact absurd hid.symm (leaf id)

theorem linked_destroyCells (id : CellId) (h : m.Linked fun e => loose e ∨ e = .cells id)
    (hfree : ∀ a, m.listed a ≠ some (.cells id)) : (m.destroyCells id).Linked loose := by
  have halike := alike_unloadCells m id
  refine (halike.linked h).drop (fun a => ?_) (removes_eraseCells _ id) (fun _ heq => by cases heq)
  rw [halike.listed]
  exact hfree a

theorem linked_destroyReference (id : RefId) (h : m.Linked fun e => loose e ∨ e = .ref id)
    (hfree : ∀ a, m.listed a ≠ some (.ref id)) : (m.destroyReference id).Linked loose := by
  have halike := alike_unloadReference m id
  refine (halike.linked h).drop (fun a => ?_) (removes_eraseRef _ id) (fun _ heq => by cases heq)
  rw [halike.listed]
  exact hfree a

theorem closed_univ (m : Model) : Closed (fun _ => True) m := fun _ _ _ _ _ _ => trivial

/-- Loose entities that nothing lists are destroyed one after the other. -/
theorem linked_foldl {α : Type} (f : Model → α → Model) (entity : α → Entity) (bound : Nat)
    (step : ∀ m a (loose : Entity → Prop), m.Linked (fun e => loose e ∨ e = entity a) →
      (∀ b, m.listed b ≠ some (entity a)) → m.spaces.population ≤ bound → (f m a).Linked loose)
    (sheds : ∀ m a, Sheds (fun _ => True) m (f m a)) (l : List α) (loose : Entity → Prop)
    (m : Model) (h : m.Linked fun e => loose e ∨ e ∈ l.map entity)
    (hfree : ∀ e ∈ l.map entity, ∀ b, m.listed b ≠ some e) (hbound : m.spaces.population ≤ bound) :
    (l.foldl f m).Linked loose ∧ Sheds (fun _ => True) m (l.foldl f m) := by
  induction l generalizing m with
  | nil => exact ⟨h.mono fun e _ _ he => he.resolve_right (by simp), Action.Frame.refl m⟩
  | cons a l ih =>
    have hhead : m.Linked fun e => (loose e ∨ e ∈ l.map entity) ∨ e = entity a := by
      refine h.mono fun e _ _ he => ?_
      rw [List.map_cons, List.mem_cons] at he
      rcases he with he | he | he
      · exact .inl (.inl he)
      · exact .inr he
      · exact .inl (.inr he)
    have hfirst := step m a _ hhead (hfree _ (by simp)) hbound
    have hsheds := sheds m a
    obtain ⟨hlinked, hrest⟩ := ih (f m a) hfirst
      (fun e he b hb => hfree e (by simp [he]) b (hsheds.listed hb))
      (Nat.le_trans hsheds.population hbound)
    exact ⟨hlinked, Action.Frame.trans hsheds hrest⟩

section Erased

variable {id : SpaceId} {s : Space} (h : m.Linked fun e => loose e ∨ e = .space id)
  (hfree : ∀ a, m.listed a ≠ some (.space id)) (hs : m.spaces.get? id = some s)
include h hfree hs

/-- When a loose space goes, what it listed and nothing else is let go of. -/
theorem linked_eraseSpace :
    Linked (fun e => (((loose e ∨ e ∈ s.spaces.values.map Entity.space) ∨
        e ∈ s.refs.values.map Entity.ref) ∨ e ∈ s.cells.values.map Entity.cells) ∨
          e ∈ s.instances.entries.map fun i => Entity.space i.2)
      { m with spaces := m.spaces.erase id } := by
  refine (h.remove hfree (removes_eraseSpace m id)).mono fun e a ha he => ?_
  rcases he with (he | rfl) | ⟨b, hlisted, hb⟩
  · exact .inl (.inl (.inl (.inl he)))
  · rw [(removes_eraseSpace m id).gone] at ha
    contradiction
  · obtain ⟨t, ht, heq⟩ := Option.map_eq_some_iff.1 hb
    cases heq
    rw [listed_of_space ht hs] at hlisted
    rcases (Space.lists_iff s id e).1 ⟨b, ht, hlisted⟩ with h | h | h | h
    · exact .inr h
    · exact .inl (.inr h)
    · exact .inl (.inl (.inr h))
    · exact .inl (.inl (.inl (.inr h)))

omit hfree in
/-- Nothing else lists what a space lists. -/
theorem unlisted_eraseSpace {e : Entity} {a : Address} (ha : a.space? = some id)
    (hlist : s.lists a = some e) (b : Address) :
    Model.listed { m with spaces := m.spaces.erase id } b ≠ some e := by
  intro hb
  have hcut : Sheds (fun _ => True) m { m with spaces := m.spaces.erase id } :=
    sheds_eraseSpace hs trivial
  have hsame := h.unique (by rw [listed_of_space ha hs, hlist]) (hcut.listed hb)
  have hin : b.space?.map Entity.space = some (.space id) := by
    rw [← hsame.space?, ha]
    rfl
  rw [(removes_eraseSpace m id).inside b hin] at hb
  contradiction

end Erased

theorem linked_destroyTree (fuel : Nat) (m : Model) (id : SpaceId) (loose : Entity → Prop)
    (h : m.Linked fun e => loose e ∨ e = .space id) (hfree : ∀ a, m.listed a ≠ some (.space id))
    (hfuel : m.spaces.population < fuel) : (destroyTree fuel m id).Linked loose := by
  induction fuel generalizing m id loose with
  | zero => omega
  | succ fuel ih =>
    unfold destroyTree
    split
    next hremove =>
      have hnone := (Pool.remove?_eq_none _ _).1 hremove
      refine h.mono fun e a ha he => he.resolve_right ?_
      rintro rfl
      obtain ⟨s, hs, -⟩ := space_of_home? ha
      rw [hnone] at hs
      contradiction
    next s spaces hremove =>
      obtain ⟨hs, rfl⟩ := (Pool.remove?_eq_some _ _).1 hremove
      have hpop := Pool.population_erase hs
      have hbound : Pool.population (m.spaces.erase id) ≤ fuel - 1 := by omega
      have hunlisted : ∀ e, (e ∈ s.instances.entries.map (fun i => Entity.space i.2) ∨
          e ∈ s.cells.values.map Entity.cells ∨ e ∈ s.refs.values.map Entity.ref ∨
          e ∈ s.spaces.values.map Entity.space) →
          ∀ b, Model.listed { m with spaces := m.spaces.erase id } b ≠ some e := by
        intro e he
        obtain ⟨a, ha, hlist⟩ := (Space.lists_iff s id e).2 he
        exact unlisted_eraseSpace h hs ha hlist
      have tree : ∀ m' c (l : Entity → Prop), m'.Linked (fun e => l e ∨ e = .space c) →
          (∀ b, m'.listed b ≠ some (.space c)) → m'.spaces.population ≤ fuel - 1 →
          (destroyTree fuel m' c).Linked l :=
        fun m' c l hl hf hp => ih m' c l hl hf (by omega)
      have unload : ∀ (m' : Model) (e : Key × SpaceId), Alike m' (m'.invalidate (.item id e.1)).2 :=
        fun m' e => (forgetsAll_invalidate m' _).forgetsSome.alike
      -- the instances, the cells, the references and the children go one after the other
      obtain ⟨hinstances, hshed₁⟩ := linked_foldl
        (fun m (e : Key × SpaceId) => destroyTree fuel (m.invalidate (.item id e.1)).2 e.2)
        (fun e => .space e.2) (fuel - 1)
        (fun m' e l hl hf hp => tree _ e.2 l ((unload m' e).linked hl)
          (fun b => by rw [(unload m' e).listed]; exact hf b) (by rw [(unload m' e).spaces]; exact hp))
        (fun m' e => Action.Frame.trans ((unload m' e).sheds _)
          (sheds_destroyTree fuel _ e.2 trivial (closed_univ _)))
        s.instances.entries _ _ (linked_eraseSpace h hfree hs)
        (fun e he => hunlisted e (.inl he)) hbound
      have hpruned := Action.Frame.trans hshed₁ ((alike_prune _ (.space id)).sheds (fun _ => True))
      obtain ⟨hcells, hshed₂⟩ := linked_foldl destroyCells Entity.cells (fuel - 1)
        (fun m' c l hl hf _ => linked_destroyCells c hl hf)
        (fun m' c => sheds_destroyCells m' c trivial) s.cells.values _ _
        ((alike_prune _ (.space id)).linked hinstances)
        (fun e he b hb => hunlisted e (.inr (.inl he)) b (hpruned.listed hb))
        (Nat.le_trans hpruned.population hbound)
      replace hshed₂ := Action.Frame.trans hpruned hshed₂
      obtain ⟨hrefs, hshed₃⟩ := linked_foldl destroyReference Entity.ref (fuel - 1)
        (fun m' r l hl hf _ => linked_destroyReference r hl hf)
        (fun m' r => sheds_destroyReference m' r trivial) s.refs.values _ _ hcells
        (fun e he b hb => hunlisted e (.inr (.inr (.inl he))) b (hshed₂.listed hb))
        (Nat.le_trans hshed₂.population hbound)
      replace hshed₃ := Action.Frame.trans hshed₂ hshed₃
      exact (linked_foldl (destroyTree fuel) Entity.space (fuel - 1) tree
        (fun m' c => sheds_destroyTree fuel m' c trivial (closed_univ _)) s.spaces.values _ _ hrefs
        (fun e he b hb => hunlisted e (.inr (.inr (.inr he))) b (hshed₃.listed hb))
        (Nat.le_trans hshed₃.population hbound)).1

theorem linked_destroySpace {id : SpaceId} (h : m.Linked fun e => loose e ∨ e = .space id)
    (hfree : ∀ a, m.listed a ≠ some (.space id)) : (m.destroySpace id).Linked loose :=
  linked_destroyTree _ m id loose h hfree
    (Nat.lt_succ_of_le (Pool.population_le_capacity m.spaces))

end Linking

end Recalc.Model
