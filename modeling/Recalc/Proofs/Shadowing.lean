import Recalc.Proofs.Culling
import Recalc.Proofs.Overrides

set_option autoImplicit false

/-!
# Members hide model-level references

A name that a space does not have is looked up at the level of the model, and the look-up is
recorded as a read of the model-level reference. Wherever a static space comes to have a member of
a name, whether the host put it there or a wave derived it, every read of the model-level reference
of that name is forgotten, with everything that rested on it.
-/

namespace Recalc.Model

open Recalc.Action

def HasMember (m : Model) (id : SpaceId) (name : String) : Prop :=
  ∃ s, m.spaces.get? id = some s ∧ s.isStatic = true ∧ s.defines name = true

theorem hasMember_iff {m : Model} {id : SpaceId} {name : String} : m.HasMember id name ↔
    ((m.spaces.get? id).any fun s => s.isStatic && s.defines name) = true := by
  rw [Option.any_eq_true]
  exact exists_congr fun s => and_congr_right fun _ => (Bool.and_eq_true _ _ ▸ Iff.rfl)

instance (m : Model) (id : SpaceId) (name : String) : Decidable (m.HasMember id name) :=
  decidable_of_iff _ hasMember_iff.symm

def Unread (m : Model) (name : String) : Prop :=
  ∀ g, m.globals.get? name = some g → ∀ a, m.graph.hasEdge a (.ref g) = false

/-- Nothing computed rests on a reference that nothing reads. -/
theorem Unread.not_restsOn {m : Model} {name : String} (h : m.Unread name) {g : RefId}
    (hg : m.globals.get? name = some g) {a : Node} (ha : m.isComputed a = true) :
    ¬ m.RestsOn a (.ref g) := by
  have hself : ∀ b, m.RestsOn b (.ref g) → (b == .ref g) = true := by
    intro b hb
    generalize hn : Node.ref g = n at hb
    induction hb with
    | self heq => exact heq
    | read hedge _ ih =>
      rw [Graph.hasEdge_congr _ BEq.rfl (ih hn), ← hn, h g hg] at hedge
      contradiction
  intro hrest
  obtain ⟨id, -, hid, -⟩ := isComputed_iff.1 ha
  have hsame := hself a hrest
  rw [Graph.node_beq_iff, hid] at hsame
  cases (Bool.and_eq_true_iff.1 hsame).1

/-- No reads are added, and each name that a static space came to have is pending or unread. -/
structure Shades (pending : String → Prop) (m m' : Model) : Prop where
  globals : ∀ name g, m'.globals.get? name = some g → m.globals.get? name = some g
  reads : ∀ a b, m'.graph.hasEdge a b = true → m.graph.hasEdge a b = true
  hidden : ∀ id name, m'.HasMember id name → m.HasMember id name ∨ pending name ∨ m'.Unread name

abbrev Shading (pending : String → Prop) : Model → Model → Prop :=
  Under (·.graph.Indexed) (Shades pending)

abbrev Hides : Model → Model → Prop := Shading fun _ => False

section Laws

variable {pending : String → Prop} {m m₁ m' : Model} {name : String}

theorem Shades.unread (h : Shades pending m m') (hm : m.Unread name) : m'.Unread name := by
  refine fun g hg a => Bool.eq_false_iff.2 fun hedge => ?_
  have hold := hm g (h.globals name g hg) a
  rw [h.reads a _ hedge] at hold
  contradiction

instance (pending : String → Prop) : Frame (Shades pending) where
  refl _ := ⟨fun _ _ h => h, fun _ _ h => h, fun _ _ h => .inl h⟩
  trans h h' := by
    refine ⟨fun name g hg => h.globals name g (h'.globals name g hg),
      fun a b hab => h.reads a b (h'.reads a b hab), fun id name hlists => ?_⟩
    rcases h'.hidden id name hlists with hlists | hhidden
    · exact (h.hidden id name hlists).imp_right (Or.imp_right h'.unread)
    · exact .inr hhidden

/-- The static spaces have the members they had. -/
theorem shading_same (m' : Model) (hspaces : m'.spaces = m.spaces)
    (hglobals : m'.globals = m.globals) (hgraph : m'.graph = m.graph) : Shading pending m m' := by
  intro hg
  refine ⟨show m'.graph.Indexed from hgraph ▸ hg, fun name g h => hglobals ▸ h,
    fun a b h => hgraph ▸ h, ?_⟩
  rintro id name ⟨s, hs, hlists⟩
  exact .inl ⟨s, hspaces ▸ hs, hlists⟩

theorem shading_loses {gone : Node → Bool} (h : Loses gone m m') : Shading pending m m' := by
  intro hg
  obtain ⟨hg', hedge⟩ := h.graph hg
  refine ⟨hg', fun name g hname => h.globals ▸ hname, fun a b hab => ?_, ?_⟩
  · rw [hedge, Bool.and_eq_true] at hab
    exact hab.2
  · rintro id name ⟨s, hs, hlists⟩
    exact .inl ⟨s, h.spaces ▸ hs, hlists⟩

theorem shading_forgets (h : ForgetsSome m m') : Shading pending m m' :=
  shading_loses h.choose_spec.toLoses

/-- What is pending is hidden at last. -/
theorem Shading.hide (h : Shading (· = name) m m₁) : Hides m (m₁.hideGlobal name) := by
  intro hg
  obtain ⟨hg₁, h₁⟩ := h hg
  have hforgets : Hides m₁ (m₁.hideGlobal name) := shading_forgets (forgetsSome_hideGlobal m₁ name)
  obtain ⟨hg', h'⟩ := hforgets hg₁
  have hunread : (m₁.hideGlobal name).Unread name := by
    intro g hglobal a
    replace hglobal := h'.globals name g hglobal
    obtain ⟨gone, hforgets, hrests⟩ := forgets_invalidate m₁ (.ref g)
    simp only [hideGlobal, hglobal]
    rw [(hforgets.graph hg₁).2]
    cases hedge : m₁.graph.hasEdge a (.ref g) with
    | false => exact Bool.and_false _
    | true => rw [(hrests hg₁ a).2 (.read hedge (.self BEq.rfl))]; rfl
  refine ⟨hg', fun other g hother => h₁.globals other g (h'.globals other g hother),
    fun a b hab => h₁.reads a b (h'.reads a b hab), fun id other hlists => ?_⟩
  rcases h'.hidden id other hlists with hlists | hfalse | hhidden
  · rcases h₁.hidden id other hlists with hold | rfl | hhidden
    · exact .inl hold
    · exact .inr (.inr hunread)
    · exact .inr (.inr (h'.unread hhidden))
  · exact hfalse.elim
  · exact .inr (.inr hhidden)

end Laws

/-! ## Changes of one space -/

/-- The change makes no space static and brings only members of pending names. -/
def Brings (pending : String → Prop) (f : Space → Space) : Prop :=
  ∀ s, ((f s).isStatic = true → s.isStatic = true) ∧
    ∀ name, (f s).defines name = true → s.defines name = true ∨ pending name

section Changes

variable {pending : String → Prop} {name : String}

theorem contains_of_erase {α : Type} {l : NameMap α} {erased other : String}
    (h : (l.erase erased).contains other = true) : l.contains other = true := by
  rw [NameMap.contains, NameMap.get?_erase] at h
  split at h
  · contradiction
  · exact h

theorem contains_of_insert {α : Type} {l : NameMap α} {v : α} {other : String}
    (h : (l.insert name v).contains other = true) : l.contains other = true ∨ other = name := by
  rw [NameMap.contains, NameMap.get?_insert] at h
  split at h
  next heq => exact .inr heq.symm
  next => exact .inl h

theorem defines_iff {s : Space} : s.defines name = true ↔
    (s.cells.contains name = true ∨ s.spaces.contains name = true) ∨
      s.refs.contains name = true := by
  rw [Space.defines, Bool.or_eq_true, Bool.or_eq_true]

theorem brings_kept {f : Space → Space} (hstatic : ∀ s, (f s).isStatic = s.isStatic)
    (hcells : ∀ s, (f s).cells = s.cells) (hspaces : ∀ s, (f s).spaces = s.spaces)
    (hrefs : ∀ s, (f s).refs = s.refs) : Brings pending f := by
  refine fun s => ⟨fun h => hstatic s ▸ h, fun name h => .inl ?_⟩
  rwa [defines_iff, hcells, hspaces, hrefs, ← defines_iff] at h

theorem brings_cells {f : NameMap CellId → NameMap CellId}
    (h : ∀ l name, (f l).contains name = true → l.contains name = true ∨ pending name) :
    Brings pending fun s => { s with cells := f s.cells } := by
  refine fun s => ⟨fun hs => hs, fun name hname => ?_⟩
  rcases defines_iff.1 hname with (hname | hname) | hname
  · exact (h _ name hname).imp_left fun hold => defines_iff.2 (.inl (.inl hold))
  · exact .inl (defines_iff.2 (.inl (.inr hname)))
  · exact .inl (defines_iff.2 (.inr hname))

theorem brings_children {f : NameMap SpaceId → NameMap SpaceId}
    (h : ∀ l name, (f l).contains name = true → l.contains name = true ∨ pending name) :
    Brings pending fun s => { s with spaces := f s.spaces } := by
  refine fun s => ⟨fun hs => hs, fun name hname => ?_⟩
  rcases defines_iff.1 hname with (hname | hname) | hname
  · exact .inl (defines_iff.2 (.inl (.inl hname)))
  · exact (h _ name hname).imp_left fun hold => defines_iff.2 (.inl (.inr hold))
  · exact .inl (defines_iff.2 (.inr hname))

theorem brings_refs {f : NameMap RefId → NameMap RefId}
    (h : ∀ l name, (f l).contains name = true → l.contains name = true ∨ pending name) :
    Brings pending fun s => { s with refs := f s.refs } := by
  refine fun s => ⟨fun hs => hs, fun name hname => ?_⟩
  rcases defines_iff.1 hname with hname | hname
  · exact .inl (defines_iff.2 (.inl hname))
  · exact (h _ name hname).imp_left fun hold => defines_iff.2 (.inr hold)

theorem brings_setBases (f : List SpaceId → List SpaceId) : Brings pending (Space.setBases f) := by
  refine brings_kept (fun s => ?_) (fun s => ?_) (fun s => ?_) fun s => ?_ <;>
    unfold Space.setBases <;> split <;> simp_all [Space.isStatic]

theorem brings_setImplicitBases (f : List SpaceId → List SpaceId) :
    Brings pending (Space.setImplicitBases f) := by
  refine brings_kept (fun s => ?_) (fun s => ?_) (fun s => ?_) fun s => ?_ <;>
    unfold Space.setImplicitBases <;> split <;> simp_all [Space.isStatic]

theorem brings_setDerived (flag : Bool) : Brings pending (Space.setDerived flag) := by
  refine brings_kept (fun s => ?_) (fun s => ?_) (fun s => ?_) fun s => ?_ <;>
    unfold Space.setDerived <;> split <;> simp_all [Space.isStatic]

theorem Brings.comp {f g : Space → Space} (hg : Brings pending g) (hf : Brings pending f) :
    Brings pending fun s => g (f s) :=
  fun s => ⟨fun h => (hf s).1 ((hg (f s)).1 h), fun name h =>
    ((hg (f s)).2 name h).elim ((hf s).2 name) .inr⟩

theorem shading_modifySpace {f : Space → Space} (hf : Brings pending f) (m : Model)
    (id : SpaceId) : Shading pending m (m.modifySpace id f) := by
  refine fun hg => ⟨hg, fun _ _ h => h, fun _ _ h => h, ?_⟩
  rintro other name ⟨s', hs', hstatic, hdefines⟩
  replace hs' := (Pool.get?_modify m.spaces id other f).symm.trans hs'
  split at hs'
  next heq =>
    obtain ⟨s, hs, rfl⟩ := Option.map_eq_some_iff.1 hs'
    rcases (hf s).2 name hdefines with hold | hpending
    · exact .inl ⟨s, heq ▸ hs, (hf s).1 hstatic, hold⟩
    · exact .inr (.inl hpending)
  next => exact .inl ⟨s', hs', hstatic, hdefines⟩

/-- What is found after an insertion is what was inserted or was there before. -/
theorem eq_or_get?_of_insert {family : Family} {α : Type} {a : Pool family α} {v w : α}
    {id : Id family} (h : (a.insert v).2.get? id = some w) : w = v ∨ a.get? id = some w := by
  have hslot := Pool.get?_eq_some h
  unfold Pool.insert at hslot
  split at hslot
  next index rest _ =>
    split at hslot
    next slot hold =>
      rw [Array.getElem?_setIfInBounds] at hslot
      split at hslot
      next =>
        split at hslot
        · exact .inl (Option.some.inj (congrArg Slot.value (Option.some.inj hslot))).symm
        · contradiction
      next => exact .inr (by simp [Pool.get?, hslot])
    next => exact .inr (by simp [Pool.get?, hslot])
  next =>
    rw [Array.getElem?_push] at hslot
    split at hslot
    · exact .inl (Option.some.inj (congrArg Slot.value (Option.some.inj hslot))).symm
    · exact .inr (by simp [Pool.get?, hslot])

/-- A new space without members brings no names. -/
theorem shading_addSpace {s : Space} (hs : ∀ name, s.defines name = false) (m : Model) :
    Shading pending m (m.addSpace s).2 := by
  refine fun hg => ⟨hg, fun _ _ h => h, fun _ _ h => h, ?_⟩
  rintro id name ⟨t, ht, hstatic, hdefines⟩
  rcases eq_or_get?_of_insert ht with rfl | hold
  · rw [hs name] at hdefines
    contradiction
  · exact .inl ⟨t, hold, hstatic, hdefines⟩

theorem shading_addCells (m : Model) (c : Cells) : Shading (· = c.name) m (m.addCells c).2 :=
  Frame.trans (shading_same { m with cells := (m.cells.insert c).2 } rfl rfl rfl)
    (shading_modifySpace (brings_cells fun _ _ => contains_of_insert) _ c.space)

theorem shading_addRef (m : Model) {r : Reference} {owner : SpaceId} (h : r.owner = some owner) :
    Shading (· = r.name) m (m.addRef r).2 := by
  unfold addRef
  rw [h]
  exact Frame.trans (shading_same { m with refs := (m.refs.insert r).2 } rfl rfl rfl)
    (shading_modifySpace (brings_refs fun _ _ => contains_of_insert) _ owner)

theorem shading_addChild (m : Model) (parent : SpaceId) {s : Space}
    (hs : ∀ name, s.defines name = false) : Shading (· = s.name) m (m.addChild parent s).2 :=
  Frame.trans (shading_addSpace hs m)
    (shading_modifySpace (brings_children fun _ _ => contains_of_insert) _ parent)

end Changes

/-! ## Removal -/

section Removal

variable {pending : String → Prop}

theorem removalFrame_shading : RemovalFrame (Shading pending) where
  frame := inferInstance
  forget m n := shading_loses (loses_forget m n)
  prune m e := by
    intro hg
    obtain ⟨hg', hedge⟩ := Graph.prune_spec hg e
    refine ⟨hg', fun _ _ h => h, fun a b hab => ?_, fun _ _ h => .inl h⟩
    replace hab := (hedge a b).symm.trans hab
    rw [Bool.and_assoc, Bool.and_eq_true] at hab
    exact hab.1
  eraseSpace m id := by
    refine fun hg => ⟨hg, fun _ _ h => h, fun _ _ h => h, ?_⟩
    rintro other name ⟨s, hs, hlists⟩
    replace hs := (Pool.get?_erase m.spaces id other).symm.trans hs
    split at hs
    next => contradiction
    next => exact .inl ⟨s, hs, hlists⟩
  eraseCells m id := shading_same _ rfl rfl rfl
  eraseRef m id := shading_same _ rfl rfl rfl
  eraseInstance m owner key := shading_modifySpace
    (by exact brings_kept (fun _ => rfl) (fun _ => rfl) (fun _ => rfl) fun _ => rfl) m owner

theorem shading_unlinkDeadBases (m : Model) : Shading pending m m.unlinkDeadBases.2 :=
  foldl_obeys (fun m id => shading_modifySpace
    ((brings_setImplicitBases _).comp (brings_setBases _)) m id) _ m

theorem hides_unlistCells (m : Model) (id : SpaceId) (name : String) (c : CellId) :
    Hides m ((m.modifySpace id fun s => { s with cells := s.cells.erase name }).destroyCells c) :=
  Frame.trans
    (shading_modifySpace (brings_cells (f := (·.erase name)) fun _ _ h =>
      .inl (contains_of_erase h)) m id)
    (removalFrame_shading.destroyCells _ c)

theorem hides_unlistRef (m : Model) (id : SpaceId) (name : String) (r : RefId) :
    Hides m ((m.modifySpace id fun s => { s with refs := s.refs.erase name }).destroyReference r) :=
  Frame.trans
    (shading_modifySpace (brings_refs (f := (·.erase name)) fun _ _ h =>
      .inl (contains_of_erase h)) m id)
    (removalFrame_shading.destroyReference _ r)

theorem hides_unlistChild (m : Model) (id : SpaceId) (name : String) (child : SpaceId) :
    Hides m ((m.modifySpace id fun s =>
      { s with spaces := s.spaces.erase name }).destroySpace child) :=
  Frame.trans
    (shading_modifySpace (brings_children (f := (·.erase name)) fun _ _ h =>
      .inl (contains_of_erase h)) m id)
    (removalFrame_shading.destroyTree _ _ child)

theorem hides_withdraw (id : SpaceId) (name : String) (m : Model) :
    Hides m (withdraw id name m) := by
  unfold withdraw
  split
  · exact Frame.refl m
  · split
    · exact hides_unlistCells m id name _
    · split
      · exact hides_unlistRef m id name _
      · split
        · exact hides_unlistChild m id name _
        · exact Frame.refl m

theorem hides_redefined (m : Model) (id : CellId) (f : Cells → Cells) :
    Hides m ((m.modifyCell id f).invalidateCells id).2 :=
  Frame.trans (shading_same (m.modifyCell id f) rfl rfl rfl)
    (removalFrame_shading.invalidateCells _ id)

theorem hides_rebound (m : Model) (id : RefId) (f : Reference → Reference) :
    Hides m ((m.modifyRef id f).invalidate (.ref id)).2 :=
  Frame.trans (shading_same (m.modifyRef id f) rfl rfl rfl)
    (removalFrame_shading.invalidate _ (.ref id))

end Removal

/-! ## Derivation -/

theorem hides_deriveCells (id : SpaceId) (name : String) (source : CellId) :
    Obeys Hides (deriveCells id name source) := by
  refine obeys_bind (obeys_read _) fun src => obeys_bind (obeys_read _) fun s => ?_
  split
  · exact obeys_bind (obeys_modify fun m => (shading_addCells m _).hide) fun _ => obeys_pure _
  · refine obeys_bind (obeys_read _) fun current => ?_
    split
    · exact obeys_bind (obeys_modify fun m => hides_redefined m _ _) fun _ => obeys_pure _
    · exact obeys_pure _

theorem hides_dropCells (id : SpaceId) (heritage : Heritage) (e : String × CellId) :
    Obeys Hides (dropCells id heritage e) := by
  unfold dropCells
  split
  · exact obeys_pure _
  · refine obeys_bind (obeys_read _) fun c => ?_
    split
    · exact obeys_bind (obeys_modify fun m => hides_unlistCells m id _ _) fun _ => obeys_pure _
    · exact obeys_pure _

theorem hides_deriveRef (id : SpaceId) (name : String) (source : RefId) :
    Obeys Hides (deriveRef id name source) := by
  refine obeys_bind (obeys_read _) fun src => obeys_bind (obeys_read _) fun s => ?_
  split
  · exact obeys_bind (obeys_modify fun m => (shading_addRef m rfl).hide) fun _ => obeys_pure _
  · refine obeys_bind (obeys_read _) fun current => ?_
    split
    · exact obeys_bind (obeys_modify fun m => hides_rebound m _ _) fun _ => obeys_pure _
    · exact obeys_pure _

theorem hides_dropRef (id : SpaceId) (heritage : Heritage) (e : String × RefId) :
    Obeys Hides (dropRef id heritage e) := by
  unfold dropRef
  split
  · exact obeys_pure _
  · refine obeys_bind (obeys_read _) fun r => ?_
    split
    · exact obeys_bind (obeys_modify fun m => hides_unlistRef m id _ _) fun _ => obeys_pure _
    · exact obeys_pure _

/-- The child comes first, and what it hides is forgotten then. -/
theorem hides_deriveChild (id : SpaceId) (name : String) (sources : List SpaceId) :
    Obeys Hides (deriveChild id name sources) := by
  refine obeys_bind (obeys_read _) fun s => ?_
  split
  · intro m r m' h
    have hchild := shading_addChild m id
      (s := (Space.fresh name (some id) true).setImplicitBases fun _ => sources) fun _ => rfl
    cases h
    exact hchild.hide
  · refine obeys_bind (obeys_read _) fun c => ?_
    split
    · exact obeys_bind (obeys_modify fun m =>
        shading_modifySpace (brings_setImplicitBases _) m _) fun _ => obeys_pure _
    · exact obeys_pure _

theorem hides_dropChild (id : SpaceId) (heritage : Heritage) (e : String × SpaceId) :
    Obeys Hides (dropChild id heritage e) := by
  unfold dropChild
  split
  · exact obeys_pure _
  · refine obeys_bind (obeys_read _) fun c => ?_
    split
    · exact obeys_bind (obeys_modify fun m => hides_unlistChild m id _ _) fun _ => obeys_pure _
    · split
      · exact obeys_bind (obeys_modify fun m =>
          shading_modifySpace (brings_setImplicitBases _) m _) fun _ => obeys_pure _
      · exact obeys_pure _

theorem hides_deriveSignature (id : SpaceId) (heritage : Heritage) :
    Obeys Hides (deriveSignature id heritage) := by
  refine obeys_bind (obeys_read _) fun s => ?_
  split
  · exact obeys_bind (obeys_modify fun m => shading_modifySpace
      (by exact brings_kept (fun _ => rfl) (fun _ => rfl) (fun _ => rfl) fun _ => rfl) m id)
      fun _ => obeys_pure _
  · exact obeys_pure _

theorem hides_settle (id : SpaceId) (changes : Changes) : Obeys Hides (settle id changes) := by
  refine obeys_bind (obeys_modify (removalFrame_shading.dropStale id changes)) fun _ => ?_
  split
  · exact obeys_update shading_unlinkDeadBases
  · exact obeys_pure _

/-- Whatever a derivation brings into a space hides the model-level reference of its name. -/
theorem hides_derive (id : SpaceId) : Obeys Hides (derive id) := by
  refine obeys_bind (obeys_read _) fun s => ?_
  split
  · exact obeys_pure _
  · refine obeys_bind (obeys_read _) fun heritage => obeys_bind ?_ fun changes =>
      obeys_bind (hides_settle id changes) fun _ => obeys_pure _
    unfold deriveMembers
    refine obeys_bind (obeys_collect (fun e : String × _ => hides_deriveCells id e.1 e.2) _)
      fun _ => ?_
    refine obeys_bind (obeys_read _) fun _ => ?_
    refine obeys_bind (obeys_collect (hides_dropCells id heritage) _) fun _ => ?_
    refine obeys_bind (obeys_collect (fun e : String × _ => hides_deriveRef id e.1 e.2) _)
      fun _ => ?_
    refine obeys_bind (obeys_read _) fun _ => ?_
    refine obeys_bind (obeys_collect (hides_dropRef id heritage) _) fun _ => ?_
    refine obeys_bind (obeys_collect (fun e : String × _ => hides_deriveChild id e.1 e.2) _)
      fun _ => ?_
    refine obeys_bind (obeys_read _) fun _ => ?_
    refine obeys_bind (obeys_collect (hides_dropChild id heritage) _) fun _ => ?_
    exact obeys_bind (hides_deriveSignature id heritage) fun _ => obeys_pure _

theorem hides_deriveFrom (fuel : Nat) (starts : List SpaceId) :
    Obeys Hides (deriveFrom fuel starts) :=
  obeys_deriveFrom hides_derive fuel starts

/-! ## Edits -/

section Edits

theorem hides_settleChange (fuel : Nat) (id : SpaceId) : Obeys Hides (settleChange fuel id) :=
  obeys_bind (obeys_modify fun m =>
    Frame.trans (removalFrame_shading.invalidateSpace m id) (removalFrame_shading.dropStaleInstances _ id))
    fun _ => hides_deriveFrom fuel [id]

theorem hides_takeBack (fuel : Nat) (id : SpaceId) (name : String) :
    Obeys Hides (takeBack fuel id name) :=
  obeys_bind (obeys_modify (hides_withdraw id name)) fun _ =>
    obeys_bind (obeys_update shading_unlinkDeadBases) fun _ => hides_deriveFrom fuel _

/-- A name is pending from when its member is listed until the addition is settled. -/
theorem hides_addition {α : Type} {f : Model → α × Model} {name : String}
    (hf : ∀ m, Shading (· = name) m (f m).2) (fuel : Nat) (id : SpaceId)
    (starts : α → List SpaceId) :
    Obeys Hides (do
      let new ← update f
      settleAddition fuel id name (starts new)
      return new) := by
  intro m r m' h
  have hlisted := Frame.trans (hf m) (removalFrame_shading.invalidateSpace (f m).2 id)
  refine Frame.trans (Frame.trans hlisted.hide (removalFrame_shading.dropStaleInstances _ id)) ?_
  refine obeys_bind (obeys_bind (obeys_attempt (hides_deriveFrom fuel (starts (f m).1)))
    fun outcome => ?_) (fun _ => obeys_pure (f m).1) _ r m' h
  cases outcome with
  | ok => exact obeys_pure _
  | error e => exact obeys_bind (hides_takeBack fuel id name) fun _ => obeys_fail e

variable (fuel : Nat)

theorem hides_defineCells (id : SpaceId) (name : String) (formula : Option Formula) :
    Obeys Hides (defineCells fuel id name formula) := by
  refine obeys_bind (obeys_admitName name) fun _ => obeys_bind (obeys_read _) fun s => ?_
  refine obeys_bind obeys_get fun m => ?_
  split
  · refine obeys_bind (obeys_read _) fun c => ?_
    split
    · exact obeys_fail _
    · exact obeys_bind (obeys_modify fun m => hides_redefined m _ _) fun _ =>
        obeys_bind (hides_settleChange fuel id) fun _ => obeys_pure _
  · split
    · exact obeys_fail _
    · exact hides_addition (fun m => shading_addCells m _) fuel id fun _ => [id]

theorem hides_redefine (id : CellId) (formula : Formula) :
    Obeys Hides (redefine fuel id formula) := by
  refine obeys_bind (obeys_read _) fun c => obeys_bind (obeys_read _) fun _ => ?_
  refine obeys_bind (obeys_modify fun m => ?_) fun _ => hides_deriveFrom fuel _
  exact Frame.trans (hides_redefined m id _) (removalFrame_shading.dropStaleInstances _ _)

theorem hides_removeCells (id : CellId) : Obeys Hides (removeCells fuel id) := by
  refine obeys_bind (obeys_read _) fun c => obeys_bind (obeys_read _) fun _ => ?_
  split
  · exact obeys_bind obeys_get fun _ => obeys_fail _
  · exact obeys_bind (obeys_modify fun m => hides_unlistCells m _ _ id) fun _ =>
      hides_settleChange fuel _

theorem hides_letCellsBeEmpty (id : CellId) (allow : Option Bool) :
    Obeys Hides (letCellsBeEmpty fuel id allow) := by
  refine obeys_bind (obeys_read _) fun c => obeys_bind (obeys_read _) fun _ => ?_
  refine obeys_bind (obeys_modify fun m => ?_) fun _ =>
    obeys_bind (hides_deriveFrom fuel _) fun _ => obeys_pure _
  exact Frame.trans (hides_redefined m id _) (removalFrame_shading.dropStaleInstances _ _)

theorem hides_dropOverride (id : CellId) : Obeys Hides (dropOverride fuel id) := by
  refine obeys_bind (obeys_read _) fun c => obeys_bind (obeys_read _) fun _ => ?_
  split
  · exact obeys_pure _
  · refine obeys_bind (obeys_read _) fun heritage => ?_
    split
    · exact obeys_bind (obeys_modify fun m => shading_same _ rfl rfl rfl) fun _ =>
        hides_deriveFrom fuel _
    · exact obeys_bind obeys_get fun _ => obeys_fail _

theorem hides_bindName (id : SpaceId) (name : String) (value : Value) (mode : RefMode) :
    Obeys Hides (bindName fuel id name value mode) := by
  refine obeys_bind (obeys_admitName name) fun _ => obeys_bind obeys_get fun m => ?_
  refine obeys_bind (obeys_read _) fun s => obeys_bind obeys_get fun m => ?_
  split
  · refine obeys_bind (obeys_read _) fun r => ?_
    split
    · exact obeys_fail _
    · exact obeys_bind (obeys_modify fun m => hides_rebound m _ _) fun _ =>
        obeys_bind (hides_deriveFrom fuel _) fun _ => obeys_pure _
  · split
    · exact obeys_fail _
    · exact hides_addition (fun m => shading_addRef m rfl) fuel id fun _ => [id]

theorem hides_rebind (id : RefId) (value : Value) : Obeys Hides (rebind fuel id value) := by
  refine obeys_bind (obeys_read _) fun r => ?_
  split
  · exact obeys_bind (obeys_modify fun m => hides_rebound m id _) fun _ => obeys_pure _
  · refine obeys_bind (obeys_read _) fun _ => ?_
    exact obeys_bind (obeys_modify fun m => hides_rebound m id _) fun _ => hides_deriveFrom fuel _

theorem hides_unlistGlobal (m : Model) (name : String) :
    Hides m { m with globals := m.globals.erase name } := by
  refine fun hg => ⟨hg, fun other g hother => ?_, fun _ _ h => h, fun _ _ h => .inl h⟩
  replace hother := (NameMap.get?_erase m.globals name other).symm.trans hother
  split at hother
  · contradiction
  · exact hother

theorem hides_unbind (id : RefId) : Obeys Hides (unbind fuel id) := by
  refine obeys_bind (obeys_read _) fun r => ?_
  split
  · refine obeys_bind (obeys_modify fun m => ?_) fun _ => obeys_pure _
    exact Frame.trans (hides_unlistGlobal m _) (removalFrame_shading.destroyReference _ id)
  · refine obeys_bind (obeys_read _) fun _ => ?_
    split
    · exact obeys_bind obeys_get fun _ => obeys_fail _
    · exact obeys_bind (obeys_modify fun m => hides_unlistRef m _ _ id) fun _ =>
        hides_settleChange fuel _

theorem hides_createSpace (parent : Option SpaceId) (name : String) :
    Obeys Hides (createSpace fuel parent name) := by
  refine obeys_bind (obeys_admitName name) fun _ => ?_
  cases parent with
  | none =>
    refine obeys_bind obeys_get fun m => ?_
    split
    · exact obeys_fail _
    · refine obeys_update fun m => ?_
      exact Frame.trans (shading_addSpace (fun _ => rfl) m) (shading_same _ rfl rfl rfl)
  | some parent =>
    refine obeys_bind (obeys_read _) fun s => obeys_bind obeys_get fun m => ?_
    split
    · refine obeys_bind (obeys_read _) fun t => ?_
      split
      · exact obeys_bind (obeys_modify fun m => shading_modifySpace (brings_setDerived _) m _)
          fun _ => obeys_pure _
      · exact obeys_fail _
    · split
      · exact obeys_fail _
      · exact hides_addition (fun m => shading_addChild m parent fun _ => rfl) fuel parent
          fun id => [parent, id]

theorem hides_removeSpace (id : SpaceId) : Obeys Hides (removeSpace fuel id) := by
  have hdestroy : Obeys Hides (modify (·.destroySpace id)) :=
    obeys_modify fun m => removalFrame_shading.destroyTree _ m id
  refine obeys_bind (obeys_read _) fun s => ?_
  split
  · exact obeys_bind obeys_get fun _ => obeys_fail _
  · cases s.parent with
    | some p =>
      refine obeys_bind (obeys_modify fun m => removalFrame_shading.dropStaleInstances m p) fun _ => ?_
      refine obeys_bind (obeys_read _) fun _ => obeys_bind (obeys_modify fun m =>
        shading_modifySpace (brings_children (f := (·.erase s.name)) fun _ _ h =>
          .inl (contains_of_erase h)) m p) fun _ => ?_
      refine obeys_bind hdestroy fun _ => obeys_bind (obeys_update shading_unlinkDeadBases)
        fun _ => ?_
      exact obeys_bind (obeys_modify fun m => removalFrame_shading.invalidateSpace m p) fun _ =>
        hides_deriveFrom fuel _
    | none =>
      refine obeys_bind (obeys_modify fun m => shading_same _ rfl rfl rfl) fun _ => ?_
      exact obeys_bind hdestroy fun _ => obeys_bind (obeys_update shading_unlinkDeadBases)
        fun _ => hides_deriveFrom fuel _

theorem hides_linkBase (id base : SpaceId) : Obeys Hides (linkBase fuel id base) := by
  have hbases : ∀ f, Obeys Hides (modify (·.modifySpace id (Space.setBases f))) := fun f =>
    obeys_modify fun m => shading_modifySpace (brings_setBases f) m id
  refine obeys_bind (obeys_read _) fun s => obeys_bind (obeys_read _) fun b => ?_
  refine obeys_bind obeys_get fun m => ?_
  split
  · exact obeys_fail _
  · split
    · exact obeys_pure _
    · split
      · exact obeys_fail _
      · refine obeys_bind (hbases _) fun _ =>
          obeys_bind (obeys_attempt (hides_deriveFrom fuel [id])) fun r => ?_
        cases r with
        | ok summary => exact obeys_pure _
        | error e =>
          exact obeys_bind (hbases _) fun _ =>
            obeys_bind (hides_deriveFrom fuel [id]) fun _ => obeys_fail e

theorem hides_unlinkBase (id base : SpaceId) : Obeys Hides (unlinkBase fuel id base) := by
  refine obeys_bind (obeys_read _) fun s => obeys_bind obeys_get fun m => ?_
  split
  · exact obeys_fail _
  · exact obeys_bind (obeys_modify fun m => shading_modifySpace (brings_setBases _) m id)
      fun _ => hides_deriveFrom fuel _

/-- A change of a space that leaves its members alone hides what it has to. -/
theorem hides_amended {f : Space → Space} (hf : Brings (fun _ => False) f) (id : SpaceId)
    (m : Model) : Hides m ((m.modifySpace id f).dropStaleInstances id) :=
  Frame.trans (shading_modifySpace hf m id) (removalFrame_shading.dropStaleInstances _ id)

theorem hides_declareParams (id : SpaceId) (params : List Param) (binder : Option Formula) :
    Obeys Hides (declareParams fuel id params binder) := by
  refine obeys_bind (obeys_read _) fun _ => ?_
  exact obeys_bind (obeys_modify <| hides_amended
    (by exact brings_kept (fun _ => rfl) (fun _ => rfl) (fun _ => rfl) fun _ => rfl) id) fun _ =>
    obeys_bind (hides_deriveFrom fuel _) fun _ => obeys_pure _

theorem hides_document (id : SpaceId) (doc : Option String) : Obeys Hides (document id doc) :=
  obeys_bind (obeys_read _) fun _ => obeys_modify fun m => shading_modifySpace
    (by exact brings_kept (fun _ => rfl) (fun _ => rfl) (fun _ => rfl) fun _ => rfl) m id

/-! ## Inputs and forgetting -/

theorem hides_forgetWithin (id : SpaceId) : Obeys Hides (forgetWithin id) := by
  have hspaces : ∀ fuel stack count m, Hides m (forgetSpaces fuel stack count m).2 := by
    intro fuel
    induction fuel with
    | zero => exact fun _ _ m => Frame.refl m
    | succ fuel ih =>
      intro stack count m
      cases stack with
      | nil => exact Frame.refl m
      | cons id rest =>
        exact Frame.trans (Frame.trans (removalFrame_shading.invalidateSpace m id)
          (removalFrame_shading.removeEveryInstance _ id)) (ih _ _ _)
  exact obeys_bind (obeys_read _) fun _ => obeys_update fun m => hspaces _ _ _ m

theorem hides_letSpaceBeEmpty (id : SpaceId) (allow : Option Bool) :
    Obeys Hides (letSpaceBeEmpty id allow) :=
  obeys_bind (obeys_read _) fun _ => obeys_bind (obeys_modify <| hides_amended
    (by exact brings_kept (fun _ => rfl) (fun _ => rfl) (fun _ => rfl) fun _ => rfl) id) fun _ =>
    obeys_bind (hides_forgetWithin id) fun _ => obeys_pure _

theorem hides_forgetAll : Obeys Hides forgetAll := by
  have heach : ∀ l, Obeys Hides (forgetEach l) := by
    intro l
    induction l with
    | nil => exact obeys_pure _
    | cons id rest ih => exact obeys_bind (hides_forgetWithin id) fun _ => ih
  refine obeys_bind obeys_get fun m => obeys_bind (heach _) fun _ => obeys_modify fun m hg => ?_
  refine ⟨Graph.indexed_empty, fun _ _ h => h, fun a b h => ?_, fun _ _ h => .inl h⟩
  cases h

theorem hides_putInput (id : CellId) (args : List Value) (v : Value) :
    Obeys Hides (putInput id args v) :=
  obeys_bind (obeys_read _) fun _ => obeys_modify fun m =>
    Frame.trans (removalFrame_shading.invalidate m _) (shading_same _ rfl rfl rfl)

theorem hides_takeInput (id : CellId) (args : List Value) : Obeys Hides (takeInput id args) := by
  refine obeys_bind (obeys_read _) fun key => obeys_bind (obeys_read _) fun c => ?_
  split
  · refine obeys_bind (obeys_modify fun m => ?_) fun _ => obeys_pure _
    exact Frame.trans (shading_same (m.modifyCell id _) rfl rfl rfl)
      (removalFrame_shading.invalidate _ _)
  · exact obeys_pure _

end Edits

/-! ## Requests -/

section Requests

variable {m m' : Model} {id : SpaceId} {name : String}

/-- Where definitions stay, static spaces have the members they had. -/
theorem SameDefinitions.hasMember (h : SameDefinitions m m') (hmember : m'.HasMember id name) :
    m.HasMember id name := by
  obtain ⟨s', hs', hstatic', hdefines⟩ := hmember
  obtain ⟨s, hs, hstatic⟩ := h.authored id s' hs' hstatic'
  obtain ⟨instances, hsame⟩ := h.spaces id s hs hstatic
  cases hs'.symm.trans hsame
  exact ⟨s, hs, hstatic, hdefines⟩

theorem hasMember_bindGlobal {value : Value} {r : Except Failure RefId}
    (hrun : bindGlobal name value m = some (r, m')) {x : String} (hmember : m'.HasMember id x) :
    m.HasMember id x := by
  have hspaces : Obeys (fun m m' => m'.spaces = m.spaces) (bindGlobal name value) := by
    have : Frame fun m m' : Model => m'.spaces = m.spaces := ⟨fun _ => rfl, fun h h' => h'.trans h⟩
    refine obeys_bind (obeys_admitName name) fun _ => obeys_bind obeys_get fun m => ?_
    split
    · exact obeys_fail _
    · exact obeys_update fun m => spaces_addGlobal rfl
  obtain ⟨s, hs, hrest⟩ := hmember
  exact ⟨s, hspaces m r m' hrun ▸ hs, hrest⟩

/-- The formula of the space may run, and then an instance goes. -/
theorem Running.hides_discardInstance {fuel : Nat} {args : List Value} {r : Except Failure Bool}
    {x : SpaceId} (h : m.Running) (hrun : discardInstance fuel x args m = some (r, m'))
    (room : m'.Addressable) (hmember : m'.HasMember id name) :
    m.HasMember id name ∨ m'.Unread name := by
  have hkeyed : ∀ m₁ r, itemKey (runFormula fuel) x { positional := args } m = some (r, m₁) →
      m₁.Addressable → m₁.graph.Indexed ∧ (m₁.HasMember id name → m.HasMember id name) := by
    intro m₁ r hkey small
    obtain ⟨hrunning, hadds⟩ := (evaluationFrame_adds.itemKey (runs_adds fuel) x _ h hkey).1
    exact ⟨hrunning.tracked.indexed, (hadds.enriches small).sameDefinitions.hasMember⟩
  rcases (bind_eq_some m).1 hrun with ⟨key, m₁, hkey, hrest⟩ | ⟨e, hkey, -⟩
  · rw [read_bind] at hrest
    split at hrest
    next =>
      cases hrest
      obtain ⟨hg, hsame⟩ := hkeyed m₁ _ hkey ((fits_removeInstance m₁ x key).addressable room)
      have hremoved : Hides m₁ (m₁.removeInstance x key).2 :=
        removalFrame_shading.removeInstance m₁ x key
      exact ((hremoved hg).2.hidden id name hmember).imp hsame (Or.resolve_left · not_false)
    next =>
      cases hrest
      exact .inl ((hkeyed m' _ hkey room).2 hmember)
  · exact .inl ((hkeyed m' _ hkey room).2 hmember)

end Requests

end Model

section Requests

open Model Recalc.Action

variable {q : Request} {m m' : Model} {fuel : Nat} {held : List Handle} {r : Except Failure Reply}
  {id : SpaceId} {name : String}

/-- Whatever a request brings into a static space, the model-level reference of its name is
unread. -/
theorem Reachable.hides (h : Reachable m) (hrun : q.run fuel held m = some (r, m'))
    (room : m'.Addressable) (hmember : m'.HasMember id name) :
    m.HasMember id name ∨ m'.Unread name := by
  have hg := h.running.tracked.indexed
  have hhides : ∀ {α : Type} {x : Action α} {f : α → Reply}, Obeys Hides x →
      (f <$> x) m = some (r, m') → m.HasMember id name ∨ m'.Unread name := by
    intro α x f hx hrun
    obtain ⟨p, hp⟩ := exists_of_map hrun
    obtain ⟨-, hhides⟩ := hx m p m' hp hg
    exact (hhides.hidden id name hmember).imp_right (Or.resolve_left · not_false)
  have hevaluates : ∀ e : Evaluation, e.request.run fuel held m = some (r, m') →
      m.HasMember id name ∨ m'.Unread name := fun e hrun =>
    .inl ((h.evaluated hrun room).definitions.hasMember hmember)
  cases q with
  | createSpace parent name => exact hhides (hides_createSpace fuel parent name) hrun
  | removeSpace id => exact hhides (hides_removeSpace fuel id) hrun
  | childNamed id name =>
    obtain ⟨p, hp⟩ := exists_of_map hrun
    obtain ⟨-, hadds⟩ := adds_childNamed id name m p m' hp h.running
    exact .inl ((hadds.enriches room).sameDefinitions.hasMember hmember)
  | letSpaceBeEmpty id allow => exact hhides (hides_letSpaceBeEmpty id allow) hrun
  | document id doc => exact hhides (hides_document id doc) hrun
  | defineCells id name formula => exact hhides (hides_defineCells fuel id name formula) hrun
  | redefine id formula => exact hhides (hides_redefine fuel id formula) hrun
  | removeCells id => exact hhides (hides_removeCells fuel id) hrun
  | letCellsBeEmpty id allow => exact hhides (hides_letCellsBeEmpty fuel id allow) hrun
  | dropOverride id => exact hhides (hides_dropOverride fuel id) hrun
  | bindName id name value mode => exact hhides (hides_bindName fuel id name value mode) hrun
  | rebind id value => exact hhides (hides_rebind fuel id value) hrun
  | unbind id => exact hhides (hides_unbind fuel id) hrun
  | bindGlobal name value =>
    obtain ⟨p, hp⟩ := exists_of_map hrun
    exact .inl (hasMember_bindGlobal hp hmember)
  | rebindGlobal name value =>
    have hrebind : Obeys Hides (rebindGlobal fuel name value) := obeys_bind (obeys_read _)
      fun id => obeys_bind (hides_rebind fuel id value) fun _ => obeys_pure _
    exact hhides hrebind hrun
  | unbindGlobal name =>
    have hunbind : Obeys Hides (unbindGlobal fuel name) := obeys_bind (obeys_read _)
      fun id => obeys_bind (hides_unbind fuel id) fun _ => obeys_pure _
    exact hhides hunbind hrun
  | linkBase id base => exact hhides (hides_linkBase fuel id base) hrun
  | unlinkBase id base => exact hhides (hides_unlinkBase fuel id base) hrun
  | declareParams id params binder =>
    exact hhides (hides_declareParams fuel id params binder) hrun
  | call id a => exact hevaluates (.call id a) hrun
  | selectInstance id a => exact hevaluates (.selectInstance id a) hrun
  | readFrom id name => exact hevaluates (.readFrom id name) hrun
  | putInput id args v => exact hhides (hides_putInput id args v) hrun
  | takeInput id args => exact hhides (hides_takeInput id args) hrun
  | forgetCells id =>
    exact hhides (obeys_bind (obeys_read _) fun _ =>
      obeys_update fun m => removalFrame_shading.invalidateCells m id) hrun
  | forgetAt id args =>
    exact hhides (obeys_bind (obeys_read _) fun _ =>
      obeys_update fun m => removalFrame_shading.invalidate m _) hrun
  | forgetWithin id => exact hhides (hides_forgetWithin id) hrun
  | forgetAll => exact hhides hides_forgetAll hrun
  | discardInstance id args =>
    obtain ⟨p, hp⟩ := exists_of_map hrun
    exact h.running.hides_discardInstance hp room hmember
  | discardInstances id =>
    exact hhides (obeys_bind (obeys_read _) fun _ =>
      obeys_update fun m => removalFrame_shading.removeEveryInstance m id) hrun
  | reclaim =>
    exact hhides (obeys_update fun m =>
      reclaim_obeys removalFrame_shading.removeInstance held m) hrun

/-- When a static space came to have a member of a name, no read of the model-level reference of
that name is left, and nothing that is computed rests on it, in whatever space. -/
theorem Reachable.shadowed (h : Reachable m) (hrun : q.run fuel held m = some (r, m'))
    (room : m'.Addressable) (hnew : ¬ m.HasMember id name) (hmember : m'.HasMember id name)
    {g : RefId} (hg : m'.globals.get? name = some g) :
    (∀ a, m'.graph.hasEdge a (.ref g) = false) ∧
      ∀ a, m'.isComputed a = true → ¬ m'.RestsOn a (.ref g) := by
  have hunread := (h.hides hrun room hmember).resolve_left hnew
  exact ⟨hunread g hg, fun _ ha => hunread.not_restsOn hg ha⟩

/-- `C.c` reads `x` in `B`, which derives from `A`, and finds it at the level of the model. -/
def lookedUpRequests : List Request :=
  let reader : Formula := ⟨0, [], .computed (fun _ => Body.query
    (.lookup (some ⟨⟨1, 0⟩, []⟩) "x" none)) [⟨⟨1, 0⟩, []⟩], none⟩
  [.createSpace none "A", .createSpace none "B", .createSpace none "C", .linkBase ⟨1, 0⟩ ⟨0, 0⟩,
    .bindGlobal "x" (.int 1), .defineCells ⟨2, 0⟩ "c" (some reader),
    .defineCells ⟨2, 0⟩ "d" (some (Formula.constant 1 (.int 1))), .call ⟨0, 0⟩ {}, .call ⟨1, 0⟩ {}]

/-- Cells that come to `A` come to `B` as well, so `C.c` is forgotten and what else is computed does
not rest on the `x` of the model. -/
theorem lookedUp_shadowed : ∃ m r m', Request.runAll 9 [] lookedUpRequests Shop.start = some m ∧
    (Request.defineCells ⟨0, 0⟩ "x" (some (Formula.constant 2 (.int 2)))).run 9 [] m =
      some (r, m') ∧ r.isOk = true ∧ ¬ m.HasMember ⟨1, 0⟩ "x" ∧ m'.HasMember ⟨1, 0⟩ "x" ∧
    m.graph.hasEdge (.cells ⟨0, 0⟩ .empty) (.ref ⟨0, 0⟩) = true ∧
    m'.isComputed (.cells ⟨0, 0⟩ .empty) = false ∧ m'.isComputed (.cells ⟨1, 0⟩ .empty) = true ∧
    (∀ a, m'.graph.hasEdge a (.ref ⟨0, 0⟩) = false) ∧
    ¬ m'.RestsOn (.cells ⟨1, 0⟩ .empty) (.ref ⟨0, 0⟩) := by
  have hrun : ((Request.runAll 9 [] lookedUpRequests Shop.start).any fun m =>
      ((Request.defineCells ⟨0, 0⟩ "x" (some (Formula.constant 2 (.int 2)))).run 9 [] m).any
        fun o => decide (o.1.isOk = true ∧ o.2.Addressable ∧ ¬ m.HasMember ⟨1, 0⟩ "x" ∧
          o.2.HasMember ⟨1, 0⟩ "x" ∧ o.2.globals.get? "x" = some ⟨0, 0⟩ ∧
          m.graph.hasEdge (.cells ⟨0, 0⟩ .empty) (.ref ⟨0, 0⟩) = true ∧
          o.2.isComputed (.cells ⟨0, 0⟩ .empty) = false ∧
          o.2.isComputed (.cells ⟨1, 0⟩ .empty) = true)) = true := by
    decide +kernel
  obtain ⟨m, hm, hrun⟩ := (Option.any_eq_true _ _).1 hrun
  obtain ⟨⟨r, m'⟩, hedit, hfacts⟩ := (Option.any_eq_true _ _).1 hrun
  obtain ⟨hok, room, hnew, hmember, hglobal, hedge, hforgotten, hcomputed⟩ :=
    of_decide_eq_true hfacts
  obtain ⟨hunread, hrests⟩ := Reachable.shadowed
    ⟨_, .new "doc" {}, Request.becomes_of_runAll lookedUpRequests hm⟩ hedit room hnew hmember hglobal
  exact ⟨m, r, m', hm, hedit, hok, hnew, hmember, hedge, hforgotten, hcomputed, hunread,
    hrests _ hcomputed⟩

end Requests

end Recalc
