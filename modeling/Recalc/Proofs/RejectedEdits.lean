import Recalc.Proofs.MirroredRequests
import Recalc.Proofs.Newcomers

set_option autoImplicit false

/-!
# Rejected edits

An edit whose wave fails takes back what it did and derives the spaces once more. The second wave
may fail as well, and then derived members are left over. Nothing that was defined is lost either
way, and what the host authored is as it was before.
-/

namespace Recalc.Action

variable {α β : Type} {Q S : Model → Prop} {m : Model}

def Rejects (Q : Model → Prop) (x : Action α) (m : Model) : Prop :=
  ∀ e m', x m = some (.error e, m') → Q m'

def rejection? (x : Action α) (m : Model) : Option (Failure × Model) :=
  match x m with
  | some (.error e, m') => some (e, m')
  | _ => none

theorem rejection?_eq_some {x : Action α} {e : Failure} {m' : Model} :
    rejection? x m = some (e, m') ↔ x m = some (.error e, m') := by
  unfold rejection?
  split
  next h =>
    rw [h]
    simp
  next h =>
    refine ⟨fun hf => ?_, fun hrun => (h e m' hrun).elim⟩
    cases hf

theorem Ends.rejects {x : Action α} (h : Ends Q x m) : Rejects Q x m := fun _ m' hx => h _ m' hx

theorem rejects_pure {a : α} : Rejects Q (pure a) m := by
  intro e m' hx
  cases hx

theorem rejects_read {f : Model → Except Failure α} {k : α → Action β} (stay : Q m)
    (h : ∀ a, f m = .ok a → Rejects Q (k a) m) : Rejects Q (read f >>= k) m := by
  intro e m' hx
  rw [read_bind] at hx
  split at hx
  next a ha => exact h a ha e m' hx
  next =>
    cases hx
    exact stay

theorem rejects_get {k : Model → Action β} (h : Rejects Q (k m) m) : Rejects Q (get >>= k) m := h

theorem rejects_modify {f : Model → Model} {k : Unit → Action β} (h : Rejects Q (k ()) (f m)) :
    Rejects Q (modify f >>= k) m := h

theorem rejects_update {f : Model → α × Model} {k : α → Action β}
    (h : Rejects Q (k (f m).1) (f m).2) : Rejects Q (update f >>= k) m := h

theorem rejects_then {x : Action α} {k : α → Action β} (hx : Rejects Q x m)
    (hk : ∀ a m, Rejects Q (k a) m) : Rejects Q (x >>= k) m := by
  intro e m' h
  rcases (bind_eq_some m).1 h with ⟨a, m₁, -, hrun⟩ | ⟨_, hrun, heq⟩
  · exact hk a m₁ e m' hrun
  · cases heq
    exact hx e m' hrun

theorem rejects_map {x : Action α} {f : α → β} (hx : Rejects Q x m) : Rejects Q (f <$> x) m := by
  rw [map_eq_pure_bind]
  exact rejects_then hx fun _ _ => rejects_pure

theorem rejects_admitName {name : String} {k : Unit → Action α} (stay : Q m)
    (h : Rejects Q (k ()) m) : Rejects Q (Model.admitName name >>= k) m := by
  unfold Model.admitName
  split
  · intro e m' hx
    cases hx
    exact stay
  · exact h

theorem rejects_attempt {x : Action α} {k : Except Failure α → Action β} (hx : Ends S x m)
    (hk : ∀ r m, S m → Rejects Q (k r) m) : Rejects Q (attempt x >>= k) m := by
  intro e m' h
  rw [attempt_bind] at h
  split at h
  next r m₁ hrun => exact hk r m₁ (hx r m₁ hrun) e m' h
  next => cases h

end Recalc.Action

namespace Recalc.Model

open Recalc.Action

section Waves

variable {m : Model} {R : Model → Prop} {owes : SpaceId → Heritage → Prop} {sites : SpaceId → Prop}

theorem ends_steady (lasting : Lasting R owes) (fuel : Nat) (starts : List SpaceId)
    (h : Steady sites R m) : Ends (Steady sites R) (deriveFrom fuel starts) m :=
  fun r m' hrun => (steady_deriveFrom lasting fuel starts m r m' hrun h).1

end Waves

/-! ## Bases -/

section Bases

variable {m₀ m : Model} {id base : SpaceId} {s : Space} {sites : SpaceId → Prop}

theorem restoring_linked (m₀ : Model) (id base : SpaceId) :
    Restoring m₀ (m₀.modifySpace id (Space.setBases (· ++ [base])))
      (m₀.modifySpace id (Space.setBases (· ++ [base]))) := by
  refine ⟨(Spares.refl m₀).modifySpace (Space.persists_setBases _)
    (fun s₀ s _ _ hstatic hsub => ?_) fun s₀ s _ _ _ hmem b hb => ?_, .refl _⟩
  · rw [Space.bases_setBases _ _ hstatic]
    exact hsub.trans (List.sublist_append_left _ _)
  · rw [Space.implicitBases_setBases]
    exact hmem b hb

/-- A base that was appended is taken out again. -/
theorem Restoring.unlinkBase (hs : m₀.spaces.get? id = some s) (hstatic : s.isStatic = true)
    (hfresh : base ∉ s.bases)
    (h : Restoring m₀ (m₀.modifySpace id (Space.setBases (· ++ [base]))) m) :
    Restoring m₀ m₀ (m.modifySpace id (Space.setBases (·.filter (· != base)))) := by
  obtain ⟨hspares, hauthors⟩ := h
  have hkept : s.bases.filter (· != base) = s.bases := by
    refine List.filter_eq_self.2 fun b hb => ?_
    rw [bne_iff_ne]
    rintro rfl
    exact hfresh hb
  refine ⟨hspares.modifySpace (Space.persists_setBases _) (fun s₀ t hs₀ _ ht hsub => ?_)
    fun s₀ t _ _ _ hmem b hb => ?_, { hauthors with space := fun x t' ht' htstatic => ?_ }⟩
  · cases hs.symm.trans hs₀
    rw [Space.bases_setBases _ _ ht, ← hkept]
    exact hsub.filter _
  · rw [Space.implicitBases_setBases]
    exact hmem b hb
  · have hget := Pool.get?_modify m.spaces id x (Space.setBases (·.filter (· != base)))
    have hlinked := Pool.get?_modify m₀.spaces id x (Space.setBases (· ++ [base]))
    by_cases heq : id = x
    · subst heq
      rw [if_pos rfl] at hget hlinked
      obtain ⟨t, ht, rfl⟩ := Option.map_eq_some_iff.1 (hget.symm.trans ht')
      rw [(Space.persists_setBases _ t).isStatic] at htstatic
      rw [Space.bases_setBases _ _ htstatic, (Space.persists_setBases _ t).isDerived]
      rcases hauthors.space id t ht htstatic with ⟨u, hu, -, hle⟩ | ⟨hderived, hnil⟩
      · rw [hs, Option.map_some] at hlinked
        cases hu.symm.trans hlinked
        refine .inl ⟨s, hs, hstatic, ?_⟩
        rw [Space.bases_setBases _ _ hstatic] at hle
        have hfilter := hle.filter (· != base)
        simpa [hkept] using hfilter
      · refine .inr ⟨hderived, ?_⟩
        rw [hnil, List.filter_nil]
    · rw [if_neg heq] at hget hlinked
      have hspace := hauthors.space x t' (hget.symm.trans ht') htstatic
      rwa [modifySpace, hlinked] at hspace

theorem rejects_linkBase (fuel : Nat) (hm : m.Faithful fun _ => False) (hsourced : m.Sourced)
    (id base : SpaceId) :
    Rejects (fun m' => m'.Addressable → Restores m m') (linkBase fuel id base) m := by
  have stay : m.Addressable → Restores m m := fun _ => .refl m
  refine rejects_read stay fun s hs => rejects_read stay fun b _ => rejects_get ?_
  obtain ⟨hs, hstatic⟩ := editable_eq_ok hs
  split
  next => exact (ends_fail stay).rejects
  next =>
    split
    next => exact rejects_pure
    next hnew =>
      split
      next => exact (ends_fail stay).rejects
      next =>
        have hfresh : base ∉ s.bases := by simpa using hnew
        have rebase : ∀ {m' : Model} (f : List SpaceId → List SpaceId),
            m'.Faithful (fun _ => False) →
              (m'.modifySpace id (Space.setBases f)).Faithful fun _ => False :=
          fun f hm' => hm'.rebase (Space.retouches_setBases f) (Space.signature_setBases f)
            (Space.setBases_of_replica f)
        refine rejects_modify (rejects_attempt (S := Steady (fun _ => False) (Restoring m _))
          (ends_steady (lasting_restoring hm.owned hsourced _) fuel [id] fun _ =>
            ⟨rebase _ hm, restoring_linked m id base⟩) fun r m₂ hm₂ => ?_)
        cases r with
        | ok summary => exact rejects_pure
        | error e =>
          refine rejects_modify (Ends.rejects (ends_bind (S := Steady (fun _ => False)
            (Restoring m m)) (ends_steady (lasting_restoring hm.owned hsourced m) fuel [id]
              fun small => ?_) (fun _ m' hm' => ends_fail fun small => ?_) fun m' hm' small => ?_))
          · obtain ⟨hfaithful, hrestoring⟩ := hm₂ ((addressable_modifySpace _ _).1 small)
            exact ⟨rebase _ hfaithful, hrestoring.unlinkBase hs hstatic hfresh⟩
          · exact (hm' small).2.restores
          · exact (hm' small).2.restores

end Bases

/-! ## New members -/

section Members

variable {m₀ m₁ m : Model} {id : SpaceId} {name : String} {e : Entity}

/-- The newcomer and what came with it is taken back. -/
theorem ends_takeBack_newcomer (fuel : Nat) (hm₀ : m₀.Owned) (hsourced : m₀.Sourced)
    (hself : m₀.Static id) (hjoins : Joins e m₀ m₁)
    (h : Steady (· = id)
      (fun m => (Spares m₀ m ∧ Newcomer id name e m) ∧ AuthorsNothing m₁ m) m) :
    Ends (Steady (fun _ => False) (Restoring m₀ m₀)) (takeBack fuel id name) m := by
  refine ends_modify (ends_update (ends_steady (lasting_restoring hm₀ hsourced m₀) fuel _
    fun small => ?_))
  have small := (fits_withdraw m id name).addressable ((fits_unlinkDeadBases _).addressable small)
  obtain ⟨hfaithful, ⟨hspares, hnew⟩, hauthors⟩ := h small
  have hrestoring : Restoring m₀ m₀ (withdraw id name m) :=
    Restoring.withdraw hm₀ hjoins hfaithful.owned hself ⟨hspares, hauthors⟩ hnew
  refine ⟨?_, hrestoring.1.unlink hsourced, hrestoring.2.unlink⟩
  exact (faithful_withdraw hfaithful name).unlinkDeadBases.mono fun _ hf => hf.elim

theorem rejects_settleDeriving (fuel : Nat) (starts : List SpaceId) (hm₀ : m₀.Owned)
    (hsourced : m₀.Sourced) (hself : m₀.Static id) (hjoins : Joins e m₀ m₁)
    (hnew : Newcomer id name e m₁) {around : SpaceId → Prop} {changes : Changes}
    (hd : Deriving id (fun _ => False) around [] [] changes m₁) (ha : m₁.Arranged) :
    Rejects (fun m' => m'.Addressable → Restores m₀ m') (settleAddition fuel id name starts) m₁ := by
  have lasting : Lasting (fun m => (Spares m₀ m ∧ Newcomer id name e m) ∧ AuthorsNothing m₁ m) _ :=
    (lasting_newcomer hm₀ hsourced hself).and (lasting_authorsNothing m₁)
  have hforget := forgetsSome_invalidateSpace m₁ id
  have hhide := forgetsSome_hideGlobal (m₁.invalidateSpace id).2 name
  have hr := lasting.forget hd.owned ⟨⟨hjoins.spares, hnew⟩, .refl m₁⟩ hforget
  have ha := hforget.alike.drops.thins.arranged hd.owned ha
  have hd := hd.alike hforget.alike
  have hr := lasting.forget hd.owned hr hhide
  have ha := hhide.alike.drops.thins.arranged hd.owned ha
  have hd := hd.alike hhide.alike
  have hr := lasting.dropStaleInstances hd.owned hr id
  refine rejects_modify (rejects_attempt (ends_steady lasting fuel starts fun _ =>
    ⟨(hd.dropped ha).mono fun _ => .inr, hr⟩) fun r m₂ hm₂ => ?_)
  cases r with
  | ok => exact rejects_pure
  | error err =>
    refine Ends.rejects (ends_bind (ends_takeBack_newcomer fuel hm₀ hsourced hself hjoins hm₂)
      (fun _ m' hm' => ends_fail fun small => ?_) fun m' hm' small => ?_)
    · exact (hm' small).2.restores
    · exact (hm' small).2.restores

theorem rejects_settleAddition (fuel : Nat) (starts : List SpaceId) (hm₀ : m₀.Owned)
    (hsourced : m₀.Sourced) (hself : m₀.Static id) (hedited : Edited id m₁)
    (hjoins : m₁.Addressable → ∃ e, Joins e m₀ m₁ ∧ Newcomer id name e m₁) :
    Rejects (fun m' => m'.Addressable → Restores m₀ m') (settleAddition fuel id name starts) m₁ := by
  intro err m' hrun room
  have hfits := (ends_settleAddition fuel name starts (.start hedited) _ m' hrun).fits
  obtain ⟨⟨around, changes, hd⟩, ha⟩ := hedited (hfits.addressable room)
  obtain ⟨e, hjoins, hnew⟩ := hjoins (hfits.addressable room)
  exact rejects_settleDeriving fuel starts hm₀ hsourced hself hjoins hnew hd ha err m' hrun
    room

end Members

def derivesCells (m : Model) (id : SpaceId) (name : String) : Bool :=
  ((m.spaces.get? id).bind (·.cells.get? name)).any fun c => (m.cells.get? c).any (·.derived)

def derivesRef (m : Model) (id : SpaceId) (name : String) : Bool :=
  ((m.spaces.get? id).bind (·.refs.get? name)).any fun r => (m.refs.get? r).any (·.derived)

section Additions

variable {m : Model} (fuel : Nat) (hm : m.Faithful fun _ => False) (hsourced : m.Sourced)
include hm hsourced

theorem rejects_defineCells (id : SpaceId) (name : String) (formula : Option Formula)
    (hnew : m.derivesCells id name = false) :
    Rejects (fun m' => m'.Addressable → Restores m m') (defineCells fuel id name formula) m := by
  have stay : m.Addressable → Restores m m := fun _ => .refl m
  refine rejects_admitName stay (rejects_read stay fun s hs => rejects_get ?_)
  obtain ⟨hs, hstatic⟩ := editable_eq_ok hs
  split
  next existing hexisting =>
    refine rejects_read stay fun c hc => ?_
    have hderived : c.derived = false := by
      simpa [derivesCells, hs, hexisting, cell_eq_ok.1 hc] using hnew
    rw [hderived]
    exact (ends_fail stay).rejects
  next =>
    split
    next => exact (ends_fail stay).rejects
    next hfree =>
      have hedited := follows_addCells (c := { name, space := id, formula, derived := false })
        (fun _ => hm) hs hstatic rfl hfree
      exact rejects_update (rejects_then (rejects_settleAddition fuel [id] hm.owned hsourced
        ⟨s, hs, hstatic⟩ hedited.holds fun small => newcomer_addCells hm.owned small hs hfree rfl)
        fun _ _ => rejects_pure)

theorem rejects_bindName (id : SpaceId) (name : String) (value : Value) (mode : RefMode)
    (hnew : m.derivesRef id name = false) :
    Rejects (fun m' => m'.Addressable → Restores m m') (bindName fuel id name value mode) m := by
  have stay : m.Addressable → Restores m m := fun _ => .refl m
  refine rejects_admitName stay (rejects_get (rejects_read stay fun s hs => rejects_get ?_))
  obtain ⟨hs, hstatic⟩ := editable_eq_ok hs
  split
  next existing hexisting =>
    refine rejects_read stay fun r hr => ?_
    have hderived : r.derived = false := by
      simpa [derivesRef, hs, hexisting, reference_eq_ok.1 hr] using hnew
    rw [hderived]
    exact (ends_fail stay).rejects
  next =>
    split
    next => exact (ends_fail stay).rejects
    next hfree =>
      have hedited := follows_addRef (r := ⟨name, some id, value, mode,
        m.bindsRelatively id value mode, some id, false⟩) (fun _ => hm) hs hstatic rfl hfree
      exact rejects_update (rejects_then (rejects_settleAddition fuel [id] hm.owned hsourced
        ⟨s, hs, hstatic⟩ hedited.holds fun small => newcomer_addRef hm.owned small hs hfree rfl rfl)
        fun _ _ => rejects_pure)

theorem rejects_createSpace (parent : Option SpaceId) (name : String) :
    Rejects (fun m' => m'.Addressable → Restores m m') (createSpace fuel parent name) m := by
  have stay : m.Addressable → Restores m m := fun _ => .refl m
  refine rejects_admitName stay ?_
  cases parent with
  | none =>
    refine rejects_get ?_
    split
    next => exact (ends_fail stay).rejects
    next =>
      intro err m' hrun
      cases hrun
  | some parent =>
    refine rejects_read stay fun s hs => rejects_get ?_
    obtain ⟨hs, hstatic⟩ := editable_eq_ok hs
    split
    next existing _ =>
      refine rejects_read stay fun t _ => ?_
      split
      next => exact rejects_modify rejects_pure
      next => exact (ends_fail stay).rejects
    next =>
      split
      next => exact (ends_fail stay).rejects
      next hfree =>
        have hedited := follows_addChild (fun _ => hm) hs hstatic hfree
        exact rejects_update (rejects_then (rejects_settleAddition fuel _ hm.owned hsourced
          ⟨s, hs, hstatic⟩ hedited.holds fun small =>
            newcomer_addChild hm.owned small hs hfree rfl rfl rfl) fun _ _ => rejects_pure)

end Additions

end Recalc.Model

namespace Recalc

open Recalc.Action Recalc.Model

/-- The request adds a member, and does not override a derived one. -/
def Request.addsMember (m : Model) : Request → Bool
  | .createSpace .. => true
  | .defineCells id name _ => !m.derivesCells id name
  | .bindName id name .. => !m.derivesRef id name
  | _ => false

/-- A run of requests from which an action fails, found by running it. -/
theorem Request.exists_rejection {α : Type} (fuel : Nat) (l : List Request) (m₀ : Model)
    (x : Action α) (P : Model → Failure → Model → Bool)
    (h : ((Request.runAll fuel [] l m₀).any fun m => (rejection? x m).any fun r =>
      P m r.1 r.2) = true) :
    ∃ m e m', Request.runAll fuel [] l m₀ = some m ∧ x m = some (.error e, m') ∧
      P m e m' = true := by
  obtain ⟨m, hm, h⟩ := (Option.any_eq_true _ _).1 h
  obtain ⟨⟨e, m'⟩, hrun, hp⟩ := (Option.any_eq_true _ _).1 h
  exact ⟨m, e, m', hm, rejection?_eq_some.1 hrun, hp⟩

def Model.cellNames (m : Model) (id : SpaceId) : List String :=
  ((m.spaces.get? id).map fun s => s.cells.names).getD []

section Restoration

variable {m m' : Model} {fuel : Nat} {e : Failure}

theorem Model.Orderly.restores {α : Type} {x : Action α} (h : m.Orderly)
    (hproper : Obeys (Under Proper Fits) x)
    (hx : m.Faithful (fun _ => False) → Rejects (fun m' => m'.Addressable → Restores m m') x m) :
    Rejects (fun m' => m'.Addressable → Restores m m') x m := by
  intro e m' hrun room
  obtain ⟨-, hfits⟩ := hproper m _ m' hrun h.proper
  exact hx (h.proper (hfits.addressable room)) e m' hrun room

/-- A rejected base leaves the definitions as they were, up to derived members. -/
theorem Reachable.linkBase_restores (h : Reachable m) (hsourced : m.Sourced) {id base : SpaceId}
    (hrun : linkBase fuel id base m = some (.error e, m')) (room : m'.Addressable) :
    Restores m m' :=
  h.orderly.restores (proper_linkBase fuel id base)
    (fun hm => rejects_linkBase fuel hm hsourced id base) e m' hrun room

/-- `W` binds a name of its own, and inherits from `S` and from an heir of the child `S.c`. -/
def crossedRequests : List Request :=
  [.createSpace none "B", .createSpace (some ⟨0, 0⟩) "c", .defineCells ⟨1, 0⟩ "n" none,
    .createSpace none "S", .createSpace (some ⟨2, 0⟩) "c", .createSpace none "Y",
    .linkBase ⟨4, 0⟩ ⟨3, 0⟩, .createSpace none "W", .linkBase ⟨5, 0⟩ ⟨2, 0⟩,
    .linkBase ⟨5, 0⟩ ⟨4, 0⟩, .bindName ⟨5, 0⟩ "n" (.int 1) .auto]

theorem crossed_restores : ∃ m e m', Request.runAll 9 [] crossedRequests Shop.start = some m ∧
    linkBase 9 ⟨2, 0⟩ ⟨0, 0⟩ m = some (.error e, m') ∧ m.Sourced ∧ m'.Addressable ∧
      Restores m m' := by
  obtain ⟨m, e, m', hm, hrun, hfacts⟩ := Request.exists_rejection 9 crossedRequests Shop.start
    (linkBase 9 ⟨2, 0⟩ ⟨0, 0⟩) (fun m _ m' => decide (m.Sourced ∧ m'.Addressable))
    (by decide +kernel)
  obtain ⟨hsourced, room⟩ := of_decide_eq_true hfacts
  exact ⟨m, e, m', hm, hrun, hsourced, room, Reachable.linkBase_restores
    ⟨_, .new "doc" {}, Request.becomes_of_runAll crossedRequests hm⟩ hsourced hrun room⟩

/-- The child `S.c` keeps derived cells of a base that was rejected. -/
theorem crossed_keeps_cells : ∃ m e m', Reachable m ∧
    linkBase 9 ⟨2, 0⟩ ⟨0, 0⟩ m = some (.error e, m') ∧ e.kind = .inheritanceConflict ∧
      m.cellNames ⟨3, 0⟩ = [] ∧ m'.cellNames ⟨3, 0⟩ = ["n"] := by
  obtain ⟨m, e, m', hm, hrun, hfacts⟩ := Request.exists_rejection 9 crossedRequests Shop.start
    (linkBase 9 ⟨2, 0⟩ ⟨0, 0⟩) (fun m e m' => decide (e.kind = .inheritanceConflict ∧
      m.cellNames ⟨3, 0⟩ = [] ∧ m'.cellNames ⟨3, 0⟩ = ["n"])) (by decide +kernel)
  exact ⟨m, e, m', ⟨_, .new "doc" {}, Request.becomes_of_runAll crossedRequests hm⟩, hrun,
    of_decide_eq_true hfacts⟩

/-- A rejected member leaves the definitions as they were, up to derived members. -/
theorem Reachable.addition_restores (h : Reachable m) (hsourced : m.Sourced) {held : List Handle}
    {q : Request} (hadds : q.addsMember m = true)
    (hrun : q.run fuel held m = some (.error e, m')) (room : m'.Addressable) : Restores m m' := by
  have hm := h.orderly
  cases q with
  | createSpace parent name =>
    exact rejects_map (hm.restores (proper_createSpace fuel parent name)
      fun hm => rejects_createSpace fuel hm hsourced parent name) e m' hrun room
  | defineCells id name formula =>
    rw [Request.addsMember, Bool.not_eq_true'] at hadds
    exact rejects_map (hm.restores (proper_defineCells fuel id name formula)
      fun hm => rejects_defineCells fuel hm hsourced id name formula hadds) e m' hrun room
  | bindName id name value mode =>
    rw [Request.addsMember, Bool.not_eq_true'] at hadds
    exact rejects_map (hm.restores (proper_bindName fuel id name value mode)
      fun hm => rejects_bindName fuel hm hsourced id name value mode hadds) e m' hrun room
  | _ => cases hadds

/-- `W` binds a name of its own and inherits from `C`, which inherits from its own child through
`D`. -/
def loopedRequests : List Request :=
  [.createSpace none "B", .createSpace none "C", .createSpace (some ⟨1, 0⟩) "c2",
    .createSpace none "D", .createSpace none "W", .linkBase ⟨3, 0⟩ ⟨2, 0⟩,
    .linkBase ⟨3, 0⟩ ⟨0, 0⟩, .linkBase ⟨2, 0⟩ ⟨0, 0⟩, .linkBase ⟨1, 0⟩ ⟨3, 0⟩,
    .linkBase ⟨4, 0⟩ ⟨1, 0⟩, .linkBase ⟨4, 0⟩ ⟨2, 0⟩, .bindName ⟨4, 0⟩ "n" (.int 1) .auto]

theorem looped_restores : ∃ m e m', Request.runAll 12 [] loopedRequests Shop.start = some m ∧
    (Request.defineCells ⟨0, 0⟩ "n" none).run 12 [] m = some (.error e, m') ∧ m.Sourced ∧
      m'.Addressable ∧ Restores m m' := by
  obtain ⟨m, e, m', hm, hrun, hfacts⟩ := Request.exists_rejection 12 loopedRequests Shop.start
    ((Request.defineCells ⟨0, 0⟩ "n" none).run 12 [])
    (fun m _ m' => decide (m.Sourced ∧ m'.Addressable ∧
      (Request.defineCells ⟨0, 0⟩ "n" none).addsMember m = true)) (by decide +kernel)
  obtain ⟨hsourced, room, hadds⟩ := of_decide_eq_true hfacts
  exact ⟨m, e, m', hm, hrun, hsourced, room, Reachable.addition_restores
    ⟨_, .new "doc" {}, Request.becomes_of_runAll loopedRequests hm⟩ hsourced hadds hrun room⟩

/-- The heirs `C` and `D` keep derived cells of a member that was rejected. -/
theorem looped_keeps_cells : ∃ m e m', Reachable m ∧
    defineCells 12 ⟨0, 0⟩ "n" none m = some (.error e, m') ∧ e.kind = .inheritanceConflict ∧
      m.cellNames ⟨3, 0⟩ = [] ∧ m'.cellNames ⟨3, 0⟩ = ["n"] ∧ m'.cellNames ⟨0, 0⟩ = [] := by
  obtain ⟨m, e, m', hm, hrun, hfacts⟩ := Request.exists_rejection 12 loopedRequests Shop.start
    (defineCells 12 ⟨0, 0⟩ "n" none)
    (fun m e m' => decide (e.kind = .inheritanceConflict ∧ m.cellNames ⟨3, 0⟩ = [] ∧
      m'.cellNames ⟨3, 0⟩ = ["n"] ∧ m'.cellNames ⟨0, 0⟩ = [])) (by decide +kernel)
  exact ⟨m, e, m', ⟨_, .new "doc" {}, Request.becomes_of_runAll loopedRequests hm⟩, hrun,
    of_decide_eq_true hfacts⟩

end Restoration

end Recalc
