import Recalc.Proofs.RejectedEdits

set_option autoImplicit false

/-!
# Refused requests

Every check of a request stands before its first change, and after that only inheritance can fail:
a derivation finds all it reads, so it fails only when the bases of a space disagree. A request that
runs no formula and ends with another failure leaves the model as it was.
-/

namespace Recalc.Action

variable {α β : Type} {Q Q' S : Model → Prop} {m : Model}

/-- Where the action fails when it starts in the model, inheritance is in conflict or the condition
holds, provided that there is room for every identity. -/
def Refuses (Q : Model → Prop) (x : Action α) (m : Model) : Prop :=
  ∀ e m', x m = some (.error e, m') → m'.Addressable → e.kind = .inheritanceConflict ∨ Q m'

abbrev Conflicts (x : Action α) (m : Model) : Prop := Refuses (fun _ => False) x m

theorem Conflicts.refuses {x : Action α} (h : Conflicts x m) : Refuses Q x m :=
  fun e m' hx room => .inl ((h e m' hx room).resolve_right id)

theorem refuses_pure {a : α} : Refuses Q (pure a) m := by
  intro e m' hx
  cases hx

theorem refuses_fail {e : Failure} (h : m.Addressable → e.kind = .inheritanceConflict ∨ Q m) :
    Refuses Q (fail e : Action α) m := by
  intro e' m' hx
  cases hx
  exact h

theorem refuses_stay {e : Failure} (h : Q m) : Refuses Q (fail e : Action α) m :=
  refuses_fail fun _ => .inr h

theorem refuses_read {f : Model → Except Failure α} {k : α → Action β} (stay : Q m)
    (h : ∀ a, f m = .ok a → Refuses Q (k a) m) : Refuses Q (read f >>= k) m := by
  intro e m' hx
  rw [read_bind] at hx
  split at hx
  next a ha => exact h a ha e m' hx
  next =>
    cases hx
    exact fun _ => .inr stay

/-- What is looked for is there. -/
theorem refuses_found {f : Model → Except Failure α} {k : α → Action β}
    (found : m.Addressable → ∃ a, f m = .ok a) (h : ∀ a, f m = .ok a → Refuses Q (k a) m) :
    Refuses Q (read f >>= k) m := by
  intro e m' hx
  rw [read_bind] at hx
  split at hx
  next a ha => exact h a ha e m' hx
  next e' he =>
    cases hx
    intro room
    obtain ⟨a, ha⟩ := found room
    rw [ha] at he
    cases he

theorem refuses_get {k : Model → Action β} (h : Refuses Q (k m) m) : Refuses Q (get >>= k) m := h

theorem refuses_modify {f : Model → Model} {k : Unit → Action β} (h : Refuses Q (k ()) (f m)) :
    Refuses Q (modify f >>= k) m := h

theorem refuses_update {f : Model → α × Model} {k : α → Action β}
    (h : Refuses Q (k (f m).1) (f m).2) : Refuses Q (update f >>= k) m := h

theorem refuses_modified {f : Model → Model} : Refuses Q (modify f) m := by
  intro e m' hx
  cases hx

theorem refuses_change {f : Model → α × Model} : Refuses Q (update f) m := by
  intro e m' hx
  cases hx

theorem refuses_bind {x : Action α} {k : α → Action β} (hx : Refuses Q x m) (hends : Ends S x m)
    (hk : ∀ a m, S m → Refuses Q (k a) m) : Refuses Q (x >>= k) m := by
  intro e m' h
  rcases (bind_eq_some m).1 h with ⟨a, m₁, h₁, h₂⟩ | ⟨_, h₁, heq⟩
  · exact hk a m₁ (hends _ _ h₁) e m' h₂
  · cases heq
    exact hx e m' h₁

/-- What follows cannot fail. -/
theorem refuses_then {x : Action α} {k : α → Action β} (hx : Refuses Q x m)
    (hk : ∀ a m, Refuses Q (k a) m) : Refuses Q (x >>= k) m :=
  refuses_bind (S := fun _ => True) hx (fun _ _ _ => trivial) fun a m _ => hk a m

theorem refuses_map {x : Action α} {f : α → β} (hx : Refuses Q x m) : Refuses Q (f <$> x) m := by
  rw [map_eq_pure_bind]
  exact refuses_then hx fun _ _ => refuses_pure

theorem refuses_admitName {name : String} {k : Unit → Action α} (stay : Q m)
    (h : Refuses Q (k ()) m) : Refuses Q (Model.admitName name >>= k) m := by
  unfold Model.admitName
  split
  · intro e m' hx
    cases hx
    exact fun _ => .inr stay
  · exact h

/-- A failure that is looked into is still a conflict. -/
theorem conflicts_attempt {x : Action α} {k : Except Failure α → Action β} (hx : Conflicts x m)
    (hends : Ends S x m) (ok : ∀ a m, S m → Conflicts (k (.ok a)) m)
    (error : ∀ e m, S m → (m.Addressable → e.kind = .inheritanceConflict) →
      Conflicts (k (.error e)) m) : Conflicts (attempt x >>= k) m := by
  intro e m' h
  rw [attempt_bind] at h
  split at h
  next r m₁ hrun =>
    cases r with
    | ok a => exact ok a m₁ (hends _ _ hrun) e m' h
    | error e₁ =>
      exact error e₁ m₁ (hends _ _ hrun) (fun room => (hx e₁ m₁ hrun room).resolve_right id) e m' h
  next => cases h

end Recalc.Action

namespace Recalc.Model

open Recalc.Action

/-! ## Inheritance -/

section Heritage

variable {m : Model} {id : SpaceId}

theorem noteKinds_eq_error {base : SpaceId} {l : List (String × MemberKind)} {kinds : Kinds}
    {e : Failure} (h : m.noteKinds id base l kinds = .error e) : e.kind = .inheritanceConflict := by
  induction l generalizing kinds with
  | nil => cases h
  | cons a l ih =>
    obtain ⟨name, kind⟩ := a
    rw [noteKinds] at h
    split at h
    next seen _ =>
      split at h
      next => exact ih h
      next =>
        cases h
        rfl
    next => exact ih h

theorem checkAuthored_eq_error {kinds : Kinds} {l : List (String × MemberKind)} {e : Failure}
    (h : m.checkAuthored id kinds l = .error e) : e.kind = .inheritanceConflict := by
  induction l with
  | nil => cases h
  | cons a l ih =>
    obtain ⟨name, kind⟩ := a
    rw [checkAuthored] at h
    split at h
    next inherited _ =>
      split at h
      next => exact ih h
      next =>
        cases h
        rfl
    next => exact ih h

theorem except_bind_eq_error {α β : Type} {x : Except Failure α} {f : α → Except Failure β}
    {e : Failure} :
    (x >>= f) = .error e ↔ x = .error e ∨ ∃ a, x = .ok a ∧ f a = .error e := by
  cases x with
  | error e' =>
    constructor
    · intro h
      cases h
      exact .inl rfl
    · rintro (h | ⟨a, h, -⟩) <;> cases h
      rfl
  | ok a =>
    constructor
    · exact fun h => .inr ⟨a, rfl, h⟩
    · rintro (h | ⟨a', h, h'⟩) <;> cases h
      exact h'

/-- Live bases can only disagree. -/
theorem gatherBases_eq_error {bases : List SpaceId} {kinds : Kinds} {heritage : Heritage}
    {e : Failure} (live : ∀ b ∈ bases, ∃ s, m.spaces.get? b = some s)
    (h : m.gatherBases id bases kinds heritage = .error e) : e.kind = .inheritanceConflict := by
  induction bases generalizing kinds heritage with
  | nil => cases h
  | cons b bases ih =>
    rw [gatherBases] at h
    obtain ⟨s, hs⟩ := live b List.mem_cons_self
    rcases except_bind_eq_error.1 h with hgone | ⟨t, -, h⟩
    · rw [space_eq_ok.2 hs] at hgone
      cases hgone
    rcases except_bind_eq_error.1 h with hnote | ⟨kinds', -, h⟩
    · exact noteKinds_eq_error hnote
    · exact ih (fun b' hb' => live b' (List.mem_cons_of_mem _ hb')) h

/-- The heritage of a live space is a conflict at worst. -/
theorem heritage_eq_error {s : Space} {e : Failure} (hs : m.spaces.get? id = some s)
    (h : m.heritage id = .error e) : e.kind = .inheritanceConflict := by
  have live : ∀ b ∈ m.allBases id, ∃ s, m.spaces.get? b = some s := fun b hb =>
    Pool.contains_iff.1 (mem_allBases.1 hb).choose_spec.2.2
  unfold heritage at h
  rcases except_bind_eq_error.1 h with hgather | ⟨r, -, h⟩
  · exact gatherBases_eq_error live hgather
  rcases except_bind_eq_error.1 h with hgone | ⟨t, -, h⟩
  · rw [space_eq_ok.2 hs] at hgone
    cases hgone
  rcases except_bind_eq_error.1 h with hcheck | ⟨u, -, h⟩
  · exact checkAuthored_eq_error hcheck
  · cases h

end Heritage

/-! ## Waves -/

section Waves

variable {m m₀ : Model} {sites : SpaceId → Prop}

theorem conflicts_derive {id : SpaceId} {s : Space} (hm : Upright sites m)
    (hs : m.spaces.get? id = some s) : Conflicts (derive id) m := by
  unfold derive
  refine refuses_found (fun _ => ⟨s, space_eq_ok.2 hs⟩) fun t ht => ?_
  cases hs.symm.trans (space_eq_ok.1 ht)
  split
  next => exact refuses_pure
  next hstatic =>
    have hstatic : s.isStatic = true := by simpa using hstatic
    intro e m' h room
    rw [read_bind] at h
    split at h
    next heritage hh =>
      -- once the heritage is known nothing can fail
      obtain ⟨hfits, hspec⟩ := ensures_derivation sites (· ∈ m.ancestry id)
        (lasting_true.withstands trivial) m _ m' h
      have hfaithful := hm (hfits.addressable room)
      have hsorting := hfaithful.arranged.sorting hfaithful.owned ⟨s, hs, hstatic⟩ hh
      obtain ⟨_, hok, -⟩ := hspec room ⟨hfaithful.deriving hs hstatic hh, hsorting, trivial⟩
      cases hok
    next e' hh =>
      cases h
      exact .inl (heritage_eq_error hs hh)

theorem conflicts_wave (fuel stalled : Nat) (queue : List SpaceId) (summary : Summary)
    (hm : Upright sites m) : Conflicts (wave fuel stalled queue summary) m := by
  induction fuel generalizing m stalled queue summary with
  | zero => exact fun _ _ h => nomatch h
  | succ fuel ih =>
    cases queue with
    | nil => exact refuses_pure
    | cons id rest =>
      unfold wave
      refine refuses_get ?_
      split
      next => exact ih _ _ _ hm
      next hlive =>
        obtain ⟨s, hs⟩ := Pool.contains_iff.1 (by simpa using hlive)
        split
        next => exact ih _ _ _ hm
        next =>
          have hends : Ends (Upright sites) (derive id) m := fun r m' hrun small =>
            ((steady_derive lasting_true id m r m' hrun fun small => ⟨hm small, trivial⟩).1 small).1
          exact refuses_bind (conflicts_derive hm hs) hends fun _ m₁ hm₁ =>
            refuses_get (ih _ _ _ hm₁)

theorem conflicts_deriveFrom (fuel : Nat) (starts : List SpaceId) (hm : Upright sites m) :
    Conflicts (deriveFrom fuel starts) m :=
  refuses_get (conflicts_wave fuel _ _ _ hm)

theorem conflicts_settleChange (fuel : Nat) {id : SpaceId} (h : Follows (Edited id) m₀ m) :
    Conflicts (settleChange fuel id) m :=
  refuses_modify (conflicts_deriveFrom fuel [id]
    (h.alike (forgetsSome_invalidateSpace m id).alike).dropped.holds)

theorem conflicts_takeBack (fuel : Nat) {id : SpaceId} (name : String) (h : Upright (· = id) m) :
    Conflicts (takeBack fuel id name) m := by
  have hwithdraw := (Follows.start h).step (fits_withdraw m id name) fun _ hm =>
    faithful_withdraw hm name
  have hunlink := hwithdraw.step (fits_unlinkDeadBases _) fun _ hm => hm.unlinkDeadBases
  exact refuses_modify (refuses_update (conflicts_deriveFrom fuel _ hunlink.holds))

theorem conflicts_settleAddition (fuel : Nat) {id : SpaceId} (name : String)
    (starts : List SpaceId) (h : Follows (Edited id) m₀ m) :
    Conflicts (settleAddition fuel id name starts) m := by
  have hdropped := ((h.alike (forgetsSome_invalidateSpace m id).alike).alike
    (forgetsSome_hideGlobal _ name).alike).dropped
  refine refuses_modify (conflicts_attempt (conflicts_deriveFrom fuel starts hdropped.holds)
    (ends_deriveFrom fuel starts hdropped) (fun _ _ _ => refuses_pure) fun e m₁ hm₁ hkind => ?_)
  refine refuses_bind (conflicts_takeBack fuel name hm₁.holds)
    (ends_takeBack fuel name (.start hm₁.holds)) fun _ m₂ hm₂ => ?_
  exact refuses_fail fun room => .inl (hkind (hm₂.fits.addressable room))

end Waves

/-! ## Edits -/

section Edits

variable {m : Model} (fuel : Nat) (hm : Proper m)
include hm

theorem refuses_createSpace (parent : Option SpaceId) (name : String) :
    Refuses (· = m) (createSpace fuel parent name) m := by
  refine refuses_admitName rfl ?_
  cases parent with
  | none =>
    refine refuses_get ?_
    split
    next => exact refuses_stay rfl
    next => exact refuses_change
  | some parent =>
    refine refuses_read rfl fun s hs => refuses_get ?_
    obtain ⟨hs, hstatic⟩ := editable_eq_ok hs
    split
    next existing _ =>
      refine refuses_read rfl fun t _ => ?_
      split
      next => exact refuses_modify refuses_pure
      next => exact refuses_stay rfl
    next =>
      split
      next => exact refuses_stay rfl
      next hfree =>
        exact refuses_update (refuses_then (Conflicts.refuses (conflicts_settleAddition fuel name _
          (follows_addChild hm hs hstatic hfree))) fun _ _ => refuses_pure)

theorem refuses_removeSpace (id : SpaceId) : Refuses (· = m) (removeSpace fuel id) m := by
  refine refuses_read rfl fun s hs => ?_
  obtain ⟨hs, hstatic⟩ := editable_eq_ok hs
  split
  next => exact refuses_get (refuses_stay rfl)
  next =>
    cases hparent : s.parent with
    | some p =>
      -- the parent is looked up again after its instances were dropped, and is still there
      refine refuses_modify (refuses_found (fun room => ?_) fun q _ => refuses_modify
        (refuses_modify (refuses_update (refuses_modify (Conflicts.refuses
          (conflicts_deriveFrom fuel _ (follows_dropChild hm hs hstatic hparent).holds))))))
      have hf := hm ((fits_dropStaleInstances m p).addressable room)
      obtain ⟨q, hq, hqstatic, -⟩ := hf.owned.static_holder hs hstatic hparent
      obtain ⟨q', hq', -⟩ := (under_dropStaleInstances m p hf.owned).2.static' hq hqstatic
      exact ⟨q', space_eq_ok.2 hq'⟩
    | none =>
      exact refuses_modify (refuses_modify (refuses_update (Conflicts.refuses
        (conflicts_deriveFrom fuel _ (follows_dropRoot hm hs hstatic hparent).holds))))

theorem refuses_defineCells (id : SpaceId) (name : String) (formula : Option Formula) :
    Refuses (· = m) (defineCells fuel id name formula) m := by
  refine refuses_admitName rfl (refuses_read rfl fun s hs => refuses_get ?_)
  obtain ⟨hs, hstatic⟩ := editable_eq_ok hs
  split
  next existing hexisting =>
    refine refuses_read rfl fun c hc => ?_
    split
    next => exact refuses_stay rfl
    next =>
      exact refuses_modify (refuses_then (Conflicts.refuses (conflicts_settleChange fuel
        (follows_takeover hm hs hstatic hexisting))) fun _ _ => refuses_pure)
  next =>
    split
    next => exact refuses_stay rfl
    next hfree =>
      exact refuses_update (refuses_then (Conflicts.refuses (conflicts_settleAddition fuel name [id]
        (follows_addCells hm hs hstatic rfl hfree))) fun _ _ => refuses_pure)

theorem refuses_redefine (id : CellId) (formula : Formula) :
    Refuses (· = m) (redefine fuel id formula) m := by
  refine refuses_read rfl fun c hc => refuses_read rfl fun s hs => refuses_modify ?_
  have hf := follows_redefinition (f := fun c => { c with formula := some formula, derived := false })
    (fun _ => rfl) hm hc hs
  exact (conflicts_deriveFrom fuel _ hf.holds).refuses

theorem refuses_letCellsBeEmpty (id : CellId) (allow : Option Bool) :
    Refuses (· = m) (letCellsBeEmpty fuel id allow) m := by
  refine refuses_read rfl fun c hc => refuses_read rfl fun s hs => refuses_modify ?_
  have hf := follows_redefinition (f := fun c => { c with allowNone := allow })
    (fun _ => rfl) hm hc hs
  exact refuses_then (conflicts_deriveFrom fuel _ hf.holds).refuses fun _ _ => refuses_pure

theorem refuses_removeCells (id : CellId) : Refuses (· = m) (removeCells fuel id) m := by
  refine refuses_read rfl fun c hc => refuses_read rfl fun s hs => ?_
  obtain ⟨hs, hstatic⟩ := editable_eq_ok hs
  split
  next => exact refuses_get (refuses_stay rfl)
  next =>
    exact refuses_modify (Conflicts.refuses (conflicts_settleChange fuel
      (follows_dropCells hm (cell_eq_ok.1 hc) hs hstatic)))

theorem refuses_dropOverride (id : CellId) : Refuses (· = m) (dropOverride fuel id) m := by
  refine refuses_read rfl fun c hc => refuses_read rfl fun s hs => ?_
  split
  next => exact refuses_pure
  next =>
    refine refuses_read rfl fun heritage _ => ?_
    split
    next =>
      have hf := (Follows.start hm).change (fits_modifyCell m id fun c => { c with derived := true })
        fun _ hf => hf.reflag (fun _ => rfl) fun _ => ⟨rfl, rfl⟩
      exact refuses_modify (conflicts_deriveFrom fuel _ hf.holds).refuses
    next => exact refuses_get (refuses_stay rfl)

theorem refuses_bindName (id : SpaceId) (name : String) (value : Value) (mode : RefMode) :
    Refuses (· = m) (bindName fuel id name value mode) m := by
  refine refuses_admitName rfl (refuses_get (refuses_read rfl fun s hs => refuses_get ?_))
  obtain ⟨hs, hstatic⟩ := editable_eq_ok hs
  split
  next existing hexisting =>
    refine refuses_read rfl fun r hr => ?_
    split
    next => exact refuses_stay rfl
    next =>
      refine refuses_modify (refuses_then (Conflicts.refuses (conflicts_deriveFrom fuel _
        (follows_rebinding hm existing fun _ => ?_).holds)) fun _ _ => refuses_pure)
      rfl
  next =>
    split
    next => exact refuses_stay rfl
    next hfree =>
      exact refuses_update (refuses_then (Conflicts.refuses (conflicts_settleAddition fuel name [id]
        (follows_addRef hm hs hstatic rfl hfree))) fun _ _ => refuses_pure)

theorem refuses_rebind (id : RefId) (value : Value) :
    Refuses (· = m) (rebind fuel id value) m := by
  refine refuses_read rfl fun r hr => ?_
  split
  next => exact refuses_modify refuses_pure
  next space _ =>
    refine refuses_read rfl fun s hs => refuses_modify (Conflicts.refuses
      (conflicts_deriveFrom fuel _ (follows_rebinding hm id fun _ => ?_).holds))
    rfl

theorem refuses_unbind (id : RefId) : Refuses (· = m) (unbind fuel id) m := by
  refine refuses_read rfl fun r hr => ?_
  split
  next => exact refuses_modify refuses_pure
  next space howner =>
    refine refuses_read rfl fun s hs => ?_
    obtain ⟨hs, hstatic⟩ := editable_eq_ok hs
    split
    next => exact refuses_get (refuses_stay rfl)
    next =>
      exact refuses_modify (Conflicts.refuses (conflicts_settleChange fuel
        (follows_dropRef hm (reference_eq_ok.1 hr) howner hs hstatic)))

omit hm in
theorem refuses_bindGlobal (name : String) (value : Value) :
    Refuses (· = m) (bindGlobal name value) m := by
  refine refuses_admitName rfl (refuses_get ?_)
  split
  next => exact refuses_stay rfl
  next => exact refuses_change

theorem refuses_linkBase (id base : SpaceId) : Refuses (· = m) (linkBase fuel id base) m := by
  refine refuses_read rfl fun s _ => refuses_read rfl fun b _ => refuses_get ?_
  split
  next => exact refuses_stay rfl
  next =>
    split
    next => exact refuses_pure
    next =>
      split
      next => exact refuses_stay rfl
      next =>
        -- the link is taken back on a failure, and that failure is the answer
        have hlinked := (Follows.start hm).setBases id (· ++ [base])
        refine refuses_modify (Conflicts.refuses (conflicts_attempt
          (conflicts_deriveFrom fuel [id] hlinked.holds) (ends_deriveFrom fuel [id] hlinked)
          (fun _ _ _ => refuses_pure) fun e m₁ hm₁ hkind => refuses_modify ?_))
        have hunlinked := (Follows.start hm₁.holds).setBases id (·.filter (· != base))
        refine refuses_bind (conflicts_deriveFrom fuel [id] hunlinked.holds)
          (ends_deriveFrom fuel [id] hunlinked) fun _ m₂ hm₂ => ?_
        exact refuses_fail fun room => .inl (hkind (hm₂.fits.addressable room))

theorem refuses_unlinkBase (id base : SpaceId) : Refuses (· = m) (unlinkBase fuel id base) m := by
  refine refuses_read rfl fun s _ => refuses_get ?_
  split
  next => exact refuses_stay rfl
  next =>
    exact refuses_modify (conflicts_deriveFrom fuel [id]
      ((Follows.start hm).setBases id (·.filter (· != base))).holds).refuses

theorem refuses_declareParams (id : SpaceId) (params : List Param) (binder : Option Formula) :
    Refuses (· = m) (declareParams fuel id params binder) m := by
  refine refuses_read rfl fun s hs => refuses_modify ?_
  have hf := follows_retouch hm hs (f := fun s =>
    { s with signature := some ⟨params, binder⟩, ownSignature := true })
    fun s => ⟨⟨rfl, rfl, rfl, fun _ => rfl, fun _ => rfl⟩, rfl, rfl, rfl, rfl⟩
  exact refuses_then (conflicts_deriveFrom fuel [id] hf.holds).refuses fun _ _ => refuses_pure

end Edits

/-! ## Inputs, forgetting and children -/

section Forgetting

variable {m : Model}

theorem refuses_letSpaceBeEmpty (hm : Proper m) (id : SpaceId) (allow : Option Bool) :
    Refuses (· = m) (letSpaceBeEmpty id allow) m := by
  refine refuses_read rfl fun s hs => refuses_modify (refuses_then (refuses_found (fun room => ?_)
    fun _ _ => refuses_change) fun _ _ => refuses_pure)
  obtain ⟨hs, hstatic⟩ := editable_eq_ok hs
  have hmodified : (m.modifySpace id fun s => { s with allowNone := allow }).spaces.get? id =
      some { s with allowNone := allow } := by
    rw [get?_modifySpace hs, if_pos rfl]
  have hf := hm ((fits_modifySpace m id _).addressable
    ((fits_dropStaleInstances _ id).addressable room))
  have howned := ((hf.begin hs hstatic).resign (f := fun s => { s with allowNone := allow })
    (fun s => ⟨⟨rfl, rfl, rfl, fun _ => rfl, fun _ => rfl⟩, rfl, rfl, rfl, rfl⟩)
    { structural := true } (.inl rfl)).owned
  obtain ⟨t, ht, -⟩ := (under_dropStaleInstances _ id howned).2.static' hmodified hstatic
  exact ⟨t, space_eq_ok.2 ht⟩

theorem refuses_document (id : SpaceId) (doc : Option String) :
    Refuses (· = m) (document id doc) m :=
  refuses_read rfl fun _ _ => refuses_modified

theorem refuses_putInput (id : CellId) (args : List Value) (v : Value) :
    Refuses (· = m) (putInput id args v) m :=
  refuses_read rfl fun _ _ => refuses_modified

theorem refuses_takeInput (id : CellId) (args : List Value) :
    Refuses (· = m) (takeInput id args) m := by
  refine refuses_read rfl fun key _ => refuses_read rfl fun c _ => ?_
  split
  · exact refuses_modify refuses_pure
  · exact refuses_pure

theorem refuses_forgetCells (id : CellId) : Refuses (· = m) (forgetCells id) m :=
  refuses_read rfl fun _ _ => refuses_change

theorem refuses_forgetAt (id : CellId) (args : List Value) :
    Refuses (· = m) (forgetAt id args) m :=
  refuses_read rfl fun _ _ => refuses_change

theorem refuses_forgetWithin (id : SpaceId) : Refuses (· = m) (forgetWithin id) m :=
  refuses_read rfl fun _ _ => refuses_change

/-- A root is static. -/
theorem Owned.static_of_root (hm : m.Owned) {name : String} {id : SpaceId}
    (h : m.roots.get? name = some id) : m.Static id := by
  obtain ⟨t, ht, hstatic, -⟩ := hm.root_of_listed h
  exact ⟨t, ht, hstatic⟩

/-- Forgetting leaves the static spaces that are still to be gone through. -/
theorem refuses_forgetEach (l : List SpaceId) {Q : Model → Prop}
    (hm : m.Addressable → m.Owned ∧ ∀ id ∈ l, m.Static id) : Refuses Q (forgetEach l) m := by
  induction l generalizing m with
  | nil => exact refuses_pure
  | cons id rest ih =>
    have hends : Ends (fun m' => m'.Addressable → m'.Owned ∧ ∀ id ∈ rest, m'.Static id)
        (forgetWithin id) m := by
      refine ends_read (fun small => ?_) fun s _ => ends_change fun small => ?_
      · exact ⟨(hm small).1, fun x hx => (hm small).2 x (List.mem_cons_of_mem _ hx)⟩
      · obtain ⟨howned, hstatic⟩ := hm ((fits_forgetSpaces _ _ _ m).addressable small)
        obtain ⟨howned', hdrops⟩ := under_forgetSpaces m.spaces.capacity [id] 0 m howned
        refine ⟨howned', fun x hx => ?_⟩
        obtain ⟨t, ht, hkind⟩ := hstatic x (List.mem_cons_of_mem _ hx)
        obtain ⟨t', ht', heq⟩ := hdrops.static' ht hkind
        exact ⟨t', ht', by rw [heq]; exact hkind⟩
    refine refuses_bind (refuses_found (fun small => ?_) fun _ _ => refuses_change) hends
      fun _ m₁ hm₁ => ih hm₁
    obtain ⟨s, hs, -⟩ := (hm small).2 id List.mem_cons_self
    exact ⟨s, space_eq_ok.2 hs⟩

theorem refuses_forgetAll (hm : Proper m) : Refuses (· = m) forgetAll m := by
  refine refuses_get (refuses_then (refuses_forgetEach _ fun small => ?_) fun _ _ => refuses_modified)
  refine ⟨(hm small).owned, fun id hid => ?_⟩
  obtain ⟨name, hname⟩ := NameMap.mem_values.1 hid
  exact (hm small).owned.static_of_root hname

theorem refuses_discardInstances (id : SpaceId) : Refuses (· = m) (discardInstances id) m :=
  refuses_read rfl fun _ _ => refuses_change

theorem refuses_ensureChild (id : SpaceId) (name : String) :
    Refuses (· = m) (ensureChild id name) m := by
  refine refuses_read rfl fun s _ => ?_
  split
  next => exact refuses_pure
  next =>
    refine refuses_get ?_
    split
    next => exact refuses_stay rfl
    next =>
      refine refuses_read rfl fun source _ => ?_
      split
      next => exact refuses_stay rfl
      next => exact refuses_change

theorem refuses_childNamed (id : SpaceId) (name : String) :
    Refuses (· = m) (childNamed id name) m := by
  refine refuses_read rfl fun s _ => ?_
  split
  next => exact refuses_pure
  next =>
    split
    next => exact refuses_get (refuses_stay rfl)
    next => exact refuses_ensureChild id name

end Forgetting

end Recalc.Model

namespace Recalc

open Recalc.Action Recalc.Model

/-- Carrying the request out may run formulas: those of cells, or the binder of a space. -/
def Request.runsFormulas : Request → Bool
  | .call .. | .selectInstance .. | .readFrom .. | .discardInstance .. => true
  | _ => false

section Refusals

variable {m m' : Model} {fuel : Nat} {held : List Handle} {e : Failure}

theorem Model.Orderly.refuses (hm : m.Orderly) {q : Request} (hq : q.runsFormulas = false) :
    Refuses (· = m) (q.run fuel held) m := by
  have hproper := hm.proper
  cases q with
  | createSpace parent name => exact refuses_map (refuses_createSpace fuel hproper parent name)
  | removeSpace id => exact refuses_map (refuses_removeSpace fuel hproper id)
  | childNamed id name => exact refuses_map (refuses_childNamed id name)
  | letSpaceBeEmpty id allow => exact refuses_map (refuses_letSpaceBeEmpty hproper id allow)
  | document id doc => exact refuses_map (refuses_document id doc)
  | defineCells id name formula =>
    exact refuses_map (refuses_defineCells fuel hproper id name formula)
  | redefine id formula => exact refuses_map (refuses_redefine fuel hproper id formula)
  | removeCells id => exact refuses_map (refuses_removeCells fuel hproper id)
  | letCellsBeEmpty id allow => exact refuses_map (refuses_letCellsBeEmpty fuel hproper id allow)
  | dropOverride id => exact refuses_map (refuses_dropOverride fuel hproper id)
  | bindName id name value mode =>
    exact refuses_map (refuses_bindName fuel hproper id name value mode)
  | rebind id value => exact refuses_map (refuses_rebind fuel hproper id value)
  | unbind id => exact refuses_map (refuses_unbind fuel hproper id)
  | bindGlobal name value => exact refuses_map (refuses_bindGlobal name value)
  | rebindGlobal name value =>
    exact refuses_map (refuses_read rfl fun id _ =>
      refuses_then (refuses_rebind fuel hproper id value) fun _ _ => refuses_pure)
  | unbindGlobal name =>
    exact refuses_map (refuses_read rfl fun id _ =>
      refuses_then (refuses_unbind fuel hproper id) fun _ _ => refuses_pure)
  | linkBase id base => exact refuses_map (refuses_linkBase fuel hproper id base)
  | unlinkBase id base => exact refuses_map (refuses_unlinkBase fuel hproper id base)
  | declareParams id params binder =>
    exact refuses_map (refuses_declareParams fuel hproper id params binder)
  | putInput id args v => exact refuses_map (refuses_putInput id args v)
  | takeInput id args => exact refuses_map (refuses_takeInput id args)
  | forgetCells id => exact refuses_map (refuses_forgetCells id)
  | forgetAt id args => exact refuses_map (refuses_forgetAt id args)
  | forgetWithin id => exact refuses_map (refuses_forgetWithin id)
  | forgetAll => exact refuses_map (refuses_forgetAll hproper)
  | discardInstances id => exact refuses_map (refuses_discardInstances id)
  | reclaim => exact refuses_map refuses_change
  | call | selectInstance | readFrom | discardInstance => cases hq

/-- A request that runs no formula and is refused, other than for a conflict of inheritance, changes
nothing at all. -/
theorem Reachable.unchanged_of_refusal (h : Reachable m) {q : Request}
    (hq : q.runsFormulas = false) (hrun : q.run fuel held m = some (.error e, m'))
    (hkind : e.kind ≠ .inheritanceConflict) (room : m'.Addressable) : m' = m :=
  (h.orderly.refuses hq e m' hrun room).resolve_left hkind

/-- The instance of a shop cannot be edited. -/
theorem shops_unchanged : ∃ m e m', Request.runAll 9 [] shopsRequests Shop.start = some m ∧
    (Request.defineCells ⟨2, 0⟩ "total" none).run 9 [] m = some (.error e, m') ∧
      e.kind = .readOnly ∧ m'.Addressable ∧ m' = m := by
  obtain ⟨m, e, m', hm, hrun, hfacts⟩ := Request.exists_rejection 9 shopsRequests Shop.start
    ((Request.defineCells ⟨2, 0⟩ "total" none).run 9 [])
    (fun _ e m' => decide (e.kind = .readOnly ∧ m'.Addressable)) (by decide +kernel)
  obtain ⟨hkind, room⟩ := of_decide_eq_true hfacts
  refine ⟨m, e, m', hm, hrun, hkind, room, Reachable.unchanged_of_refusal
    ⟨_, .new "doc" {}, Request.becomes_of_runAll shopsRequests hm⟩ rfl hrun ?_ room⟩
  rw [hkind]
  decide

end Refusals

end Recalc
