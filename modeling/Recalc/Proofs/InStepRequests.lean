import Recalc.Proofs.InStepEdits

set_option autoImplicit false

/-!
# Requests leave spaces in step

A request that is carried out leaves every static space in step with its bases. One that is refused
leaves the model as it was, unless members that are inherited clash. So where no edit was rejected
for that, every static space is in step.
-/

namespace Recalc

open Recalc.Action Recalc.Model

section Requests

variable {m m' : Model} {fuel : Nat} {held : List Handle} {q : Request} {r : Except Failure Reply}

theorem Model.SameDefinitions.sameShape (h : SameDefinitions m m') : SameShape m m' := by
  refine ⟨fun x => ?_, fun r q hq _ => by rwa [h.refs] at hq⟩
  have hkept : ∀ o, m.outline? x = some o → m'.outline? x = some o := by
    intro o ho
    obtain ⟨s, hs, hstatic, rfl⟩ := outline?_eq_some.1 ho
    obtain ⟨instances, hs'⟩ := h.spaces x s hs hstatic
    exact outline?_eq_some.2 ⟨_, hs', hstatic, rfl⟩
  cases ho : m.outline? x with
  | some o => exact hkept o ho
  | none =>
    cases ho' : m'.outline? x with
    | none => rfl
    | some o' =>
      obtain ⟨s', hs', hstatic, -⟩ := outline?_eq_some.1 ho'
      obtain ⟨s, hs, hold⟩ := h.authored x s' hs' hstatic
      rw [outline?_of_static hs hold] at ho
      cases ho

theorem Evaluation.fits (h : Reachable m) (e : Evaluation)
    (hrun : e.request.run fuel held m = some (r, m')) : Fits m m' := by
  obtain ⟨hrunning, -, hfits, -⟩ := h.ready held
  exact Frame.trans hfits ((e.runs hrun).1 hrunning).2.grows.fits

theorem Reachable.sameShape_discardInstance (h : Reachable m) {id : SpaceId} {args : List Value}
    {p : Except Failure Bool} (hrun : discardInstance fuel id args m = some (p, m')) :
    Fits m m' ∧ (m'.Addressable → SameShape m m') := by
  have hkeyed : ∀ m₁ r, itemKey (runFormula fuel) id { positional := args } m = some (r, m₁) →
      m₁.Running ∧ Fits m m₁ ∧ (m₁.Addressable → SameShape m m₁) := by
    intro m₁ r hkey
    obtain ⟨hrunning, hadds⟩ :=
      (evaluationFrame_adds.itemKey (runs_adds fuel) id _ h.running hkey).1
    exact ⟨hrunning, hadds.grows.fits,
      fun small => (hadds.enriches small).sameDefinitions.sameShape⟩
  unfold discardInstance at hrun
  rcases (bind_eq_some m).1 hrun with ⟨key, m₁, hkey, hrest⟩ | ⟨e, hkey, rfl⟩
  · obtain ⟨hrunning, hfits, hsame⟩ := hkeyed m₁ _ hkey
    rw [read_bind] at hrest
    split at hrest
    next =>
      cases hrest
      have hremove := fits_removeInstance m₁ id key
      refine ⟨Frame.trans hfits hremove, fun room => ?_⟩
      have small := hremove.addressable room
      obtain ⟨-, hdrops⟩ := under_removeInstance m₁ id key (hrunning.faithful small).owned
      exact Frame.trans (hsame small) hdrops.sameShape
    next =>
      cases hrest
      exact ⟨hfits, hsame⟩
  · exact (hkeyed m' _ hkey).2

/-- A request that runs formulas changes nothing that heirs can see, however it ends. -/
theorem Reachable.sameShape (h : Reachable m) (hq : q.runsFormulas = true)
    (hrun : q.run fuel held m = some (r, m')) :
    Fits m m' ∧ (m'.Addressable → SameShape m m') := by
  have hevaluates : ∀ e : Evaluation, e.request.run fuel held m = some (r, m') →
      Fits m m' ∧ (m'.Addressable → SameShape m m') := fun e hrun =>
    ⟨e.fits h hrun, fun room => (h.evaluated hrun room).definitions.sameShape⟩
  cases q with
  | call id a => exact hevaluates (.call id a) hrun
  | selectInstance id a => exact hevaluates (.selectInstance id a) hrun
  | readFrom id name => exact hevaluates (.readFrom id name) hrun
  | discardInstance id args =>
    obtain ⟨p, hp⟩ := exists_of_map hrun
    exact h.sameShape_discardInstance hp
  | _ => cases hq

/-- A request that runs no formula and is carried out leaves every space in step. -/
theorem Reachable.returns_aligned (h : Reachable m) (haligned : m.Addressable → m.Aligned)
    (fuel : Nat) (held : List Handle) (q : Request) (hq : q.runsFormulas = false) :
    Returns (fun _ m' => m'.Addressable → m'.Aligned) (q.run fuel held) m := by
  have hm := h.orderly.proper
  cases q with
  | createSpace parent name => exact returns_map (returns_createSpace fuel hm haligned parent name)
  | removeSpace id => exact returns_map (returns_removeSpace fuel hm haligned id)
  | childNamed id name =>
    intro a m' hrun room
    obtain ⟨p, hp⟩ := exists_of_map hrun
    obtain ⟨-, hadds⟩ := adds_childNamed id name m p m' hp h.running
    have hbefore := hadds.grows.fits.addressable room
    exact (haligned hbefore).sameShape (hm hbefore).owned ((h.next hrun).orderly.proper room).owned
      (hadds.enriches room).sameDefinitions.sameShape
  | letSpaceBeEmpty id allow => exact returns_map (returns_letSpaceBeEmpty hm haligned id allow)
  | document id doc => exact returns_map (returns_document hm haligned id doc)
  | defineCells id name formula =>
    exact returns_map (returns_defineCells fuel hm haligned id name formula)
  | redefine id formula => exact returns_map (returns_redefine fuel hm haligned id formula)
  | removeCells id => exact returns_map (returns_removeCells fuel hm haligned id)
  | letCellsBeEmpty id allow =>
    exact returns_map (returns_letCellsBeEmpty fuel hm haligned id allow)
  | dropOverride id => exact returns_map (returns_dropOverride fuel hm haligned id)
  | bindName id name value mode =>
    exact returns_map (returns_bindName fuel hm haligned id name value mode)
  | rebind id value => exact returns_map (returns_rebind fuel hm haligned id value)
  | unbind id => exact returns_map (returns_unbind fuel hm haligned id)
  | bindGlobal name value => exact returns_map (returns_bindGlobal hm haligned name value)
  | rebindGlobal name value => exact returns_map (returns_rebindGlobal fuel hm haligned name value)
  | unbindGlobal name => exact returns_map (returns_unbindGlobal fuel hm haligned name)
  | linkBase id base => exact returns_map (returns_linkBase hm haligned fuel id base)
  | unlinkBase id base => exact returns_map (returns_unlinkBase hm haligned fuel id base)
  | declareParams id params binder =>
    exact returns_map (returns_declareParams hm haligned fuel id params binder)
  | putInput id args v =>
    exact returns_map
      (returns_drops hm haligned (proper_putInput id args v) (drops_putInput id args v))
  | takeInput id args =>
    exact returns_map
      (returns_drops hm haligned (proper_takeInput id args) (drops_takeInput id args))
  | forgetCells id =>
    exact returns_map (returns_drops hm haligned (proper_forgetCells id) (drops_forgetCells id))
  | forgetAt id args =>
    exact returns_map (returns_drops hm haligned (proper_forgetAt id args) (drops_forgetAt id args))
  | forgetWithin id =>
    exact returns_map (returns_drops hm haligned (proper_forgetWithin id) (drops_forgetWithin id))
  | forgetAll => exact returns_map (returns_drops hm haligned proper_forgetAll drops_forgetAll)
  | discardInstances id =>
    exact returns_map (returns_drops hm haligned (proper_discardInstances id)
      (drops_discardInstances id))
  | reclaim =>
    exact returns_map (returns_drops hm haligned (obeys_update (proper_reclaim held))
      (obeys_update fun m => reclaim_obeys under_removeInstance held m))
  | call | selectInstance | readFrom | discardInstance => cases hq

/-- The request is no edit that is rejected for a conflict of inheritance. -/
def Step.Undisputed (s : Step) : Prop :=
  s.request.runsFormulas = false → ∀ e, s.outcome = .error e → e.kind ≠ .inheritanceConflict

theorem Reachable.aligned_step (h : Reachable m) (haligned : m.Addressable → m.Aligned)
    (hrun : q.run fuel held m = some (r, m'))
    (hundisputed : Step.Undisputed ⟨m, fuel, held, q, r, m'⟩) (room : m'.Addressable) :
    m'.Aligned := by
  cases hq : q.runsFormulas with
  | true =>
    obtain ⟨hfits, hsame⟩ := h.sameShape hq hrun
    have hbefore := hfits.addressable room
    exact (haligned hbefore).sameShape (h.orderly.proper hbefore).owned
      ((h.next hrun).orderly.proper room).owned (hsame room)
  | false =>
    cases r with
    | ok reply => exact h.returns_aligned haligned fuel held q hq reply m' hrun room
    | error e =>
      have hsame := h.unchanged_of_refusal hq hrun (hundisputed hq e rfl) room
      rw [hsame] at room ⊢
      exact haligned room

end Requests

/-! ## Models of a host -/

section Rebuilding

variable {α β : Type}

/-- The model is faithful and every space in step, if there is room for every identity. -/
structure Model.Tended (m : Model) : Prop where
  proper : Proper m
  aligned : m.Addressable → m.Aligned

def Action.Tends (x : Action α) : Prop := ∀ m, m.Tended → Returns (fun _ m' => m'.Tended) x m

theorem tends_of_returns {x : Action α} (hproper : Obeys (Under Proper Fits) x)
    (h : ∀ m, Proper m → (m.Addressable → m.Aligned) →
      Returns (fun _ m' => m'.Addressable → m'.Aligned) x m) : Tends x := fun m hm a m' hrun =>
  ⟨(hproper m _ m' hrun hm.proper).1, h m hm.proper hm.aligned a m' hrun⟩

theorem tends_of_obeys {x : Action α} (hx : Obeys (Keeps Model.Tended) x) : Tends x :=
  fun m hm _ m' hrun => hx m _ m' hrun hm

theorem tends_pure (a : α) : Tends (pure a) := tends_of_obeys (obeys_pure a)

theorem tends_read (f : Model → Except Failure α) : Tends (read f) := tends_of_obeys (obeys_read f)

theorem tends_bind {x : Action α} {k : α → Action β} (hx : Tends x) (hk : ∀ a, Tends (k a)) :
    Tends (x >>= k) := fun m hm => returns_bind (hx m hm) fun a m' hm' => hk a m' hm'

theorem tends_map (f : α → β) {x : Action α} (hx : Tends x) : Tends (f <$> x) :=
  fun m hm => returns_map (hx m hm)

theorem tends_each {f : α → Action Unit} (h : ∀ a, Tends (f a)) (l : List α) :
    Tends (each f l) := by
  induction l with
  | nil => exact tends_pure _
  | cons a l ih => exact tends_bind (h a) fun _ => ih

theorem tends_loadOptional (load : Loader) (f : Option StoredFormula) :
    Tends (loadOptional load f) := tends_of_obeys (obeys_loadOptional load f)

theorem tends_createSpace (fuel : Nat) (parent : Option SpaceId) (name : String) :
    Tends (createSpace fuel parent name) :=
  tends_of_returns (proper_createSpace fuel parent name) fun _ hm h =>
    returns_createSpace fuel hm h parent name

theorem tends_createSpaces (fuel : Nat) (l : List (Option String × StoredSpace)) :
    Tends (createSpaces fuel l) := by
  induction l with
  | nil => exact tends_pure _
  | cons e rest ih =>
    obtain ⟨path, s⟩ := e
    have hrest : ∀ parent, Tends (do
        let id ← createSpace fuel parent s.name
        let more ← createSpaces fuel rest
        return (id, s) :: more) := fun parent =>
      tends_bind (tends_createSpace fuel parent s.name) fun _ => tends_bind ih fun _ => tends_pure _
    cases path with
    | none => exact tends_bind (tends_pure _) hrest
    | some p => exact tends_bind (tends_map _ (tends_read _)) hrest

theorem tends_restoreBases (fuel : Nat) (load : Loader) (e : SpaceId × StoredSpace) :
    Tends (restoreBases fuel load e) := by
  have hlink : ∀ base, Tends (linkBase fuel e.1 base) := fun base =>
    tends_of_returns (proper_linkBase fuel e.1 base)
      fun _ hm h => returns_linkBase hm h fuel e.1 base
  have hdeclare : ∀ params binder, Tends (declareParams fuel e.1 params binder) :=
    fun params binder => tends_of_returns (proper_declareParams fuel e.1 params binder)
      fun _ hm h => returns_declareParams hm h fuel e.1 params binder
  refine tends_bind (tends_each (fun path => ?_) _) fun _ => ?_
  · exact tends_bind (tends_read _) fun base => tends_bind (hlink base) fun _ => tends_pure _
  · split
    · exact tends_bind (tends_loadOptional load _) fun binder => hdeclare _ binder
    · exact tends_pure _

theorem tends_restoreCells (fuel : Nat) (load : Loader) (id : SpaceId) (c : StoredCells) :
    Tends (restoreCells fuel load id c) := by
  refine tends_bind (tends_loadOptional load _) fun f => tends_bind ?_ fun cell => ?_
  · exact tends_of_returns (proper_defineCells fuel id c.name f) fun _ hm h =>
      returns_defineCells fuel hm h id c.name f
  · split
    · exact tends_of_returns (proper_letCellsBeEmpty fuel cell c.allowNone) fun _ hm h =>
        returns_letCellsBeEmpty fuel hm h cell c.allowNone
    · exact tends_pure _

theorem tends_restoreMembers (fuel : Nat) (load : Loader) (e : SpaceId × StoredSpace) :
    Tends (restoreMembers fuel load e) := by
  have href : ∀ r, Tends (restoreRef fuel e.1 r) := fun r =>
    tends_bind (tends_read _) fun v => tends_bind (tends_of_returns
      (proper_bindName fuel e.1 r.name v r.mode)
      fun _ hm h => returns_bindName fuel hm h e.1 r.name v r.mode) fun _ => tends_pure _
  have hdoc : Tends (if e.2.doc.isSome then document e.1 e.2.doc else pure ()) := by
    split
    · exact tends_of_returns (proper_document e.1 e.2.doc) fun _ hm h =>
        returns_document hm h e.1 e.2.doc
    · exact tends_pure _
  have hallow : Tends (letSpaceBeEmpty e.1 e.2.allowNone) :=
    tends_of_returns (proper_letSpaceBeEmpty e.1 e.2.allowNone) fun _ hm h =>
      returns_letSpaceBeEmpty hm h e.1 e.2.allowNone
  refine tends_bind (tends_each href _) fun _ => ?_
  refine tends_bind (tends_each (tends_restoreCells fuel load e.1) _) fun _ => ?_
  by_cases hset : e.2.allowNone.isSome = true
  · simp only [hset, if_true]
    exact tends_bind hallow fun _ => hdoc
  · simp only [hset]
    exact hdoc

theorem tends_restoreFlag (e : SpaceId × StoredSpace) : Tends (restoreFlag e) := by
  refine tends_of_returns (proper_restoreFlag e) fun m hm h a m' hrun room => ?_
  obtain ⟨hm', hfits⟩ := proper_restoreFlag e m _ m' hrun hm
  have hbefore := hfits.addressable room
  have hsame : Obeys SameShape (restoreFlag e) := by
    unfold restoreFlag
    split
    · exact obeys_bind (obeys_read _) fun _ =>
        obeys_modify fun m => sameShape_setDerived e.1 true
    · exact obeys_pure _
  exact (h hbefore).sameShape (hm hbefore).owned (hm' room).owned (hsame m _ m' hrun)

theorem tends_restoreInputs (e : SpaceId × StoredSpace) : Tends (restoreInputs e) := by
  refine tends_each (fun c => tends_bind (tends_read _) fun cell => ?_) _
  exact tends_each (fun i : StoredInput => tends_of_returns (proper_putInput cell i.args i.value)
    fun _ hm h => returns_drops hm h (proper_putInput cell i.args i.value)
      (drops_putInput cell i.args i.value)) c.inputs

theorem tends_restoreGlobal (g : StoredRef) : Tends (restoreGlobal g) :=
  tends_bind (tends_read _) fun v => tends_bind (tends_of_returns (proper_bindGlobal g.name v)
    fun _ hm h => returns_bindGlobal hm h g.name v) fun _ => tends_pure _

theorem tends_restore (fuel : Nat) (load : Loader) (s : Snapshot) : Tends (restore fuel load s) :=
  tends_bind (tends_createSpaces fuel _) fun _ =>
    tends_bind (tends_each (tends_restoreBases fuel load) _) fun _ =>
      tends_bind (tends_each (tends_restoreMembers fuel load) _) fun _ =>
        tends_bind (tends_each tends_restoreFlag _) fun _ =>
          tends_bind (tends_each tends_restoreInputs _) fun _ => tends_each tends_restoreGlobal _

theorem tended_new (name : String) (config : Config) (order : WalkOrder) :
    ({ name, config, order } : Model).Tended := by
  have hspaces : ∀ x, ({ name, config, order } : Model).spaces.get? x = none := fun x => Pool.get?_empty x
  have hrefs : ∀ r, ({ name, config, order } : Model).refs.get? r = none := fun r => Pool.get?_empty r
  refine ⟨(orderly_new name config order).proper, fun _ => ⟨fun x o ho => ?_, fun r q x hq => ?_,
    fun x hx => ?_⟩⟩
  · rw [outline?, hspaces] at ho
    cases ho
  · rw [hrefs] at hq
    cases hq
  · obtain ⟨s, hs, -⟩ := hx
    rw [hspaces] at hs
    cases hs

theorem Born.tended {m : Model} (h : Born m) : m.Tended := by
  cases h with
  | new name config order => exact tended_new name config order
  | @rebuilt fuel load s order m h =>
    unfold ofSnapshot at h
    split at h
    next m' hrun =>
      cases h
      exact tends_restore fuel load s _ (tended_new s.name s.config order) _ _ hrun
    next => cases h
    next => cases h

end Rebuilding

/-- A model that a host can have between two requests when all requests so far were allowed. -/
def Arises (allowed : Step → Prop) (m : Model) : Prop :=
  ∃ start, Born start ∧ Becomes allowed start m

theorem Arises.reachable {allowed : Step → Prop} {m : Model} (h : Arises allowed m) :
    Reachable m := by
  obtain ⟨start, hborn, hbecomes⟩ := h
  refine ⟨start, hborn, ?_⟩
  clear hborn
  induction hbecomes with
  | refl => exact .refl
  | step s _ hsound _ ih => exact .step s ih hsound trivial

/-- No edit was rejected for a conflict of inheritance so far. -/
def Peaceful (m : Model) : Prop := Arises Step.Undisputed m

/-- Where no edit was rejected every static space is in step with its bases. -/
theorem Peaceful.aligned {m : Model} (h : Peaceful m) : m.Addressable → m.Aligned := by
  obtain ⟨start, hborn, hbecomes⟩ := h
  induction hbecomes with
  | refl => exact hborn.tended.aligned
  | step s hbefore hsound hundisputed ih =>
    have harises : Arises Step.Undisputed s.before := ⟨start, hborn, hbefore⟩
    exact harises.reachable.aligned_step ih hsound hundisputed

/-! ## Runs of requests -/

/-- Carry requests out one after the other, as long as each ends as the condition says. -/
def Request.runWhile (good : Request → Except Failure Reply → Bool) (fuel : Nat)
    (held : List Handle) : List Request → Model → Option Model
  | [], m => some m
  | q :: rest, m =>
    match q.run fuel held m with
    | some (r, m) => if good q r then runWhile good fuel held rest m else none
    | none => none

section Running

variable {allowed : Step → Prop} {good : Request → Except Failure Reply → Bool} {fuel : Nat}
  {held : List Handle} (hgood : ∀ s : Step, good s.request s.outcome = true → allowed s)
include hgood

theorem Request.becomes_of_runWhile (l : List Request) {m m' : Model}
    (h : runWhile good fuel held l m = some m') : Becomes allowed m m' := by
  induction l generalizing m with
  | nil =>
    cases h
    exact .refl
  | cons q rest ih =>
    unfold runWhile at h
    split at h
    next r m₁ hrun =>
      split at h
      next hok =>
        exact (Becomes.step ⟨m, fuel, held, q, r, m₁⟩ .refl hrun (hgood _ hok)).trans (ih h)
      next => contradiction
    next => contradiction

/-- A model that arises by requests, found by carrying them out. -/
theorem Request.exists_arises (fuel : Nat) (l : List Request) (P : Model → Bool)
    (h : ((runWhile good fuel [] l Shop.start).any P) = true) :
    ∃ m, Arises allowed m ∧ P m = true := by
  obtain ⟨m, hm, hp⟩ := (Option.any_eq_true _ _).1 h
  exact ⟨m, ⟨Shop.start, .new "doc" {}, becomes_of_runWhile hgood l hm⟩, hp⟩

end Running

def Request.isUndisputed : Request → Except Failure Reply → Bool
  | q, .error e => q.runsFormulas || e.kind != .inheritanceConflict
  | _, .ok _ => true

theorem Step.undisputed_of_isUndisputed (s : Step)
    (h : s.request.isUndisputed s.outcome = true) : s.Undisputed := by
  intro hq e he
  rw [he, Request.isUndisputed, hq, Bool.false_or] at h
  exact bne_iff_ne.1 h

/-- The request links no base, or it is carried out. -/
def Request.linksWell : Request → Except Failure Reply → Bool
  | .linkBase .., .error _ => false
  | _, _ => true

def Step.LinksWell (s : Step) : Prop := s.request.linksWell s.outcome = true

end Recalc
