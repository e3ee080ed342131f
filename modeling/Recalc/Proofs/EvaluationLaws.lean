import Recalc.Evaluate
import Recalc.Proofs.NormalForms
import Recalc.Proofs.Tracking

set_option autoImplicit false

/-!
# Laws of evaluation

Evaluation is made of a few changes: a formula body is started, a read is noted, a replica is made,
and a node is computed with its formula run in between. A relation that obeys each of them is obeyed
by whole evaluations, whatever the formulas do and however deep they nest.
-/

namespace Recalc

namespace Binding

theorem length_placePositional (params : List Param) (args : List Value)
    (h : args.length ≤ params.length) : (placePositional params args).length = params.length := by
  rw [placePositional, List.length_append, List.length_map, List.length_replicate]
  omega

theorem length_placeNamed {params : List Param} {invalid : String → Failure}
    (named : List (String × Value)) {slots filled : List (Option Value)}
    (h : placeNamed params invalid named slots = .ok filled) : filled.length = slots.length := by
  induction named generalizing slots with
  | nil =>
    cases h
    rfl
  | cons e rest ih =>
    obtain ⟨name, v⟩ := e
    rw [placeNamed] at h
    split at h
    next => contradiction
    next i _ =>
      split at h
      next => contradiction
      next => rw [ih h, List.length_set]

theorem length_fillDefaults {invalid : String → Failure} (params : List Param)
    (slots : List (Option Value)) {vs : List Value} (hlen : slots.length = params.length)
    (h : fillDefaults invalid params slots = .ok vs) : vs.length = params.length := by
  induction params generalizing slots vs with
  | nil =>
    rw [List.length_nil, List.length_eq_zero_iff] at hlen
    subst hlen
    cases h
    rfl
  | cons p params ih =>
    cases slots with
    | nil => simp at hlen
    | cons slot slots =>
      rw [fillDefaults] at h
      split at h
      next v _ =>
        cases hrest : fillDefaults invalid params slots with
        | error e => rw [hrest] at h; contradiction
        | ok ws =>
          rw [hrest] at h
          cases h
          rw [List.length_cons, List.length_cons, ih slots (by simpa using hlen) hrest]
      next => contradiction

end Binding

/-- Binding gives one value for each parameter. -/
theorem length_matchArguments {params : List Param} {a : Arguments} {target : String}
    {vs : List Value} (h : matchArguments params a target = .ok vs) :
    vs.length = params.length := by
  unfold matchArguments at h
  dsimp only at h
  split at h
  next => contradiction
  next hle =>
    split at h
    next => contradiction
    next slots hslots =>
      have hlen := Binding.length_placeNamed a.named hslots
      rw [Binding.length_placePositional params a.positional (by omega)] at hlen
      exact Binding.length_fillDefaults params slots hlen h

theorem Key.length_ofValues {vs : List Value} {k : Key} (h : Key.ofValues vs = .ok k) :
    k.values.length = vs.length :=
  (Value.normalizeItems_eq_ok.1 (Key.ofValues_eq_ok.1 h)).length_eq.symm

namespace Model

open Recalc.Action

theorem length_canonicalArguments {spec : Signature} {target : String} {bound vs : List Value}
    {given : Value} (hbound : bound.length = spec.params.length)
    (h : canonicalArguments spec target bound given = .ok vs) :
    vs.length = spec.params.length := by
  have hother : ∀ {ws : List Value}, (if spec.params.length = 1 then Except.ok [given]
      else .error (Failure.invalidArguments target ("binder returned " ++ given.display ++
        ", expected a tuple of " ++ toString spec.params.length ++ " values"))) = .ok ws →
      ws.length = spec.params.length := by
    intro ws hws
    split at hws
    next hone =>
      cases hws
      exact hone.symm
    next => contradiction
  unfold canonicalArguments at h
  dsimp only at h
  split at h
  next =>
    cases h
    exact hbound
  next items =>
    split at h
    next hlen =>
      cases h
      exact hlen
    next => exact hother h
  next items =>
    split at h
    next hlen =>
      cases h
      exact hlen
    next => exact hother h
  next => exact hother h

def KeyFits (m : Model) (id : SpaceId) (key : Key) : Prop :=
  ∃ spec, m.signature id = .ok spec ∧ key.values.length = spec.params.length

/-- Under the invariant `P`, which is kept, the relation holds. -/
def Under (P : Model → Prop) (R : Model → Model → Prop) (m m' : Model) : Prop :=
  P m → P m' ∧ R m m'

instance (P : Model → Prop) (R : Model → Model → Prop) [Frame R] : Frame (Under P R) where
  refl m h := ⟨h, Frame.refl m⟩
  trans h h' hp := ⟨(h' (h hp).1).1, Frame.trans (h hp).2 (h' (h hp).1).2⟩

structure EvaluationFrame (P : Model → Prop) (R : Model → Model → Prop) : Prop where
  frame : Frame R
  start : ∀ m, Under P R m { m with runs := m.runs + 1 }
  note : ∀ m n, m.isLive n = true → Under P R m (noteRead n m)
  child : ∀ parent name, Obeys (Under P R) (ensureChild parent name)
  signature : ∀ m m', R m m' → ∀ id spec, m.signature id = .ok spec → m'.signature id = .ok spec
  item : ∀ id key m r m', m.KeyFits id key → ensureItem id key m = some (r, m') → Under P R m m'
  node : ∀ run : RunFormula, (∀ id f args, Obeys (Under P R) (run id f args)) →
    ∀ id c key m r m', m.cell id = .ok c → c.contents.get? key = none →
      compute run id c key m = some (r, m') → Under P R m m'

section Parts

variable {m : Model}

theorem space_eq_ok {id : SpaceId} {s : Space} : m.space id = .ok s ↔ m.spaces.get? id = some s := by
  unfold space
  cases m.spaces.get? id <;> simp

theorem cell_eq_ok {id : CellId} {c : Cells} : m.cell id = .ok c ↔ m.cells.get? id = some c := by
  unfold cell
  cases m.cells.get? id <;> simp

theorem reference_eq_ok {id : RefId} {r : Reference} :
    m.reference id = .ok r ↔ m.refs.get? id = some r := by
  unfold reference
  cases m.refs.get? id <;> simp

theorem except_bind_eq_ok {α β : Type} {x : Except Failure α} {f : α → Except Failure β} {b : β} :
    (x >>= f) = .ok b ↔ ∃ a, x = .ok a ∧ f a = .ok b := by
  cases x with
  | error e =>
    constructor
    · intro h
      cases h
    · rintro ⟨a, h, -⟩
      cases h
  | ok a =>
    constructor
    · exact fun h => ⟨a, rfl, h⟩
    · rintro ⟨a', h, h'⟩
      cases h
      exact h'

theorem toOption_eq_some {α : Type} {x : Except Failure α} {a : α} :
    x.toOption = some a ↔ x = .ok a := by
  cases x <;> simp [Except.toOption]

theorem isLive_of_stored {id : CellId} {c : Cells} {key : Key} {v : Value}
    (hc : m.cells.get? id = some c) (hv : c.contents.get? key = some v) :
    m.isLive (.cells id key) = true := by
  show (m.cells.get? id).any _ = true
  rw [hc, Option.any_some]
  show (c.contents.get? key).isSome = true
  rw [hv]
  rfl

theorem isLive_ref_of_meaning {r : Reference} {id : RefId} (h : m.refs.get? id = some r) :
    m.isLive (.ref id) = true := by
  show m.refs.contains id = true
  rw [Pool.contains, h]
  rfl

theorem refs_of_refMeaning {id : RefId} {current : SpaceId} {target : RefMeaning}
    (h : m.refMeaning id current = .ok target) : ∃ r, m.refs.get? id = some r := by
  unfold refMeaning at h
  obtain ⟨r, hr, -⟩ := except_bind_eq_ok.1 h
  exact ⟨r, reference_eq_ok.1 hr⟩

theorem refs_of_memberMeaning {id : SpaceId} {name : String} {r : RefId} {target : RefMeaning}
    (h : m.memberMeaning id name = .ok (some (.ref r target))) :
    ∃ v, m.refs.get? r = some v := by
  unfold memberMeaning at h
  obtain ⟨s, -, h⟩ := except_bind_eq_ok.1 h
  split at h
  next => cases h
  next =>
    split at h
    next => cases h
    next =>
      obtain ⟨counterpart, -, h⟩ := except_bind_eq_ok.1 h
      obtain ⟨source, -, h⟩ := except_bind_eq_ok.1 h
      split at h
      next => cases h
      next =>
        split at h
        next r' _ =>
          obtain ⟨target', htarget, h⟩ := except_bind_eq_ok.1 h
          cases h
          exact refs_of_refMeaning htarget
        next => cases h

/-- A name that means a reference means a live one. -/
theorem refs_of_meaning {id : SpaceId} {name : String} {r : RefId} {target : RefMeaning}
    (h : m.meaning id name = .ok (.ref r target)) : ∃ v, m.refs.get? r = some v := by
  unfold meaning at h
  obtain ⟨s, -, h⟩ := except_bind_eq_ok.1 h
  split at h
  · split at h <;> cases h
  · cases h
  · cases h
  · obtain ⟨found, hfound, h⟩ := except_bind_eq_ok.1 h
    split at h
    next found' =>
      cases h
      exact refs_of_memberMeaning hfound
    next =>
      obtain ⟨v, -, h⟩ := except_bind_eq_ok.1 h
      split at h
      next => cases h
      next =>
        split at h
        next r' _ =>
          obtain ⟨v', hv', h⟩ := except_bind_eq_ok.1 h
          cases h
          exact ⟨v', reference_eq_ok.1 hv'⟩
        next => cases h

end Parts

namespace EvaluationFrame

variable {P : Model → Prop} {R : Model → Model → Prop} (F : EvaluationFrame P R)
include F

theorem evaluateKey {run : RunFormula} (hrun : ∀ id f args, Obeys (Under P R) (run id f args))
    (id : CellId) (key : Key) : Obeys (Under P R) (evaluateKey run id key) := by
  have := F.frame
  intro m r m' h
  unfold Model.evaluateKey at h
  rw [read_bind] at h
  split at h
  next c hc =>
    cases hv : c.contents.get? key with
    | some v =>
      rw [hv] at h
      cases h
      exact F.note m _ (isLive_of_stored (cell_eq_ok.1 hc) hv)
    | none =>
      rw [hv] at h
      exact F.node run hrun id c key m r m' hc hv h
  next =>
    cases h
    exact Frame.refl m

theorem evaluate {run : RunFormula} (hrun : ∀ id f args, Obeys (Under P R) (run id f args))
    (id : CellId) (a : Arguments) : Obeys (Under P R) (evaluate run id a) := by
  have := F.frame
  exact obeys_bind (obeys_read _) fun key => F.evaluateKey hrun id key

/-- The key that a call of a space selects fits its parameters. -/
theorem itemKey {run : RunFormula} (hrun : ∀ id f args, Obeys (Under P R) (run id f args))
    (id : SpaceId) (a : Arguments) {m m' : Model} {r : Except Failure Key} (hp : P m)
    (h : itemKey run id a m = some (r, m')) :
    (P m' ∧ R m m') ∧ ∀ key, r = .ok key → m'.KeyFits id key := by
  have := F.frame
  have hfail : ∀ (m : Model) (e : Failure) (key : Key), Except.error e = Except.ok key →
      m.KeyFits id key := by
    intro m e key hkey
    cases hkey
  unfold Model.itemKey at h
  rw [read_bind] at h
  split at h
  next spec hspec =>
    rw [read_bind] at h
    split at h
    next bound hbound =>
      have hlen := length_matchArguments hbound
      cases hbinder : spec.binder with
      | none =>
        rw [hbinder] at h
        cases h
        refine ⟨⟨hp, Frame.refl m⟩, fun key hkey => ⟨spec, hspec, ?_⟩⟩
        rw [Key.length_ofValues hkey, hlen]
      | some binder =>
        rw [hbinder] at h
        simp only [attempt_bind] at h
        split at h
        next q m₁ hq =>
          have hr := hrun id binder bound m q m₁ hq hp
          split at h
          next e =>
            cases h
            exact ⟨hr, hfail _ _⟩
          next given =>
            cases h
            refine ⟨hr, fun key hkey => ⟨spec, F.signature m m' hr.2 id spec hspec, ?_⟩⟩
            obtain ⟨vs, hvs, hkey⟩ := except_bind_eq_ok.1 hkey
            rw [Key.length_ofValues hkey, length_canonicalArguments hlen hvs]
        next => contradiction
    next =>
      cases h
      exact ⟨⟨hp, Frame.refl m⟩, hfail _ _⟩
  next =>
    cases h
    exact ⟨⟨hp, Frame.refl m⟩, hfail _ _⟩

theorem instantiate {run : RunFormula} (hrun : ∀ id f args, Obeys (Under P R) (run id f args))
    (id : SpaceId) (a : Arguments) : Obeys (Under P R) (instantiate run id a) := by
  have := F.frame
  intro m r m' h hp
  rcases (bind_eq_some m).1 h with ⟨key, m₁, hkey, hitem⟩ | ⟨e, hkey, -⟩
  · obtain ⟨hr, hfits⟩ := F.itemKey hrun id a hp hkey
    exact (Frame.trans (fun _ => hr) (F.item id key m₁ r m' (hfits key rfl) hitem) :
      Under P R m m') hp
  · exact (F.itemKey hrun id a hp hkey).1

theorem ensurePath (path : List String) (id : SpaceId) : Obeys (Under P R) (ensurePath path id) := by
  have := F.frame
  induction path generalizing id with
  | nil => exact obeys_pure id
  | cons name rest ih => exact obeys_bind (F.child id name) fun child => ih child

theorem ensurePlace (target : Place) : Obeys (Under P R) (ensurePlace target) := by
  have := F.frame
  cases target with
  | existing id => exact obeys_bind (obeys_read _) fun _ => obeys_pure id
  | pending start path => exact F.ensurePath path start

theorem handleValue (target : Place) : Obeys (Under P R) (handleValue target) := by
  have := F.frame
  exact obeys_bind (F.ensurePlace target) fun id => obeys_bind (obeys_read _) fun _ => obeys_pure _

theorem applyCall {run : RunFormula} (hrun : ∀ id f args, Obeys (Under P R) (run id f args))
    (name : String) (call : Option Arguments) (v : Value) :
    Obeys (Under P R) (applyCall run name call v) := by
  have := F.frame
  unfold Model.applyCall
  split
  · exact obeys_pure _
  · exact obeys_bind (F.instantiate hrun _ _) fun _ => obeys_pure _
  · exact obeys_fail _

theorem readName {run : RunFormula} (hrun : ∀ id f args, Obeys (Under P R) (run id f args))
    (id : SpaceId) (name : String) (call : Option Arguments) :
    Obeys (Under P R) (readName run id name call) := by
  have := F.frame
  intro m r m' h
  unfold Model.readName at h
  rw [read_bind] at h
  split at h
  next found hfound =>
    split at h
    next c => exact F.evaluate hrun c _ m r m' h
    next target =>
      exact obeys_bind (F.handleValue target) (fun v => F.applyCall hrun name call v) m r m' h
    next ref target =>
      obtain ⟨v, hv⟩ := refs_of_meaning hfound
      rw [modify_bind] at h
      refine Frame.trans (F.note m _ (isLive_ref_of_meaning hv)) ?_
      split at h
      next v => exact F.applyCall hrun name call v _ r m' h
      next target =>
        exact obeys_bind (F.handleValue target) (fun v => F.applyCall hrun name call v) _ r m' h
    next v => exact F.applyCall hrun name call v m r m' h
    next =>
      exact obeys_bind obeys_get (fun _ => F.applyCall hrun name call _) m r m' h
  next =>
    cases h
    exact Frame.refl m

theorem answer {run : RunFormula} (hrun : ∀ id f args, Obeys (Under P R) (run id f args))
    (id : SpaceId) (q : Query) : Obeys (Under P R) (answer run id q) := by
  have := F.frame
  cases q with
  | lookup place name call => exact F.readName hrun _ name call
  | item h args => exact obeys_bind (F.instantiate hrun h.id _) fun _ => obeys_pure _
  | argValues h =>
    refine obeys_bind (obeys_read _) fun vs => ?_
    cases vs <;> exact obeys_pure _
  | here => exact obeys_bind (obeys_read _) fun _ => obeys_pure _
  | modelName => exact obeys_bind obeys_get fun _ => obeys_pure _
  | depth => exact obeys_bind obeys_get fun _ => obeys_pure _

omit F in
theorem runBody [Frame R] {ask : Query → Action Value} (hask : ∀ q, Obeys (Under P R) (ask q))
    (body : Body Value) : Obeys (Under P R) (runBody ask body) := by
  induction body with
  | done r => exact obeys_ofExcept r
  | ask q resume ih => exact obeys_bind (obeys_attempt (hask q)) fun r => ih r

theorem runFormula (fuel : Nat) (id : SpaceId) (f : Formula) (args : List Value) :
    Obeys (Under P R) (runFormula fuel id f args) := by
  have := F.frame
  induction fuel generalizing id f args with
  | zero => exact obeys_exhausted
  | succ fuel ih =>
    unfold Model.runFormula
    split
    · exact obeys_pure _
    · exact obeys_bind (obeys_modify F.start) fun _ =>
        runBody (fun q => F.answer ih id q) _

end EvaluationFrame

end Model

end Recalc
