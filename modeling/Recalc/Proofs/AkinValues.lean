import Mathlib.Data.List.Forall2
import Mathlib.Data.Option.Basic
import Recalc.Evaluate

set_option autoImplicit false

/-!
# Akin values

Values are akin when they are equal, failures when they are of the same kind. Akin arguments bind to
akin values and have equal keys, or neither has: what equality does not tell apart, binding and
normal forms do not tell apart either.
-/

namespace Recalc

/-- Failures of one kind, with root causes of one kind. -/
def Failure.Akin (e e' : Failure) : Prop :=
  e.kind = e'.kind ∧ e.innermost.kind = e'.innermost.kind

inductive AkinResult {α β : Type} (R : α → β → Prop) : Except Failure α → Except Failure β → Prop
  | ok {a : α} {b : β} : R a b → AkinResult R (.ok a) (.ok b)
  | error {e e' : Failure} : e.Akin e' → AkinResult R (.error e) (.error e')

section Results

variable {α β γ δ : Type} {R : α → β → Prop} {S : γ → δ → Prop}

/-! Of failures of one kind, the particulars do not matter. -/

namespace Failure.Akin

theorem refl (e : Failure) : e.Akin e := ⟨rfl, rfl⟩

theorem circular (cycle cycle' : List String) :
    (Failure.circular cycle).Akin (.circular cycle') := ⟨rfl, rfl⟩

theorem inFormula {e e' : Failure} (h : e.Akin e') (trace trace' : List String) :
    (Failure.inFormula e trace).Akin (.inFormula e' trace') := ⟨rfl, h.2⟩

theorem noneReturned (node node' : String) :
    (Failure.noneReturned node).Akin (.noneReturned node') := ⟨rfl, rfl⟩

theorem tooDeep (depth depth' max max' : Nat) :
    (Failure.tooDeep depth max).Akin (.tooDeep depth' max') := ⟨rfl, rfl⟩

theorem unknownName (name name' scope scope' : String) :
    (Failure.unknownName name scope).Akin (.unknownName name' scope') := ⟨rfl, rfl⟩

theorem inputOverwritten (node node' : String) :
    (Failure.inputOverwritten node).Akin (.inputOverwritten node') := ⟨rfl, rfl⟩

theorem raised (message message' : String) :
    (Failure.raised message).Akin (.raised message') := ⟨rfl, rfl⟩

theorem invalidArguments (target target' detail detail' : String) :
    (Failure.invalidArguments target detail).Akin (.invalidArguments target' detail') :=
  ⟨rfl, rfl⟩

theorem unwindsUnchanged {e e' : Failure} (h : e.Akin e') :
    e.unwindsUnchanged = e'.unwindsUnchanged := by
  have hkind := h.1
  cases e <;> cases e' <;> first | rfl | cases hkind

end Failure.Akin

namespace AkinResult

theorem refl {R : α → α → Prop} (h : ∀ a, R a a) (r : Except Failure α) : AkinResult R r r := by
  cases r with
  | ok a => exact .ok (h a)
  | error e => exact .error (.refl e)

theorem bind {x : Except Failure α} {x' : Except Failure β} {f : α → Except Failure γ}
    {f' : β → Except Failure δ} (h : AkinResult R x x')
    (hf : ∀ a b, R a b → AkinResult S (f a) (f' b)) : AkinResult S (x >>= f) (x' >>= f') := by
  cases h with
  | ok hab => exact hf _ _ hab
  | error he => exact .error he

theorem map {x : Except Failure α} {x' : Except Failure β} {f : α → γ} {f' : β → δ}
    (h : AkinResult R x x') (hf : ∀ a b, R a b → S (f a) (f' b)) :
    AkinResult S (x.map f) (x'.map f') := by
  cases h with
  | ok hab => exact .ok (hf _ _ hab)
  | error he => exact .error he

end AkinResult

theorem forall₂_getElem? {l : List α} {l' : List β} (h : List.Forall₂ R l l') (i : Nat) :
    Option.Rel R l[i]? l'[i]? := by
  induction h generalizing i with
  | nil => exact .none
  | cons hab _ ih =>
    cases i with
    | zero => exact .some hab
    | succ i => exact ih i

theorem forall₂_set {l : List α} {l' : List β} (h : List.Forall₂ R l l') (i : Nat) {a : α} {b : β}
    (hab : R a b) : List.Forall₂ R (l.set i a) (l'.set i b) := by
  induction h generalizing i with
  | nil => exact .nil
  | cons hcd hrest ih =>
    cases i with
    | zero => exact .cons hab hrest
    | succ i => exact .cons hcd (ih i)

end Results

/-! ## Values and keys -/

/-- Equal handles name one space. -/
theorem Handle.beq_iff {h h' : Handle} : (h == h') = true ↔ h.id = h'.id :=
  (beq_iff_eq : (h.id == h'.id) = true ↔ h.id = h'.id)

namespace Value

abbrev Akin (v w : Value) : Prop := (v == w) = true

theorem sameItems_iff {vs ws : List Value} :
    sameItems vs ws = true ↔ List.Forall₂ Akin vs ws := by
  induction vs generalizing ws with
  | nil => cases ws <;> simp [sameItems]
  | cons v vs ih =>
    cases ws with
    | nil => simp [sameItems]
    | cons w ws =>
      rw [sameItems, Bool.and_eq_true, ih, List.forall₂_cons]
      rfl

theorem Akin.isEmpty {v w : Value} (h : v.Akin w) : v.isEmpty = w.isEmpty := by
  cases v <;> cases w <;> first | rfl | cases h

mutual

/-- Equal values have equal normal forms. -/
theorem akin_normalize : (v w : Value) → v.Akin w → AkinResult Akin (normalize v) (normalize w)
  | .tuple vs, w, h => by
    cases w with
    | tuple ws =>
      exact (akin_normalizeItems vs ws (sameItems_iff.1 h)).map fun _ _ => sameItems_iff.2
    | _ => cases h
  | .list vs, w, h => by
    cases w with
    | list ws =>
      exact (akin_normalizeItems vs ws (sameItems_iff.1 h)).map fun _ _ => sameItems_iff.2
    | _ => cases h
  | .empty, w, h | .bool _, w, h | .int _, w, h | .number _, w, h | .text _, w, h
  | .space _, w, h => by cases w <;> first | exact .ok h | cases h
  | .host _, w, h => by cases w <;> first | exact .error ⟨rfl, rfl⟩ | cases h

theorem akin_normalizeItems : (vs ws : List Value) → List.Forall₂ Akin vs ws →
    AkinResult (List.Forall₂ Akin) (normalizeItems vs) (normalizeItems ws)
  | [], ws, h => by
    cases h
    exact .ok .nil
  | v :: vs, ws, h => by
    cases h with
    | @cons _ w _ ws hv hvs =>
      have hfirst := akin_normalize v w hv
      have hrest := akin_normalizeItems vs ws hvs
      rw [normalizeItems, normalizeItems]
      generalize normalize v = r, normalize w = r' at hfirst
      cases hfirst with
      | error he => exact .error he
      | ok hab => exact hrest.map fun _ _ => List.Forall₂.cons hab

end

end Value

/-- Equal arguments make equal keys. -/
theorem Key.akin_ofValues {vs ws : List Value} (h : List.Forall₂ Value.Akin vs ws) :
    AkinResult (fun k k' => (k == k') = true) (Key.ofValues vs) (Key.ofValues ws) := by
  have hitems := Value.akin_normalizeItems vs ws h
  unfold Key.ofValues
  split <;> split
  next us hus us' hus' =>
    rw [hus, hus'] at hitems
    cases hitems with
    | ok h => exact .ok (Value.sameItems_iff.2 h)
  next us hus e hus' =>
    rw [hus, hus'] at hitems
    cases hitems
  next e hus us' hus' =>
    rw [hus, hus'] at hitems
    cases hitems
  next e hus e' hus' =>
    rw [hus, hus'] at hitems
    cases hitems with
    | error h => exact .error h

/-! ## Binding -/

structure Arguments.Akin (a b : Arguments) : Prop where
  positional : List.Forall₂ Value.Akin a.positional b.positional
  named : List.Forall₂ (fun p q => p.1 = q.1 ∧ p.2.Akin q.2) a.named b.named

theorem Arguments.Akin.of_positional {vs ws : List Value} (h : List.Forall₂ Value.Akin vs ws) :
    Arguments.Akin { positional := vs } { positional := ws } := ⟨h, .nil⟩

theorem Arguments.Akin.refl (a : Arguments) : a.Akin a :=
  ⟨List.forall₂_same.2 fun _ _ => BEq.rfl, List.forall₂_same.2 fun _ _ => ⟨rfl, BEq.rfl⟩⟩

namespace Binding

variable (params : List Param) (target target' : String)

theorem akin_placePositional {vs ws : List Value} (h : List.Forall₂ Value.Akin vs ws) :
    List.Forall₂ (Option.Rel Value.Akin) (placePositional params vs)
      (placePositional params ws) := by
  unfold placePositional
  rw [h.length_eq]
  refine List.rel_append ?_ (List.forall₂_same.2 fun slot hslot => ?_)
  · rw [List.forall₂_map_left_iff, List.forall₂_map_right_iff]
    exact h.imp fun _ _ => Option.Rel.some
  · rw [List.eq_of_mem_replicate hslot]
    exact .none

theorem akin_placeNamed {named named' : List (String × Value)}
    (h : List.Forall₂ (fun p q => p.1 = q.1 ∧ p.2.Akin q.2) named named')
    {slots slots' : List (Option Value)}
    (hslots : List.Forall₂ (Option.Rel Value.Akin) slots slots') :
    AkinResult (List.Forall₂ (Option.Rel Value.Akin))
      (placeNamed params (.invalidArguments target) named slots)
      (placeNamed params (.invalidArguments target') named' slots') := by
  induction h generalizing slots slots' with
  | nil => exact .ok hslots
  | @cons p q _ _ hpq _ ih =>
    obtain ⟨name, v⟩ := p
    obtain ⟨name', w⟩ := q
    obtain ⟨rfl, hv⟩ := hpq
    rw [placeNamed, placeNamed]
    cases position? params name with
    | none => exact .error (.invalidArguments ..)
    | some i =>
      dsimp only
      have hslot := forall₂_getElem? hslots i
      generalize slots[i]? = slot, slots'[i]? = slot' at hslot
      cases hslot with
      | none => exact ih (forall₂_set hslots i (.some hv))
      | some hslot =>
        cases hslot with
        | none => exact ih (forall₂_set hslots i (.some hv))
        | some _ => exact .error (.invalidArguments ..)

theorem akin_fillDefaults {slots slots' : List (Option Value)}
    (hslots : List.Forall₂ (Option.Rel Value.Akin) slots slots') :
    AkinResult (List.Forall₂ Value.Akin) (fillDefaults (.invalidArguments target) params slots)
      (fillDefaults (.invalidArguments target') params slots') := by
  induction params generalizing slots slots' with
  | nil => exact .ok .nil
  | cons p params ih =>
    cases hslots with
    | nil => exact .ok .nil
    | @cons slot slot' _ _ hslot hrest =>
      have hvalue : Option.Rel Value.Akin (slot.or p.default) (slot'.or p.default) := by
        cases hslot with
        | some h => exact .some h
        | none =>
          cases p.default with
          | none => exact .none
          | some v => exact .some BEq.rfl
      rw [fillDefaults, fillDefaults]
      generalize slot.or p.default = v, slot'.or p.default = w at hvalue
      cases hvalue with
      | none => exact .error (.invalidArguments ..)
      | some h => exact (ih hrest).map fun _ _ => .cons h

end Binding

/-- Akin arguments bind to equal values, whatever the target is called. -/
theorem akin_matchArguments {a b : Arguments} (h : a.Akin b) (params : List Param)
    (target target' : String) : AkinResult (List.Forall₂ Value.Akin)
      (matchArguments params a target) (matchArguments params b target') := by
  unfold matchArguments
  dsimp only
  rw [← h.positional.length_eq]
  split
  · exact .error (.invalidArguments ..)
  · have hplaced := Binding.akin_placeNamed params target target' h.named
      (Binding.akin_placePositional params h.positional)
    revert hplaced
    generalize Binding.placeNamed params (.invalidArguments target) a.named _ = r
    generalize Binding.placeNamed params (.invalidArguments target') b.named _ = r'
    rintro (hslots | he)
    · exact Binding.akin_fillDefaults params target target' hslots
    · exact .error he

/-- Equal answers of a binder select equal arguments. -/
theorem Model.akin_canonicalArguments (spec : Signature) (target target' : String)
    {bound bound' : List Value} (hbound : List.Forall₂ Value.Akin bound bound')
    {given given' : Value} (hgiven : given.Akin given') :
    AkinResult (List.Forall₂ Value.Akin) (canonicalArguments spec target bound given)
      (canonicalArguments spec target' bound' given') := by
  have hother : AkinResult (List.Forall₂ Value.Akin)
      (if spec.params.length = 1 then .ok [given]
        else .error (.invalidArguments target ("binder returned " ++ given.display ++
          ", expected a tuple of " ++ toString spec.params.length ++ " values")))
      (if spec.params.length = 1 then .ok [given']
        else .error (.invalidArguments target' ("binder returned " ++ given'.display ++
          ", expected a tuple of " ++ toString spec.params.length ++ " values"))) := by
    split
    · exact .ok (.cons hgiven .nil)
    · exact .error (.invalidArguments ..)
  have hitems : ∀ {items items' : List Value} {r r' : Except Failure (List Value)},
      List.Forall₂ Value.Akin items items' → AkinResult (List.Forall₂ Value.Akin) r r' →
      AkinResult (List.Forall₂ Value.Akin)
        (if items.length = spec.params.length then .ok items else r)
        (if items'.length = spec.params.length then .ok items' else r') := by
    intro items items' r r' hitems hr
    rw [← hitems.length_eq]
    split
    · exact .ok hitems
    · exact hr
  unfold canonicalArguments
  dsimp only
  cases given with
  | empty => cases given' <;> first | exact .ok hbound | cases hgiven
  | tuple items =>
    cases given' with
    | tuple items' => exact hitems (Value.sameItems_iff.1 hgiven) hother
    | _ => cases hgiven
  | list items =>
    cases given' with
    | list items' => exact hitems (Value.sameItems_iff.1 hgiven) hother
    | _ => cases hgiven
  | _ => cases given' <;> first | exact hother | cases hgiven

end Recalc
