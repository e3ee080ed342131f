import Recalc.Evaluate
import Recalc.Expr

set_option autoImplicit false

/-!
# Failures up to labels

A failure names entities by labels, which differ between two spaces that do the same. Two outcomes
match when they are the same value, or failures that differ in labels only. A plain formula reads
and calls bare names, and given answers that match its body gives results that match; so it looks
at the kind of a failure and not at its labels. Every expression that is bare makes one.
-/

namespace Recalc

def Failure.unlabelled : Failure → Failure
  | .circular cycle => .circular (cycle.map fun _ => "")
  | .inFormula cause trace => .inFormula cause.unlabelled (trace.map fun _ => "")
  | .noneReturned _ => .noneReturned ""
  | .unknownName name _ => .unknownName name ""
  | .invalidArguments _ detail => .invalidArguments "" detail
  | e => e

/-- The same value, or failures that differ in labels only. -/
inductive Matches {α : Type} : Except Failure α → Except Failure α → Prop
  | ok (a : α) : Matches (.ok a) (.ok a)
  | error {e e' : Failure} : e.unlabelled = e'.unlabelled → Matches (.error e) (.error e')

/-- Two bodies that ask for the same bare names, and end alike when they are answered alike. -/
inductive Body.Matches {α : Type} : Body α → Body α → Prop
  | done {r r' : Except Failure α} : Recalc.Matches r r' → Matches (.done r) (.done r')
  | ask {name : String} {call : Option Arguments} {k k' : Except Failure Value → Body α} :
      SystemName.ofString? name = none →
      (∀ r r', Recalc.Matches r r' → Matches (k r) (k' r')) →
      Matches (.ask (.lookup none name call) k) (.ask (.lookup none name call) k')

/-- The formula reads and calls bare names only, and looks at no label of a failure. -/
def Formula.Plain (f : Formula) : Prop :=
  match f.rule with
  | .constant _ => True
  | .computed body _ => ∀ args, (body args).Matches (body args)

namespace Failure

theorem kind_unlabelled (e : Failure) : e.unlabelled.kind = e.kind := by cases e <;> rfl

theorem unwindsUnchanged_unlabelled (e : Failure) :
    e.unlabelled.unwindsUnchanged = e.unwindsUnchanged := by cases e <;> rfl

theorem innermost_unlabelled (e : Failure) : e.unlabelled.innermost = e.innermost.unlabelled := by
  induction e with
  | inFormula cause trace ih => exact ih
  | _ => rfl

/-- Failures that differ in labels only have the same root cause. -/
theorem rootKind_eq {e e' : Failure} (h : e.unlabelled = e'.unlabelled) :
    e.innermost.kind = e'.innermost.kind := by
  rw [← kind_unlabelled, ← innermost_unlabelled, h, innermost_unlabelled, kind_unlabelled]

/-- Lists of labels are told apart by their lengths only. -/
theorem map_unlabelled {l l' : List String} (h : l.length = l'.length) :
    (l.map fun _ => "") = l'.map fun _ => "" := by
  rw [List.map_const', List.map_const', h]

end Failure

section Outcomes

variable {α β : Type}

theorem Matches.refl (r : Except Failure α) : Matches r r := by
  cases r with
  | ok a => exact .ok a
  | error e => exact .error rfl

theorem Matches.bind {x x' : Except Failure α} {f f' : α → Except Failure β} (h : Matches x x')
    (hf : ∀ a, Matches (f a) (f' a)) : Matches (x >>= f) (x' >>= f') := by
  cases h with
  | ok a => exact hf a
  | error he => exact .error he

theorem Matches.map {x x' : Except Failure α} (f : α → β) (h : Matches x x') :
    Matches (x.map f) (x'.map f) := by
  cases h with
  | ok a => exact .ok (f a)
  | error he => exact .error he

/-- The target that a failed binding names is a label. -/
theorem matches_matchArguments (params : List Param) (a : Arguments) (target target' : String) :
    Matches (matchArguments params a target) (matchArguments params a target') := by
  have hnamed : ∀ (l : List (String × Value)) slots, Matches
      (Binding.placeNamed params (.invalidArguments target) l slots)
      (Binding.placeNamed params (.invalidArguments target') l slots) := by
    intro l
    induction l with
    | nil => exact fun slots => .ok slots
    | cons e l ih =>
      intro slots
      rw [Binding.placeNamed, Binding.placeNamed]
      split
      · exact .error rfl
      · split
        · exact .error rfl
        · exact ih _
  have hdefaults : ∀ (ps : List Param) slots, Matches
      (Binding.fillDefaults (.invalidArguments target) ps slots)
      (Binding.fillDefaults (.invalidArguments target') ps slots) := by
    intro ps
    induction ps with
    | nil => exact fun slots => .ok []
    | cons p ps ih =>
      intro slots
      cases slots with
      | nil => exact .ok []
      | cons slot slots =>
        rw [Binding.fillDefaults, Binding.fillDefaults]
        split
        · exact (ih slots).map _
        · exact .error rfl
  unfold matchArguments
  dsimp only
  split
  · exact .error rfl
  · have h := hnamed a.named (Binding.placePositional params a.positional)
    revert h
    generalize Binding.placeNamed params (.invalidArguments target) a.named _ = x
    generalize Binding.placeNamed params (.invalidArguments target') a.named _ = x'
    rintro (slots | he)
    · exact hdefaults params slots
    · exact .error he

/-- Cells with the same formula bind arguments to the same key. -/
theorem Model.matches_bindCells {m m' : Model} {c c' : CellId} {d d' : Cells}
    (hd : m.cells.get? c = some d) (hd' : m'.cells.get? c' = some d')
    (hformula : d'.formula = d.formula) (a : Arguments) :
    Matches (m.bindCells c a) (m'.bindCells c' a) := by
  unfold bindCells cell
  simp only [hd, hd', hformula, bind, Except.bind]
  cases d.formula with
  | none =>
    dsimp only
    split
    · exact .refl _
    · exact .error rfl
  | some f => exact (matches_matchArguments f.params a _ _).bind fun _ => .refl _

end Outcomes

/-! ## Bare expressions -/

namespace Body

variable {α β : Type}

theorem matches_ofExcept (r : Except Failure α) : (Body.ofExcept r).Matches (Body.ofExcept r) :=
  .done (.refl r)

theorem matches_pure (a : α) : (pure a : Body α).Matches (pure a) := .done (.ok a)

theorem Matches.bind {x x' : Body α} {f f' : α → Body β} (h : x.Matches x')
    (hf : ∀ a, (f a).Matches (f' a)) : (x >>= f).Matches (x' >>= f') := by
  induction h with
  | done hr =>
    cases hr with
    | ok a => exact hf a
    | error he => exact .done (.error he)
  | ask hname _ ih => exact .ask hname ih

theorem Matches.attempt_bind {x x' : Body α} {f f' : Except Failure α → Body β}
    (h : x.Matches x') (hf : ∀ r r', Recalc.Matches r r' → (f r).Matches (f' r')) :
    (x.attempt >>= f).Matches (x'.attempt >>= f') := by
  induction h with
  | done hr => exact hf _ _ hr
  | ask hname _ ih => exact .ask hname ih

theorem matches_query {name : String} (hname : SystemName.ofString? name = none)
    (call : Option Arguments) :
    (Body.query (.lookup none name call)).Matches (Body.query (.lookup none name call)) :=
  .ask hname fun _ _ hr => .done hr

end Body

namespace Expr

mutual

def isBare : Expr → Bool
  | .literal _ | .arg _ | .fail _ => true
  | .read name => (SystemName.ofString? name).isNone
  | .call name es named => (SystemName.ofString? name).isNone && areBare es && areBareNamed named
  | .readIn _ _ | .callIn _ _ _ | .item _ _ | .ask _ _ => false
  | .cond test yes no => isBare test && isBare yes && isBare no
  | .recover tried instead => isBare tried && isBare instead
  | .kindOf tried => isBare tried
  | .seq es | .apply _ es => areBare es

def areBare : List Expr → Bool
  | [] => true
  | e :: es => isBare e && areBare es

def areBareNamed : List (String × Expr) → Bool
  | [] => true
  | (_, e) :: rest => isBare e && areBareNamed rest

end

mutual

theorem matches_eval (args : List Value) : (e : Expr) → e.isBare = true →
    (e.eval args).Matches (e.eval args)
  | .literal v, _ => Body.matches_pure v
  | .arg position, _ => Body.matches_ofExcept _
  | .read name, h => Body.matches_query (Option.isNone_iff_eq_none.1 h) none
  | .call name es named, h => by
    simp only [isBare, Bool.and_eq_true, Option.isNone_iff_eq_none] at h
    refine (matches_evalAll args es h.1.2).bind fun vs => ?_
    exact (matches_evalNamed args named h.2).bind fun more => Body.matches_query h.1.1 _
  | .cond test yes no, h => by
    simp only [isBare, Bool.and_eq_true] at h
    refine (matches_eval args test h.1.1).bind fun v => ?_
    refine (Body.matches_ofExcept _).bind fun b => ?_
    cases b
    · exact matches_eval args no h.2
    · exact matches_eval args yes h.1.2
  | .seq es, h => (matches_evalAll args es h).bind fun vs => Body.matches_pure _
  | .recover tried instead, h => by
    simp only [isBare, Bool.and_eq_true] at h
    refine (matches_eval args tried h.1).attempt_bind fun r r' hr => ?_
    cases hr with
    | ok v => exact Body.matches_pure v
    | error he => exact matches_eval args instead h.2
  | .kindOf tried, h => by
    refine (matches_eval args tried h).attempt_bind fun r r' hr => ?_
    cases hr with
    | ok v => exact Body.matches_pure v
    | @error e e' he =>
      have hkind : e.kind = e'.kind := by rw [← e.kind_unlabelled, he, e'.kind_unlabelled]
      show Body.Matches (pure (Value.text e.kind.name)) (pure (Value.text e'.kind.name))
      rw [hkind]
      exact Body.matches_pure _
  | .fail failure, _ => .done (.error rfl)
  | .apply op es, h => (matches_evalAll args es h).bind fun vs => Body.matches_ofExcept _

theorem matches_evalAll (args : List Value) : (es : List Expr) → areBare es = true →
    (evalAll args es).Matches (evalAll args es)
  | [], _ => Body.matches_pure []
  | e :: es, h => by
    simp only [areBare, Bool.and_eq_true] at h
    refine (matches_eval args e h.1).bind fun v => ?_
    exact (matches_evalAll args es h.2).bind fun vs => Body.matches_pure _

theorem matches_evalNamed (args : List Value) : (named : List (String × Expr)) →
    areBareNamed named = true → (evalNamed args named).Matches (evalNamed args named)
  | [], _ => Body.matches_pure []
  | (name, e) :: rest, h => by
    simp only [areBareNamed, Bool.and_eq_true] at h
    refine (matches_eval args e h.1).bind fun v => ?_
    exact (matches_evalNamed args rest h.2).bind fun more => Body.matches_pure _

end

/-- A formula written as a bare expression is plain, whatever it catches. -/
theorem plain_rule {f : Formula} {e : Expr} (hrule : f.rule = e.rule) (h : e.isBare = true) :
    f.Plain := by
  unfold Formula.Plain
  rw [hrule]
  exact fun args => matches_eval args e h

end Expr

end Recalc
