import Recalc.Expr
import Recalc.Proofs.AkinValues

set_option autoImplicit false

/-!
# Bodies that respect equality

A formula respects equality when equal arguments and akin answers lead it to akin questions and to
an akin end: it tells no two equal values apart. An expression does, whatever it reads and calls,
unless it calculates with numbers, compares them by size or describes a value in a text.
-/

namespace Recalc

inductive Query.Akin : Query → Query → Prop
  | lookup {place place' : Option Handle} (name : String) {call call' : Option Arguments} :
      Option.Rel (fun h h' => (h == h') = true) place place' →
      Option.Rel Arguments.Akin call call' →
      Akin (.lookup place name call) (.lookup place' name call')
  | item {h h' : Handle} {args args' : List Value} : (h == h') = true →
      List.Forall₂ Value.Akin args args' → Akin (.item h args) (.item h' args')
  | argValues {h h' : Handle} : (h == h') = true → Akin (.argValues h) (.argValues h')
  | here : Akin .here .here
  | modelName : Akin .modelName .modelName
  | depth : Akin .depth .depth

/-- Bodies that ask akin questions, and go on alike with akin answers up to related results. -/
inductive Body.Akin {α β : Type} (R : α → β → Prop) : Body α → Body β → Prop
  | done {r : Except Failure α} {r' : Except Failure β} : AkinResult R r r' →
      Akin R (.done r) (.done r')
  | ask {q q' : Query} {resume : Except Failure Value → Body α}
      {resume' : Except Failure Value → Body β} : q.Akin q' →
      (∀ r r', AkinResult Value.Akin r r' → Akin R (resume r) (resume' r')) →
      Akin R (.ask q resume) (.ask q' resume')

/-- Equal arguments make akin bodies. -/
def Formula.Respectful (f : Formula) : Prop :=
  match f.rule with
  | .constant _ => True
  | .computed body _ => ∀ vs ws, List.Forall₂ Value.Akin vs ws →
      Body.Akin Value.Akin (body vs) (body ws)

namespace Body.Akin

variable {α β γ δ : Type} {R : α → β → Prop} {S : γ → δ → Prop}

theorem pure {a : α} {b : β} (h : R a b) : Body.Akin R (Pure.pure a) (Pure.pure b) := .done (.ok h)

theorem bind {x : Body α} {x' : Body β} {f : α → Body γ} {f' : β → Body δ} (h : Body.Akin R x x')
    (hf : ∀ a b, R a b → Body.Akin S (f a) (f' b)) : Body.Akin S (x >>= f) (x' >>= f') := by
  induction h with
  | done hr =>
    cases hr with
    | ok hab => exact hf _ _ hab
    | error he => exact .done (.error he)
  | ask hq _ ih => exact .ask hq ih

theorem attempt_bind {x : Body α} {x' : Body β} {f : Except Failure α → Body γ}
    {f' : Except Failure β → Body δ} (h : Body.Akin R x x')
    (hf : ∀ r r', AkinResult R r r' → Body.Akin S (f r) (f' r')) :
    Body.Akin S (x.attempt >>= f) (x'.attempt >>= f') := by
  induction h with
  | done hr => exact hf _ _ hr
  | ask hq _ ih => exact .ask hq ih

theorem query {q q' : Query} (h : q.Akin q') :
    Body.Akin Value.Akin (Body.query q) (Body.query q') := .ask h fun _ _ hr => .done hr

end Body.Akin

/-! ## Operations -/

namespace Value

variable {α : Type} {R : α → α → Prop} {v w : Value}

theorem akin_demand {view : Value → Option α} (wanted : String)
    (h : Option.Rel R (view v) (view w)) :
    AkinResult R (v.demand wanted view) (w.demand wanted view) := by
  unfold demand
  generalize view v = o, view w = o' at h
  cases h with
  | none => exact .error (.raised ..)
  | some h => exact .ok h

theorem akin_orEmpty {o o' : Option Value} (h : Option.Rel Akin o o') :
    (o.getD .empty).Akin (o'.getD .empty) := by
  cases h with
  | none => exact BEq.rfl
  | some h => exact h

theorem Akin.toInt? (h : v.Akin w) : v.toInt? = w.toInt? := by
  cases v <;> cases w <;> try first | rfl | cases h
  case bool.bool a b => rw [show a = b from beq_iff_eq.1 h]
  case int.int i j => rw [show i = j from beq_iff_eq.1 h]

theorem Akin.toBool? (h : v.Akin w) : v.toBool? = w.toBool? := by
  cases v <;> cases w <;> try first | rfl | cases h
  case bool.bool a b => rw [show a = b from beq_iff_eq.1 h]

theorem Akin.toText? (h : v.Akin w) : v.toText? = w.toText? := by
  cases v <;> cases w <;> try first | rfl | cases h
  case text.text s t => rw [show s = t from beq_iff_eq.1 h]

theorem Akin.toNumber? (h : v.Akin w) :
    Option.Rel (fun x y => x.same y = true) v.toNumber? w.toNumber? := by
  cases v <;> cases w <;> try first | exact .none | cases h
  case bool.bool a b =>
    rw [show a = b from beq_iff_eq.1 h]
    exact .some (beq_self_eq_true _)
  case int.int i j =>
    rw [show i = j from beq_iff_eq.1 h]
    exact .some (beq_self_eq_true _)
  case number.number x y => exact .some h

theorem Akin.toSpace? (h : v.Akin w) :
    Option.Rel (fun a b => (a == b) = true) v.toSpace? w.toSpace? := by
  cases v <;> cases w <;> first | exact .none | exact .some h | cases h

theorem Akin.toItems? (h : v.Akin w) :
    Option.Rel (List.Forall₂ Akin) v.toItems? w.toItems? := by
  cases v <;> cases w <;> first | exact .none | exact .some (sameItems_iff.1 h) | cases h

theorem rel_of_eq {o o' : Option α} (h : o = o') : Option.Rel Eq o o' := by
  subst h
  cases o with
  | none => exact .none
  | some a => exact .some rfl

end Value

namespace Operation

/-- The operation makes the same of equal values. Arithmetic, the order of numbers and descriptions
are left out: they show the sign of a zero. -/
def isFair : Operation → Bool
  | .add | .sub | .mul | .div | .less | .describe => false
  | _ => true

theorem akin_remainder {a a' b b' : Value} (ha : a.Akin a') (hb : b.Akin b') :
    AkinResult Value.Akin (remainder a b) (remainder a' b') := by
  unfold remainder
  refine (Value.akin_demand _ (Value.rel_of_eq ha.toInt?)).bind fun i i' hi => ?_
  refine (Value.akin_demand _ (Value.rel_of_eq hb.toInt?)).bind fun j j' hj => ?_
  subst hi hj
  exact .refl (fun _ => BEq.rfl) _

theorem akin_itemAt {v v' position position' : Value} (hv : v.Akin v')
    (hposition : position.Akin position') :
    AkinResult Value.Akin (itemAt v position) (itemAt v' position') := by
  unfold itemAt
  refine (Value.akin_demand _ (Value.rel_of_eq hposition.toInt?)).bind fun i i' hi => ?_
  refine (Value.akin_demand _ hv.toItems?).bind fun vs ws hvs => ?_
  subst hi
  dsimp only
  split
  · exact .error (.refl _)
  · have hitem := forall₂_getElem? hvs i.toInt.toNat
    generalize vs[i.toInt.toNat]? = o, ws[i.toInt.toNat]? = o' at hitem
    cases hitem with
    | none => exact .error (.refl _)
    | some h => exact .ok h

theorem akin_getD {vs ws : List Value} (h : List.Forall₂ Value.Akin vs ws) (i : Nat) :
    (vs.getD i .empty).Akin (ws.getD i .empty) := by
  rw [List.getD_eq_getElem?_getD, List.getD_eq_getElem?_getD]
  exact Value.akin_orEmpty (forall₂_getElem? h i)

theorem akin_apply {op : Operation} (hfair : op.isFair = true) {vs ws : List Value}
    (h : List.Forall₂ Value.Akin vs ws) : AkinResult Value.Akin (op.apply vs) (op.apply ws) := by
  have ha := akin_getD h 0
  have hb := akin_getD h 1
  unfold apply
  cases op with
  | add | sub | mul | div | less | describe => cases hfair
  | mod => exact akin_remainder ha hb
  | equal =>
    dsimp only
    rw [BEq.congr_left ha, BEq.congr_right hb]
    exact .ok BEq.rfl
  | tuple | list => exact .ok (Value.sameItems_iff.2 h)
  | nth => exact akin_itemAt ha hb
  | length =>
    refine (Value.akin_demand _ ha.toItems?).map fun us us' hus => ?_
    rw [hus.length_eq]
    exact BEq.rfl
  | raise => exact .error (.raised ..)
  | toInt =>
    refine (Value.akin_demand _ (Value.rel_of_eq ha.toInt?)).map fun i i' hi => ?_
    rw [hi]
    exact BEq.rfl
  | toNumber => exact (Value.akin_demand _ ha.toNumber?).map fun _ _ hx => hx
  | toSpace => exact (Value.akin_demand _ ha.toSpace?).map fun _ _ hx => hx
  | asBool =>
    dsimp only
    rw [ha.toBool?]
    exact .ok BEq.rfl
  | asText =>
    dsimp only
    rw [ha.toText?]
    exact .ok BEq.rfl

end Operation

/-! ## Expressions -/

theorem Enquiry.akin_ask (e : Enquiry) {vs ws : List Value} (h : List.Forall₂ Value.Akin vs ws) :
    Body.Akin Value.Akin (e.ask vs) (e.ask ws) := by
  cases e with
  | argValues =>
    have hspace := Value.akin_demand "a space" (Operation.akin_getD h 0).toSpace?
    exact Body.Akin.bind (.done hspace) fun _ _ hab => .query (.argValues hab)
  | here => exact .query .here
  | depth => exact .query .depth
  | modelName => exact .query .modelName

namespace Expr

mutual

def isFair : Expr → Bool
  | .literal _ | .arg _ | .read _ | .fail _ => true
  | .call _ es named => areFair es && areFairNamed named
  | .readIn e _ => isFair e
  | .callIn e _ es | .item e es => isFair e && areFair es
  | .cond test yes no => isFair test && isFair yes && isFair no
  | .recover tried instead => isFair tried && isFair instead
  | .kindOf tried => isFair tried
  | .seq es | .ask _ es => areFair es
  | .apply op es => op.isFair && areFair es

def areFair : List Expr → Bool
  | [] => true
  | e :: es => isFair e && areFair es

def areFairNamed : List (String × Expr) → Bool
  | [] => true
  | (_, e) :: rest => isFair e && areFairNamed rest

end

variable {args args' : List Value}

theorem akin_argAt (hargs : List.Forall₂ Value.Akin args args') (position : Int) :
    AkinResult Value.Akin (argAt args position) (argAt args' position) := by
  unfold argAt
  by_cases hneg : position < 0
  · rw [if_pos hneg, if_pos hneg]
    exact .error (.refl _)
  rw [if_neg hneg, if_neg hneg]
  have hitem := forall₂_getElem? hargs position.toNat
  generalize args[position.toNat]? = o, args'[position.toNat]? = o' at hitem
  cases hitem with
  | none => exact .error (.refl _)
  | some h => exact .ok h

theorem akin_getLastD (hargs : List.Forall₂ Value.Akin args args') :
    (args.getLastD .empty).Akin (args'.getLastD .empty) := by
  rw [List.getLastD_eq_getLast?, List.getLastD_eq_getLast?, List.getLast?_eq_getElem?,
    List.getLast?_eq_getElem?, hargs.length_eq]
  exact Value.akin_orEmpty (forall₂_getElem? hargs _)

mutual

/-- Equal arguments and akin answers lead a fair expression to akin ends. -/
theorem akin_eval (hargs : List.Forall₂ Value.Akin args args') : (e : Expr) → e.isFair = true →
    Body.Akin Value.Akin (e.eval args) (e.eval args')
  | .literal v, _ => .pure BEq.rfl
  | .arg position, _ => .done (akin_argAt hargs position)
  | .read name, _ => .query (.lookup name .none .none)
  | .call name es named, h => by
    rw [isFair, Bool.and_eq_true] at h
    refine (akin_evalAll hargs es h.1).bind fun vs ws hvs => ?_
    refine (akin_evalNamed hargs named h.2).bind fun more more' hmore => ?_
    exact .query (.lookup name .none (.some ⟨hvs, hmore⟩))
  | .readIn e name, h => by
    refine (akin_eval hargs e h).bind fun v w hv => ?_
    refine Body.Akin.bind (.done (Value.akin_demand _ hv.toSpace?)) fun a b hab => ?_
    exact .query (.lookup name (.some hab) .none)
  | .callIn e name es, h => by
    rw [isFair, Bool.and_eq_true] at h
    refine (akin_eval hargs e h.1).bind fun v w hv => ?_
    refine (akin_evalAll hargs es h.2).bind fun vs ws hvs => ?_
    refine Body.Akin.bind (.done (Value.akin_demand _ hv.toSpace?)) fun a b hab => ?_
    exact .query (.lookup name (.some hab) (.some (.of_positional hvs)))
  | .item e es, h => by
    rw [isFair, Bool.and_eq_true] at h
    refine (akin_eval hargs e h.1).bind fun v w hv => ?_
    refine (akin_evalAll hargs es h.2).bind fun vs ws hvs => ?_
    refine Body.Akin.bind (.done (Value.akin_demand _ hv.toSpace?)) fun a b hab => ?_
    exact .query (.item hab hvs)
  | .cond test yes no, h => by
    rw [isFair, Bool.and_eq_true, Bool.and_eq_true] at h
    refine (akin_eval hargs test h.1.1).bind fun v w hv => ?_
    refine Body.Akin.bind (.done (Value.akin_demand _ (Value.rel_of_eq hv.toBool?))) ?_
    rintro b _ rfl
    cases b with
    | true => exact akin_eval hargs yes h.1.2
    | false => exact akin_eval hargs no h.2
  | .seq es, h => by
    exact (akin_evalAll hargs es h).bind fun vs ws hvs => .pure (akin_getLastD hvs)
  | .recover tried instead, h => by
    rw [isFair, Bool.and_eq_true] at h
    refine (akin_eval hargs tried h.1).attempt_bind fun r r' hr => ?_
    cases hr with
    | ok hv => exact .pure hv
    | error _ => exact akin_eval hargs instead h.2
  | .kindOf tried, h => by
    refine (akin_eval hargs tried h).attempt_bind fun r r' hr => ?_
    cases hr with
    | ok hv => exact .pure hv
    | @error e e' he =>
      show Body.Akin _ (Pure.pure (Value.text e.kind.name)) (Pure.pure (Value.text e'.kind.name))
      rw [he.1]
      exact .pure BEq.rfl
  | .fail failure, _ => .done (.error (.refl failure))
  | .apply op es, h => by
    rw [isFair, Bool.and_eq_true] at h
    exact (akin_evalAll hargs es h.2).bind fun vs ws hvs => .done (Operation.akin_apply h.1 hvs)
  | .ask about es, h => (akin_evalAll hargs es h).bind fun vs ws hvs => about.akin_ask hvs

theorem akin_evalAll (hargs : List.Forall₂ Value.Akin args args') : (es : List Expr) →
    areFair es = true →
    Body.Akin (List.Forall₂ Value.Akin) (evalAll args es) (evalAll args' es)
  | [], _ => .pure .nil
  | e :: es, h => by
    rw [areFair, Bool.and_eq_true] at h
    refine (akin_eval hargs e h.1).bind fun v w hv => ?_
    exact (akin_evalAll hargs es h.2).bind fun vs ws hvs => .pure (.cons hv hvs)

theorem akin_evalNamed (hargs : List.Forall₂ Value.Akin args args') :
    (named : List (String × Expr)) → areFairNamed named = true →
    Body.Akin (List.Forall₂ fun p q => p.1 = q.1 ∧ p.2.Akin q.2) (evalNamed args named)
      (evalNamed args' named)
  | [], _ => .pure .nil
  | (name, e) :: rest, h => by
    rw [areFairNamed, Bool.and_eq_true] at h
    refine (akin_eval hargs e h.1).bind fun v w hv => ?_
    exact (akin_evalNamed hargs rest h.2).bind fun more more' hmore => .pure (.cons ⟨rfl, hv⟩ hmore)

end

/-- A formula written as a fair expression respects equality. -/
theorem respectful_rule {f : Formula} {e : Expr} (hrule : f.rule = e.rule)
    (h : e.isFair = true) : f.Respectful := by
  unfold Formula.Respectful
  rw [hrule]
  exact fun vs ws hvs => akin_eval hvs e h

end Expr

end Recalc
