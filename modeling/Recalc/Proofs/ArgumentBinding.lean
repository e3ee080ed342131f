import Mathlib.Data.List.Nodup
import Recalc.Proofs.EvaluationLaws

set_option autoImplicit false

/-!
# Binding arguments is canonical

Binding fills the places of the parameters in two passes. It succeeds exactly when the arguments
fit the parameters, and then each parameter has the value that the arguments give it. Neither the
order of the named arguments nor whether the last positional one is named makes a difference, and
what was bound binds to itself.
-/

namespace Recalc

/-- The value that call arguments have for the parameter at place `i`: the positional one there,
else the one that is named, else the default. -/
def Arguments.valueFor (a : Arguments) (i : Nat) (p : Param) : Option Value :=
  (a.positional[i]?.or (a.named.lookup p.name)).or p.default

/-- No positional argument is too many, every named one names a parameter without a positional one,
no name comes twice, and every parameter left over has a default. -/
structure Arguments.Fits (a : Arguments) (params : List Param) : Prop where
  count : a.positional.length ≤ params.length
  known : ∀ e ∈ a.named, ∃ (i : Nat) (p : Param), a.positional.length ≤ i ∧ params[i]? = some p ∧ p.name = e.1
  once : (a.named.map Prod.fst).Nodup
  complete : ∀ (i : Nat) (p : Param), params[i]? = some p → a.positional.length ≤ i →
    p.name ∉ a.named.map Prod.fst → ∃ v, p.default = some v

/-- Both calls of the target get the same values, or both are rejected for their arguments. -/
def SameBinding (target : String) (r r' : Except Failure (List Value)) : Prop :=
  (∃ values, r = .ok values ∧ r' = .ok values) ∨
    ∃ detail detail', r = .error (.invalidArguments target detail) ∧
      r' = .error (.invalidArguments target detail')

section Names

variable {named : List (String × Value)} {name : String} {v : Value}

theorem lookup_cons_of_ne {key : String} {w : Value} (h : name ≠ key) :
    ((key, w) :: named).lookup name = named.lookup name := by
  rw [List.lookup_cons, beq_eq_false_iff_ne.2 h]

theorem lookup_eq_some_of_nodup (h : (named.map Prod.fst).Nodup) :
    named.lookup name = some v ↔ (name, v) ∈ named := by
  induction named with
  | nil => simp
  | cons e rest ih =>
    obtain ⟨key, w⟩ := e
    rw [List.map_cons, List.nodup_cons] at h
    by_cases heq : name = key
    · subst heq
      have hrest : (name, v) ∉ rest := fun hmem =>
        h.1 (List.mem_map.2 ⟨(name, v), hmem, rfl⟩)
      simp [hrest, eq_comm]
    · rw [lookup_cons_of_ne heq, ih h.2]
      simp [heq]

theorem lookup_eq_none_iff : named.lookup name = none ↔ name ∉ named.map Prod.fst := by
  rw [List.lookup_eq_none_iff, List.mem_map]
  constructor
  · rintro h ⟨e, he, rfl⟩
    simpa using h e he
  · exact fun h e he => bne_iff_ne.2 fun hname => h ⟨e, he, hname.symm⟩

theorem lookup_perm {named' : List (String × Value)} (hperm : named.Perm named')
    (h : (named.map Prod.fst).Nodup) : named.lookup name = named'.lookup name := by
  have h' : (named'.map Prod.fst).Nodup := (hperm.map Prod.fst).nodup_iff.1 h
  refine Option.ext fun v => ?_
  rw [lookup_eq_some_of_nodup h, lookup_eq_some_of_nodup h', hperm.mem_iff]

end Names

namespace Binding

def fillNamed (named : List (String × Value)) (p : Param) (slot : Option Value) : Option Value :=
  slot.or (named.lookup p.name)

section Places

variable {params : List Param} (distinct : (params.map (·.name)).Nodup)
include distinct

theorem place_unique {i j : Nat} {p q : Param} (hp : params[i]? = some p)
    (hq : params[j]? = some q) (hname : p.name = q.name) : i = j := by
  have hi : (params.map (·.name))[i]? = some p.name := by simp [hp]
  have hj : (params.map (·.name))[j]? = some p.name := by simp [hq, hname]
  obtain ⟨hlt, -⟩ := List.getElem?_eq_some_iff.1 hi
  exact (List.getElem?_inj hlt distinct).1 (hi.trans hj.symm)

theorem position?_eq_some {name : String} {i : Nat} :
    position? params name = some i ↔ ∃ p, params[i]? = some p ∧ p.name = name := by
  rw [position?, List.findIdx?_eq_some_iff_getElem]
  constructor
  · rintro ⟨hlt, hname, -⟩
    exact ⟨params[i], List.getElem?_eq_getElem hlt, by simpa using hname⟩
  · rintro ⟨p, hp, rfl⟩
    obtain ⟨hlt, rfl⟩ := List.getElem?_eq_some_iff.1 hp
    refine ⟨hlt, by simp, fun j hj hname => ?_⟩
    have hsame := place_unique distinct (List.getElem?_eq_getElem (Nat.lt_trans hj hlt)) hp
      (by simpa using hname)
    omega

/-- An argument that went to its place need not be looked up by name any more. -/
theorem zipWith_set {named : List (String × Value)} {slots : List (Option Value)} {i : Nat}
    {p : Param} {v : Value} (hp : params[i]? = some p) (hslot : slots[i]? = some none) :
    List.zipWith (fillNamed named) params (slots.set i (some v)) =
      List.zipWith (fillNamed ((p.name, v) :: named)) params slots := by
  refine List.ext_getElem (by simp) fun j hj hj' => ?_
  rw [List.getElem_zipWith, List.getElem_zipWith, List.getElem_set]
  have hj : j < params.length := by simp at hj; omega
  have hq : params[j]? = some params[j] := List.getElem?_eq_getElem hj
  obtain ⟨hi, hnone⟩ := List.getElem?_eq_some_iff.1 hslot
  by_cases heq : i = j
  · subst heq
    have hsame : params[i] = p := Option.some.inj (hq.symm.trans hp)
    simp [fillNamed, hnone, hsame]
  · have hne : params[j].name ≠ p.name := fun hname =>
      heq (place_unique distinct hp hq hname.symm)
    simp only [if_neg heq, fillNamed, lookup_cons_of_ne hne]

/-- Naming succeeds when every name is that of a free place and comes once. -/
theorem placeNamed_eq_ok {invalid : String → Failure} (named : List (String × Value))
    {slots filled : List (Option Value)} (hlen : slots.length = params.length) :
    placeNamed params invalid named slots = .ok filled ↔
      (named.map Prod.fst).Nodup ∧
      (∀ e ∈ named, ∃ (i : Nat) (p : Param), params[i]? = some p ∧ p.name = e.1 ∧ slots[i]? = some none) ∧
      filled = List.zipWith (fillNamed named) params slots := by
  induction named generalizing slots with
  | nil =>
    have hsame : List.zipWith (fillNamed []) params slots = slots := by
      refine List.ext_getElem (by simp [hlen]) fun i hi hi' => ?_
      simp [fillNamed]
    simp [placeNamed, hsame, eq_comm]
  | cons e rest ih =>
    obtain ⟨name, v⟩ := e
    rw [placeNamed]
    cases hplace : position? params name with
    | none =>
      refine iff_of_false (by simp) ?_
      rintro ⟨-, hknown, -⟩
      obtain ⟨i, p, hp, hname, -⟩ := hknown (name, v) List.mem_cons_self
      rw [(position?_eq_some distinct).2 ⟨p, hp, hname⟩] at hplace
      contradiction
    | some i =>
      obtain ⟨p, hp, rfl⟩ := (position?_eq_some distinct).1 hplace
      obtain ⟨hlt, -⟩ := List.getElem?_eq_some_iff.1 hp
      obtain ⟨slot, hi⟩ : ∃ slot, slots[i]? = some slot :=
        ⟨_, List.getElem?_eq_getElem (hlen ▸ hlt)⟩
      cases slot with
      | some w =>
        simp only [hi]
        refine iff_of_false (by simp) ?_
        rintro ⟨-, hknown, -⟩
        obtain ⟨j, q, hq, hname, hfree⟩ := hknown (p.name, v) List.mem_cons_self
        rw [← place_unique distinct hp hq hname.symm, hi] at hfree
        cases hfree
      | none =>
        simp only [hi]
        rw [ih (by rw [List.length_set, hlen]), zipWith_set distinct hp hi, List.map_cons,
          List.nodup_cons]
        -- a later name takes another place exactly when it is another name
        have hplaces : ∀ (e : String × Value) (j : Nat) (q : Param), params[j]? = some q → q.name = e.1 →
            ((slots.set i (some v))[j]? = some none ↔ e.1 ≠ p.name ∧ slots[j]? = some none) := by
          intro e j q hq hname
          rw [List.getElem?_set]
          by_cases heq : i = j
          · subst heq
            cases hp.symm.trans hq
            simp [hname]
          · have hne : e.1 ≠ p.name := fun hsame =>
              heq (place_unique distinct hp hq (hname.trans hsame).symm)
            simp [heq, hne]
        constructor
        · rintro ⟨honce, hknown, rfl⟩
          refine ⟨⟨fun hmem => ?_, honce⟩, fun e he => ?_, rfl⟩
          · obtain ⟨e, he, hsame⟩ := List.mem_map.1 hmem
            obtain ⟨j, q, hq, hname, hfree⟩ := hknown e he
            exact ((hplaces e j q hq hname).1 hfree).1 hsame
          · rcases List.mem_cons.1 he with rfl | he
            · exact ⟨i, p, hp, rfl, hi⟩
            · obtain ⟨j, q, hq, hname, hfree⟩ := hknown e he
              exact ⟨j, q, hq, hname, ((hplaces e j q hq hname).1 hfree).2⟩
        · rintro ⟨⟨hnew, honce⟩, hknown, rfl⟩
          refine ⟨honce, fun e he => ?_, rfl⟩
          obtain ⟨j, q, hq, hname, hfree⟩ := hknown e (List.mem_cons_of_mem _ he)
          refine ⟨j, q, hq, hname, (hplaces e j q hq hname).2 ⟨fun hsame => hnew ?_, hfree⟩⟩
          exact List.mem_map.2 ⟨e, he, hsame⟩

end Places

theorem fillDefaults_eq_ok {invalid : String → Failure} {params : List Param}
    {slots : List (Option Value)} {values : List Value} (hlen : slots.length = params.length) :
    fillDefaults invalid params slots = .ok values ↔
      values.map some = List.zipWith (fun (p : Param) slot => slot.or p.default) params slots := by
  induction params generalizing slots values with
  | nil =>
    cases List.length_eq_zero_iff.1 hlen
    show Except.ok [] = Except.ok values ↔ _
    rw [List.zipWith_nil_left, List.map_eq_nil_iff, Except.ok.injEq, eq_comm]
  | cons p params ih =>
    cases slots with
    | nil => cases hlen
    | cons slot slots =>
      rw [fillDefaults, List.zipWith_cons_cons]
      cases slot.or p.default with
      | none => cases values <;> simp
      | some v =>
        have hrest := @ih slots values.tail (Nat.succ.inj hlen)
        cases values with
        | nil => cases fillDefaults invalid params slots <;> simp [Except.map]
        | cons w values =>
          rw [List.tail_cons] at hrest
          rw [List.map_cons, List.cons.injEq, ← hrest, Option.some.injEq]
          cases fillDefaults invalid params slots with
          | error e => simp [Except.map]
          | ok ws => simp [Except.map, eq_comm]

theorem getElem?_placePositional {params : List Param} {args : List Value} {i : Nat}
    (h : args.length ≤ params.length) (hi : i < params.length) :
    (placePositional params args)[i]? = some args[i]? := by
  rw [placePositional, List.getElem?_append]
  by_cases hlt : i < args.length
  · simp [hlt]
  · simp only [List.length_map, hlt, if_false]
    rw [List.getElem?_replicate, if_pos (by omega), List.getElem?_eq_none (by omega)]

theorem invalid_of_placeNamed {params : List Param} {invalid : String → Failure} {e : Failure}
    {named : List (String × Value)} {slots : List (Option Value)}
    (h : placeNamed params invalid named slots = .error e) : ∃ detail, e = invalid detail := by
  induction named generalizing slots with
  | nil => cases h
  | cons entry rest ih =>
    rw [placeNamed] at h
    split at h
    · cases h
      exact ⟨_, rfl⟩
    · split at h
      · cases h
        exact ⟨_, rfl⟩
      · exact ih h

theorem invalid_of_fillDefaults {invalid : String → Failure} {params : List Param} {e : Failure}
    {slots : List (Option Value)} (h : fillDefaults invalid params slots = .error e) :
    ∃ detail, e = invalid detail := by
  induction params generalizing slots with
  | nil => cases h
  | cons p params ih =>
    cases slots with
    | nil => cases h
    | cons slot slots =>
      rw [fillDefaults] at h
      split at h
      · cases hrest : fillDefaults invalid params slots with
        | ok => rw [hrest] at h; cases h
        | error e' =>
          rw [hrest] at h
          cases h
          exact ih hrest
      · cases h
        exact ⟨_, rfl⟩

end Binding

section

open Binding

variable {params : List Param} {a : Arguments} {target : String}

theorem invalid_of_matchArguments {e : Failure} (h : matchArguments params a target = .error e) :
    ∃ detail, e = .invalidArguments target detail := by
  unfold matchArguments at h
  dsimp only at h
  split at h
  · cases h
    exact ⟨_, rfl⟩
  · split at h
    next hslots =>
      cases h
      exact invalid_of_placeNamed hslots
    next => exact invalid_of_fillDefaults h

/-- Calls that get the same values, if any, have the same outcome. -/
theorem sameBinding_of_values {b : Arguments}
    (h : ∀ values, matchArguments params a target = .ok values ↔
      matchArguments params b target = .ok values) :
    SameBinding target (matchArguments params a target) (matchArguments params b target) := by
  cases ha : matchArguments params a target with
  | ok values => exact .inl ⟨values, rfl, (h values).1 ha⟩
  | error e =>
    cases hb : matchArguments params b target with
    | ok values =>
      rw [(h values).2 hb] at ha
      contradiction
    | error e' =>
      obtain ⟨detail, rfl⟩ := invalid_of_matchArguments ha
      obtain ⟨detail', rfl⟩ := invalid_of_matchArguments hb
      exact .inr ⟨detail, detail', rfl, rfl⟩

variable (distinct : (params.map (·.name)).Nodup)
include distinct

/-- Binding in one step. -/
theorem matchArguments_eq_ok {values : List Value} :
    matchArguments params a target = .ok values ↔
      a.positional.length ≤ params.length ∧ (a.named.map Prod.fst).Nodup ∧
      (∀ e ∈ a.named, ∃ (i : Nat) (p : Param), a.positional.length ≤ i ∧ params[i]? = some p ∧ p.name = e.1) ∧
      values.map some = params.mapIdx a.valueFor := by
  unfold matchArguments
  dsimp only
  by_cases hcount : params.length < a.positional.length
  · rw [if_pos hcount]
    exact iff_of_false (by simp) fun h => absurd h.1 (Nat.not_le.2 hcount)
  rw [if_neg hcount]
  have hle := Nat.not_lt.1 hcount
  have hlen := length_placePositional params a.positional hle
  -- the free places are those without a positional argument
  have hfree : ∀ e : String × Value,
      (∃ (i : Nat) (p : Param), params[i]? = some p ∧ p.name = e.1 ∧
        (placePositional params a.positional)[i]? = some none) ↔
      ∃ (i : Nat) (p : Param), a.positional.length ≤ i ∧ params[i]? = some p ∧ p.name = e.1 := by
    refine fun e => exists_congr fun i => exists_congr fun p => ?_
    constructor
    · rintro ⟨hp, hname, hslot⟩
      obtain ⟨hlt, -⟩ := List.getElem?_eq_some_iff.1 hp
      rw [getElem?_placePositional hle hlt, Option.some.injEq] at hslot
      exact ⟨List.getElem?_eq_none_iff.1 hslot, hp, hname⟩
    · rintro ⟨hi, hp, hname⟩
      obtain ⟨hlt, -⟩ := List.getElem?_eq_some_iff.1 hp
      rw [getElem?_placePositional hle hlt, List.getElem?_eq_none hi]
      exact ⟨hp, hname, rfl⟩
  have hvalues : List.zipWith (fun (p : Param) slot => slot.or p.default) params
      (List.zipWith (fillNamed a.named) params (placePositional params a.positional)) =
        params.mapIdx a.valueFor := by
    refine List.ext_getElem? fun i => ?_
    rw [List.getElem?_zipWith, List.getElem?_zipWith, List.getElem?_mapIdx]
    cases hp : params[i]? with
    | none => rfl
    | some p =>
      obtain ⟨hlt, -⟩ := List.getElem?_eq_some_iff.1 hp
      rw [getElem?_placePositional hle hlt]
      rfl
  have hfilled : ∀ filled, placeNamed params (.invalidArguments target) a.named
      (placePositional params a.positional) = .ok filled ↔ _ :=
    fun _ => placeNamed_eq_ok distinct a.named hlen
  simp only [hfree] at hfilled
  cases hslots : placeNamed params (.invalidArguments target) a.named
      (placePositional params a.positional) with
  | error e =>
    refine iff_of_false (by simp) ?_
    rintro ⟨-, honce, hknown, -⟩
    rw [(hfilled _).2 ⟨honce, hknown, rfl⟩] at hslots
    contradiction
  | ok slots =>
    obtain ⟨honce, hknown, hsame⟩ := (hfilled slots).1 hslots
    have hlen' : slots.length = params.length := by rw [length_placeNamed a.named hslots, hlen]
    show fillDefaults _ params slots = _ ↔ _
    rw [fillDefaults_eq_ok hlen', hsame, hvalues]
    exact ⟨fun h => ⟨hle, honce, hknown, h⟩, fun h => h.2.2.2⟩

theorem exists_matchArguments_iff :
    (∃ values, matchArguments params a target = .ok values) ↔ a.Fits params := by
  simp only [matchArguments_eq_ok distinct]
  have hcomplete : (∃ values : List Value, values.map some = params.mapIdx a.valueFor) ↔
      ∀ (i : Nat) (p : Param), params[i]? = some p → ∃ v, a.valueFor i p = some v := by
    constructor
    · rintro ⟨values, hvalues⟩ i p hp
      have hi := congrArg (·[i]?) hvalues
      simp only [List.getElem?_map, List.getElem?_mapIdx, hp, Option.map_some] at hi
      obtain ⟨v, -, hv⟩ := Option.map_eq_some_iff.1 hi
      exact ⟨v, hv.symm⟩
    · intro hall
      refine ⟨(params.mapIdx a.valueFor).filterMap id, List.ext_getElem? fun i => ?_⟩
      have hsome : ∀ o ∈ params.mapIdx a.valueFor, o.isSome = true := by
        intro o ho
        obtain ⟨i, hi, rfl⟩ := List.mem_mapIdx.1 ho
        obtain ⟨v, hv⟩ := hall i _ (List.getElem?_eq_getElem hi)
        rw [hv]
        rfl
      generalize params.mapIdx a.valueFor = l at hsome ⊢
      congr 1
      induction l with
      | nil => rfl
      | cons o l ih =>
        obtain ⟨v, rfl⟩ := Option.isSome_iff_exists.1 (hsome o List.mem_cons_self)
        rw [List.filterMap_cons]
        simp only [id, List.map_cons, List.cons.injEq, true_and]
        exact ih fun o ho => hsome o (List.mem_cons_of_mem _ ho)
  constructor
  · rintro ⟨values, hcount, honce, hknown, hvalues⟩
    refine ⟨hcount, hknown, honce, fun i p hp hi hname => ?_⟩
    obtain ⟨v, hv⟩ := hcomplete.1 ⟨values, hvalues⟩ i p hp
    rw [Arguments.valueFor, List.getElem?_eq_none hi, lookup_eq_none_iff.2 hname] at hv
    exact ⟨v, hv⟩
  · intro h
    obtain ⟨values, hvalues⟩ := hcomplete.2 fun i p hp => by
      cases hpos : a.positional[i]? with
      | some v => exact ⟨v, by rw [Arguments.valueFor, hpos]; rfl⟩
      | none =>
        cases hnamed : a.named.lookup p.name with
        | some v => exact ⟨v, by rw [Arguments.valueFor, hpos, hnamed]; rfl⟩
        | none =>
          obtain ⟨v, hv⟩ := h.complete i p hp (List.getElem?_eq_none_iff.1 hpos)
            (lookup_eq_none_iff.1 hnamed)
          exact ⟨v, by rw [Arguments.valueFor, hpos, hnamed, hv]; rfl⟩
    exact ⟨values, h.count, h.once, h.known, hvalues⟩

theorem valueFor_of_matchArguments {values : List Value}
    (h : matchArguments params a target = .ok values) {i : Nat} {p : Param}
    (hp : params[i]? = some p) : values[i]? = a.valueFor i p := by
  have hi := congrArg (·[i]?) ((matchArguments_eq_ok distinct).1 h).2.2.2
  simp only [List.getElem?_map, List.getElem?_mapIdx, hp, Option.map_some] at hi
  cases hv : values[i]? with
  | none => rw [hv] at hi; cases hi
  | some v => rw [hv] at hi; exact Option.some.inj hi

theorem sameBinding_of_perm {positional : List Value} {named named' : List (String × Value)}
    (hperm : named.Perm named') :
    SameBinding target (matchArguments params ⟨positional, named⟩ target)
      (matchArguments params ⟨positional, named'⟩ target) := by
  refine sameBinding_of_values fun values => ?_
  rw [matchArguments_eq_ok distinct, matchArguments_eq_ok distinct]
  have honce := (hperm.map Prod.fst).nodup_iff
  refine and_congr_right fun _ => ?_
  by_cases hnodup : (named.map Prod.fst).Nodup
  · have hvalues : Arguments.valueFor ⟨positional, named⟩ =
        Arguments.valueFor ⟨positional, named'⟩ := by
      funext i p
      simp only [Arguments.valueFor, lookup_perm hperm hnodup]
    simp only [honce, hperm.mem_iff, hvalues]
  · exact iff_of_false (fun h => hnodup h.1) fun h => hnodup (honce.2 h.1)

/-- Naming the argument that comes next puts it where one more positional one goes. -/
theorem matchArguments_naming {positional : List Value} {named : List (String × Value)} {v : Value}
    {p : Param} (hp : params[positional.length]? = some p) :
    matchArguments params ⟨positional ++ [v], named⟩ target =
      matchArguments params ⟨positional, (p.name, v) :: named⟩ target := by
  obtain ⟨hlt, -⟩ := List.getElem?_eq_some_iff.1 hp
  have hfree : (placePositional params positional)[positional.length]? = some none := by
    rw [getElem?_placePositional (Nat.le_of_lt hlt) hlt, List.getElem?_eq_none (Nat.le_refl _)]
  have hplace : placePositional params (positional ++ [v]) =
      (placePositional params positional).set positional.length (some v) := by
    obtain ⟨k, hk⟩ := Nat.exists_eq_add_of_lt hlt
    have hleft : params.length - (positional ++ [v]).length = k := by simp; omega
    have hright : params.length - positional.length = k + 1 := by omega
    rw [placePositional, placePositional, hleft, hright, List.replicate_succ, List.map_append,
      List.set_append_right _ _ (by simp)]
    simp
  unfold matchArguments
  dsimp only
  rw [if_neg (by simp; omega), if_neg (by omega), placeNamed,
    (position?_eq_some distinct).2 ⟨p, hp, rfl⟩]
  simp only [hfree, hplace]

theorem matchArguments_self {values : List Value} (h : matchArguments params a target = .ok values) :
    matchArguments params ⟨values, []⟩ target = .ok values := by
  have hlen : values.length = params.length := length_matchArguments h
  refine (matchArguments_eq_ok distinct).2 ⟨Nat.le_of_eq hlen, .nil, by simp, ?_⟩
  refine List.ext_getElem? fun i => ?_
  rw [List.getElem?_map, List.getElem?_mapIdx]
  by_cases hi : i < values.length
  · rw [List.getElem?_eq_getElem hi, List.getElem?_eq_getElem (hlen ▸ hi)]
    simp [Arguments.valueFor, hi]
  · rw [List.getElem?_eq_none (Nat.not_lt.1 hi), List.getElem?_eq_none (hlen ▸ Nat.not_lt.1 hi)]
    rfl

/-- Binding succeeds exactly when the arguments fit the parameters, and then gives each parameter
the value that the arguments have for it. The order of the named arguments does not matter, nor
whether the last positional one is named, and bound values bind to themselves. -/
theorem matchArguments_canonical :
    ((∃ values, matchArguments params a target = .ok values) ↔ a.Fits params) ∧
    (∀ values, matchArguments params a target = .ok values →
      values.length = params.length ∧
      (∀ (i : Nat) (p : Param), params[i]? = some p → values[i]? = a.valueFor i p) ∧
      matchArguments params ⟨values, []⟩ target = .ok values) ∧
    (∀ named, a.named.Perm named →
      SameBinding target (matchArguments params a target)
        (matchArguments params ⟨a.positional, named⟩ target)) ∧
    (∀ positional v p, a.positional = positional ++ [v] → params[positional.length]? = some p →
      matchArguments params a target =
        matchArguments params ⟨positional, (p.name, v) :: a.named⟩ target) := by
  refine ⟨exists_matchArguments_iff distinct, fun values h => ?_, fun named hperm => ?_,
    fun positional v p hlast hp => ?_⟩
  · exact ⟨length_matchArguments h, fun i p hp => valueFor_of_matchArguments distinct h hp,
      matchArguments_self distinct h⟩
  · exact sameBinding_of_perm distinct hperm
  · obtain ⟨_, named⟩ := a
    cases hlast
    exact matchArguments_naming distinct hp

end

namespace Binding

def tariff : List Param := [⟨"amount", none⟩, ⟨"rate", none⟩, ⟨"fee", some (.int 5)⟩]

/-- An amount and a rate, by place or by name and in either order, bind alike. -/
theorem matchArguments_tariff :
    (tariff.map (·.name)).Nodup ∧
    Arguments.Fits ⟨[.int 90], [("fee", .int 7), ("rate", .int 3)]⟩ tariff ∧
    SameBinding "tariff"
      (matchArguments tariff ⟨[.int 90], [("fee", .int 7), ("rate", .int 3)]⟩ "tariff")
      (matchArguments tariff ⟨[.int 90], [("rate", .int 3), ("fee", .int 7)]⟩ "tariff") ∧
    matchArguments tariff ⟨[.int 90, .int 3], []⟩ "tariff" =
      matchArguments tariff ⟨[.int 90], [("rate", .int 3)]⟩ "tariff" ∧
    matchArguments tariff ⟨[.int 90, .int 3, .int 5], []⟩ "tariff" =
      .ok [.int 90, .int 3, .int 5] := by
  have distinct : (tariff.map (·.name)).Nodup := by decide
  refine ⟨distinct, ?_, ?_, ?_, ?_⟩
  · exact (@matchArguments_canonical tariff _ "tariff" distinct).1.1 ⟨_, rfl⟩
  · exact (matchArguments_canonical distinct).2.2.1 _ (.swap _ _ [])
  · exact (matchArguments_canonical distinct).2.2.2 [.int 90] (.int 3) ⟨"rate", none⟩ rfl rfl
  · exact ((@matchArguments_canonical tariff ⟨[.int 90], [("rate", .int 3)]⟩ "tariff" distinct).2.1
      _ rfl).2.2

end Binding

end Recalc
