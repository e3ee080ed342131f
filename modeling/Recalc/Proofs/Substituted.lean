import Recalc.Proofs.HeritageLaws
import Recalc.Proofs.Labels
import Recalc.Proofs.Mirroring

set_option autoImplicit false

/-!
# Parameters substituted

A root space without children, and a root space of another model that has the same cells, the same
references and, in place of parameters, references to the arguments: a name means the same in an
instance of the one and in the other. The cells it means are paired by their names; everything else
is the same value, read from a reference, a parameter or a model-level reference.
-/

namespace Recalc

def Value.isSpace : Value → Bool
  | .space _ => true
  | _ => false

namespace Model

structure Lone (m : Model) (id : SpaceId) (s : Space) : Prop where
  live : m.spaces.get? id = some s
  isStatic : s.isStatic = true
  isRoot : s.parent = none
  childless : ∀ name, s.spaces.get? name = none

def boundTo (m : Model) (t : NameMap RefId) (name : String) : Option Value :=
  ((t.get? name).bind m.refs.get?).map (·.value)

/-- The space `t` of `m'` is the space `s` of `m` with arguments in place of its parameters: it has
the same cells and references, and one more reference for each parameter that `s` does not define
itself. No value involved is a space. -/
structure Substituted (m : Model) (s : Space) (params : List Param) (args : Key) (m' : Model)
    (t : Space) : Prop where
  config : m'.config = m.config
  globals : ∀ name, m'.boundTo m'.globals name = m.boundTo m.globals name
  allowNone : t.allowNone = s.allowNone
  cells : ∀ name, m'.setting t name = m.setting s name
  refs : ∀ name v, m.boundTo s.refs name = some v → m'.boundTo t.refs name = some v
  arguments : ∀ (i : Nat) (p : Param) v, params[i]? = some p → args.values[i]? = some v →
    s.defines p.name = false → m'.boundTo t.refs p.name = some v
  only : ∀ name v, m'.boundTo t.refs name = some v → m.boundTo s.refs name = some v ∨
    s.defines name = false ∧ ∃ p ∈ params, p.name = name
  plainRefs : ∀ name v, m.boundTo s.refs name = some v → v.isSpace = false
  plainArgs : ∀ v ∈ args.values, v.isSpace = false
  plainGlobals : ∀ name v, m.boundTo m.globals name = some v → v.isSpace = false

inductive Yields : Meaning → Value → Prop
  | ref (r : RefId) (v : Value) : Yields (.ref r (.value v)) v
  | param (v : Value) : Yields (.param v) v

section Lookups

variable {m m₁ m' : Model} {id : SpaceId} {s : Space} {name : String}

theorem boundTo_eq_some {t : NameMap RefId} {v : Value} : m.boundTo t name = some v ↔
    ∃ r q, t.get? name = some r ∧ m.refs.get? r = some q ∧ q.value = v := by
  simp only [boundTo, Option.map_eq_some_iff, Option.bind_eq_some_iff]
  constructor
  · rintro ⟨q, ⟨r, hr, hq⟩, hv⟩
    exact ⟨r, q, hr, hq, hv⟩
  · rintro ⟨r, q, hr, hq, hv⟩
    exact ⟨q, ⟨r, hr, hq⟩, hv⟩

/-- A reference without a value is none: what is listed is alive. -/
theorem Owned.ref_absent (hm : m.Owned) (hs : m.spaces.get? id = some s)
    (h : m.boundTo s.refs name = none) : s.refs.get? name = none := by
  cases hr : s.refs.get? name with
  | none => rfl
  | some r =>
    obtain ⟨q, hq, -⟩ := hm.ref_of_listed hs hr
    rw [boundTo, hr, Option.bind_some, hq] at h
    contradiction

theorem Owned.global_absent (hm : m.Owned) (h : m.boundTo m.globals name = none) :
    m.globals.get? name = none := by
  cases hr : m.globals.get? name with
  | none => rfl
  | some r =>
    obtain ⟨q, hq, -⟩ := hm.global_of_listed hr
    rw [boundTo, hr, Option.bind_some, hq] at h
    contradiction

/-- Two spaces with the same settings have cells under the same names. -/
theorem Owned.cells_of_setting (hm : m.Owned) {t : Space} {id' : SpaceId}
    (hs : m.spaces.get? id = some s) (ht : m₁.Owned ∧ m₁.spaces.get? id' = some t)
    (h : m₁.setting t name = m.setting s name) :
    (t.cells.get? name).isSome = (s.cells.get? name).isSome := by
  have hsome : ∀ {m : Model} {id : SpaceId} {s : Space}, m.Owned → m.spaces.get? id = some s →
      (m.setting s name).isSome = (s.cells.get? name).isSome := by
    intro m id s hm hs
    cases hc : s.cells.get? name with
    | none => rw [setting, hc]; rfl
    | some c =>
      obtain ⟨d, hd, -⟩ := hm.cells_of_listed hs hc
      rw [setting, hc, Option.bind_some, hd]
      rfl
  rw [← hsome hm hs, ← hsome ht.1 ht.2, h]

theorem refMeaning_of_plain {r : RefId} {q : Reference} (hq : m.refs.get? r = some q)
    (hplain : q.value.isSpace = false) : m.refMeaning r id = .ok (.value q.value) := by
  unfold refMeaning
  rw [reference_eq_ok.2 hq]
  simp only [bind, Except.bind]
  split
  next h _ _ heq _ _ =>
    rw [heq] at hplain
    contradiction
  next => rfl

/-- What a space without children sees of itself and its counterpart. -/
theorem memberMeaning_of_childless {c : SpaceId} {source : Space}
    (hs : m.spaces.get? id = some s) (hcounterpart : m.counterpart id = .ok c)
    (hsource : m.spaces.get? c = some source) (hchild : s.spaces.get? name = none)
    (hpending : source.spaces.get? name = none) (hcells : s.cells.get? name = none) :
    m.memberMeaning id name = (do
      match source.refs.get? name with
      | some r => return some (.ref r (← m.refMeaning r id))
      | none => return none) := by
  have hcontains : source.spaces.contains name = false := by
    rw [NameMap.contains, hpending]
    rfl
  unfold memberMeaning
  cases hr : source.refs.get? name <;>
    simp only [space_eq_ok.2 hs, hcells, hchild, hcounterpart, space_eq_ok.2 hsource, hcontains,
      hr, bind, Except.bind, Bool.and_false, Bool.false_eq_true, if_false]

/-- A name listed as cells means them. -/
theorem memberMeaning_of_cells {c : CellId} (hs : m.spaces.get? id = some s)
    (hc : s.cells.get? name = some c) : m.memberMeaning id name = .ok (some (.cells c)) := by
  unfold memberMeaning
  simp only [space_eq_ok.2 hs, hc, bind, Except.bind]
  rfl

/-- A name that is no system name means a member, else an argument, else a model-level reference. -/
theorem meaning_of_bare (hs : m.spaces.get? id = some s)
    (hname : SystemName.ofString? name = none) : m.meaning id name = (do
      match ← m.memberMeaning id name with
      | some found => return found
      | none =>
        match ← m.boundArgument id name with
        | some v => return .param v
        | none =>
          match m.globals.get? name with
          | some r => return .ref r (.value (← m.reference r).value)
          | none => throw (.unknownName name (m.dottedName id))) := by
  unfold meaning
  rw [space_eq_ok.2 hs]
  generalize SystemName.ofString? name = found at hname ⊢
  subst hname
  rfl

theorem boundArgument_of_static (hs : m.spaces.get? id = some s) (hstatic : s.isStatic = true) :
    m.boundArgument id name = .ok none := by
  unfold boundArgument
  rw [instanceRoot?_of_static hs hstatic]
  cases m.spaces.capacity <;> rfl

theorem capacity_pos (hs : m.spaces.get? id = some s) : 0 < m.spaces.capacity := by
  have hslot := Pool.get?_eq_some hs
  exact Nat.zero_lt_of_lt (Array.getElem?_eq_some_iff.1 hslot).1

/-- Among the arguments of an instance of a static space, the parameter is found by its name. -/
theorem boundArgument_of_item {owner : SpaceId} {args : Key} {enclosing : List SpaceId}
    {source : Space} {spec : Signature} (hs : m.spaces.get? id = some s)
    (hk : s.kind = .item owner owner args enclosing) (hsource : m.spaces.get? owner = some source)
    (hstatic : source.isStatic = true) (hspec : source.signature = some spec) :
    m.boundArgument id name = .ok ((spec.params.findIdx? (·.name == name)).bind
      (args.values[·]?)) := by
  have hroot : m.instanceRoot? id = some id := by
    unfold instanceRoot?
    simp only [hs, hk]
  unfold boundArgument
  rw [hroot]
  obtain ⟨fuel, hfuel⟩ := Nat.exists_eq_succ_of_ne_zero (Nat.ne_of_gt (capacity_pos hs))
  rw [hfuel]
  unfold boundArgumentFrom
  simp only [space_eq_ok.2 hs, hk, space_eq_ok.2 hsource, hspec, Option.bind_some,
    bind, Except.bind]
  cases spec.params.findIdx? (·.name == name) with
  | some i => rfl
  | none =>
    show m.boundArgumentFrom name fuel (m.instanceRoot? owner) = _
    rw [instanceRoot?_of_static hsource hstatic]
    cases fuel <;> rfl

/-- A root space has nothing around it. -/
theorem Lone.ancestry (h : m.Lone id s) : m.ancestry id = [id] := by
  obtain ⟨fuel, hfuel⟩ := Nat.exists_eq_succ_of_ne_zero (Nat.ne_of_gt (capacity_pos h.live))
  rw [Model.ancestry, hfuel, ancestryFrom_succ h.live, h.isRoot, Option.elim_none]

end Lookups

/-- A name that is not listed has no entry. -/
theorem get?_of_not_mem {α : Type} {t : NameMap α} {name : String} (h : name ∉ t.names) :
    t.get? name = none := by
  rw [NameMap.mem_names, NameMap.contains] at h
  exact Option.not_isSome_iff_eq_none.1 h

/-- To see that a space is substituted it is enough to look at the names that are listed. -/
theorem Substituted.of_names {m m' : Model} {s t : Space} {params : List Param} {args : Key}
    (config : m'.config = m.config) (allowNone : t.allowNone = s.allowNone)
    (globalNames : m'.globals.names = m.globals.names)
    (globals : ∀ name ∈ m.globals.names, m'.boundTo m'.globals name = m.boundTo m.globals name ∧
      (m.boundTo m.globals name).all (!·.isSpace) = true)
    (cellNames : t.cells.names = s.cells.names)
    (cells : ∀ name ∈ s.cells.names, m'.setting t name = m.setting s name)
    (refs : ∀ name ∈ s.refs.names, m'.boundTo t.refs name = m.boundTo s.refs name ∧
      (m.boundTo s.refs name).all (!·.isSpace) = true)
    (arguments : ∀ (i : Nat) (p : Param) v, params[i]? = some p → args.values[i]? = some v →
      s.defines p.name = false → m'.boundTo t.refs p.name = some v)
    (only : ∀ name ∈ t.refs.names, name ∈ s.refs.names ∨
      s.defines name = false ∧ ∃ p ∈ params, p.name = name)
    (plainArgs : ∀ v ∈ args.values, v.isSpace = false) : m.Substituted s params args m' t := by
  have hnone : ∀ (m : Model) (t : NameMap RefId) name, name ∉ t.names → m.boundTo t name = none :=
    fun m t name h => by rw [boundTo, get?_of_not_mem h, Option.bind_none, Option.map_none]
  have hlisted : ∀ (m : Model) (t : NameMap RefId) name v, m.boundTo t name = some v →
      name ∈ t.names := fun m t name v hv => by
    by_contra h
    rw [hnone m t name h] at hv
    contradiction
  have hplain : ∀ {o : Option Value}, o.all (!·.isSpace) = true → ∀ v, o = some v →
      v.isSpace = false := by
    rintro o h v rfl
    simpa using h
  constructor
  case config => exact config
  case allowNone => exact allowNone
  case globals =>
    intro name
    by_cases h : name ∈ m.globals.names
    · exact (globals name h).1
    · rw [hnone _ _ _ h, hnone _ _ _ (by rwa [globalNames])]
  case cells =>
    intro name
    by_cases h : name ∈ s.cells.names
    · exact cells name h
    · rw [setting, setting, get?_of_not_mem h, get?_of_not_mem (by rwa [cellNames])]
      rfl
  case refs => exact fun name v hv => ((refs name (hlisted _ _ _ _ hv)).1).trans hv
  case arguments => exact arguments
  case only =>
    intro name v hv
    exact (only name (hlisted _ _ _ _ hv)).imp_left fun h => (refs name h).1.symm.trans hv
  case plainRefs => exact fun name v hv => hplain (refs name (hlisted _ _ _ _ hv)).2 v hv
  case plainArgs => exact plainArgs
  case plainGlobals => exact fun name v hv => hplain (globals name (hlisted _ _ _ _ hv)).2 v hv

/-- An instance of a static space, with the space that has the arguments substituted. -/
structure Pairing where
  item : SpaceId
  root : Space
  owner : SpaceId
  source : Space
  spec : Signature
  args : Key
  enclosing : List SpaceId
  other : SpaceId
  plain : Space

namespace Pairing

structure Holds (x : Pairing) (m m' : Model) : Prop where
  owned : m.Owned
  owned' : m'.Owned
  lone : m.Lone x.owner x.source
  other : m'.Lone x.other x.plain
  substituted : m.Substituted x.source x.spec.params x.args m' x.plain
  signature : x.source.signature = some x.spec
  root : m.spaces.get? x.item = some x.root
  kind : x.root.kind = .item x.owner x.owner x.args x.enclosing
  childless : ∀ name, x.root.spaces.get? name = none
  copies : ∀ name, m.setting x.root name = m.setting x.source name
  length : x.args.values.length = x.spec.params.length
  formulas : ∀ name f a, m.setting x.source name = some (some f, a) → f.Plain

def Twins (x : Pairing) (c c' : CellId) : Prop :=
  ∃ name, x.root.cells.get? name = some c ∧ x.plain.cells.get? name = some c'

/-- Paired cells, the same value, or failures that differ in labels only. -/
inductive SameMeaning (x : Pairing) : Except Failure Meaning → Except Failure Meaning → Prop
  | cells {c c' : CellId} : x.Twins c c' → SameMeaning x (.ok (.cells c)) (.ok (.cells c'))
  | value {a b : Meaning} {v : Value} : Yields a v → Yields b v → v.isSpace = false →
      SameMeaning x (.ok a) (.ok b)
  | error {e e' : Failure} : e.unlabelled = e'.unlabelled → SameMeaning x (.error e) (.error e')

variable {x : Pairing} {m m' : Model} (h : x.Holds m m')
include h

/-- Equal settings make cells of one space cells of the other. -/
theorem Holds.cells_iff (name : String) :
    (x.plain.cells.get? name).isSome = (x.root.cells.get? name).isSome :=
  h.owned.cells_of_setting h.root ⟨h.owned', h.other.live⟩
    ((h.substituted.cells name).trans (h.copies name).symm)

theorem Holds.source_cells_iff (name : String) :
    (x.source.cells.get? name).isSome = (x.root.cells.get? name).isSome :=
  h.owned.cells_of_setting h.root ⟨h.owned, h.lone.live⟩ (h.copies name).symm

/-- What is not listed as cells means the same value in both spaces, or the same failure. -/
theorem Holds.sameMeaning {name : String} (hname : SystemName.ofString? name = none) :
    x.SameMeaning (m.meaning x.item name) (m'.meaning x.other name) := by
  rw [meaning_of_bare h.root hname, meaning_of_bare h.other.live hname]
  have hiff := h.cells_iff name
  cases hc : x.root.cells.get? name with
  | some c =>
    rw [hc, Option.isSome_some, Option.isSome_iff_exists] at hiff
    obtain ⟨c', hc'⟩ := hiff
    rw [memberMeaning_of_cells h.root hc, memberMeaning_of_cells h.other.live hc']
    exact .cells ⟨name, hc, hc'⟩
  | none =>
    rw [hc, Option.isSome_none, Option.isSome_eq_false_iff, Option.isNone_iff_eq_none] at hiff
    have hsource := h.source_cells_iff name
    rw [hc, Option.isSome_none, Option.isSome_eq_false_iff, Option.isNone_iff_eq_none] at hsource
    rw [memberMeaning_of_childless h.root (counterpart_of_item h.root h.kind) h.lone.live
        (h.childless name) (h.lone.childless name) hc,
      memberMeaning_of_childless h.other.live
        (counterpart_of_static h.other.live h.other.isStatic) h.other.live
        (h.other.childless name) (h.other.childless name) hiff,
      boundArgument_of_item h.root h.kind h.lone.live h.lone.isStatic h.signature,
      boundArgument_of_static h.other.live h.other.isStatic]
    -- a reference that is not a space is read as its value
    have hvalue : ∀ {v : Value}, v.isSpace = false → m'.boundTo x.plain.refs name = some v →
        ∃ r, x.plain.refs.get? name = some r ∧ m'.refMeaning r x.other = .ok (.value v) := by
      intro v hplain hv
      obtain ⟨r, q, hr, hq, rfl⟩ := boundTo_eq_some.1 hv
      exact ⟨r, hr, refMeaning_of_plain hq hplain⟩
    cases hbound : m.boundTo x.source.refs name with
    | some v =>
      have hplain := h.substituted.plainRefs name v hbound
      obtain ⟨r, q, hr, hq, rfl⟩ := boundTo_eq_some.1 hbound
      obtain ⟨r', hr', hmeaning'⟩ := hvalue hplain (h.substituted.refs name _ hbound)
      simp only [hr, hr', refMeaning_of_plain hq hplain, hmeaning']
      exact .value (.ref r q.value) (.ref r' q.value) hplain
    | none =>
      have hrefs := h.owned.ref_absent h.lone.live hbound
      have hdefines : x.source.defines name = false := by
        simp only [Space.defines, NameMap.contains, hsource, h.lone.childless name, hrefs,
          Option.isSome_none, Bool.or_false]
      simp only [hrefs]
      cases hfind : x.spec.params.findIdx? (·.name == name) with
      | some i =>
        obtain ⟨hi, hp, -⟩ := List.findIdx?_eq_some_iff_getElem.1 hfind
        have hlt : i < x.args.values.length := by rwa [h.length]
        have hget : x.args.values[i]? = some x.args.values[i] := List.getElem?_eq_getElem hlt
        have hplain := h.substituted.plainArgs _ (List.getElem_mem hlt)
        rw [beq_iff_eq] at hp
        have hv := h.substituted.arguments i x.spec.params[i] x.args.values[i]
          (List.getElem?_eq_getElem hi) hget (by rw [hp]; exact hdefines)
        rw [hp] at hv
        obtain ⟨r', hr', hmeaning'⟩ := hvalue hplain hv
        simp only [hr', hmeaning', Option.bind_some, hget]
        exact .value (.param _) (.ref r' _) hplain
      | none =>
        have hnone : m'.boundTo x.plain.refs name = none := by
          refine Option.eq_none_iff_forall_ne_some.2 fun v hv => ?_
          rcases h.substituted.only name v hv with hv | ⟨-, p, hp, hpname⟩
          · rw [hbound] at hv
            contradiction
          · have := List.findIdx?_eq_none_iff.1 hfind p hp
            rw [hpname, beq_self_eq_true] at this
            contradiction
        have hrefs' := h.owned'.ref_absent h.other.live hnone
        have hglobals := h.substituted.globals name
        simp only [hrefs', Option.bind_none]
        cases hg : m.boundTo m.globals name with
        | some v =>
          have hplain := h.substituted.plainGlobals name v hg
          rw [hg] at hglobals
          obtain ⟨r, q, hr, hq, rfl⟩ := boundTo_eq_some.1 hg
          obtain ⟨r', q', hr', hq', heq⟩ := boundTo_eq_some.1 hglobals
          simp only [hr, hr', reference_eq_ok.2 hq, reference_eq_ok.2 hq']
          exact .value (.ref r q.value) (heq ▸ .ref r' q'.value) hplain
        | none =>
          rw [hg] at hglobals
          simp only [h.owned.global_absent hg, h.owned'.global_absent hglobals]
          exact .error rfl

end Pairing

end Model

end Recalc
