import Mathlib.Data.List.Forall2
import Recalc.Proofs.FairBodies
import Recalc.Proofs.Forwarding

set_option autoImplicit false

/-!
# Akin models

Two models are akin when they have the same entities, with equal values under equal keys, and when
all their formulas respect equality. What names mean, where relative references lead and which
arguments bind is then the same in both, up to equality; so is what making a replica does.
-/

namespace Recalc

/-! ## Akin entities -/

inductive SpaceKind.Akin : SpaceKind → SpaceKind → Prop
  | refl (k : SpaceKind) : Akin k k
  | item {owner c : SpaceId} {args args' : Key} {enclosing : List SpaceId} :
      (args == args') = true →
      Akin (.item owner c args enclosing) (.item owner c args' enclosing)

theorem SpaceKind.Akin.item_or_eq {k k' : SpaceKind} (h : k.Akin k') :
    (∃ owner c args args' enclosing, k = .item owner c args enclosing ∧
      k' = .item owner c args' enclosing ∧ (args == args') = true) ∨
      (k' = k ∧ ∀ owner c args enclosing, k ≠ .item owner c args enclosing) := by
  cases h with
  | refl =>
    cases k with
    | item owner c args enclosing =>
      exact .inl ⟨owner, c, args, args, enclosing, rfl, rfl, BEq.rfl⟩
    | static | dynamic => exact .inr ⟨rfl, fun _ _ _ _ heq => nomatch heq⟩
  | item hargs => exact .inl ⟨_, _, _, _, _, rfl, rfl, hargs⟩

structure Space.Akin (s t : Space) : Prop where
  record : t = { s with kind := t.kind, instances := t.instances }
  kind : s.kind.Akin t.kind
  instances : ∀ key, t.instances.get? key = s.instances.get? key
  binder : ∀ spec f, s.signature = some spec → spec.binder = some f → f.Respectful

structure Contents.Akin (c d : Contents) : Prop where
  values : ∀ key, Option.Rel Value.Akin (c.values.get? key) (d.values.get? key)
  inputs : ∀ key, Option.Rel Value.Akin (c.inputs.get? key) (d.inputs.get? key)

structure Cells.Akin (c d : Cells) : Prop where
  record : d = { c with contents := d.contents }
  contents : c.contents.Akin d.contents
  formula : ∀ f, c.formula = some f → f.Respectful

structure Slot.Akin {α : Type} (R : α → α → Prop) (s t : Slot α) : Prop where
  generation : t.generation = s.generation
  value : Option.Rel R s.value t.value

/-- Related entities in the same slots, as far as identities reach. -/
structure Pool.Akin {family : Family} {α : Type} (R : α → α → Prop) (p q : Pool family α) :
    Prop where
  free : q.free = p.free
  size : q.slots.size = p.slots.size
  slots : ∀ i : UInt32, Option.Rel (Slot.Akin R) p.slots[i.toNat]? q.slots[i.toNat]?

/-- The same model up to equality, the dependency graph apart. -/
structure Model.Akin (m m' : Model) : Prop where
  name : m'.name = m.name
  config : m'.config = m.config
  refs : m'.refs = m.refs
  roots : m'.roots = m.roots
  globals : m'.globals = m.globals
  runs : m'.runs = m.runs
  spaces : Pool.Akin Space.Akin m.spaces m'.spaces
  cells : Pool.Akin Cells.Akin m.cells m'.cells
  stack : List.Forall₂ (fun n n' => (n == n') = true) m.stack.nodes m'.stack.nodes

theorem Space.Akin.isStatic {s t : Space} (h : s.Akin t) : t.isStatic = s.isStatic := by
  have hkind := h.kind
  unfold Space.isStatic
  generalize s.kind = k, t.kind = k' at hkind ⊢
  cases hkind <;> rfl

section Listing

variable {s t : Space} (h : s.Akin t) (name : String)
include h

theorem Space.Akin.listCells (id : CellId) :
    Space.Akin { s with cells := s.cells.insert name id }
      { t with cells := t.cells.insert name id } where
  record := congrArg (fun u : Space => { u with cells := u.cells.insert name id }) h.record
  kind := h.kind
  instances := h.instances
  binder := h.binder

theorem Space.Akin.listSpace (id : SpaceId) :
    Space.Akin { s with spaces := s.spaces.insert name id }
      { t with spaces := t.spaces.insert name id } where
  record := congrArg (fun u : Space => { u with spaces := u.spaces.insert name id }) h.record
  kind := h.kind
  instances := h.instances
  binder := h.binder

omit name in
theorem Space.Akin.listItem {key key' : Key} (hkey : (key == key') = true) (id : SpaceId) :
    Space.Akin { s with instances := s.instances.insert key id }
      { t with instances := t.instances.insert key' id } where
  record := congrArg
    (fun u : Space => { u with instances := t.instances.insert key' id }) h.record
  kind := h.kind
  instances k := by
    rw [Table.get?_insert, Table.get?_insert, BEq.congr_left hkey, h.instances k]
  binder := h.binder

end Listing

namespace Contents.Akin

variable {c d : Contents}

theorem refl (c : Contents) : c.Akin c :=
  have hrefl : ∀ o : Option Value, Option.Rel Value.Akin o o := fun
    | none => .none
    | some _ => .some BEq.rfl
  ⟨fun _ => hrefl _, fun _ => hrefl _⟩

theorem get? (h : c.Akin d) (key : Key) :
    Option.Rel Value.Akin (c.get? key) (d.get? key) := by
  have hinput := h.inputs key
  unfold Contents.get?
  generalize c.inputs.get? key = o, d.inputs.get? key = o' at hinput
  cases hinput with
  | none => exact h.values key
  | some hv => exact .some hv

/-- Equal values are stored for equal keys, or neither is. -/
theorem store? (h : c.Akin d) {key key' : Key} (hkey : (key == key') = true) {v w : Value}
    (hv : v.Akin w) : Option.Rel Contents.Akin (c.store? key v) (d.store? key' w) := by
  have hinput := h.inputs key
  unfold Contents.store? Contents.hasInput
  rw [Table.contains_eq_isSome, Table.contains_eq_isSome, ← Table.get?_congr _ hkey]
  generalize ho : c.inputs.get? key = o, ho' : d.inputs.get? key = o' at hinput
  cases hinput with
  | some _ => exact .none
  | none =>
    refine .some ⟨fun k => ?_, h.inputs⟩
    rw [Table.get?_insert, Table.get?_insert, BEq.congr_left hkey]
    split
    · exact .some hv
    · exact h.values k

end Contents.Akin

/-! ## Akin pools -/

namespace Pool.Akin

variable {family : Family} {α : Type} {R : α → α → Prop} {p q : Pool family α}

theorem refl (hR : ∀ id v, p.get? id = some v → R v v) : Pool.Akin R p p where
  free := rfl
  size := rfl
  slots i := by
    cases hp : p.slots[i.toNat]? with
    | none => exact .none
    | some slot =>
      obtain ⟨generation, value⟩ := slot
      refine .some ⟨rfl, ?_⟩
      cases value with
      | none => exact .none
      | some v =>
        refine .some (hR ⟨i, generation⟩ v ?_)
        rw [Pool.get?, hp]
        exact if_pos rfl

theorem get? (h : Pool.Akin R p q) (id : Id family) : Option.Rel R (p.get? id) (q.get? id) := by
  have hslot := h.slots id.index
  unfold Pool.get?
  generalize p.slots[id.index.toNat]? = o, q.slots[id.index.toNat]? = o' at hslot
  cases hslot with
  | none => exact .none
  | some hst =>
    dsimp only
    rw [hst.1]
    split
    · exact hst.2
    · exact .none

theorem contains (h : Pool.Akin R p q) (id : Id family) : q.contains id = p.contains id := by
  have hget := h.get? id
  unfold Pool.contains
  generalize p.get? id = o, q.get? id = o' at hget
  cases hget <;> rfl

theorem set (h : Pool.Akin R p q) (i : Nat) {s t : Slot α} (hst : Slot.Akin R s t) (j : UInt32) :
    Option.Rel (Slot.Akin R) (p.slots.setIfInBounds i s)[j.toNat]?
      (q.slots.setIfInBounds i t)[j.toNat]? := by
  rw [Array.getElem?_setIfInBounds, Array.getElem?_setIfInBounds, h.size]
  split
  · split
    · exact .some hst
    · exact .none
  · exact h.slots j

theorem modify (h : Pool.Akin R p q) (id : Id family) {f g : α → α}
    (hfg : ∀ v w, R v w → R (f v) (g w)) : Pool.Akin R (p.modify id f) (q.modify id g) := by
  have hget := h.get? id
  unfold Pool.modify
  generalize p.get? id = o, q.get? id = o' at hget
  cases hget with
  | none => exact h
  | some hvw =>
    refine ⟨h.free, ?_, h.set _ ⟨rfl, .some (hfg _ _ hvw)⟩⟩
    rw [Array.size_setIfInBounds, Array.size_setIfInBounds, h.size]

/-- Related entities get the same identity. -/
theorem insert (h : Pool.Akin R p q) {v w : α} (hvw : R v w) :
    (q.insert w).1 = (p.insert v).1 ∧ Pool.Akin R (p.insert v).2 (q.insert w).2 := by
  unfold Pool.insert
  rw [h.free]
  cases p.free with
  | nil =>
    dsimp only
    refine ⟨by rw [h.size], rfl, by rw [Array.size_push, Array.size_push, h.size], fun i => ?_⟩
    rw [Array.getElem?_push, Array.getElem?_push, h.size]
    split
    · exact .some ⟨rfl, .some hvw⟩
    · exact h.slots i
  | cons index rest =>
    dsimp only
    have hslot := h.slots index
    generalize p.slots[index.toNat]? = o, q.slots[index.toNat]? = o' at hslot
    cases hslot with
    | none => exact ⟨rfl, rfl, h.size, h.slots⟩
    | some hst =>
      dsimp only
      refine ⟨by rw [hst.1], rfl, ?_, h.set _ ⟨hst.1, .some hvw⟩⟩
      rw [Array.size_setIfInBounds, Array.size_setIfInBounds, h.size]

end Pool.Akin

/-! ## What names mean -/

inductive Meaning.Akin : Meaning → Meaning → Prop
  | refl (found : Meaning) : Akin found found
  | param {v w : Value} : v.Akin w → Akin (.param v) (.param w)

namespace Model.Akin

variable {m m' : Model} (h : m.Akin m')
include h

theorem space_cases (id : SpaceId) : (m.spaces.get? id = none ∧ m'.spaces.get? id = none) ∨
    ∃ s t, m.spaces.get? id = some s ∧ m'.spaces.get? id = some t ∧ s.Akin t := by
  have hget := h.spaces.get? id
  generalize m.spaces.get? id = o, m'.spaces.get? id = o' at hget
  cases hget with
  | none => exact .inl ⟨rfl, rfl⟩
  | some hst => exact .inr ⟨_, _, rfl, rfl, hst⟩

theorem space (id : SpaceId) : AkinResult Space.Akin (m.space id) (m'.space id) := by
  unfold Model.space
  rcases h.space_cases id with ⟨hs, ht⟩ | ⟨s, t, hs, ht, hst⟩
  · rw [hs, ht]
    exact .error (.refl _)
  · rw [hs, ht]
    exact .ok hst

/-- What looks at a space without its arguments and instances sees the same. -/
theorem space_bind {α : Type} (id : SpaceId) {f g : Space → Except Failure α}
    (hfg : ∀ s t, s.Akin t → g t = f s) : (m'.space id >>= g) = (m.space id >>= f) := by
  unfold Model.space
  rcases h.space_cases id with ⟨hs, ht⟩ | ⟨s, t, hs, ht, hst⟩
  · rw [hs, ht]
    rfl
  · rw [hs, ht]
    exact hfg s t hst

theorem cell (id : CellId) : AkinResult Cells.Akin (m.cell id) (m'.cell id) := by
  have hget := h.cells.get? id
  unfold Model.cell
  generalize m.cells.get? id = o, m'.cells.get? id = o' at hget
  cases hget with
  | none => exact .error (.refl _)
  | some hcd => exact .ok hcd

theorem reference (id : RefId) : m'.reference id = m.reference id := by
  unfold Model.reference
  rw [h.refs]

theorem counterpart (id : SpaceId) : m'.counterpart id = m.counterpart id := by
  refine h.space_bind id fun s t hst => ?_
  have hkind := hst.kind
  generalize s.kind = k, t.kind = k' at hkind ⊢
  cases hkind <;> rfl

theorem instanceRoot? (id : SpaceId) : m'.instanceRoot? id = m.instanceRoot? id := by
  unfold Model.instanceRoot?
  rcases h.space_cases id with ⟨hs, ht⟩ | ⟨s, t, hs, ht, hst⟩
  · rw [hs, ht]
  · have hkind := hst.kind
    rw [hs, ht]
    dsimp only
    generalize s.kind = k, t.kind = k' at hkind ⊢
    cases hkind <;> rfl

theorem pinsOf (id : SpaceId) : m'.pinsOf id = m.pinsOf id := by
  unfold Model.pinsOf
  rw [h.instanceRoot? id]
  cases m.instanceRoot? id with
  | none => rfl
  | some root =>
    dsimp only
    rcases h.space_cases root with ⟨hs, ht⟩ | ⟨s, t, hs, ht, hst⟩
    · rw [hs, ht]
    · have hkind := hst.kind
      rw [hs, ht]
      dsimp only
      generalize s.kind = k, t.kind = k' at hkind ⊢
      cases hkind <;> rfl

theorem handleTo (id : SpaceId) : m'.handleTo id = m.handleTo id := by
  unfold Model.handleTo
  rw [h.pinsOf id]
  exact h.space_bind id fun _ _ _ => rfl

theorem ancestryFrom (fuel : Nat) (id : SpaceId) :
    m'.ancestryFrom fuel id = m.ancestryFrom fuel id := by
  induction fuel generalizing id with
  | zero => rfl
  | succ fuel ih =>
    rw [Model.ancestryFrom, Model.ancestryFrom]
    rcases h.space_cases id with ⟨hs, ht⟩ | ⟨s, t, hs, ht, hst⟩
    · rw [hs, ht]
    · rw [hs, ht, hst.record]
      dsimp only
      cases s.parent with
      | none => rfl
      | some p => exact congrArg (id :: ·) (ih p)

theorem ancestry (id : SpaceId) : m'.ancestry id = m.ancestry id := by
  unfold Model.ancestry Pool.capacity
  rw [h.spaces.size, h.ancestryFrom]

theorem climb (count : Nat) (id : SpaceId) : m'.climb count id = m.climb count id := by
  induction count generalizing id with
  | zero => rfl
  | succ count ih =>
    rw [Model.climb, Model.climb]
    refine h.space_bind id fun s t hst => ?_
    rw [hst.record]
    dsimp only
    cases s.parent with
    | none => rfl
    | some p => exact ih p

theorem descend (path : List String) (id : SpaceId) : m'.descend path id = m.descend path id := by
  induction path generalizing id with
  | nil => rfl
  | cons name rest ih =>
    rw [Model.descend, Model.descend, h.counterpart id]
    refine h.space_bind id fun s t hst => ?_
    rw [hst.isStatic, hst.record]
    dsimp only
    cases s.spaces.get? name with
    | some child => exact ih child
    | none =>
      dsimp only
      split
      · rfl
      · refine bind_congr fun c => h.space_bind c fun s t hst => ?_
        rw [hst.record]

theorem replay (origin target current : SpaceId) :
    m'.replay origin target current = m.replay origin target current := by
  have hname : (fun s => (m'.spaces.get? s).map Space.name) =
      fun s => (m.spaces.get? s).map Space.name := by
    funext s
    rcases h.space_cases s with ⟨hs, ht⟩ | ⟨s, t, hs, ht, hst⟩
    · rw [hs, ht]
    · rw [hs, ht, hst.record]
      rfl
  unfold Model.replay
  rw [h.ancestry, h.ancestry, hname, h.config]
  simp only [h.climb, h.descend]

theorem refMeaning (id : RefId) (current : SpaceId) :
    m'.refMeaning id current = m.refMeaning id current := by
  unfold Model.refMeaning
  rw [h.reference id]
  simp only [h.replay]

theorem memberMeaning (id : SpaceId) (name : String) :
    m'.memberMeaning id name = m.memberMeaning id name := by
  unfold Model.memberMeaning
  rw [h.counterpart id]
  refine h.space_bind id fun s t hst => ?_
  rw [hst.record]
  dsimp only
  cases s.cells.get? name with
  | some c => rfl
  | none =>
    cases s.spaces.get? name with
    | some child => rfl
    | none =>
      refine bind_congr fun c => h.space_bind c fun s t hst => ?_
      rw [hst.record]
      simp only [h.refMeaning]

/-- Equal arguments are bound to the parameters of akin instances. -/
theorem boundArgumentFrom (name : String) (fuel : Nat) (item : Option SpaceId) :
    AkinResult (Option.Rel Value.Akin) (m.boundArgumentFrom name fuel item)
      (m'.boundArgumentFrom name fuel item) := by
  induction fuel generalizing item with
  | zero => cases item <;> exact .ok .none
  | succ fuel ih =>
    cases item with
    | none => exact .ok .none
    | some item =>
      rw [Model.boundArgumentFrom, Model.boundArgumentFrom]
      refine (h.space item).bind fun s t hst => ?_
      have hkind := hst.kind
      generalize s.kind = k, t.kind = k' at hkind ⊢
      rcases hkind.item_or_eq with ⟨owner, c, args, args', enclosing, rfl, rfl, hargs⟩ | ⟨rfl, hnot⟩
      · refine (h.space c).bind fun s t hst => ?_
        rw [hst.record]
        dsimp only
        cases s.signature.bind fun spec => spec.params.findIdx? (·.name == name) with
        | some i => exact .ok (forall₂_getElem? (Value.sameItems_iff.1 hargs) i)
        | none =>
          rw [h.instanceRoot? owner]
          exact ih _
      · cases k' with
        | item owner c args enclosing => exact absurd rfl (hnot owner c args enclosing)
        | static => exact .ok .none
        | dynamic => exact .ok .none

theorem meaning (id : SpaceId) (name : String) :
    AkinResult Meaning.Akin (m.meaning id name) (m'.meaning id name) := by
  unfold Model.meaning
  refine (h.space id).bind fun s t hst => ?_
  rw [hst.record, h.memberMeaning]
  dsimp only
  split
  · cases s.parent <;> exact .ok (.refl _)
  · exact .ok (.refl _)
  · exact .ok (.refl _)
  refine AkinResult.bind (.refl (R := Eq) (fun _ => rfl) _) fun found _ hfound => ?_
  subst hfound
  cases found with
  | some found => exact .ok (.refl found)
  | none =>
    have hbound : AkinResult (Option.Rel Value.Akin) (m.boundArgument id name)
        (m'.boundArgument id name) := by
      unfold Model.boundArgument Pool.capacity
      rw [h.spaces.size, h.instanceRoot? id]
      exact h.boundArgumentFrom name _ _
    refine hbound.bind fun o o' ho => ?_
    cases ho with
    | some hv => exact .ok (.param hv)
    | none =>
      rw [h.globals]
      dsimp only
      cases m.globals.get? name with
      | none => exact .error (.unknownName ..)
      | some r =>
        dsimp only
        rw [h.reference r]
        exact AkinResult.bind (.refl (R := Eq) (fun _ => rfl) _) fun _ _ hr =>
          hr ▸ .ok (.refl _)

theorem mayBeEmpty (id : CellId) : m'.mayBeEmpty id = m.mayBeEmpty id := by
  have hallow : (fun s => (m'.spaces.get? s).bind (·.allowNone)) =
      fun s => (m.spaces.get? s).bind (·.allowNone) := by
    funext s
    rcases h.space_cases s with ⟨hs, ht⟩ | ⟨s, t, hs, ht, hst⟩
    · rw [hs, ht]
    · rw [hs, ht, hst.record]
      rfl
  unfold Model.mayBeEmpty
  have hcells := h.cells.get? id
  generalize m.cells.get? id = o, m'.cells.get? id = o' at hcells
  cases hcells with
  | none => rw [h.config]
  | @some c d hcd =>
    have hcd : d = { c with contents := d.contents } := hcd.record
    rw [hcd, h.config, hallow]
    dsimp only
    rw [h.counterpart]
    simp only [h.ancestry]

/-- The same parameters are declared, and the binder respects equality. -/
theorem signature (id : SpaceId) :
    AkinResult (fun spec spec' => spec' = spec ∧ ∀ f, spec.binder = some f → f.Respectful)
      (m.signature id) (m'.signature id) := by
  unfold Model.signature
  rw [h.counterpart id]
  refine AkinResult.bind (.refl (R := Eq) (fun _ => rfl) _) fun c _ hc => ?_
  subst hc
  refine (h.space c).bind fun s t hst => ?_
  rw [hst.record]
  dsimp only
  cases hspec : s.signature with
  | none => exact .error (.invalidArguments ..)
  | some spec => exact .ok ⟨rfl, fun f => hst.binder spec f hspec⟩

/-- Akin arguments bind to equal keys. -/
theorem bindCells (id : CellId) {a b : Arguments} (hab : a.Akin b) :
    AkinResult (fun k k' => (k == k') = true) (m.bindCells id a) (m'.bindCells id b) := by
  unfold Model.bindCells
  refine (h.cell id).bind fun c d hcd => ?_
  rw [hcd.record]
  dsimp only
  cases c.formula with
  | some f =>
    exact (akin_matchArguments hab f.params _ _).bind fun _ _ hbound => Key.akin_ofValues hbound
  | none =>
    have hnamed := hab.named
    dsimp only
    rw [show b.named.isEmpty = a.named.isEmpty by
      generalize a.named = l, b.named = l' at hnamed
      cases hnamed <;> rfl]
    split
    · exact Key.akin_ofValues hab.positional
    · exact .error (.invalidArguments ..)

theorem argValues (id : SpaceId) : AkinResult (Option.Rel (List.Forall₂ Value.Akin))
    (m.argValues id) (m'.argValues id) := by
  unfold Model.argValues
  refine (h.space id).bind fun s t hst => ?_
  have hkind := hst.kind
  generalize s.kind = k, t.kind = k' at hkind ⊢
  cases hkind with
  | item hargs => exact .ok (.some (Value.sameItems_iff.1 hargs))
  | refl k =>
    cases k with
    | item owner c args enclosing => exact .ok (.some (List.forall₂_same.2 fun _ _ => BEq.rfl))
    | _ => exact .ok .none

/-! ## Akin changes -/

omit h in
/-- Where all formulas respect equality, a model is akin to itself. -/
theorem refl (hm : m.Uses Formula.Respectful) : m.Akin m where
  name := rfl
  config := rfl
  refs := rfl
  roots := rfl
  globals := rfl
  runs := rfl
  spaces := .refl fun id s hs => ⟨rfl, .refl _, fun _ => rfl, fun spec f => hm.binders id s spec f hs⟩
  cells := .refl fun id c hc => ⟨rfl, .refl _, fun f => hm.cells id c f hc⟩
  stack := List.forall₂_same.2 fun _ _ => BEq.rfl

theorem modifySpace (id : SpaceId) {f g : Space → Space}
    (hfg : ∀ s t, s.Akin t → (f s).Akin (g t)) : (m.modifySpace id f).Akin (m'.modifySpace id g) :=
  { h with spaces := h.spaces.modify id hfg }

theorem modifyCell (id : CellId) {f g : Cells → Cells}
    (hfg : ∀ c d, c.Akin d → (f c).Akin (g d)) : (m.modifyCell id f).Akin (m'.modifyCell id g) :=
  { h with cells := h.cells.modify id hfg }

/-- The dependency graph does not matter. -/
theorem graph (g g' : Graph) : ({ m with graph := g } : Model).Akin { m' with graph := g' } :=
  { h with }

theorem noteRead (n n' : Node) : (Model.noteRead n m).Akin (Model.noteRead n' m') := by
  obtain ⟨g, hg⟩ := noteRead_eq n m
  obtain ⟨g', hg'⟩ := noteRead_eq n' m'
  rw [hg, hg']
  exact h.graph g g'

theorem addCells {c d : Cells} (hcd : c.Akin d) : (m.addCells c).2.Akin (m'.addCells d).2 := by
  obtain ⟨hid, hcells⟩ := h.cells.insert hcd
  have hadded : ({ m with cells := (m.cells.insert c).2 } : Model).Akin
      { m' with cells := (m'.cells.insert d).2 } := { h with cells := hcells }
  have hspace : d.space = c.space := by rw [hcd.record]
  have hname : d.name = c.name := by rw [hcd.record]
  unfold Model.addCells
  dsimp only
  rw [hspace]
  refine hadded.modifySpace c.space fun s t hst => ?_
  rw [hname, hid]
  exact hst.listCells c.name _

theorem copyCells (replica counterpart : SpaceId) :
    (m.copyCells replica counterpart).Akin (m'.copyCells replica counterpart) := by
  unfold Model.copyCells
  rcases h.space_cases counterpart with ⟨hs, ht⟩ | ⟨s, t, hs, ht, hst⟩
  · rw [hs, ht]
    exact h
  · rw [hs, ht, hst.record]
    dsimp only
    refine List.rel_foldl (P := Model.Akin) (R := Cells.Akin) (fun m m' h c d hcd => ?_) h ?_
    · rw [hcd.record]
      exact h.addCells ⟨rfl, .refl _, hcd.formula⟩
    · refine List.rel_filterMap (R := Eq) (fun id _ hid => ?_) (List.forall₂_same.2 fun _ _ => rfl)
      exact hid ▸ h.cells.get? id

theorem addReplica {s t : Space} (hst : s.Akin t) (counterpart : SpaceId) :
    (m'.addReplica t counterpart).1 = (m.addReplica s counterpart).1 ∧
      (m.addReplica s counterpart).2.Akin (m'.addReplica t counterpart).2 := by
  obtain ⟨hid, hspaces⟩ := h.spaces.insert hst
  have hadded : ({ m with spaces := (m.spaces.insert s).2 } : Model).Akin
      { m' with spaces := (m'.spaces.insert t).2 } := { h with spaces := hspaces }
  refine ⟨hid, ?_⟩
  unfold Model.addReplica Model.addSpace
  dsimp only
  rw [hid]
  exact hadded.copyCells _ counterpart

end Model.Akin

end Recalc
