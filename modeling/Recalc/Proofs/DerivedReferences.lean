import Recalc.Proofs.InStepRequests

set_option autoImplicit false

/-!
# Derived references

A derived reference carries what its source carries, up to what the comparison of values and modes
does not tell apart: equal values need not be identical, and whether an automatic reference to a
space is relative is copied but never compared.
-/

namespace Recalc

open Recalc.Action Recalc.Model

theorem Value.space_of_beq {v w : Value} {h : Handle} (hv : v = .space h)
    (heq : (v == w) = true) : ∃ h', w = .space h' ∧ h'.id = h.id := by
  subst hv
  cases w with
  | space h' =>
    have hid : (h.id == h'.id) = true := heq
    exact ⟨h', rfl, (beq_iff_eq.1 hid).symm⟩
  | _ => cases heq

/-- A derived reference as the reference that it is derived from. -/
structure Reference.CopyOf (q source : Reference) : Prop where
  value : (q.value == source.value) = true
  mode : q.mode = source.mode
  origin : q.origin = source.origin
  /-- The mode in force may be another only where it had to be decided. -/
  relative : q.relative = source.relative ∨ (q.mode = .auto ∧ ∃ h, q.value = .space h)

section Copies

variable {q source : Reference}

theorem Reference.Sound.relative_eq_false (h : q.Sound) (hvalue : ∀ h, q.value ≠ .space h) :
    q.relative = false := by
  rw [← Bool.not_eq_true]
  intro hrelative
  obtain ⟨a, ha⟩ := h.space hrelative
  exact hvalue a ha

theorem Reference.Follows.copyOf (h : q.Follows source) (hq : q.Sound) (hsource : source.Sound) :
    q.CopyOf source := by
  refine ⟨h.value, h.mode, h.origin, ?_⟩
  by_cases hspace : ∃ a, q.value = .space a
  · obtain ⟨a, ha⟩ := hspace
    obtain ⟨b, hb, -⟩ := Value.space_of_beq ha h.value
    cases hmode : q.mode with
    | auto => exact .inr ⟨rfl, a, ha⟩
    | absolute =>
      rw [hq.absolute hmode, hsource.absolute (h.mode.symm.trans hmode)]
      exact .inl rfl
    | relative =>
      rw [hq.relative hmode a ha, hsource.relative (h.mode.symm.trans hmode) b hb]
      exact .inl rfl
  · have hother : ∀ b, source.value ≠ .space b := by
      intro b hb
      obtain ⟨a, ha, -⟩ := Value.space_of_beq hb (BEq.symm h.value)
      exact hspace ⟨a, ha⟩
    rw [hq.relative_eq_false fun a ha => hspace ⟨a, ha⟩, hsource.relative_eq_false hother]
    exact .inl rfl

end Copies

namespace Model

/-- What two references mean where they are read: the same place, equal values, or the same
failure. -/
inductive SameReading : Except Failure RefMeaning → Except Failure RefMeaning → Prop
  | failed (e : Failure) : SameReading (.error e) (.error e)
  | space (place : Place) : SameReading (.ok (.space place)) (.ok (.space place))
  | value {v w : Value} : (v == w) = true → SameReading (.ok (.value v)) (.ok (.value w))

section Readings

variable {m : Model} {r d : RefId} {q source : Reference}

theorem SameReading.refl_map (x : Except Failure Place) :
    SameReading (x.map RefMeaning.space) (x.map RefMeaning.space) := by
  cases x with
  | error e => exact .failed e
  | ok place => exact .space place

/-- A relative reference to a space is replayed; every other means its value. -/
theorem refMeaning_cases (hq : m.refs.get? r = some q) (current : SpaceId) :
    (∃ h o, q.value = .space h ∧ q.relative = true ∧ q.origin = some o ∧
        m.refMeaning r current = (m.replay o h.id current).map RefMeaning.space) ∨
      ((∀ h o, q.value = .space h → q.relative = true → q.origin ≠ some o) ∧
        m.refMeaning r current = .ok (.value q.value)) := by
  unfold refMeaning
  simp only [reference_eq_ok.2 hq, bind, Except.bind]
  by_cases hrelative : ∃ h o, q.value = .space h ∧ q.relative = true ∧ q.origin = some o
  · obtain ⟨h, o, hvalue, hmode, horigin⟩ := hrelative
    refine .inl ⟨h, o, hvalue, hmode, horigin, ?_⟩
    simp only [hvalue, hmode, horigin]
    rfl
  · refine .inr ⟨fun h o hvalue hmode horigin => hrelative ⟨h, o, hvalue, hmode, horigin⟩, ?_⟩
    split
    next h o hvalue hmode horigin => exact absurd ⟨h, o, hvalue, hmode, horigin⟩ hrelative
    next => rfl

end Readings

theorem Owned.static_of_ref {m : Model} (hm : m.Owned) {r : RefId} {q : Reference} {x : SpaceId}
    (hq : m.refs.get? r = some q) (howner : q.owner = some x) : m.Static x := by
  obtain ⟨s, hs, hlisted⟩ := hm.ref_holder hq howner
  refine ⟨s, hs, ?_⟩
  by_contra hreplica
  rw [(hm.placed x s hs).refs (Bool.not_eq_true _ ▸ hreplica), NameMap.get?_empty] at hlisted
  cases hlisted

end Model

theorem Reference.CopyOf.sameReading {m : Model} {r d : RefId} {q source : Reference}
    (h : q.CopyOf source) (hq : m.refs.get? r = some q)
    (hsource : m.refs.get? d = some source) (hrelative : q.relative = source.relative)
    (current : SpaceId) : SameReading (m.refMeaning r current) (m.refMeaning d current) := by
  rcases refMeaning_cases hq current with ⟨a, o, ha, hmode, horigin, heq⟩ | ⟨hplain, heq⟩
  · obtain ⟨b, hb, hid⟩ := Value.space_of_beq ha h.value
    rcases refMeaning_cases hsource current with ⟨b', o', hb', -, horigin', heq'⟩ | ⟨hplain, -⟩
    · cases hb.symm.trans hb'
      cases (horigin.symm.trans h.origin).trans horigin'
      rw [heq, heq', hid]
      exact .refl_map _
    · exact absurd (h.origin.symm.trans horigin) (hplain b o hb (hrelative.symm.trans hmode))
  · rcases refMeaning_cases hsource current with ⟨b, o, hb, hmode, horigin, -⟩ | ⟨-, heq'⟩
    · obtain ⟨a, ha, -⟩ := Value.space_of_beq hb (BEq.symm h.value)
      exact absurd (h.origin.trans horigin) (hplain a o ha (hrelative.trans hmode))
    · rw [heq, heq']
      exact .value h.value

/-- What a space inherits under a name: the reference of the first effective base that has one. -/
structure Model.Inherits (m : Model) (x : SpaceId) (name : String) (d : RefId)
    (source : Reference) : Prop where
  first : ∃ before b after s, m.allBases x = before ++ b :: after ∧
    (∀ a ∈ before, ∀ t, m.spaces.get? a = some t → t.refs.get? name = none) ∧
    m.spaces.get? b = some s ∧ s.refs.get? name = some d
  ref : m.refs.get? d = some source

theorem Model.inherits_of_sourceOf? {m : Model} (hm : m.Owned) {x : SpaceId} {name : String}
    {source : Reference} (h : m.sourceOf? x name = some source) :
    ∃ d b, m.Inherits x name d source ∧ source.owner = some b := by
  obtain ⟨before, b, after, hbases, hfirst, hearlier⟩ := List.findSome?_eq_some_iff.1 h
  obtain ⟨s, d, hs, hlisted, hsource⟩ := refOf?_eq_some.1 hfirst
  obtain ⟨source', hsource', howner, -⟩ := hm.ref_of_listed hs hlisted
  cases hsource.symm.trans hsource'
  refine ⟨d, b, ⟨⟨before, b, after, s, hbases, fun a ha t ht => ?_, hs, hlisted⟩, hsource⟩, howner⟩
  cases hnone : t.refs.get? name with
  | none => rfl
  | some c =>
    obtain ⟨p, hp, -⟩ := hm.ref_of_listed ht hnone
    have hsome := refOf?_eq_some.2 ⟨t, c, ht, hnone, hp⟩
    rw [hearlier a ha] at hsome
    cases hsome

/-- Where no edit was rejected, a derived reference is a copy of what its space inherits under the
name, and reading it anywhere gives what reading that one there gives, unless one of them was
decided to be relative and the other not. -/
theorem Peaceful.derived_copies {m : Model} (h : Peaceful m) (room : m.Addressable) {r : RefId}
    {q : Reference} {x : SpaceId} (hq : m.refs.get? r = some q) (howner : q.owner = some x)
    (hderived : q.derived = true) : ∃ d source, m.Inherits x q.name d source ∧ q.CopyOf source ∧
      (q.relative = source.relative →
        ∀ current, SameReading (m.refMeaning r current) (m.refMeaning d current)) := by
  have hm := (h.reachable.orderly.proper room).owned
  have haligned := h.aligned room
  have hstep := haligned.step x (hm.static_of_ref hq howner) fun hf => hf
  obtain ⟨source, hfound, hfollows⟩ := hstep.ref r q hq howner hderived
  obtain ⟨d, b, hinherits, hsowner⟩ := inherits_of_sourceOf? hm hfound
  have hcopy := hfollows.copyOf (haligned.sound r q x hq howner)
    (haligned.sound d source b hinherits.ref hsowner)
  exact ⟨d, source, hinherits, hcopy,
    fun hrelative => hcopy.sameReading hq hinherits.ref hrelative⟩

/-- `X` inherits a zero from `O`. -/
def zeroRequests : List Request :=
  [.createSpace none "O", .createSpace none "X", .linkBase ⟨1, 0⟩ ⟨0, 0⟩,
    .bindName ⟨0, 0⟩ "r" (.number ⟨0⟩) .auto]

theorem zero_derived_copies : ∃ m q, Peaceful m ∧ m.Addressable ∧
    m.refs.get? ⟨1, 0⟩ = some q ∧ q.owner = some ⟨1, 0⟩ ∧ q.derived = true ∧
    ∃ d source, m.Inherits ⟨1, 0⟩ q.name d source ∧ q.CopyOf source ∧
      (q.relative = source.relative →
        ∀ current, SameReading (m.refMeaning ⟨1, 0⟩ current) (m.refMeaning d current)) := by
  obtain ⟨m, hm, hp⟩ := Request.exists_arises Step.undisputed_of_isUndisputed 9 zeroRequests
    (fun m => (m.refs.get? ⟨1, 0⟩).any fun q : Reference =>
      decide (m.Addressable ∧ q.owner = some ⟨1, 0⟩ ∧ q.derived = true)) (by decide +kernel)
  obtain ⟨q, hq, hp⟩ := (Option.any_eq_true _ _).1 hp
  obtain ⟨room, howner, hderived⟩ := of_decide_eq_true hp
  exact ⟨m, q, hm, room, hq, howner, hderived, Peaceful.derived_copies hm room hq howner hderived⟩

def Value.bits? : Value → Option UInt64
  | .number x => some x.bits
  | _ => none

theorem Value.bits?_eq_some {v : Value} {bits : UInt64} (h : v.bits? = some bits) :
    v = .number ⟨bits⟩ := by
  cases v with
  | number x =>
    cases h
    rfl
  | _ => cases h

/-- The zero of `O` becomes negative, and that of `X` does not. -/
theorem folded_zero_stays : ∃ m q source, Arises Step.LinksWell m ∧
    m.refOf? ⟨1, 0⟩ "r" = some q ∧ q.derived = true ∧ m.sourceOf? ⟨1, 0⟩ "r" = some source ∧
      source.value = .number ⟨0x8000000000000000⟩ ∧ q.value = .number ⟨0⟩ := by
  obtain ⟨m, hm, hp⟩ := Request.exists_arises
    (fun s (h : s.request.linksWell s.outcome = true) => (h : s.LinksWell)) 9
    (zeroRequests ++ [.rebind ⟨0, 0⟩ (.number ⟨0x8000000000000000⟩)])
    (fun m => (m.refOf? ⟨1, 0⟩ "r").any fun q : Reference =>
      (m.sourceOf? ⟨1, 0⟩ "r").any fun source : Reference => decide (q.derived = true ∧
        source.value.bits? = some 0x8000000000000000 ∧ q.value.bits? = some 0))
    (by decide +kernel)
  obtain ⟨q, hq, hp⟩ := (Option.any_eq_true _ _).1 hp
  obtain ⟨source, hsource, hp⟩ := (Option.any_eq_true _ _).1 hp
  obtain ⟨hderived, hnegative, hzero⟩ := of_decide_eq_true hp
  exact ⟨m, q, source, hm, hq, hderived, hsource, Value.bits?_eq_some hnegative,
    Value.bits?_eq_some hzero⟩

end Recalc
