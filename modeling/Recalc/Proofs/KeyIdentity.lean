import Recalc.Proofs.AkinValues
import Recalc.Proofs.NormalForms
import Recalc.Value.Feed

set_option autoImplicit false

/-!
# What keys tell apart

Two lists of arguments make equal keys when they differ in nothing but the form of their sequences,
the sign of their zeros, the patterns of their not-a-numbers and what their handles keep alive. To
say so without keys all of that is collapsed, at every depth, and what is left is compared as it
is. A normal form has no sequences to turn into tuples any more, and a value has one unless there is
a host object somewhere in it.
-/

namespace Recalc

namespace Number

variable {x y : Number}

/-! ## Folded numbers -/

def negativeZero : Number := ⟨0x8000000000000000⟩

/-- The number with one zero for both, and one not-a-number for all. -/
def folded (x : Number) : Number :=
  if x = negativeZero then zero else if x.isNaN then nan else x

theorem isZero_iff : x.isZero = true ↔ x = zero ∨ x = negativeZero := by
  obtain ⟨bits⟩ := x
  have hbits := bits.toNat_lt
  simp only [isZero, magnitude, signBit, beq_iff_eq, zero, negativeZero, mk.injEq,
    ← UInt64.toNat_inj, UInt64.toNat_ofNat]
  omega

theorem folded_eq_canonical (x : Number) : x.folded = x.canonical := by
  unfold folded canonical
  by_cases hzero : x.isZero = true
  · rw [if_pos hzero]
    rcases isZero_iff.1 hzero with rfl | rfl
    · rfl
    · rw [if_pos rfl]
  · have hnegative : x ≠ negativeZero := fun h => hzero (isZero_iff.2 (.inr h))
    rw [if_neg hzero, if_neg hnegative]

theorem same_iff_folded : x.same y = true ↔ x.folded = y.folded := by
  rw [folded_eq_canonical, folded_eq_canonical, same, beq_iff_eq]
  exact ⟨fun h => congrArg mk h, congrArg bits⟩

end Number

namespace Value

variable {v w : Value} {vs ws : List Value} {o : HostObject}

/-! ## Collapsed values -/

mutual

/-- The value with a tuple for every sequence, its numbers folded, and handles that keep nothing
alive. -/
def collapse : Value → Value
  | .number x => .number x.folded
  | .tuple items | .list items => .tuple (collapseItems items)
  | .space h => .space { id := h.id }
  | v => v

def collapseItems : List Value → List Value
  | [] => []
  | v :: vs => collapse v :: collapseItems vs

end

theorem collapseItems_eq_map : collapseItems vs = vs.map collapse := by
  induction vs with
  | nil => rfl
  | cons v vs ih => rw [collapseItems, ih, List.map_cons]

/-- The normal form of a value collapses like the value. -/
theorem collapse_normalize (h : v.normalize = .ok w) : w.collapse = v.collapse := by
  induction v using induct generalizing w with
  | tuple items ih | list items ih =>
    rw [normalize, except_map_eq_ok] at h
    obtain ⟨ws, hws, rfl⟩ := h
    rw [collapse, collapse, collapseItems_eq_map, collapseItems_eq_map,
      map_of_normalizeItems (fun v hv w => ih v hv) hws]
  | host => cases h
  | _ =>
    cases h
    rfl

theorem sameItems_iff_collapse
    (h : ∀ v ∈ vs, ∀ w, w.isNormal = true → (same v w = true ↔ v.collapse = w.collapse))
    (hws : areNormal ws = true) : sameItems vs ws = true ↔ vs.map collapse = ws.map collapse := by
  induction vs generalizing ws with
  | nil => cases ws <;> simp [sameItems]
  | cons v vs ih =>
    obtain ⟨hfirst, hrest⟩ := List.forall_mem_cons.1 h
    cases ws with
    | nil => simp [sameItems]
    | cons w ws =>
      obtain ⟨hw, hws⟩ := List.forall_mem_cons.1 (areNormal_iff.1 hws)
      rw [sameItems, Bool.and_eq_true, hfirst w hw, ih hrest (areNormal_iff.2 hws), List.map_cons,
        List.map_cons, List.cons.injEq]

/-- Normal forms are equal when they collapse into one value. -/
theorem same_iff_collapse (hv : v.isNormal = true) (hw : w.isNormal = true) :
    same v w = true ↔ v.collapse = w.collapse := by
  induction v using induct generalizing w with
  | tuple items ih =>
    have hmembers := areNormal_iff.1 hv
    cases w with
    | tuple ws =>
      rw [same, collapse, collapse, tuple.injEq, collapseItems_eq_map, collapseItems_eq_map]
      exact sameItems_iff_collapse (fun v hv w hw => ih v hv (hmembers v hv) hw) hw
    | list | host => cases hw
    | _ => simp [same, collapse]
  | list | host => cases hv
  | _ =>
    cases w with
    | list | host => cases hw
    | _ => simp [same, collapse, Number.same_iff_folded, Handle.beq_iff]

end Value

/-! ## Keys -/

section Keys

variable {as bs : List Value} {j k : Key}

theorem Key.collapse_ofValues (h : Key.ofValues as = .ok k) :
    k.values.map Value.collapse = as.map Value.collapse :=
  Value.map_of_normalizeItems (fun _ _ _ => Value.collapse_normalize) (ofValues_eq_ok.1 h)

theorem Key.beq_iff_collapse :
    (j == k) = true ↔ j.values.map Value.collapse = k.values.map Value.collapse :=
  Value.sameItems_iff_collapse
    (fun v hv _ hw => Value.same_iff_collapse (Value.areNormal_iff.1 j.normal v hv) hw) k.normal

/-- Keys are equal when the arguments that they were made from collapse into the same values. -/
theorem Key.ofValues_beq_iff (hj : Key.ofValues as = .ok j) (hk : Key.ofValues bs = .ok k) :
    (j == k) = true ↔ as.map Value.collapse = bs.map Value.collapse := by
  rw [beq_iff_collapse, collapse_ofValues hj, collapse_ofValues hk]

example : (Value.list [.tuple [.number .negativeZero], .space ⟨⟨2, 0⟩, [⟨1, 0⟩]⟩]).collapse =
    .tuple [.tuple [.number .zero], .space ⟨⟨2, 0⟩, []⟩] := by rfl

end Keys

/-- What keys rely on to address one node for equal arguments. -/
structure KeysSound : Prop where
  equivalence : Equivalence fun v w : Value => (v == w) = true
  /-- Equal values feed a hash function with the same data, whatever comes after them. -/
  feed : ∀ v w : Value, (v == w) = true → ∀ rest, v.feed rest = w.feed rest
  idempotent : ∀ v w : Value, v.normalize = .ok w → w.normalize = .ok w
  fails : ∀ v : Value, (∃ e, v.normalize = .error e) ↔ ∃ o, v.Holds o
  failure : ∀ (v : Value) e, v.normalize = .error e → ∃ o, v.Holds o ∧ e = Value.unhashable o
  /-- Arguments without host objects have keys, which are equal exactly when nothing is left to tell
  the arguments apart. -/
  keys : ∀ as bs : List Value, (∀ v ∈ as ++ bs, ∀ o, ¬ v.Holds o) →
    ∃ j k, Key.ofValues as = .ok j ∧ Key.ofValues bs = .ok k ∧
      ((j == k) = true ↔ as.map Value.collapse = bs.map Value.collapse)

/-- Keys are a sound notion of identity. -/
theorem keysSound : KeysSound where
  equivalence := ⟨fun _ => BEq.rfl, BEq.symm, BEq.trans⟩
  feed v w h := Value.feed_eq_of_same v w h
  idempotent v w h := Value.normalize_of_isNormal (Value.isNormal_of_normalize v w h)
  fails _ := Value.normalize_fails_iff
  failure _ _ h := Value.exists_holds h
  keys as bs h := by
    obtain ⟨has, hbs⟩ := List.forall_mem_append.1 h
    obtain ⟨j, hj⟩ := Key.exists_ofValues has
    obtain ⟨k, hk⟩ := Key.exists_ofValues hbs
    exact ⟨j, k, hj, hk, Key.ofValues_beq_iff hj hk⟩

end Recalc
