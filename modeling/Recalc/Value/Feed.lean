import Recalc.Value

set_option autoImplicit false

/-!
# What is hashed of a value

A hash function is fed with the form of a value, then with its content, where sequences put their
length first. Numbers feed their folded pattern and handles only the space they name, so equal
values feed the same data. Conversely the data tell where a value ends, so values that feed the
same data are equal.
-/

namespace Recalc

/-- One item that a hash function is fed with. -/
inductive Datum where
  | form (index : Nat)
  | flag (b : Bool)
  | word (w : UInt64)
  | text (s : String)
  | length (n : Nat)
  deriving DecidableEq, Hashable

namespace Value

mutual

def feed : Value → List Datum → List Datum
  | .empty, rest => .form 0 :: rest
  | .bool b, rest => .form 1 :: .flag b :: rest
  | .int i, rest => .form 2 :: .word i.toUInt64 :: rest
  | .number x, rest => .form 3 :: .word x.canonical.bits :: rest
  | .text s, rest => .form 4 :: .text s :: rest
  | .tuple items, rest => .form 5 :: .length items.length :: feedItems items rest
  | .list items, rest => .form 6 :: .length items.length :: feedItems items rest
  | .space h, rest =>
    .form 7 :: .word h.id.index.toUInt64 :: .word h.id.generation.toUInt64 :: rest
  | .host o, rest => .form 8 :: .length o.ident :: rest

def feedItems : List Value → List Datum → List Datum
  | [], rest => rest
  | v :: vs, rest => feed v (feedItems vs rest)

end

theorem length_eq_of_sameItems : (vs ws : List Value) → sameItems vs ws = true →
    vs.length = ws.length
  | [], [], _ => rfl
  | [], _ :: _, h => by simp [sameItems] at h
  | _ :: _, [], h => by simp [sameItems] at h
  | v :: vs, w :: ws, h => by
    have h' : sameItems vs ws = true := by
      simp only [sameItems, Bool.and_eq_true] at h
      exact h.2
    exact congrArg (· + 1) (length_eq_of_sameItems vs ws h')

mutual

theorem feed_eq_of_same : (v w : Value) → same v w = true → ∀ rest, v.feed rest = w.feed rest
  | .empty, w, h => by
    cases w <;> simp [same] at h
    exact fun _ => rfl
  | .bool _, w, h => by
    cases w <;> simp [same] at h
    subst h
    exact fun _ => rfl
  | .int _, w, h => by
    cases w <;> simp [same] at h
    subst h
    exact fun _ => rfl
  | .number x, w, h => by
    cases w <;> simp [same, Number.same] at h
    intro rest
    simp [feed, h]
  | .text _, w, h => by
    cases w <;> simp [same] at h
    subst h
    exact fun _ => rfl
  | .tuple vs, w, h => by
    cases w <;> simp [same] at h
    intro rest
    simp only [feed]
    rw [length_eq_of_sameItems vs _ h, feedItems_eq_of_same vs _ h rest]
  | .list vs, w, h => by
    cases w <;> simp [same] at h
    intro rest
    simp only [feed]
    rw [length_eq_of_sameItems vs _ h, feedItems_eq_of_same vs _ h rest]
  | .space a, w, h => by
    cases w with
    | space b =>
      have h' : (a == b) = true := by simpa [same] using h
      have hid : a.id = b.id := beq_iff_eq.1 (show (a.id == b.id) = true from h')
      intro rest
      simp only [feed, hid]
    | _ => simp [same] at h
  | .host _, w, h => by
    cases w <;> simp [same] at h
    subst h
    exact fun _ => rfl

theorem feedItems_eq_of_same : (vs ws : List Value) → sameItems vs ws = true →
    ∀ rest, feedItems vs rest = feedItems ws rest
  | [], [], _ => fun _ => rfl
  | [], _ :: _, h => by simp [sameItems] at h
  | _ :: _, [], h => by simp [sameItems] at h
  | v :: vs, w :: ws, h => by
    simp only [sameItems, Bool.and_eq_true] at h
    intro rest
    simp only [feedItems]
    rw [feedItems_eq_of_same vs ws h.2 rest, feed_eq_of_same v w h.1]

end

mutual

theorem same_of_feed_eq : (v w : Value) → (r s : List Datum) → v.feed r = w.feed s →
    same v w = true ∧ r = s
  | .empty, w, r, s, h => by cases w <;> simp_all [feed, same]
  | .bool _, w, r, s, h => by cases w <;> simp_all [feed, same]
  | .int ⟨i⟩, w, r, s, h => by
    cases w <;> simp [feed] at h
    exact ⟨beq_iff_eq.2 (congrArg Int64.ofUInt64 h.1), h.2⟩
  | .number _, w, r, s, h => by cases w <;> simp_all [feed, same, Number.same]
  | .text _, w, r, s, h => by cases w <;> simp_all [feed, same]
  | .tuple vs, w, r, s, h => by
    cases w <;> simp [feed] at h
    exact sameItems_of_feed_eq vs _ r s h.1 h.2
  | .list vs, w, r, s, h => by
    cases w <;> simp [feed] at h
    exact sameItems_of_feed_eq vs _ r s h.1 h.2
  | .space ⟨⟨index, generation⟩, pins⟩, w, r, s, h => by
    cases w <;> simp [feed] at h
    obtain ⟨hindex, hgeneration, hr⟩ := h
    have hindex : index = _ := UInt32.toUInt64_inj.1 hindex
    have hgeneration : generation = _ := UInt32.toUInt64_inj.1 hgeneration
    subst hindex hgeneration
    exact ⟨beq_self_eq_true (α := SpaceId) _, hr⟩
  | .host ⟨ident⟩, w, r, s, h => by
    cases w <;> simp [feed] at h
    exact ⟨beq_iff_eq.2 (congrArg HostObject.mk h.1), h.2⟩

theorem sameItems_of_feed_eq : (vs ws : List Value) → (r s : List Datum) →
    vs.length = ws.length → feedItems vs r = feedItems ws s → sameItems vs ws = true ∧ r = s
  | [], [], _, _, _, h => ⟨rfl, h⟩
  | [], _ :: _, _, _, n, _ => by simp at n
  | _ :: _, [], _, _, n, _ => by simp at n
  | v :: vs, w :: ws, r, s, n, h => by
    have ⟨hv, hvs⟩ := same_of_feed_eq v w _ _ h
    have ⟨hvs, hr⟩ := sameItems_of_feed_eq vs ws r s (Nat.succ.inj n) hvs
    exact ⟨by simp [sameItems, hv, hvs], hr⟩

end

/-- Values are equal when they feed the same data. -/
theorem feed_eq_iff {v w : Value} : v.feed [] = w.feed [] ↔ (v == w) = true :=
  ⟨fun h => (same_of_feed_eq v w [] [] h).1, fun h => feed_eq_of_same v w h []⟩

instance : Hashable Value := ⟨fun v => hash (v.feed [])⟩

instance : LawfulHashable Value where
  hash_eq a b h := by
    show hash (a.feed []) = hash (b.feed [])
    rw [feed_eq_of_same a b h []]

end Value

end Recalc
