import Recalc.Value.Feed

set_option autoImplicit false

/-!
# The order of values

Values are ordered like the words of a dictionary, by the data that they feed to a hash function.
The order is total and two values are level in it exactly when they are equal, so values can be the
keys of a search tree.
-/

namespace Recalc

open Std

namespace Datum

def rank : Datum → Nat
  | .form _ => 0
  | .flag _ => 1
  | .word _ => 2
  | .text _ => 3
  | .length _ => 4

def number : Datum → Nat
  | .form n | .length n => n
  | .flag b => b.toNat
  | .word w => w.toNat
  | .text _ => 0

def letters : Datum → String
  | .text s => s
  | _ => ""

def order : Datum → Datum → Ordering :=
  compareLex (compareOn rank) (compareLex (compareOn number) (compareOn letters))

instance : Ord Datum := ⟨order⟩

instance : TransOrd Datum :=
  inferInstanceAs (TransCmp
    (compareLex (compareOn rank) (compareLex (compareOn number) (compareOn letters))))

theorem eq_of_parts_eq : (a b : Datum) → a.rank = b.rank → a.number = b.number →
    a.letters = b.letters → a = b
  | a, b, hr, hn, hl => by
    cases a <;> cases b <;> simp_all [rank, number, letters, UInt64.toNat_inj]
    case flag.flag b c => exact (by decide : ∀ b c : Bool, b.toNat = c.toNat → b = c) b c hn

instance : LawfulEqOrd Datum where
  eq_of_compare {a b} h := by
    have h : compareLex (compareOn rank) (compareLex (compareOn number) (compareOn letters)) a b =
      .eq := h
    simp only [compareLex, compareOn, Ordering.then_eq_eq, LawfulEqOrd.compare_eq_iff_eq] at h
    exact eq_of_parts_eq a b h.1 h.2.1 h.2.2

end Datum

namespace Value

instance : Ord Value := ⟨compareOn fun v => v.feed []⟩

instance : TransOrd Value := inferInstanceAs (TransCmp (compareOn fun v : Value => v.feed []))

instance : LawfulBEqOrd Value where
  compare_eq_iff_beq {v w} :=
    (LawfulEqCmp.compare_eq_iff_eq (a := v.feed []) (b := w.feed [])).trans feed_eq_iff

end Value

end Recalc
