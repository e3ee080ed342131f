import Recalc.Json.Parser
import Recalc.Json.Printer
import Recalc.Json.Read

set_option autoImplicit false

/-!
# What is written is read

The parser undoes the printer, in both layouts: numerals are read up to what follows them, strings
are unescaped to the characters that they had, and the blanks between the parts of arrays and
objects mean nothing.
-/

namespace Recalc

/-! ## Numerals -/

namespace Numeral

/-- What follows a numeral does not continue it. -/
def Ends (rest : List Char) : Prop :=
  ∀ c ∈ rest.head?, c.isDigit = false ∧ c ≠ '.' ∧ c ≠ 'e' ∧ c ≠ 'E'

/-- A numeral as grammar has it: digits, without a zero in front of others. -/
structure WellFormed (n : Numeral) : Prop where
  whole : ∀ c ∈ n.whole, c.isDigit = true
  starts : n.whole = ['0'] ∨ ∃ c ds, n.whole = c :: ds ∧ c ≠ '0'
  fraction : ∀ c ∈ n.fraction, c.isDigit = true
  exponent : ∀ mark ds, n.exponent = some (mark, ds) → ds ≠ [] ∧ ∀ c ∈ ds, c.isDigit = true

theorem WellFormed.exists_digit {n : Numeral} (hn : n.WellFormed) :
    ∃ c ds, n.whole = c :: ds := by
  rcases hn.starts with h | ⟨c, ds, h, -⟩
  · exact ⟨_, _, h⟩
  · exact ⟨c, ds, h⟩

theorem isDigit_of_mem_digits {n : Nat} {c : Char} (h : c ∈ digits n) : c.isDigit = true :=
  Nat.isDigit_of_mem_toDigits (by decide) (by decide) h

theorem value_digits (n : Nat) : value (digits n) = n := Nat.ofDigitChars_ten_toDigits

/-- Digits of a natural start with a zero only when there are no others. -/
theorem digits_starts (n : Nat) : digits n = ['0'] ∨ ∃ c ds, digits n = c :: ds ∧ c ≠ '0' := by
  induction n using Nat.strongRecOn with
  | ind n ih =>
    unfold digits at ih ⊢
    rcases Nat.lt_or_ge n 10 with hn | hn
    · have hsmall : ∀ k < 10, Nat.digitChar k = '0' → k = 0 := by decide
      rw [Nat.toDigits_of_lt_base hn]
      by_cases h : Nat.digitChar n = '0'
      · exact .inl (by rw [h])
      · exact .inr ⟨_, [], rfl, h⟩
    · have hshort : n / 10 ≠ 0 := by omega
      rw [Nat.toDigits_of_base_le (by decide) hn]
      rcases ih (n / 10) (by omega) with h | ⟨c, ds, h, hc⟩
      · have hvalue := value_digits (n / 10)
        rw [digits, h] at hvalue
        exact absurd hvalue.symm hshort
      · exact .inr ⟨c, _, by rw [h, List.cons_append], hc⟩

theorem wellFormed_ofInt (i : Int) : (ofInt i).WellFormed where
  whole _ := isDigit_of_mem_digits
  starts := digits_starts _
  fraction _ h := by cases h
  exponent _ _ h := by cases h

/-- An integer is read from the numeral that it is written as. -/
theorem toInt?_ofInt (i : Int) : (ofInt i).toInt? = some i := by
  have hvalue := value_digits i.natAbs
  simp only [toInt?, ofInt, hvalue]
  by_cases hi : i < 0
  · have hne : i.natAbs ≠ 0 := by omega
    simp only [hi, decide_true, List.isEmpty_nil, Option.isNone_none, Bool.and_self, if_true, hne,
      if_false]
    exact congrArg some (by omega)
  · simp only [hi, decide_false, List.isEmpty_nil, Option.isNone_none, Bool.and_self, if_true]
    exact congrArg some (by omega)

theorem spanDigits_append {ds rest : List Char} (hds : ∀ c ∈ ds, c.isDigit = true)
    (hrest : ∀ c ∈ rest.head?, c.isDigit = false) : spanDigits (ds ++ rest) = (ds, rest) := by
  induction ds with
  | nil =>
    cases rest with
    | nil => rfl
    | cons c rest => simp [spanDigits, hrest c rfl]
  | cons d ds ih =>
    have hd := hds d List.mem_cons_self
    have htail := ih fun c hc => hds c (List.mem_cons_of_mem _ hc)
    simp [spanDigits, hd, htail]

def writeFraction (ds : List Char) : List Char := if ds.isEmpty then [] else '.' :: ds

def writeExponent : Option (ExponentMark × List Char) → List Char
  | some (mark, ds) => 'e' :: (ExponentMark.chars mark ++ ds)
  | none => []

theorem write_eq (n : Numeral) (rest : List Char) : n.write rest =
    (if n.negative then ['-'] else []) ++
      (n.whole ++ (writeFraction n.fraction ++ (writeExponent n.exponent ++ rest))) := by
  simp only [write, List.append_assoc]
  rfl

theorem head?_writeExponent {e : Option (ExponentMark × List Char)} {rest : List Char}
    (hrest : Ends rest) : ∀ c ∈ (writeExponent e ++ rest).head?, c.isDigit = false ∧ c ≠ '.' := by
  intro c hc
  cases e with
  | none => exact ⟨(hrest c hc).1, (hrest c hc).2.1⟩
  | some e =>
    cases hc
    exact ⟨rfl, by decide⟩

theorem head?_writeFraction {ds rest : List Char}
    (hrest : ∀ c ∈ rest.head?, c.isDigit = false ∧ c ≠ '.') :
    ∀ c ∈ (writeFraction ds ++ rest).head?, c.isDigit = false := by
  intro c hc
  cases ds with
  | nil => exact (hrest c hc).1
  | cons =>
    cases hc
    rfl

end Numeral

namespace Json

open Numeral

section Numerals

variable {rest : List Char}

theorem parseDigits_append {ds : List Char} (hne : ds ≠ []) (hds : ∀ c ∈ ds, c.isDigit = true)
    (hrest : ∀ c ∈ rest.head?, c.isDigit = false) : parseDigits (ds ++ rest) = some (ds, rest) := by
  unfold parseDigits
  rw [spanDigits_append hds hrest]
  cases ds with
  | nil => exact absurd rfl hne
  | cons => rfl

theorem parseWhole_append {ds : List Char} (hds : ∀ c ∈ ds, c.isDigit = true)
    (hstarts : ds = ['0'] ∨ ∃ c rest, ds = c :: rest ∧ c ≠ '0')
    (hrest : ∀ c ∈ rest.head?, c.isDigit = false) : parseWhole (ds ++ rest) = some (ds, rest) := by
  rcases hstarts with rfl | ⟨c, ds', rfl, hc⟩
  · rfl
  · have hspan := spanDigits_append hds hrest
    rw [List.cons_append] at hspan ⊢
    unfold parseWhole
    split
    next h =>
      cases h
      exact absurd rfl hc
    next => rw [hspan]

theorem parseMarked_append {mark : ExponentMark} {ds : List Char} (hne : ds ≠ [])
    (hds : ∀ c ∈ ds, c.isDigit = true) (hrest : ∀ c ∈ rest.head?, c.isDigit = false) :
    parseMarked (ExponentMark.chars mark ++ ds ++ rest) = some (some (mark, ds), rest) := by
  have hdigits := parseDigits_append hne hds hrest
  cases mark with
  | plus => simp [ExponentMark.chars, parseMarked, parseExponentDigits, hdigits]
  | minus => simp [ExponentMark.chars, parseMarked, parseExponentDigits, hdigits]
  | none =>
    cases ds with
    | nil => exact absurd rfl hne
    | cons d ds =>
      -- a digit is not a mark
      have hd := hds d List.mem_cons_self
      rw [List.cons_append] at hdigits
      simp only [ExponentMark.chars, List.nil_append, List.cons_append]
      unfold parseMarked
      split
      next h =>
        cases h
        contradiction
      next h =>
        cases h
        contradiction
      next => simp [parseExponentDigits, hdigits]

theorem parseFraction_append {ds : List Char} (hds : ∀ c ∈ ds, c.isDigit = true)
    (hrest : ∀ c ∈ rest.head?, c.isDigit = false ∧ c ≠ '.') :
    parseFraction (writeFraction ds ++ rest) = some (ds, rest) := by
  cases ds with
  | nil =>
    cases rest with
    | nil => rfl
    | cons c rest =>
      unfold parseFraction
      split
      next h =>
        cases h
        exact absurd rfl (hrest '.' rfl).2
      next => rfl
  | cons => exact parseDigits_append (List.cons_ne_nil _ _) hds fun c hc => (hrest c hc).1

theorem parseExponent_append {e : Option (ExponentMark × List Char)}
    (he : ∀ mark ds, e = some (mark, ds) → ds ≠ [] ∧ ∀ c ∈ ds, c.isDigit = true)
    (hrest : Ends rest) : parseExponent (writeExponent e ++ rest) = some (e, rest) := by
  cases e with
  | none =>
    cases rest with
    | nil => rfl
    | cons c rest =>
      unfold parseExponent
      split
      next h =>
        cases h
        exact absurd rfl (hrest 'e' rfl).2.2.1
      next h =>
        cases h
        exact absurd rfl (hrest 'E' rfl).2.2.2
      next => rfl
  | some e =>
    obtain ⟨hne, hds⟩ := he e.1 e.2 rfl
    exact parseMarked_append hne hds fun c hc => (hrest c hc).1

theorem parseUnsigned_append {n : Numeral} (hn : n.WellFormed) (hrest : Ends rest) :
    parseUnsigned n.negative
        (n.whole ++ (writeFraction n.fraction ++ (writeExponent n.exponent ++ rest))) =
      some (.numeral n, rest) := by
  have hexponent := head?_writeExponent (e := n.exponent) hrest
  simp only [parseUnsigned, parseWhole_append hn.whole hn.starts (head?_writeFraction hexponent),
    parseFraction_append hn.fraction hexponent, parseExponent_append hn.exponent hrest,
    Option.pure_def, Option.bind_eq_bind, Option.bind_some]

/-- A numeral is read up to what follows it. -/
theorem parseNumeral_write {n : Numeral} (hn : n.WellFormed) (hrest : Ends rest) :
    parseNumeral (n.write rest) = some (.numeral n, rest) := by
  have hparse := parseUnsigned_append hn hrest
  rw [write_eq]
  cases hsign : n.negative with
  | true =>
    rw [hsign] at hparse
    exact hparse
  | false =>
    obtain ⟨c, ds, hwhole⟩ := hn.exists_digit
    have hc := hn.whole c (hwhole ▸ List.mem_cons_self)
    rw [hsign, hwhole] at hparse
    simp only [hwhole, Bool.false_eq_true, if_false, List.nil_append, List.cons_append] at hparse ⊢
    unfold parseNumeral
    split
    next h =>
      cases h
      contradiction
    next => exact hparse

end Numerals

section Texts

theorem hexValues?_hexDigit (n : Nat) (hn : n < 32) :
    hexValues? '0' '0' (hexDigit (n / 16)) (hexDigit (n % 16)) = some n := by
  have h : ∀ n < 32, hexValues? '0' '0' (hexDigit (n / 16)) (hexDigit (n % 16)) = some n := by
    decide
  exact h n hn

/-- A backslash and a letter. -/
theorem parseUnits_named {c : Char} {unit : Nat} (hc : unescape? c = some unit) (hu : c ≠ 'u')
    (rest : List Char) :
    parseUnits ('\\' :: c :: rest) = (parseUnits rest).map fun r => (unit :: r.1, r.2) := by
  rw [parseUnits.eq_3 c rest fun _ _ _ _ _ h => absurd h hu, hc]
  cases parseUnits rest <;> rfl

/-- A character that stands for itself. -/
theorem parseUnits_plain {c : Char} (hquote : c ≠ '"') (hslash : c ≠ '\\') (hc : ¬ c.toNat < 32)
    (rest : List Char) :
    parseUnits (c :: rest) = (parseUnits rest).map fun r => (c.toNat :: r.1, r.2) := by
  rw [parseUnits.eq_4 c rest hquote (fun _ _ _ _ _ h => absurd h hslash)
    fun _ _ h => absurd h hslash, if_neg hc]
  cases parseUnits rest <;> rfl

/-- Each character that is written is one code unit that is read. -/
theorem parseUnits_escape (c : Char) (rest : List Char) :
    parseUnits (escape c ++ rest) = (parseUnits rest).map fun r => (c.toNat :: r.1, r.2) := by
  unfold escape
  repeat' split
  iterate 7
    next h =>
      rw [h]
      exact parseUnits_named rfl (by decide) rest
  next h =>
    simp only [List.cons_append, List.nil_append, parseUnits, hexValues?_hexDigit _ h]
    cases parseUnits rest <;> rfl
  next hquote hslash _ _ _ _ _ hc => exact parseUnits_plain hquote hslash hc rest

theorem parseUnits_flatMap (cs rest : List Char) :
    parseUnits (cs.flatMap escape ++ '"' :: rest) = some (cs.map Char.toNat, rest) := by
  induction cs with
  | nil => rfl
  | cons c cs ih =>
    rw [List.flatMap_cons, List.append_assoc, parseUnits_escape, ih]
    rfl

/-- No character is half of a surrogate pair. -/
theorem not_surrogate (c : Char) :
    isHighSurrogate c.toNat = false ∧ isLowSurrogate c.toNat = false := by
  have hc : c.toNat < 0xD800 ∨ 0xDFFF < c.toNat ∧ c.toNat < 0x110000 := c.valid
  simp only [isHighSurrogate, isLowSurrogate, Bool.and_eq_false_iff, decide_eq_false_iff_not]
  omega

theorem assemble_toNat (cs : List Char) : assemble (cs.map Char.toNat) = some cs := by
  induction cs with
  | nil => rfl
  | cons c cs ih =>
    obtain ⟨hhigh, hlow⟩ := not_surrogate c
    cases cs with
    | nil => simp [assemble, hhigh, hlow]
    | cons d cs =>
      simp only [List.map_cons] at ih ⊢
      simp [assemble, hhigh, hlow, ih]

/-- A string is read after its opening quote, also one without a text. -/
theorem parseText_body (s : Option String) (rest : List Char) :
    ∃ cs, writeText s rest = '"' :: cs ∧ parseText cs = some (s, rest) := by
  cases s with
  | none => exact ⟨_, rfl, rfl⟩
  | some s =>
    refine ⟨_, rfl, ?_⟩
    simp only [parseText, parseUnits_flatMap, Option.bind_eq_bind, Option.bind_some, assemble_toNat,
      Option.map_some, String.ofList_toList, Option.pure_def]

end Texts

/-! ## Values -/

inductive WellFormed : Json → Prop
  | null : WellFormed .null
  | bool (b : Bool) : WellFormed (.bool b)
  | numeral {n : Numeral} : n.WellFormed → WellFormed (.numeral n)
  | text (s : Option String) : WellFormed (.text s)
  | array {items : List Json} : (∀ j ∈ items, WellFormed j) → WellFormed (.array items)
  | object {members : List (Option String × Json)} : (∀ m ∈ members, WellFormed m.2) →
      WellFormed (.object members)

section Values

variable {layout : Layout} {depth fuel : Nat} {j : Json} {rest : List Char}

/-! Blanks in front of a value mean nothing. -/

theorem skipBlank_line (layout : Layout) (depth : Nat) (cs : List Char) :
    skipBlank (layout.line depth cs) = skipBlank cs := by
  have hindent : ∀ k, skipBlank (List.replicate k ' ' ++ cs) = skipBlank cs := by
    intro k
    induction k with
    | zero => rfl
    | succ k ih => exact ih
  cases layout with
  | compact => rfl
  | pretty => exact hindent _

theorem exists_colon (layout : Layout) (cs : List Char) :
    ∃ cs', layout.colon cs = ':' :: cs' ∧ skipBlank cs' = skipBlank cs := by
  cases layout <;> exact ⟨_, rfl, rfl⟩

theorem parseValue_congr {cs cs' : List Char} (h : skipBlank cs = skipBlank cs') :
    parseValue fuel cs = parseValue fuel cs' := by
  cases fuel with
  | zero => rfl
  | succ => simp only [parseValue, h]

theorem parseItems_congr {cs cs' : List Char} (h : skipBlank cs = skipBlank cs') :
    parseItems fuel cs = parseItems fuel cs' := by
  cases fuel with
  | zero => rfl
  | succ => simp only [parseItems, parseValue_congr h]

theorem parseMembers_congr {cs cs' : List Char} (h : skipBlank cs = skipBlank cs') :
    parseMembers fuel cs = parseMembers fuel cs' := by
  cases fuel with
  | zero => rfl
  | succ => simp only [parseMembers, h]

/-! What is written takes characters, so the length of a text bounds its parts. -/

theorem length_le_line (layout : Layout) (depth : Nat) (cs : List Char) :
    cs.length ≤ (layout.line depth cs).length := by
  cases layout with
  | compact => exact Nat.le_refl _
  | pretty =>
    simp only [Layout.line, List.length_cons, List.length_append]
    omega

theorem length_lt_colon (layout : Layout) (cs : List Char) :
    cs.length < (layout.colon cs).length := by
  cases layout <;> simp only [Layout.colon, List.length_cons] <;> omega

theorem length_lt_writeText (s : Option String) (rest : List Char) :
    rest.length < (writeText s rest).length := by
  simp only [writeText, List.length_cons, List.length_append]
  omega

theorem numeral_starts {n : Numeral} (hn : n.WellFormed) (rest : List Char) :
    ∃ c cs, n.write rest = c :: cs ∧ rest.length ≤ cs.length ∧ (c = '-' ∨ c.isDigit = true) := by
  obtain ⟨c, ds, hwhole⟩ := hn.exists_digit
  have hc := hn.whole c (hwhole ▸ List.mem_cons_self)
  rw [write_eq, hwhole]
  cases n.negative with
  | true =>
    refine ⟨_, _, rfl, ?_, .inl rfl⟩
    simp only [List.append_eq, List.length_append]
    omega
  | false =>
    refine ⟨_, _, rfl, ?_, .inr hc⟩
    simp only [List.append_eq, List.length_append]
    omega

theorem length_lt_writeItems {items : List Json} (layout : Layout) (depth : Nat) (rest : List Char)
    (ih : ∀ j ∈ items, ∀ rest : List Char, rest.length < (write layout (depth + 1) j rest).length) :
    rest.length < (writeItems layout depth items rest).length := by
  induction items with
  | nil => exact length_le_line layout depth (']' :: rest)
  | cons item items htail =>
    have hlist := htail fun j hj => ih j (List.mem_cons_of_mem _ hj)
    have hitem := ih item List.mem_cons_self (writeItems layout depth items rest)
    have hline := length_le_line layout (depth + 1)
      (write layout (depth + 1) item (writeItems layout depth items rest))
    simp only [writeItems, List.length_cons]
    omega

theorem length_lt_writeMembers {members : List (Option String × Json)} (layout : Layout)
    (depth : Nat) (rest : List Char)
    (ih : ∀ m ∈ members, ∀ rest : List Char,
      rest.length < (write layout (depth + 1) m.2 rest).length) :
    rest.length < (writeMembers layout depth members rest).length := by
  induction members with
  | nil => exact length_le_line layout depth ('\x7d' :: rest)
  | cons m members htail =>
    have hlist := htail fun j hj => ih j (List.mem_cons_of_mem _ hj)
    have hvalue := ih m List.mem_cons_self (writeMembers layout depth members rest)
    have hcolon := length_lt_colon layout
      (write layout (depth + 1) m.2 (writeMembers layout depth members rest))
    have hname := length_lt_writeText m.1 (layout.colon
      (write layout (depth + 1) m.2 (writeMembers layout depth members rest)))
    have hline := length_le_line layout (depth + 1) (writeText m.1
      (layout.colon (write layout (depth + 1) m.2 (writeMembers layout depth members rest))))
    simp only [writeMembers, List.length_cons]
    omega

theorem length_lt_write (hj : j.WellFormed) (layout : Layout) (depth : Nat) (rest : List Char) :
    rest.length < (write layout depth j rest).length := by
  induction hj generalizing depth rest with
  | null =>
    simp only [write, List.length_cons]
    omega
  | bool b =>
    cases b <;> simp only [write, List.length_cons] <;> omega
  | numeral hn =>
    obtain ⟨c, cs, hwrite, hle, -⟩ := numeral_starts hn rest
    simp only [write, hwrite, List.length_cons]
    omega
  | text s => exact length_lt_writeText s rest
  | @array items _ ih =>
    have hwritten := length_lt_writeItems layout depth rest fun j hj => ih j hj (depth + 1)
    cases items with
    | nil =>
      simp only [write, List.length_cons]
      omega
    | cons =>
      simp only [write, writeItems, List.length_cons] at hwritten ⊢
      omega
  | @object members _ ih =>
    have hwritten := length_lt_writeMembers layout depth rest fun m hm => ih m hm (depth + 1)
    cases members with
    | nil =>
      simp only [write, List.length_cons]
      omega
    | cons =>
      simp only [write, writeMembers, List.length_cons] at hwritten ⊢
      omega

/-! What follows a value does not continue a numeral, and a value has no blank in front. -/

theorem ends_line {c : Char} (hc : c.isDigit = false ∧ c ≠ '.' ∧ c ≠ 'e' ∧ c ≠ 'E') :
    Ends (layout.line depth (c :: rest)) := by
  intro d hd
  cases layout with
  | compact =>
    cases hd
    exact hc
  | pretty =>
    cases hd
    decide

theorem ends_writeItems (items : List Json) : Ends (writeItems layout depth items rest) := by
  cases items with
  | nil => exact ends_line (by decide)
  | cons =>
    intro c hc
    cases hc
    decide

theorem ends_writeMembers (members : List (Option String × Json)) :
    Ends (writeMembers layout depth members rest) := by
  rcases members with - | ⟨⟨name, value⟩, members⟩
  · exact ends_line (by decide)
  · intro c hc
    cases hc
    decide

/-- A value begins with neither a blank nor the end of an array. -/
theorem write_starts (hj : j.WellFormed) (layout : Layout) (depth : Nat) (rest : List Char) :
    ∃ c cs, write layout depth j rest = c :: cs ∧ c ∉ [' ', '\n', '\t', '\r', ']'] := by
  cases hj with
  | null => exact ⟨_, _, rfl, by decide⟩
  | bool b => cases b <;> exact ⟨_, _, rfl, by decide⟩
  | text => exact ⟨_, _, rfl, by decide⟩
  | @array items => cases items <;> exact ⟨_, _, rfl, by decide⟩
  | @object members =>
    rcases members with - | ⟨⟨name, value⟩, members⟩ <;> exact ⟨_, _, rfl, by decide⟩
  | numeral hn =>
    obtain ⟨c, cs, hwrite, -, hc⟩ := numeral_starts hn rest
    refine ⟨c, cs, hwrite, fun hmem => ?_⟩
    simp only [List.mem_cons, List.not_mem_nil, or_false] at hmem
    rcases hmem with rfl | rfl | rfl | rfl | rfl <;> simp at hc

theorem skipBlank_write (hj : j.WellFormed) (layout : Layout) (depth : Nat) (rest : List Char) :
    skipBlank (write layout depth j rest) = write layout depth j rest := by
  obtain ⟨c, cs, hwrite, hc⟩ := write_starts hj layout depth rest
  simp only [List.mem_cons, not_or] at hc
  simp [hwrite, skipBlank, hc]

/-! ## Arrays and objects -/

/-- The value is read where it is written, at any depth and in front of anything that does not
continue it. Two units of fuel for each of its characters are enough. -/
def Reads (layout : Layout) (j : Json) : Prop :=
  ∀ depth fuel rest, Ends rest →
    2 * (write layout depth j rest).length ≤ fuel + 2 * rest.length + 1 →
    parseValue fuel (write layout depth j rest) = some (j, rest)

/-- What is enough to read a value is enough to begin with it. -/
theorem WellFormed.exists_fuel (hj : j.WellFormed)
    (hfuel : 2 * (write layout depth j rest).length ≤ fuel + 2 * rest.length + 1) :
    ∃ k, fuel = k + 1 := by
  have hlt := length_lt_write hj layout depth rest
  exact ⟨fuel - 1, by omega⟩

/-- A value inside an array or object, in front of what ends or continues it. -/
theorem Reads.inside (hj : Reads layout j) (depth : Nat) {tail : List Char} (hends : Ends tail)
    (hwell : j.WellFormed) (htail : rest.length < tail.length)
    (hfuel : 2 * (write layout depth j tail).length ≤ fuel + 2 * rest.length) :
    ∃ k, fuel = k + 1 ∧ parseValue k (write layout depth j tail) = some (j, tail) := by
  have hlt := length_lt_write hwell layout depth tail
  exact ⟨fuel - 1, by omega, hj depth _ tail hends (by omega)⟩

theorem parseItems_item (hj : Reads layout j) (depth : Nat) {tail : List Char} (hends : Ends tail)
    (hwell : j.WellFormed) (htail : rest.length < tail.length)
    (hfuel : 2 * (write layout depth j tail).length ≤ fuel + 2 * rest.length) :
    ∃ k, 2 * tail.length ≤ k + 2 * rest.length ∧ parseItems fuel (write layout depth j tail) =
      match skipBlank tail with
      | ',' :: more => (parseItems k more).bind fun r => some (j :: r.1, r.2)
      | ']' :: more => some ([j], more)
      | _ => none := by
  have hlt := length_lt_write hwell layout depth tail
  obtain ⟨k, rfl, hparse⟩ := hj.inside depth hends hwell htail hfuel
  refine ⟨k, by omega, ?_⟩
  rw [parseItems, hparse]
  rfl

theorem parseMembers_member (hj : Reads layout j) (depth : Nat) {tail : List Char}
    (hends : Ends tail) (hwell : j.WellFormed) (htail : rest.length < tail.length)
    (name : Option String) (hfuel : 2 * (writeText name (layout.colon
      (write layout depth j tail))).length ≤ fuel + 2 * rest.length) :
    ∃ k, 2 * tail.length ≤ k + 2 * rest.length ∧
      parseMembers fuel (writeText name (layout.colon (write layout depth j tail))) =
      match skipBlank tail with
      | ',' :: more => (parseMembers k more).bind fun r => some ((name, j) :: r.1, r.2)
      | '\x7d' :: more => some ([(name, j)], more)
      | _ => none := by
  have hlt := length_lt_write hwell layout depth tail
  have hsep := length_lt_colon layout (write layout depth j tail)
  have hname := length_lt_writeText name (layout.colon (write layout depth j tail))
  obtain ⟨k, rfl, hparse⟩ := hj.inside depth hends hwell htail
    (show _ ≤ fuel + 2 * rest.length by omega)
  obtain ⟨cs, hwrite, htext⟩ := parseText_body name (layout.colon (write layout depth j tail))
  obtain ⟨cs', hcolon, hblank⟩ := exists_colon layout (write layout depth j tail)
  rw [← parseValue_congr hblank] at hparse
  rw [hcolon] at htext
  have hquote : skipBlank ('"' :: cs) = '"' :: cs := rfl
  refine ⟨k, by omega, ?_⟩
  rw [hwrite, parseMembers, hquote]
  -- the name is read, and then the value behind the colon
  refine (congrArg (Option.bind · _) htext).trans ?_
  exact (congrArg (Option.bind · _) hparse).trans rfl

theorem parseItems_write {item : Json} {items : List Json}
    (hread : ∀ j ∈ item :: items, j.WellFormed ∧ Reads layout j)
    (hfuel : 2 * (write layout (depth + 1) item (writeItems layout depth items rest)).length ≤
      fuel + 2 * rest.length) :
    parseItems fuel (write layout (depth + 1) item (writeItems layout depth items rest)) =
      some (item :: items, rest) := by
  induction items generalizing item fuel with
  | nil =>
    obtain ⟨hwell, hitem⟩ := hread item List.mem_cons_self
    have hlast := length_le_line layout depth (']' :: rest)
    obtain ⟨k, -, hstep⟩ := parseItems_item hitem (depth + 1) (ends_writeItems []) hwell hlast hfuel
    rw [hstep, writeItems, skipBlank_line]
    rfl
  | cons next items ih =>
    obtain ⟨hwell, hitem⟩ := hread item List.mem_cons_self
    have hlast := length_lt_writeItems layout depth rest fun j hj =>
      length_lt_write (hread j (List.mem_cons_of_mem _ hj)).1 layout (depth + 1)
    obtain ⟨k, hk, hstep⟩ := parseItems_item hitem (depth + 1) (ends_writeItems _) hwell hlast hfuel
    have hline := length_le_line layout (depth + 1)
      (write layout (depth + 1) next (writeItems layout depth items rest))
    simp only [writeItems, List.length_cons] at hk
    have hmore := ih (fun j hj => hread j (List.mem_cons_of_mem _ hj))
      (show _ ≤ k + 2 * rest.length by omega)
    rw [← parseItems_congr (skipBlank_line layout (depth + 1) _)] at hmore
    rw [hstep, writeItems]
    exact (congrArg (Option.bind · _) hmore).trans rfl

theorem parseMembers_write {name : Option String} {value : Json}
    {members : List (Option String × Json)}
    (hread : ∀ m ∈ (name, value) :: members, m.2.WellFormed ∧ Reads layout m.2)
    (hfuel : 2 * (writeText name (layout.colon
      (write layout (depth + 1) value (writeMembers layout depth members rest)))).length ≤
      fuel + 2 * rest.length) :
    parseMembers fuel (writeText name (layout.colon
        (write layout (depth + 1) value (writeMembers layout depth members rest)))) =
      some ((name, value) :: members, rest) := by
  induction members generalizing name value fuel with
  | nil =>
    obtain ⟨hwell, hvalue⟩ := hread _ List.mem_cons_self
    have hlast := length_le_line layout depth ('\x7d' :: rest)
    obtain ⟨k, -, hstep⟩ := parseMembers_member hvalue (depth + 1) (ends_writeMembers []) hwell
      hlast name hfuel
    rw [hstep, writeMembers, skipBlank_line]
    rfl
  | cons next members ih =>
    obtain ⟨hwell, hvalue⟩ := hread _ List.mem_cons_self
    have hlast := length_lt_writeMembers layout depth rest fun m hm =>
      length_lt_write (hread m (List.mem_cons_of_mem _ hm)).1 layout (depth + 1)
    obtain ⟨k, hk, hstep⟩ := parseMembers_member hvalue (depth + 1) (ends_writeMembers _) hwell
      hlast name hfuel
    have hline := length_le_line layout (depth + 1) (writeText next.1 (layout.colon
      (write layout (depth + 1) next.2 (writeMembers layout depth members rest))))
    simp only [writeMembers, List.length_cons] at hk
    have hmore := ih (fun m hm => hread m (List.mem_cons_of_mem _ hm))
      (show _ ≤ k + 2 * rest.length by omega)
    rw [← parseMembers_congr (skipBlank_line layout (depth + 1) _)] at hmore
    rw [hstep, writeMembers]
    exact (congrArg (Option.bind · _) hmore).trans rfl

theorem parseValue_numeral {n : Numeral} (hn : n.WellFormed) (hends : Ends rest) :
    parseValue (fuel + 1) (n.write rest) = some (.numeral n, rest) := by
  have hparse := parseNumeral_write hn hends
  obtain ⟨c, cs, hwrite, -, hc⟩ := numeral_starts hn rest
  have hblank : skipBlank (n.write rest) = n.write rest :=
    skipBlank_write (.numeral hn) .compact 0 rest
  rw [hwrite] at hparse hblank ⊢
  simp only [parseValue, hblank]
  split
  case h_7 => exact hparse
  all_goals
    next h =>
      cases h
      simp at hc

theorem parseValue_array {c : Char} {cs cs' : List Char} {items : List Json}
    (hblank : skipBlank cs' = c :: cs) (hc : c ≠ ']')
    (hitems : parseItems fuel (c :: cs) = some (items, rest)) :
    parseValue (fuel + 1) ('[' :: cs') = some (.array items, rest) := by
  have hopen : skipBlank ('[' :: cs') = '[' :: cs' := rfl
  simp only [parseValue, hopen, hblank]
  split
  next h =>
    cases h
    exact absurd rfl hc
  next => rw [hitems, Option.map_some]

theorem parseValue_object {c : Char} {cs cs' : List Char} {members : List (Option String × Json)}
    (hblank : skipBlank cs' = c :: cs) (hc : c ≠ '\x7d')
    (hmembers : parseMembers fuel (c :: cs) = some (members, rest)) :
    parseValue (fuel + 1) ('\x7b' :: cs') = some (.object members, rest) := by
  have hopen : skipBlank ('\x7b' :: cs') = '\x7b' :: cs' := rfl
  simp only [parseValue, hopen, hblank]
  split
  next h =>
    cases h
    exact absurd rfl hc
  next => rw [hmembers, Option.map_some]

/-- Every value is read where it is written. -/
theorem WellFormed.reads (hj : j.WellFormed) (layout : Layout) : Reads layout j := by
  induction hj with
  | null =>
    intro depth fuel rest _ hfuel
    obtain ⟨k, rfl⟩ := WellFormed.null.exists_fuel hfuel
    rfl
  | bool b =>
    intro depth fuel rest _ hfuel
    obtain ⟨k, rfl⟩ := (WellFormed.bool b).exists_fuel hfuel
    cases b <;> rfl
  | numeral hn =>
    intro depth fuel rest hends hfuel
    obtain ⟨k, rfl⟩ := (WellFormed.numeral hn).exists_fuel hfuel
    exact parseValue_numeral hn hends
  | text s =>
    intro depth fuel rest _ hfuel
    obtain ⟨k, rfl⟩ := (WellFormed.text s).exists_fuel hfuel
    obtain ⟨cs, hwrite, htext⟩ := parseText_body s rest
    have hquote : skipBlank ('"' :: cs) = '"' :: cs := rfl
    simp only [write, hwrite, parseValue, hquote, htext, Option.map_some]
  | @array items hitems ih =>
    intro depth fuel rest _ hfuel
    obtain ⟨k, rfl⟩ := (WellFormed.array hitems).exists_fuel hfuel
    cases items with
    | nil => rfl
    | cons item items =>
      have hline := length_le_line layout (depth + 1)
        (write layout (depth + 1) item (writeItems layout depth items rest))
      simp only [write, List.length_cons] at hfuel
      have hmore : parseItems k (write layout (depth + 1) item
          (writeItems layout depth items rest)) = some (item :: items, rest) :=
        parseItems_write (fun j hj => ⟨hitems j hj, ih j hj⟩) (by omega)
      obtain ⟨c, cs, hwrite, hc⟩ := write_starts (hitems item List.mem_cons_self) layout (depth + 1)
        (writeItems layout depth items rest)
      have hblank := (skipBlank_line layout (depth + 1) _).trans (skipBlank_write
        (hitems item List.mem_cons_self) layout (depth + 1) (writeItems layout depth items rest))
      rw [hwrite] at hmore hblank
      rw [write, hwrite]
      exact parseValue_array hblank (by rintro rfl; simp at hc) hmore
  | @object members hmembers ih =>
    intro depth fuel rest _ hfuel
    obtain ⟨k, rfl⟩ := (WellFormed.object hmembers).exists_fuel hfuel
    rcases members with - | ⟨⟨name, value⟩, members⟩
    · rfl
    · have hline := length_le_line layout (depth + 1) (writeText name (layout.colon
        (write layout (depth + 1) value (writeMembers layout depth members rest))))
      simp only [write, List.length_cons] at hfuel
      have hmore : parseMembers k (writeText name (layout.colon
          (write layout (depth + 1) value (writeMembers layout depth members rest)))) =
          some ((name, value) :: members, rest) :=
        parseMembers_write (fun m hm => ⟨hmembers m hm, ih m hm⟩) (by omega)
      obtain ⟨cs, hwrite, -⟩ := parseText_body name (layout.colon
        (write layout (depth + 1) value (writeMembers layout depth members rest)))
      have hblank := skipBlank_line layout (depth + 1) ('"' :: cs)
      rw [hwrite] at hmore
      rw [write, hwrite]
      exact parseValue_object hblank (by decide) hmore

end Values

/-- The text of a value is read as the value. -/
theorem parse?_render {j : Json} (hj : j.WellFormed) (layout : Layout) :
    parse? (j.render layout) = some j := by
  have hread := hj.reads layout 0 (2 * (write layout 0 j []).length + 2) []
    (fun c hc => by cases hc) (by omega)
  simp only [parse?, render, String.toList_ofList, hread, Option.bind_eq_bind, Option.bind_some]
  rfl

end Json

end Recalc
