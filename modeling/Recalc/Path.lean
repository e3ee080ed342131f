set_option autoImplicit false

/-!
# Dotted paths

A path such as `Outer.Inner` lists the names from a root space downwards. Splitting gives the
names between the dots, which may be empty; there is always a first one.
-/

namespace Recalc.Path

def pieces : List Char → List (List Char)
  | [] => [[]]
  | c :: rest =>
    if c = '.' then [] :: pieces rest
    else match pieces rest with
      | first :: more => (c :: first) :: more
      | [] => [[c]]

theorem pieces_ne_nil (cs : List Char) : pieces cs ≠ [] := by
  cases cs with
  | nil => simp [pieces]
  | cons c rest =>
    simp only [pieces]
    split
    · simp
    · split <;> simp

/-- The pieces, put together with dots between them, are the text. -/
theorem intercalate_pieces (cs : List Char) : List.intercalate ['.'] (pieces cs) = cs := by
  induction cs with
  | nil => rfl
  | cons c rest ih =>
    simp only [pieces]
    cases h : pieces rest with
    | nil => exact absurd h (pieces_ne_nil rest)
    | cons first more =>
      rw [h] at ih
      split
      next hc => rw [List.intercalate_cons_cons, ih, hc]; rfl
      next =>
        cases more with
        | nil => simpa using ih
        | cons second more =>
          rw [List.intercalate_cons_cons] at ih ⊢
          simp only [List.cons_append, ih]

def split (path : String) : String × List String :=
  match (pieces path.toList).map String.ofList with
  | first :: rest => (first, rest)
  | [] => ("", [])

end Recalc.Path
