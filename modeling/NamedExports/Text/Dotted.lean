/-!
# Dotted paths

A dotted path is a sequence of parts with a dot between neighbours. Every text is one: the empty
text has one empty part, and a dot at either end has an empty part beside it.
-/

namespace NamedExports.Text

/-- The parts of a list of characters between the dots. -/
def dottedParts : List Char → List (List Char)
  | [] => [[]]
  | c :: cs =>
    if c = '.' then [] :: dottedParts cs
    else match dottedParts cs with
      | [] => [[c]]
      | part :: parts => (c :: part) :: parts

/-- The parts of a dotted path. -/
def dotted (path : String) : List String :=
  (dottedParts path.toList).map String.ofList

/-- A list of parts is never empty. -/
theorem dottedParts_ne_nil (cs : List Char) : dottedParts cs ≠ [] := by
  cases cs with
  | nil => simp [dottedParts]
  | cons c cs =>
    simp only [dottedParts]
    split
    · simp
    · split <;> simp

/-- A dot between two paths puts their parts one after the other. -/
theorem dottedParts_append (cs ds : List Char) :
    dottedParts (cs ++ '.' :: ds) = dottedParts cs ++ dottedParts ds := by
  induction cs with
  | nil => simp [dottedParts]
  | cons c cs ih =>
    by_cases h : c = '.'
    · simp [dottedParts, h, ih]
    · simp only [List.cons_append, dottedParts, h, if_false, ih]
      cases hp : dottedParts cs with
      | nil => exact absurd hp (dottedParts_ne_nil cs)
      | cons part parts => simp

end NamedExports.Text
