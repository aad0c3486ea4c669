import Mathlib.Tactic.Common
import NamedExports.Export.Pattern

/-!
# The object patterns of nodes

Which object patterns are found in a node, by the fields of its kind: those in its fields, one field
after the other, behind the node itself if it is one.
-/

namespace NamedExports

/-- Every kind is found by its name. -/
theorem Kind.ofName?_name (kind : Kind) : ofName? kind.name = some kind := by
  cases kind <;> decide

theorem Kind.name_injective {kind kind' : Kind} (h : kind.name = kind'.name) : kind = kind' := by
  have hsome : ofName? kind.name = ofName? kind'.name := congrArg ofName? h
  rw [ofName?_name, ofName?_name] at hsome
  exact Option.some.inj hsome

/-- A name that no kind has is not the name of any. -/
theorem Kind.ne_name_of_ofName?_eq_none {type : String} (h : ofName? type = none) (kind : Kind) :
    type ≠ kind.name := by
  rintro rfl
  rw [ofName?_name] at h
  exact absurd h (by simp)

namespace Tree

variable {kind : Kind} {lines : Lines} {values : List Tree} {type : String}

theorem hasType_modelled (kind' : Kind) :
    (modelled kind lines values).hasType kind'.name = decide (kind = kind') := by
  show (kind.name == kind'.name) = _
  by_cases h : kind = kind'
  · simp [h]
  · have hname : kind.name ≠ kind'.name := fun heq => h (Kind.name_injective heq)
    rw [beq_false_of_ne hname]
    simp [h]

theorem hasType_plain (h : Kind.ofName? type = none) (kind : Kind) :
    (plain type lines).hasType kind.name = false :=
  beq_false_of_ne (Kind.ne_name_of_ofName?_eq_none h kind)

/-- The object patterns in what a field holds. -/
def patternsInField : Tree → List Tree
  | list items => patternsInEntries items
  | t => objectPatterns t

theorem patternsInField_of_ne_list {t : Tree} (h : ∀ ts, t ≠ list ts) :
    patternsInField t = t.objectPatterns := by
  cases t with
  | list items => exact absurd rfl (h items)
  | _ => rfl

theorem patternsInEntries_eq (items : List Tree) :
    patternsInEntries items = items.flatMap objectPatterns := by
  induction items with
  | nil => rfl
  | cons t ts ih => rw [patternsInEntries, ih, List.flatMap_cons]

theorem patternsInAttributes_eq (names : List String) (attributes : List (String × Tree)) :
    patternsInAttributes names attributes =
      attributes.flatMap fun a => if a.1 ∈ names then patternsInField a.2 else [] := by
  induction attributes with
  | nil => rfl
  | cons a rest ih =>
    obtain ⟨name, t⟩ := a
    rw [List.flatMap_cons, ← ih]
    cases t <;> simp [patternsInAttributes, patternsInField]

/-- Only nodes hold patterns. -/
theorem exists_node_of_mem_objectPatterns {t pattern : Tree} (h : pattern ∈ t.objectPatterns) :
    ∃ shape attributes, t = node shape attributes := by
  cases t with
  | node shape attributes => exact ⟨shape, attributes, rfl⟩
  | _ => simp [objectPatterns] at h

/-- The patterns at or below a node: itself, and those in its fields. -/
theorem mem_objectPatterns_node {shape : Shape} {attributes : List (String × Tree)} {pattern : Tree} :
    pattern ∈ (node shape attributes).objectPatterns ↔ shape.isNode = true ∧
      ((node shape attributes).hasType "ObjectPattern" = true ∧ pattern = node shape attributes ∨
        ∃ a ∈ attributes, a.1 ∈ shape.fields?.getD [] ∧ pattern ∈ a.2.patternsInField) := by
  rw [objectPatterns, patternsInAttributes_eq]
  cases shape.isNode with
  | false => simp
  | true =>
    rw [if_pos rfl, List.mem_append, List.mem_flatMap]
    refine (and_iff_right rfl).symm.trans (and_congr_right fun _ => or_congr ?_ ?_)
    · split <;> simp_all
    · refine exists_congr fun a => and_congr_right fun _ => ?_
      split <;> simp_all

/-- A plain node holds no patterns. -/
theorem objectPatterns_plain (h : Kind.ofName? type = none) :
    (plain type lines).objectPatterns = [] := by
  have htype : (plain type lines).hasType "ObjectPattern" = false :=
    hasType_plain h .objectPattern
  unfold plain at htype ⊢
  unfold objectPatterns
  rw [htype, patternsInAttributes_eq]
  simp [Shape.isNode, Shape.fields?]

/-- The attributes of a node among which its fields are, taken field by field. -/
theorem flatMap_fields {α : Type} (f : Tree → List α) (hlength : values.length = kind.fields.length) :
    ((header kind.name lines ++ kind.fields.zip values).flatMap fun a =>
      if a.1 ∈ kind.fields then f a.2 else []) = values.flatMap f := by
  have hheader : ((header kind.name lines).flatMap fun a =>
      if a.1 ∈ kind.fields then f a.2 else []) = [] := by
    cases kind <;> simp [header, Kind.fields]
  have hfields : ∀ {names : List String} {vs : List Tree}, vs.length = names.length →
      (∀ name ∈ names, name ∈ kind.fields) →
      ((names.zip vs).flatMap fun a => if a.1 ∈ kind.fields then f a.2 else []) =
        vs.flatMap f := by
    intro names vs hvs hnames
    induction names generalizing vs with
    | nil => simp [List.length_eq_zero_iff.mp hvs]
    | cons name names ih =>
      obtain ⟨v, vs, rfl⟩ := List.exists_cons_of_length_eq_add_one hvs
      rw [List.zip_cons_cons, List.flatMap_cons, List.flatMap_cons,
        if_pos (hnames name List.mem_cons_self),
        ih (by simpa using hvs) fun other hother => hnames other (List.mem_cons_of_mem _ hother)]
  rw [List.flatMap_append, hheader, List.nil_append, hfields hlength fun _ h => h]

/-- The patterns of a modelled node. -/
theorem objectPatterns_modelled (hlength : values.length = kind.fields.length) :
    (modelled kind lines values).objectPatterns =
      (if kind = .objectPattern then [modelled kind lines values] else []) ++
        values.flatMap patternsInField := by
  have htype : (modelled kind lines values).hasType "ObjectPattern" =
      decide (kind = .objectPattern) := hasType_modelled .objectPattern
  unfold modelled at htype ⊢
  conv_lhs => unfold objectPatterns
  rw [htype, patternsInAttributes_eq]
  show (if true then _ else _) = _
  rw [if_pos rfl]
  congr 1
  · by_cases h : kind = .objectPattern <;> simp [h]
  · exact flatMap_fields patternsInField hlength

end Tree

end NamedExports
