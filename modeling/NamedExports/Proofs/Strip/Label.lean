import NamedExports.Export.Label
import NamedExports.Proofs.Strip.Compose
import NamedExports.Proofs.Strip.Regular

/-!
# Labels of stripped entries

The label of an entry of an object pattern is a text.  Stripping below the entry leaves it: a label
is made of names and texts, and of types, none of which stripping touches (`Tree.label_strip`).
-/

namespace NamedExports.Tree

variable {kind : Kind} {lines : Lines} {values : List Tree} {type name : String} {t : Tree}
  {names : List String}

/-! ### Attributes -/

/-- A node has no attributes but those that all nodes have, and its fields. -/
theorem attr?_modelled_eq_none (hheader : name ∉ Shape.headerNames) (h : name ∉ kind.fields) :
    (modelled kind lines values).attr? name = none := by
  show (header kind.name lines ++ kind.fields.zip values).lookup name = none
  rw [List.lookup_eq_none_iff]
  intro a ha
  rw [bne_iff_ne]
  rintro rfl
  rcases List.mem_append.mp ha with ha | ha
  · refine hheader ?_
    have hnames : (header kind.name lines).map Prod.fst = Shape.headerNames := rfl
    rw [← hnames]
    exact List.mem_map.mpr ⟨a, ha, rfl⟩
  · exact h (List.of_mem_zip ha).1

/-- Stripping leaves the name of a node that has one. -/
theorem attr?_name_stripField (names : List String) (h : t.Regular) :
    (stripField names false t).attr? "name" = t.attr? "name" := by
  cases h with
  | null => rfl
  | bool value => rfl
  | int value => rfl
  | str value => rfl
  | list hflat hitems => rfl
  | plain lines htype => exact congrArg (·.attr? "name") strip_plain
  | @modelled kind lines values htakes hvalues =>
    by_cases hidentifier : kind = .identifier
    · subst hidentifier
      obtain ⟨-, text, rfl⟩ := htakes
      rfl
    · have hname : "name" ∉ kind.fields := by
        cases kind <;> first | exact absurd rfl hidentifier | decide
      rw [attr?_modelled_eq_none (by decide) hname]
      by_cases hkind : kind = .objectPattern
      · subst hkind
        obtain ⟨-, entries, rfl, -, -⟩ := htakes
        rfl
      · refine (congrArg (·.attr? "name") (strip_modelled_of_ne hkind htakes.1)).trans ?_
        exact attr?_modelled_eq_none (by decide) hname

/-! ### Labels -/

theorem label_plain (h : Kind.ofName? type = none) :
    (plain type lines).label = .ok (str type) := by
  have hrest : (type == "RestElement") = false :=
    beq_false_of_ne (Kind.ne_name_of_ofName?_eq_none h .restElement)
  unfold label
  show (if (type == "RestElement") = true then _ else _) = _
  rw [hrest]
  rfl

/-- The label of a node that binds nothing is its type. -/
theorem label_modelled (hrest : kind ≠ .restElement) (hproperty : kind ≠ .objectProperty)
    (htext : kind = .stringLiteral → ∃ text, values = [str text]) :
    (modelled kind lines values).label = .ok (str kind.name) := by
  have hname : (kind.name == "RestElement") = false :=
    beq_false_of_ne fun h => hrest (Kind.name_injective (h.trans (rfl : _ = Kind.restElement.name)))
  have hkey : (modelled kind lines values).get "key" = null := by
    unfold get
    rw [attr?_modelled_eq_none (by decide) (by
      cases kind <;> first | exact absurd rfl hproperty | decide)]
    rfl
  have hvalue : ((modelled kind lines values).get "value").hasType "Identifier" = false := by
    by_cases hliteral : kind = .stringLiteral
    · obtain ⟨text, rfl⟩ := htext hliteral
      subst hliteral
      rfl
    · unfold get
      rw [attr?_modelled_eq_none (by decide) (by
        cases kind <;> first | exact absurd rfl hproperty | exact absurd rfl hliteral | decide)]
      rfl
  unfold label
  show (if (kind.name == "RestElement") = true then _ else _) = _
  rw [hname]
  show (if ((modelled kind lines values).get "value").hasType "Identifier" = true then _
    else _) = _
  rw [hvalue, hkey]
  rfl

/-- The label of a property is the name that it binds, or else its key, or else its type. -/
theorem label_objectProperty (key value shorthand computed : Tree) :
    (modelled .objectProperty lines [key, value, shorthand, computed]).label =
      if value.hasType "Identifier" then value.read "name"
      else if key.hasType "Identifier" then key.read "name"
      else if key.hasType "StringLiteral" then key.read "value"
      else .ok (str "ObjectProperty") :=
  rfl

/-- The label of a property is a text, and stripping leaves it. -/
theorem label_strip_objectProperty {key value shorthand computed : Tree} (hkey : key.Regular)
    (hvalue : value.Regular) :
    ∃ text, (modelled .objectProperty lines [key, value, shorthand, computed]).label =
        .ok (str text) ∧
      (modelled .objectProperty lines ([key, value, shorthand, computed].map
        (stripField names false))).label = .ok (str text) := by
  simp only [List.map_cons, List.map_nil, label_objectProperty, hasType_stripField]
  cases hbinds : value.hasType "Identifier" with
  | true =>
    obtain ⟨lines', text, rfl⟩ := hvalue.exists_of_identifier hbinds
    exact ⟨text, rfl, rfl⟩
  | false =>
    cases hidentifier : key.hasType "Identifier" with
    | true =>
      obtain ⟨lines', text, rfl⟩ := hkey.exists_of_identifier hidentifier
      exact ⟨text, rfl, rfl⟩
    | false =>
      cases hliteral : key.hasType "StringLiteral" with
      | true =>
        obtain ⟨lines', text, rfl⟩ := hkey.exists_of_stringLiteral hliteral
        exact ⟨text, rfl, rfl⟩
      | false => exact ⟨"ObjectProperty", rfl, rfl⟩

/-- The label of a regular node is a text, and stripping leaves it. -/
theorem label_strip (names : List String) (h : t.Regular) (hnode : t.isNode = true) :
    ∃ text, t.label = .ok (str text) ∧ (t.strip names).label = .ok (str text) := by
  cases h with
  | null => exact absurd hnode (by decide)
  | bool value => exact absurd hnode (by simp [isNode])
  | int value => exact absurd hnode (by simp [isNode])
  | str value => exact absurd hnode (by simp [isNode])
  | list hflat hitems => exact absurd hnode (by simp [isNode])
  | @plain type lines htype =>
    exact ⟨type, label_plain htype, by rw [strip_plain, label_plain htype]⟩
  | @modelled kind lines values htakes hvalues =>
    obtain ⟨hlength, htakes⟩ := htakes
    by_cases hpattern : kind = .objectPattern
    · subst hpattern
      obtain ⟨entries, rfl, -, -⟩ := htakes
      exact ⟨"ObjectPattern", rfl, rfl⟩
    rw [strip_modelled_of_ne hpattern hlength]
    by_cases hrest : kind = .restElement
    · subst hrest
      obtain ⟨argument, rfl⟩ := List.length_eq_one_iff.mp hlength
      refine ⟨"..." ++ ((argument.attr? "name").getD (str "")).display, rfl, ?_⟩
      rw [← attr?_name_stripField names (hvalues argument (by simp))]
      rfl
    by_cases hproperty : kind = .objectProperty
    · subst hproperty
      obtain ⟨key, value, shorthand, computed, rfl, -⟩ := htakes
      exact label_strip_objectProperty (hvalues key (by simp)) (hvalues value (by simp))
    · refine ⟨kind.name, label_modelled hrest hproperty ?_,
        label_modelled hrest hproperty ?_⟩
      · rintro rfl
        exact htakes
      · rintro rfl
        obtain ⟨text, rfl⟩ := htakes
        exact ⟨text, rfl⟩

end NamedExports.Tree
