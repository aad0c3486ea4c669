import Mathlib.Data.List.Basic
import NamedExports.Proofs.Program.Regular
import NamedExports.Proofs.Strip.Filter

/-!
# Stripping regular trees

On a regular tree stripping changes nothing but the entries of object patterns: the patterns that
are found in the stripped tree are those of the tree, stripped one by one and in the same order
(`Tree.objectPatterns_stripBelow`).  No pattern is lost, because an entry that is dropped holds
none.
-/

namespace NamedExports.Tree

variable {kind : Kind} {lines : Lines} {values : List Tree} {type : String} {t : Tree}
  {names : List String}

/-! ### Stripped nodes -/

/-- The attributes of a modelled node are stripped field by field. -/
theorem stripAttributes_modelled (drop : Bool) (hlength : values.length = kind.fields.length) :
    stripAttributes names kind.fields drop (header kind.name lines ++ kind.fields.zip values) =
      header kind.name lines ++
        kind.fields.zip ((kind.fields.zip values).map fun a =>
          stripField names (drop && a.1 == "properties") a.2) := by
  rw [stripAttributes_eq, List.map_append]
  congr 1
  · cases kind <;> rfl
  · have hzip : ∀ (fields : List String) (vs : List Tree), vs.length = fields.length →
        (∀ name ∈ fields, name ∈ kind.fields) →
        ((fields.zip vs).map fun a => (a.1, if a.1 ∈ kind.fields then
            stripField names (drop && a.1 == "properties") a.2 else a.2)) =
          fields.zip ((fields.zip vs).map fun a =>
            stripField names (drop && a.1 == "properties") a.2) := by
      intro fields vs hvs hfields
      induction fields generalizing vs with
      | nil => rfl
      | cons name fields ih =>
        obtain ⟨v, vs, rfl⟩ := List.exists_cons_of_length_eq_add_one hvs
        have hrest := ih vs (by simpa using hvs) fun other hother =>
          hfields other (List.mem_cons_of_mem _ hother)
        rw [List.zip_cons_cons, List.map_cons, hrest, List.map_cons, List.zip_cons_cons,
          if_pos (hfields name List.mem_cons_self)]
    exact hzip kind.fields values hlength fun _ h => h

/-- Without entries to drop, the fields are stripped whatever they are called. -/
theorem map_zip_stripField (hlength : values.length = kind.fields.length) :
    ((kind.fields.zip values).map fun a =>
      stripField names (false && a.1 == "properties") a.2) =
      values.map (stripField names false) := by
  have hsnd : (kind.fields.zip values).map Prod.snd = values :=
    List.map_snd_zip (le_of_eq hlength)
  conv_rhs => rw [← hsnd]
  rw [List.map_map]
  rfl

/-- A node that is no object pattern is stripped field by field. -/
theorem strip_modelled_of_ne (hkind : kind ≠ .objectPattern)
    (hlength : values.length = kind.fields.length) :
    (modelled kind lines values).strip names =
      modelled kind lines (values.map (stripField names false)) := by
  have htype : (modelled kind lines values).hasType "ObjectPattern" = false := by
    rw [show "ObjectPattern" = Kind.objectPattern.name from rfl, hasType_modelled]
    simpa using hkind
  unfold modelled at htype ⊢
  rw [strip, htype]
  show node _ (stripAttributes names kind.fields false _) = _
  rw [stripAttributes_modelled false hlength, map_zip_stripField hlength]

/-- An object pattern is stripped by dropping the entries that bind one of some names. -/
theorem strip_objectPattern (entries : List Tree) :
    (modelled .objectPattern lines [list entries]).strip names =
      modelled .objectPattern lines [list (stripEntries names true entries)] :=
  rfl

/-- A node below which is stripped keeps its own entries. -/
theorem stripBelow_modelled (hlength : values.length = kind.fields.length) :
    (modelled kind lines values).stripBelow names =
      modelled kind lines (values.map (stripField names false)) := by
  unfold modelled
  rw [stripBelow]
  show node _ (stripAttributes names kind.fields false _) = _
  rw [stripAttributes_modelled false hlength, map_zip_stripField hlength]

theorem strip_plain : (plain type lines).strip names = plain type lines := by
  unfold plain
  rw [strip, stripAttributes_eq]
  simp [Shape.fields?]

/-- The entries of a list that is no list of entries of a pattern are stripped one by one. -/
theorem stripField_list (items : List Tree) :
    stripField names false (list items) = list (items.map (strip names)) := by
  show list (stripEntries names false items) = _
  rw [stripEntries_eq]
  simp

/-! ### Patterns of stripped nodes -/

/-- An entry that is dropped holds no patterns. -/
theorem objectPatterns_of_bindsAny (h : t.Regular) (hbinds : t.bindsAny names = true) :
    t.objectPatterns = [] := by
  obtain ⟨htype, hvalue⟩ := (Bool.and_eq_true _ _).mp hbinds
  obtain ⟨lines, values, rfl, ⟨hlength, key, value, shorthand, computed, rfl, hkey⟩, hvalues⟩ :=
    h.exists_of_hasType .objectProperty htype
  obtain ⟨name, -, hname⟩ := List.any_eq_true.mp hvalue
  have hidentifier : value.hasType "Identifier" = true := ((Bool.and_eq_true _ _).mp hname).1
  obtain ⟨lines', text, rfl⟩ := (hvalues value (by simp)).exists_of_identifier hidentifier
  rw [objectPatterns_modelled hlength]
  show [] ++ (patternsInField key ++ _) = []
  rw [hkey]
  rfl

theorem strip_ne_list (h : ∀ ts, t ≠ list ts) : ∀ ts, t.strip names ≠ list ts := by
  cases t with
  | node shape attributes => exact fun ts hts => by simp [strip] at hts
  | list items => exact absurd rfl (h items)
  | _ => exact fun ts hts => by simp [strip] at hts

/-- What gives nothing for the entries that are left out gives the same without them. -/
theorem flatMap_filter_of_nil {α β : Type} {p : α → Bool} {f : α → List β} {l : List α}
    (h : ∀ a ∈ l, p a = false → f a = []) : (l.filter p).flatMap f = l.flatMap f := by
  induction l with
  | nil => rfl
  | cons a l ih =>
    have hrest := ih fun b hb => h b (List.mem_cons_of_mem _ hb)
    cases hp : p a with
    | true => rw [List.filter_cons_of_pos hp, List.flatMap_cons, List.flatMap_cons, hrest]
    | false =>
      rw [List.filter_cons_of_neg (by simp [hp]), List.flatMap_cons, h a List.mem_cons_self hp,
        List.nil_append, hrest]

/-- The patterns of an object pattern are the pattern itself and those of its entries; an entry that
goes has none. -/
theorem objectPatterns_strip_objectPattern {entries : List Tree}
    (hregular : ∀ e ∈ entries, e.Regular)
    (hentries : ∀ e ∈ entries, (e.strip names).objectPatterns = e.objectPatterns.map (strip names)) :
    ((modelled .objectPattern lines [list entries]).strip names).objectPatterns =
      (modelled .objectPattern lines [list entries]).objectPatterns.map (strip names) := by
  rw [strip_objectPattern, objectPatterns_modelled rfl, objectPatterns_modelled rfl, if_pos rfl,
    if_pos rfl, List.map_append, ← strip_objectPattern]
  congr 1
  show patternsInEntries (stripEntries names true entries) ++ [] =
    (patternsInEntries entries ++ []).map _
  rw [List.append_nil, List.append_nil, stripEntries_eq, patternsInEntries_eq,
    patternsInEntries_eq, List.flatMap_map, List.map_flatMap, ← List.flatMap_congr hentries]
  refine flatMap_filter_of_nil fun e he hdrop => ?_
  have hbinds : e.bindsAny names = true := by simpa using hdrop
  rw [hentries e he, objectPatterns_of_bindsAny (hregular e he) hbinds]
  rfl

/-- The patterns of any other node are those in its fields. -/
theorem objectPatterns_strip_of_ne (hkind : kind ≠ .objectPattern)
    (hlength : values.length = kind.fields.length)
    (hvalues : ∀ v ∈ values,
      patternsInField (stripField names false v) = (patternsInField v).map (strip names)) :
    ((modelled kind lines values).strip names).objectPatterns =
      (modelled kind lines values).objectPatterns.map (strip names) := by
  rw [strip_modelled_of_ne hkind hlength, objectPatterns_modelled (by simpa using hlength),
    objectPatterns_modelled hlength, if_neg hkind, if_neg hkind, List.nil_append, List.nil_append,
    List.flatMap_map, List.map_flatMap]
  exact List.flatMap_congr hvalues

/-- The patterns of a stripped regular tree are those of the tree, stripped; and so are those of the
items of a list. -/
theorem patternsInField_stripField (h : t.Regular) :
    patternsInField (stripField names false t) = (patternsInField t).map (strip names) ∧
      ∀ items, t = list items → ∀ e ∈ items,
        (e.strip names).objectPatterns = e.objectPatterns.map (strip names) := by
  induction h with
  | null => exact ⟨rfl, by simp⟩
  | bool value => exact ⟨rfl, by simp⟩
  | int value => exact ⟨rfl, by simp⟩
  | str value => exact ⟨rfl, by simp⟩
  | @list items hflat hitems ih =>
    have heach : ∀ e ∈ items,
        (e.strip names).objectPatterns = e.objectPatterns.map (strip names) := by
      intro e he
      have hfield := (ih e he).1
      rwa [stripField_of_ne_list (hflat e he), patternsInField_of_ne_list (hflat e he),
        patternsInField_of_ne_list (strip_ne_list (hflat e he))] at hfield
    refine ⟨?_, fun items' hitems' => by cases hitems'; exact heach⟩
    rw [stripField_list]
    show patternsInEntries _ = (patternsInEntries items).map _
    rw [patternsInEntries_eq, patternsInEntries_eq, List.flatMap_map, List.map_flatMap]
    exact List.flatMap_congr heach
  | @plain type lines htype =>
    refine ⟨?_, fun items hitems => by cases hitems⟩
    show (strip names (plain type lines)).patternsInField =
      (plain type lines).objectPatterns.map (strip names)
    rw [strip_plain, objectPatterns_plain htype]
    exact objectPatterns_plain htype
  | @modelled kind lines values htakes hvalues ih =>
    refine ⟨?_, fun items hitems => by cases hitems⟩
    obtain ⟨hlength, htakes⟩ := id htakes
    show (strip names (modelled kind lines values)).objectPatterns =
      (modelled kind lines values).objectPatterns.map (strip names)
    by_cases hkind : kind = .objectPattern
    · subst hkind
      obtain ⟨entries, rfl, -, -⟩ := htakes
      exact objectPatterns_strip_objectPattern
        (fun e he => ((hvalues (list entries) (by simp)).of_list e he).1)
        ((ih (list entries) (by simp)).2 entries rfl)
    · exact objectPatterns_strip_of_ne hkind hlength fun v hv => (ih v hv).1

/-- The patterns of a node below which is stripped are those of the node, stripped. -/
theorem objectPatterns_stripBelow (h : (modelled kind lines values).Regular)
    (hlength : values.length = kind.fields.length) (hkind : kind ≠ .objectPattern) :
    ((modelled kind lines values).stripBelow names).objectPatterns =
      (modelled kind lines values).objectPatterns.map (strip names) := by
  rw [stripBelow_modelled hlength, ← strip_modelled_of_ne hkind hlength]
  exact (patternsInField_stripField h).1

end NamedExports.Tree
