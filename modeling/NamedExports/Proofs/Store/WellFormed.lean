import Mathlib.Algebra.GroupWithZero.Nat
import NamedExports.Proofs.Store.Written
import NamedExports.Text.Digits

/-!
# Well-formed stores

A node always has the attributes of its construct, whatever they hold; an attribute that is a list
holds the list itself and no reference to it; and no object pattern has so many entries that the
digits of their numbers could not be read.  Stores of this kind are well-formed; they are the ones
that come from a syntax tree or from nodes made one by one, and taking entries out or setting fields
to null keeps them so.
-/

namespace NamedExports

/-- The attributes that every node has, whatever its construct. -/
def Shape.headerNames : List String :=
  ["type", "start_line", "end_line"]

/-- Whether an object of this shape may have attributes of the given names. -/
def Shape.Admits : Shape → List String → Prop
  | modelled kind, names => names = headerNames ++ kind.fields
  | plain, names => names = headerNames
  | loose, _ => True

instance (shape : Shape) (names : List String) : Decidable (shape.Admits names) :=
  match shape with
  | .modelled kind => inferInstanceAs (Decidable (names = Shape.headerNames ++ kind.fields))
  | .plain => inferInstanceAs (Decidable (names = Shape.headerNames))
  | .loose => inferInstanceAs (Decidable True)

/-- A node has the attributes of its construct in their order, and its entries, if it is an object
pattern, are no more than can be numbered. -/
def Obj.WellFormed : Obj → Prop
  | record shape attributes =>
    shape.Admits (attributes.map Prod.fst) ∧
      ∀ a ∈ attributes, a.1 = "properties" → a.2.atoms.length ≤ 10 ^ Text.maxDigits
  | sequence _ => True

instance (o : Obj) : Decidable o.WellFormed :=
  match o with
  | .record shape attributes => inferInstanceAs (Decidable
      (shape.Admits (attributes.map Prod.fst) ∧
        ∀ a ∈ attributes, a.1 = "properties" → a.2.atoms.length ≤ 10 ^ Text.maxDigits))
  | .sequence _ => inferInstanceAs (Decidable True)

/-- The attributes of an object that are no lists. -/
def Obj.singles : Obj → List Atom
  | record _ attributes => attributes.flatMap fun a =>
    match a.2 with
    | .atom value => [value]
    | .items _ => []
  | sequence _ => []

/-- Whether a value is a list that is itself an object. -/
def Store.isSequence (s : Store) (a : Atom) : Bool :=
  match a with
  | .ref r =>
    match s.obj? r with
    | some (.sequence _) => true
    | _ => false
  | _ => false

/-- All objects of a store are well-formed, and lists that are objects are entries of lists only. -/
structure Store.WellFormed (s : Store) : Prop where
  objects : ∀ o ∈ s.objects.toList, o.WellFormed
  lists : ∀ o ∈ s.objects.toList, ∀ a ∈ o.singles, s.isSequence a = false

instance (s : Store) : Decidable s.WellFormed :=
  decidable_of_iff ((∀ o ∈ s.objects.toList, o.WellFormed) ∧
      ∀ o ∈ s.objects.toList, ∀ a ∈ o.singles, s.isSequence a = false)
    ⟨fun h => ⟨h.1, h.2⟩, fun h => ⟨h.1, h.2⟩⟩

/-! ### Attributes of well-formed nodes -/

/-- The attributes of a node have different names. -/
theorem Shape.Admits.nodup {shape : Shape} {names : List String} (h : shape.Admits names)
    (hnode : shape.isNode = true) : names.Nodup := by
  cases shape with
  | loose => simp [isNode] at hnode
  | plain =>
    rw [show names = headerNames from h]
    decide
  | modelled kind =>
    rw [show names = headerNames ++ kind.fields from h]
    cases kind <;> decide

/-- A node has a type. -/
theorem Shape.Admits.type_mem {shape : Shape} {names : List String} (h : shape.Admits names)
    (hnode : shape.isNode = true) : "type" ∈ names := by
  cases shape with
  | loose => simp [isNode] at hnode
  | plain =>
    rw [show names = headerNames from h]
    decide
  | modelled kind =>
    rw [show names = headerNames ++ kind.fields from h]
    exact List.mem_append_left _ (by decide)

/-- The fields of a node follow the attributes that all nodes have. -/
theorem Shape.Admits.eq_append {shape : Shape} {names fields : List String}
    (h : shape.Admits names) (hfields : shape.fields? = some fields) :
    names = headerNames ++ fields := by
  cases shape with
  | loose => simp [fields?] at hfields
  | plain =>
    have hnil : [] = fields := Option.some.inj hfields
    rw [← hnil, List.append_nil]
    exact h
  | modelled kind =>
    have hkind : kind.fields = fields := Option.some.inj hfields
    rw [← hkind]
    exact h

/-- The attributes that all nodes have are no fields. -/
theorem Shape.headerNames_disjoint {shape : Shape} {fields : List String}
    (hfields : shape.fields? = some fields) : ∀ name ∈ headerNames, name ∉ fields := by
  cases shape with
  | loose => simp [fields?] at hfields
  | plain =>
    have hnil : [] = fields := Option.some.inj hfields
    simp [← hnil]
  | modelled kind =>
    have hkind : kind.fields = fields := Option.some.inj hfields
    rw [← hkind]
    cases kind <;> decide

/-- Nodes are the objects whose fields are visited. -/
theorem Shape.exists_fields_of_isNode {shape : Shape} (h : shape.isNode = true) :
    ∃ fields, shape.fields? = some fields := by
  cases shape with
  | loose => simp [isNode] at h
  | plain => exact ⟨[], rfl⟩
  | modelled kind => exact ⟨kind.fields, rfl⟩

/-! ### Changes that keep objects well-formed -/

/-- A change of one attribute that makes no list longer keeps an object well-formed. -/
theorem Obj.WellFormed.mapAttr {o : Obj} {name : String} {f : Value → Value} (h : o.WellFormed)
    (hf : ∀ v, (f v).atoms.length ≤ v.atoms.length) : (o.mapAttr name f).WellFormed := by
  cases o with
  | sequence values => exact h
  | record shape attributes =>
    obtain ⟨hnames, hlengths⟩ := h
    have hsame : (attributes.map fun a => if a.1 = name then (a.1, f a.2) else a).map Prod.fst =
        attributes.map Prod.fst := by
      rw [List.map_map]
      refine List.map_congr_left fun a _ => ?_
      by_cases ha : a.1 = name <;> simp [ha]
    unfold Obj.mapAttr
    refine ⟨by rw [hsame]; exact hnames, fun b hb => ?_⟩
    obtain ⟨a, ha, rfl⟩ := List.mem_map.mp hb
    by_cases hname : a.1 = name
    · rw [if_pos hname]
      exact fun hentries => le_trans (hf a.2) (hlengths a ha hentries)
    · rw [if_neg hname]
      exact hlengths a ha

namespace Store

variable {s : Store}

/-- The objects of a store are those that are found in it. -/
theorem mem_objects_iff {o : Obj} : o ∈ s.objects.toList ↔ ∃ r, s.obj? r = some o := by
  constructor
  · intro ho
    obtain ⟨i, hi, heq⟩ := List.mem_iff_getElem.mp ho
    exact ⟨⟨i⟩, Array.getElem?_eq_some_iff.mpr ⟨hi, heq⟩⟩
  · rintro ⟨r, hr⟩
    obtain ⟨hlt, heq⟩ := Array.getElem?_eq_some_iff.mp hr
    rw [← heq]
    exact Array.getElem_mem_toList hlt

theorem WellFormed.obj {r : Ref} {o : Obj} (h : s.WellFormed) (ho : s.obj? r = some o) :
    o.WellFormed :=
  h.objects o (mem_objects_iff.mpr ⟨r, ho⟩)

/-- The attributes of a node have different names. -/
theorem WellFormed.exists_attributes {r : Ref} {o : Obj} (h : s.WellFormed) (ho : s.obj? r = some o)
    (hnode : s.isNode (.ref r) = true) :
    ∃ shape attributes, o = .record shape attributes ∧ (attributes.map Prod.fst).Nodup := by
  obtain ⟨r', shape, attributes, hr', hrecord, hshape⟩ := exists_record_of_isNode hnode
  cases hr'
  exact ⟨shape, attributes, Option.some.inj (ho.symm.trans hrecord),
    (h.obj hrecord).1.nodup hshape⟩

/-- An attribute that is no list does not refer to one either. -/
theorem WellFormed.isSequence_of_mem {r : Ref} {shape : Shape} {attributes : List (String × Value)}
    (h : s.WellFormed) (ho : s.obj? r = some (.record shape attributes)) {name : String} {a : Atom}
    (ha : (name, .atom a) ∈ attributes) : s.isSequence a = false :=
  h.lists _ (mem_objects_iff.mpr ⟨r, ho⟩) a
    (List.mem_flatMap.mpr ⟨(name, .atom a), ha, List.mem_singleton_self a⟩)

theorem WellFormed.isSequence_eq_false {r : Ref} {o : Obj} (h : s.WellFormed)
    (ho : s.obj? r = some o) {name : String} {a : Atom} (ha : o.attr? name = some (.atom a)) :
    s.isSequence a = false := by
  cases o with
  | sequence values => simp [Obj.attr?] at ha
  | record shape attributes => exact h.isSequence_of_mem ho (mem_of_lookup ha)

/-- Only lists are written out as lists. -/
theorem tree_ne_list {a : Atom} (h : s.isSequence a = false) : ∀ ts, s.tree a ≠ .list ts := by
  intro ts hts
  obtain ⟨r, values, rfl, hobj, -⟩ := exists_sequence_of_tree hts
  simp [isSequence, hobj] at h

/-- A node of a well-formed store has a type. -/
theorem WellFormed.exists_type (h : s.WellFormed) {r : Ref} {shape : Shape}
    {attributes : List (String × Value)} (ho : s.obj? r = some (.record shape attributes))
    (hnode : shape.isNode = true) : ∃ v, s.attr? (.ref r) "type" = some v := by
  have hwf := h.obj ho
  obtain ⟨v, hv⟩ := exists_lookup_of_mem (hwf.1.type_mem hnode)
  exact ⟨v, (attr?_ref ho "type").trans hv⟩

/-- The entries of a well-formed store are no more than can be numbered. -/
theorem WellFormed.length_le (h : s.WellFormed) {a : Atom} {values : List Atom}
    (hattr : s.attr? a "properties" = some (.items values)) :
    values.length ≤ 10 ^ Text.maxDigits := by
  obtain ⟨r, o, rfl, ho, hv⟩ := exists_obj_of_attr? hattr
  cases o with
  | sequence values => simp [Obj.attr?] at hv
  | record shape attributes => exact (h.obj ho).2 _ (mem_of_lookup hv) rfl

end Store

end NamedExports
