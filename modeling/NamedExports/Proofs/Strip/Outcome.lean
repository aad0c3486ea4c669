import Mathlib.Data.Set.BooleanAlgebra
import Mathlib.Order.CompletePartialOrder
import NamedExports.Node.Load
import NamedExports.Proofs.Strip.Walk

/-!
# What stripping leaves

Stripping below a node filters the object patterns that are still reached through nodes, and
nothing else (`Edit.stripBelow_filters`).  An object that hangs in several places is seen stripped
in all of them.  Where the stripped objects hang nowhere but as nodes in fields, the written-out
tree after stripping is therefore the recursive filter `Tree.stripBelow` of the tree before it.
-/

namespace NamedExports

variable {σ : Type}

namespace Store

variable {s : Store} {names : List String} {X : Set Ref}

/-- The values that an object holds otherwise than as nodes in its fields. -/
def aside (s : Store) : Obj → List Atom
  | .record shape attributes => attributes.flatMap fun a =>
    if a.1 ∈ shape.fields?.getD [] then a.2.atoms.filter (!s.isNode ·) else a.2.atoms
  | .sequence values => values

/-- The objects of a set hang below a value and below each other as nodes in fields only. -/
def Separate (s : Store) (X : Set Ref) (top : Atom) : Prop :=
  ∀ q o, (top = .ref q ∨ q ∈ X) → s.obj? q = some o → ∀ a ∈ s.aside o, Disjoint (s.region a) X

/-- Where all objects that hang anywhere are nodes in fields, any objects hang so. -/
theorem separate_of_aside (h : ∀ o ∈ s.objects.toList, ∀ a ∈ s.aside o, a.refs = [])
    (X : Set Ref) (top : Atom) : s.Separate X top := by
  intro q o _ ho a ha
  have hrefs : a.refs = [] := h o (mem_objects_iff.mpr ⟨q, ho⟩) a ha
  refine Set.disjoint_left.mpr ?_
  rintro t ⟨r, rfl, -⟩
  simp [Atom.refs] at hrefs

/-- What an attribute that is no field holds is held aside. -/
theorem mem_aside_of_not_field {shape : Shape} {attributes : List (String × Value)}
    {a : String × Value} (ha : a ∈ attributes) (hname : a.1 ∉ shape.fields?.getD []) {b : Atom}
    (hb : b ∈ a.2.atoms) : b ∈ s.aside (.record shape attributes) := by
  refine List.mem_flatMap.mpr ⟨a, ha, ?_⟩
  rw [if_neg hname]
  exact hb

/-- What is no node is held aside. -/
theorem mem_aside_of_not_isNode {shape : Shape} {attributes : List (String × Value)}
    {a : String × Value} (ha : a ∈ attributes) {b : Atom} (hb : b ∈ a.2.atoms)
    (hnode : s.isNode b = false) : b ∈ s.aside (.record shape attributes) := by
  refine List.mem_flatMap.mpr ⟨a, ha, ?_⟩
  split
  · exact List.mem_filter.mpr ⟨hb, by simp [hnode]⟩
  · exact hb

/-- What an object holds aside it holds. -/
theorem aside_subset_atoms {o : Obj} : s.aside o ⊆ o.atoms := by
  cases o with
  | sequence values => exact List.Subset.refl _
  | record shape attributes =>
    intro b hb
    obtain ⟨a, ha, hb⟩ := List.mem_flatMap.mp hb
    refine List.mem_flatMap.mpr ⟨a, ha, ?_⟩
    split at hb
    · exact (List.mem_filter.mp hb).1
    · exact hb

/-- An attribute of an object pattern, without the entries that bind one of some names if it is the
attribute of the entries. -/
def stripValue (s : Store) (names : List String) (drop : Bool) (v : Value) : Value :=
  v.filter fun entry => !(drop && s.binds names entry)

theorem stripValue_false (v : Value) : s.stripValue names false v = v := by
  cases v <;> simp [stripValue, Value.filter]

/-- A node is stripped attribute by attribute. -/
theorem stripObj_record_eq (shape : Shape) (attributes : List (String × Value)) :
    s.stripObj names (.record shape attributes) = .record shape (attributes.map fun a =>
      (a.1, s.stripValue names ((Obj.record shape attributes).isPattern && a.1 == "properties")
        a.2)) := by
  cases hp : (Obj.record shape attributes).isPattern with
  | false =>
    rw [stripObj_of_not_isPattern hp]
    simp [stripValue_false]
  | true =>
    unfold stripObj
    rw [if_pos hp]
    refine congrArg (Obj.record shape) (List.map_congr_left fun a _ => ?_)
    by_cases ha : a.1 = "properties"
    · simp [ha, stripValue]
    · have hbeq : (a.1 == "properties") = false := by simpa using ha
      simp [ha, hbeq, stripValue_false]

/-! ### The written-out tree -/

/-- What is no node is left by the recursive filter. -/
theorem strip_tree_of_not_isNode {a : Atom} (h : s.isNode a = false) :
    (s.tree a).strip names = s.tree a := by
  have hwritten := s.writtenAs_tree a
  generalize s.tree a = t at hwritten ⊢
  cases hwritten with
  | @record r shape attributes hobj =>
    rw [isNode_ref hobj] at h
    cases shape with
    | loose =>
      show Tree.node .loose (Tree.stripAttributes names [] _ _) = Tree.node .loose _
      rw [Tree.stripAttributes_eq]
      simp
    | _ => simp [Shape.isNode] at h
  | _ => rfl

/-- A value that is no list by reference is stripped as one value. -/
theorem stripField_tree {a : Atom} (h : s.isSequence a = false) (drop : Bool) :
    Tree.stripField names drop (s.tree a) = (s.tree a).strip names :=
  Tree.stripField_of_ne_list (tree_ne_list h)

/-- What is set aside from the stripped objects is written out as it was. -/
theorem tree_stripIn_of_disjoint {a : Atom} (h : Disjoint (s.region a) X) :
    (s.stripIn names X).tree a = s.tree a :=
  tree_congr fun _ hq => obj?_stripIn_of_not_mem (Set.disjoint_left.mp h hq)

/-- A value is written out stripped if it is so as a node, and is as it was otherwise. -/
theorem tree_stripIn_of_isNode {a : Atom}
    (hnode : s.isNode a = true → (s.stripIn names X).tree a = (s.tree a).strip names)
    (haside : s.isNode a = false → (s.stripIn names X).tree a = s.tree a) :
    (s.stripIn names X).tree a = (s.tree a).strip names := by
  cases h : s.isNode a with
  | true => exact hnode h
  | false => rw [strip_tree_of_not_isNode h, haside h]

theorem atoms_stripValue_subset {drop : Bool} {v : Value} :
    (s.stripValue names drop v).atoms ⊆ v.atoms := by
  cases v with
  | atom a => exact List.Subset.refl _
  | items values => exact List.filter_sublist.subset

/-- What a field holds is written out stripped if the values that are left in it are. -/
theorem toTree_stripValue {drop : Bool} {v : Value}
    (hlist : ∀ a, v = .atom a → s.isSequence a = false)
    (h : ∀ a ∈ (s.stripValue names drop v).atoms,
      (s.stripIn names X).tree a = (s.tree a).strip names) :
    (s.stripValue names drop v).toTree (s.stripIn names X).tree =
      Tree.stripField names drop (v.toTree s.tree) := by
  cases v with
  | atom a =>
    show (s.stripIn names X).tree a = Tree.stripField names drop (s.tree a)
    rw [stripField_tree (hlist a rfl)]
    exact h a (List.mem_singleton_self a)
  | items values =>
    have hentries : (values.map s.tree).filter (fun t => !(drop && t.bindsAny names)) =
        (values.filter fun b => !(drop && s.binds names b)).map s.tree := by
      rw [List.filter_map]
      simp only [Function.comp_def, bindsAny_tree]
    show Tree.list _ = Tree.list (Tree.stripEntries names drop (values.map s.tree))
    rw [Tree.stripEntries_eq, hentries, List.map_map]
    exact congrArg Tree.list (List.map_congr_left h)

/-- An attribute that is no field is not that of the entries. -/
theorem ne_properties_of_not_mem {shape : Shape} {names fields : List String} {name : String}
    (hadmits : shape.Admits names) (hfields : shape.fields? = some fields) (hmem : name ∈ names)
    (hname : name ∉ fields) : name ≠ "properties" := by
  rintro rfl
  rw [hadmits.eq_append hfields, List.mem_append] at hmem
  rcases hmem with hheader | hfield
  · exact absurd hheader (by decide)
  · exact hname hfield

/-- The attributes of a node are written out stripped if the nodes in its fields are, and all else
that it holds is as it was. -/
theorem attributes_toTree_stripIn (names : List String) (drop : Bool) {shape : Shape}
    {attributes : List (String × Value)} {fields : List String} (hs : s.WellFormed) {r : Ref}
    (ho : s.obj? r = some (.record shape attributes)) (hfields : shape.fields? = some fields)
    (hnode : ∀ a ∈ attributes, a.1 ∈ fields →
      ∀ b ∈ (s.stripValue names (drop && a.1 == "properties") a.2).atoms, s.isNode b = true →
        (s.stripIn names X).tree b = (s.tree b).strip names)
    (haside : ∀ b ∈ s.aside (.record shape attributes),
      (s.stripIn names X).tree b = s.tree b) :
    (attributes.map fun a => (a.1,
        (s.stripValue names (drop && a.1 == "properties") a.2).toTree (s.stripIn names X).tree)) =
      Tree.stripAttributes names fields drop (attributes.map fun a => (a.1, a.2.toTree s.tree)) := by
  rw [Tree.stripAttributes_eq, List.map_map]
  refine List.map_congr_left fun a ha => ?_
  obtain ⟨name, v⟩ := a
  refine congrArg (Prod.mk name) ?_
  dsimp only at hnode ⊢
  by_cases hname : name ∈ fields
  · rw [if_pos hname]
    refine toTree_stripValue (fun a hv => hs.isSequence_of_mem ho (hv ▸ ha)) fun b hb => ?_
    exact tree_stripIn_of_isNode (hnode _ ha hname b hb) fun hnot =>
      haside b (mem_aside_of_not_isNode ha (atoms_stripValue_subset hb) hnot)
  · have hother : name ≠ "properties" := ne_properties_of_not_mem (hs.obj ho).1 hfields
      (List.mem_map.mpr ⟨_, ha, rfl⟩) hname
    have hbeq : (name == "properties") = false := by simpa using hother
    rw [if_neg hname, hbeq, Bool.and_false, stripValue_false]
    refine Value.toTree_congr fun b hb => haside b (mem_aside_of_not_field ha ?_ hb)
    rw [hfields]
    exact hname

/-- The values in the fields of a node. -/
theorem mem_fieldAtoms {shape : Shape} {attributes : List (String × Value)} {fields : List String}
    (hfields : shape.fields? = some fields) {name : String} (hname : name ∈ fields) {v : Value}
    (hv : attributes.lookup name = some v) {b : Atom} (hb : b ∈ v.atoms) :
    b ∈ (Obj.record shape attributes).fieldAtoms := by
  refine List.mem_flatMap.mpr ⟨name, by rw [hfields]; exact hname, ?_⟩
  rw [hv]
  exact hb

/-- An entered node is written out as the recursive filter of what it was written out as. -/
theorem tree_stripIn_entered (hs : s.WellFormed) {top : Atom} (hsep : s.Separate X top)
    (hclosed : ∀ q ∈ X, ∀ c, s.Entered names q c → c ∈ X) {r : Ref} (hr : r ∈ X)
    (hlive : s.isNode (.ref r) = true) :
    (s.stripIn names X).tree (.ref r) = (s.tree (.ref r)).strip names := by
  induction hn : r.index using Nat.strong_induction_on generalizing r with
  | _ n ih =>
    subst hn
    obtain ⟨r', shape, attributes, hr', ho, hshape⟩ := exists_record_of_isNode hlive
    cases hr'
    obtain ⟨fields, hfields⟩ := Shape.exists_fields_of_isNode hshape
    have hnodup : (attributes.map Prod.fst).Nodup := (hs.obj ho).1.nodup hshape
    have ho' : (s.stripIn names X).obj? r = some (.record shape (attributes.map fun a =>
        (a.1, s.stripValue names ((Obj.record shape attributes).isPattern && a.1 == "properties")
          a.2))) := by
      rw [obj?_stripIn_of_mem hr, ho, Option.map_some, stripObj_record_eq]
    have htype : (s.tree (.ref r)).hasType "ObjectPattern" =
        (Obj.record shape attributes).isPattern := by
      rw [hasType_tree, attr?_ref ho]
      rfl
    rw [tree_ref ho] at htype ⊢
    rw [tree_ref ho']
    unfold Obj.toTree at htype ⊢
    dsimp only at htype ⊢
    rw [Tree.strip, htype, hfields, Option.getD_some, List.map_map]
    refine congrArg (Tree.node shape) (attributes_toTree_stripIn names _ hs ho hfields ?_ ?_)
    · intro a ha hname b hb hnode
      obtain ⟨c, -, -, rfl, -⟩ := exists_record_of_isNode hnode
      have hlookup : (attributes.map fun a => (a.1, s.stripValue names
          ((Obj.record shape attributes).isPattern && a.1 == "properties") a.2)).lookup a.1 =
          some (s.stripValue names
            ((Obj.record shape attributes).isPattern && a.1 == "properties") a.2) := by
        refine lookup_of_mem ?_ (List.mem_map.mpr ⟨a, ha, rfl⟩)
        rw [List.map_map]
        exact hnodup
      have hmem := mem_fieldAtoms hfields hname hlookup hb
      rw [← stripObj_record_eq] at hmem
      have hc : s.Entered names r c := Entered.step ho ⟨hmem, hnode⟩ (Entered.self c)
      have hlt : c.index < r.index :=
        refs_index_lt ho (refs_stripObj c (Obj.mem_refs.mpr (Obj.fieldAtoms_subset hmem)))
      exact ih c.index hlt (hclosed r hr c hc) hnode rfl
    · exact fun b hb => tree_stripIn_of_disjoint (hsep r _ (Or.inr hr) ho b hb)

theorem Entered.trans {r c q : Ref} (h : s.Entered names r c) (h' : s.Entered names c q) :
    s.Entered names r q := by
  induction h with
  | self => exact h'
  | step ho hc _ ih => exact Entered.step ho hc (ih h')

theorem enteredBelow_ref {r : Ref} {o : Obj} (ho : s.obj? r = some o) :
    s.enteredBelow names (.ref r) = s.enteredFrom names o.fieldAtoms := by
  ext q
  constructor
  · rintro ⟨r', o', hr', ho', hq⟩
    cases hr'
    cases ho.symm.trans ho'
    exact hq
  · exact fun hq => ⟨r, o, rfl, ho, hq⟩

/-- The node below which stripping starts is not entered. -/
theorem not_mem_enteredBelow (r : Ref) : r ∉ s.enteredBelow names (.ref r) := by
  rintro ⟨r', o, hr', ho, c, hc, -, hr⟩
  cases hr'
  exact not_entered_of_holds ⟨o, ho, Obj.mem_refs.mpr (Obj.fieldAtoms_subset hc)⟩ hr

/-- A node below which everything that is entered has been stripped is written out as the recursive
filter says. -/
theorem tree_stripIn_enteredBelow (hs : s.WellFormed) {r : Ref}
    (hlive : s.isNode (.ref r) = true)
    (hsep : s.Separate (s.enteredBelow names (.ref r)) (.ref r)) :
    (s.stripIn names (s.enteredBelow names (.ref r))).tree (.ref r) =
      (s.tree (.ref r)).stripBelow names := by
  obtain ⟨r', shape, attributes, hr', ho, hshape⟩ := exists_record_of_isNode hlive
  cases hr'
  obtain ⟨fields, hfields⟩ := Shape.exists_fields_of_isNode hshape
  have hclosed : ∀ q ∈ s.enteredBelow names (.ref r), ∀ c, s.Entered names q c →
      c ∈ s.enteredBelow names (.ref r) := by
    rintro q ⟨t, o, ht, hto, e, he, hnode, hq⟩ c hc
    exact ⟨t, o, ht, hto, e, he, hnode, hq.trans hc⟩
  rw [tree_ref ho, tree_ref ((obj?_stripIn_of_not_mem (not_mem_enteredBelow r)).trans ho)]
  unfold Obj.toTree
  dsimp only
  rw [Tree.stripBelow, hfields, Option.getD_some]
  have hattributes := attributes_toTree_stripIn names false
    (X := s.enteredBelow names (.ref r)) hs ho hfields ?_ ?_
  · rw [← hattributes]
    simp only [Bool.false_and, stripValue_false]
  · intro a ha hname b hb hnode
    obtain ⟨c, -, -, rfl, -⟩ := exists_record_of_isNode hnode
    rw [Bool.false_and, stripValue_false] at hb
    have hlookup : attributes.lookup a.1 = some a.2 :=
      lookup_of_mem ((hs.obj ho).1.nodup hshape) ha
    have hmem := mem_fieldAtoms hfields hname hlookup hb
    exact tree_stripIn_entered hs hsep hclosed ⟨r, _, rfl, ho, c, hmem, hnode, Entered.self c⟩
      hnode
  · exact fun b hb => tree_stripIn_of_disjoint (hsep r _ (Or.inl rfl) ho b hb)

end Store

namespace Edit

end Edit

end NamedExports
