import Mathlib.Data.List.Flatten
import NamedExports.Proofs.Program.Regular
import NamedExports.Proofs.Store.Load
import NamedExports.Proofs.Strip.Outcome

/-!
# Loaded programs can be stripped

The objects that a regular tree is loaded as fit (`Store.Fits`): they are well-formed, hold other
objects as nodes in their fields only, and have entries that stripping can test.  An object fits
because of what it is written out as, so that growing the store does not concern it; a whole loaded
tree fits by adding one fitting object after the other (`Store.fits_addTree`).
-/

namespace NamedExports.Store

variable {s s' : Store} {o : Obj} {a : Atom} {t : Tree}

/-! ### What a value is, by what it is written out as -/

/-- A value that is written out as a text is the text, and no list. -/
theorem eq_str_of_toTree {v : Value} {text : String} (h : v.toTree s.tree = .str text) :
    v = .atom (.str text) := by
  cases v with
  | atom value => rw [eq_str_of_tree (s := s) h]
  | items values => cases h

/-- What is there and is written out as a regular tree, but no list, is a node if it is an object
at all. -/
theorem refs_eq_nil_of_regular (h : (s.tree a).Regular) (hlist : s.isSequence a = false)
    (hrefs : ∀ r ∈ a.refs, r.index < s.size) (hnode : s.isNode a = false) : a.refs = [] := by
  cases a with
  | ref r =>
    have hr : r.index < s.size := hrefs r (by simp)
    have ho : s.obj? r = some s.objects[r.index] := Array.getElem?_eq_getElem hr
    rw [tree_ref ho] at h
    cases hobj : s.objects[r.index] with
    | sequence values =>
      rw [hobj] at ho
      simp [isSequence, ho] at hlist
    | record shape attributes =>
      rw [hobj] at ho h
      rw [isNode_ref ho] at hnode
      rcases Tree.Regular.node_cases h with ⟨rfl, -⟩ | ⟨kind, -, -, rfl, -⟩ <;>
        simp [Shape.isNode] at hnode
  | _ => rfl

/-- What stripping compares in a regular entry is a text. -/
theorem searchable_of_regular (h : (s.tree a).Regular) : s.Searchable a := by
  intro value name _ hvalue hid hname
  have hvalueTree : (s.tree a).attr? "value" = some (s.tree value) := by
    rw [attr?_tree, hvalue]
    rfl
  have htype : (s.tree value).hasType "Identifier" = true := by
    rw [hasType_tree, hid]
    rfl
  obtain ⟨lines, text, hidentifier⟩ := (h.of_attr? hvalueTree).exists_of_identifier htype
  have hnameTree : (s.tree value).attr? "name" = some (.str text) := by
    rw [hidentifier]
    rfl
  rw [attr?_tree, hname, Option.map_some, Option.some.injEq] at hnameTree
  exact Or.inr ⟨text, eq_str_of_toTree hnameTree⟩

/-! ### Objects that fit -/

/-- An object can be stripped and holds other objects as nodes in its fields only. -/
structure Fits (s : Store) (o : Obj) : Prop where
  wellFormed : o.WellFormed
  lists : ∀ a ∈ o.singles, s.isSequence a = false
  aside : ∀ a ∈ s.aside o, a.refs = []
  entries : o.isPattern = true → ∃ values, o.attr? "properties" = some (.items values) ∧
    ∀ entry ∈ values, s.Searchable entry

/-- An attribute that is no list is one of the singles. -/
theorem mem_singles {shape : Shape} {attributes : List (String × Value)} {name : String}
    (h : (name, .atom a) ∈ attributes) : a ∈ (Obj.record shape attributes).singles :=
  List.mem_flatMap.mpr ⟨(name, .atom a), h, List.mem_singleton_self a⟩

/-- The singles of an object are attributes of it. -/
theorem exists_of_mem_singles {shape : Shape} {attributes : List (String × Value)}
    (h : a ∈ (Obj.record shape attributes).singles) : ∃ name, (name, .atom a) ∈ attributes := by
  obtain ⟨⟨name, v⟩, hmem, ha⟩ := List.mem_flatMap.mp h
  cases v with
  | atom value =>
    rw [List.mem_singleton.mp ha]
    exact ⟨name, hmem⟩
  | items values => exact absurd ha List.not_mem_nil

theorem singles_subset_atoms (h : a ∈ o.singles) : a ∈ o.atoms := by
  cases o with
  | sequence values => exact absurd h List.not_mem_nil
  | record shape attributes =>
    obtain ⟨name, hmem⟩ := exists_of_mem_singles h
    exact List.mem_flatMap.mpr ⟨(name, .atom a), hmem, List.mem_singleton_self a⟩

/-- The attributes of a regular object, as they are written out. -/
theorem attributes_of_regular {shape : Shape} {attributes : List (String × Value)}
    (h : ((Obj.record shape attributes).toTree s.tree).Regular) :
    ∃ type lines values, shape.fields?.getD [] = values.map Prod.fst ∧
      (attributes.map fun a => (a.1, a.2.toTree s.tree)) = Tree.header type lines ++ values ∧
      shape.Admits (attributes.map Prod.fst) ∧ (∀ v ∈ values, v.2.Regular) ∧
      ∀ v ∈ values, v.1 = "properties" → ∃ entries, v.2 = .list entries ∧
        entries.length ≤ 10 ^ Text.maxDigits := by
  have hnames : attributes.map Prod.fst =
      (attributes.map fun a => (a.1, a.2.toTree s.tree)).map Prod.fst := by
    rw [List.map_map]
    rfl
  rcases Tree.Regular.node_cases h with
    ⟨rfl, type, lines, hattributes, -⟩ |
    ⟨kind, lines, values, rfl, hattributes, ⟨hlength, htakes⟩, hvalues⟩
  · refine ⟨type, lines, [], rfl, by rw [hattributes, List.append_nil], ?_, by simp, by simp⟩
    rw [hnames, hattributes]
    rfl
  · have hzip : (kind.fields.zip values).map Prod.fst = kind.fields :=
      List.map_fst_zip (le_of_eq hlength.symm)
    refine ⟨kind.name, lines, kind.fields.zip values, hzip.symm, hattributes, ?_,
      fun v hv => hvalues v.2 (List.of_mem_zip hv).2, fun v hv hname => ?_⟩
    · rw [hnames, hattributes, List.map_append, hzip]
      rfl
    · -- only object patterns have entries
      have hmem : "properties" ∈ kind.fields := hname ▸ (List.of_mem_zip hv).1
      have hkind : kind = .objectPattern := by
        revert hmem
        cases kind <;> decide
      subst hkind
      obtain ⟨entries, rfl, hshort, -⟩ := htakes
      exact ⟨entries, List.mem_singleton.mp (List.of_mem_zip hv).2, hshort⟩

/-- A value that is written out as a list is a list, unless it refers to one. -/
theorem exists_items_of_toTree {v : Value} {entries : List Tree}
    (hlist : ∀ a, v = .atom a → s.isSequence a = false) (h : v.toTree s.tree = .list entries) :
    ∃ atoms, v = .items atoms ∧ atoms.map s.tree = entries := by
  cases v with
  | items atoms => exact ⟨atoms, rfl, Tree.list.inj h⟩
  | atom a => exact absurd h (tree_ne_list (hlist a rfl) entries)

/-- The attributes that every node has hold no objects. -/
theorem refs_eq_nil_of_header {type : String} {lines : Tree.Lines} {b : String × Value}
    (h : (b.1, b.2.toTree s.tree) ∈ Tree.header type lines) (ha : a ∈ b.2.atoms) :
    a.refs = [] := by
  obtain ⟨name, v⟩ := b
  simp only [Tree.header, List.mem_cons, Prod.mk.injEq, List.not_mem_nil, or_false] at h
  cases v with
  | items atoms => simp [Value.toTree] at h
  | atom value =>
    rw [List.mem_singleton.mp ha]
    rcases h with ⟨-, h⟩ | ⟨-, h⟩ | ⟨-, h⟩
    · rw [eq_str_of_tree (s := s) h]; rfl
    · rw [eq_int_of_tree (s := s) h]; rfl
    · rw [eq_int_of_tree (s := s) h]; rfl

/-- What a field holds and is no node is no object at all. -/
theorem refs_eq_nil_of_field {v : Value} (h : (v.toTree s.tree).Regular)
    (hlist : ∀ a, v = .atom a → s.isSequence a = false) (ha : a ∈ v.atoms)
    (hrefs : ∀ r ∈ a.refs, r.index < s.size) (hnode : s.isNode a = false) : a.refs = [] := by
  cases v with
  | atom value =>
    cases List.mem_singleton.mp ha
    exact refs_eq_nil_of_regular h (hlist a rfl) hrefs hnode
  | items atoms =>
    change (Tree.list (atoms.map s.tree)).Regular at h
    obtain ⟨hregular, hflat⟩ := h.of_list (s.tree a) (List.mem_map.mpr ⟨a, ha, rfl⟩)
    refine refs_eq_nil_of_regular hregular ?_ hrefs hnode
    rw [← Bool.not_eq_true]
    intro hsequence
    obtain ⟨items, hlistTree⟩ := exists_list_of_isSequence hsequence
    exact hflat items hlistTree

/-- The entries of an object pattern are written out as regular trees. -/
theorem exists_entries_of_isPattern (h : (o.toTree s.tree).Regular) (hpattern : o.isPattern = true) :
    ∃ entries, (∀ e ∈ entries, e.Regular) ∧
      ∃ v, o.attr? "properties" = some v ∧ v.toTree s.tree = .list entries := by
  have htype : (o.toTree s.tree).hasType "ObjectPattern" = true := by
    have htypeAttr : o.attr? "type" = some (.atom (.str "ObjectPattern")) := by
      simpa [Obj.isPattern] using hpattern
    unfold Tree.hasType Tree.get
    rw [Obj.attr?_toTree, htypeAttr]
    simp [Value.toTree, Tree.isText]
  obtain ⟨lines, values, htree, ⟨-, entries, rfl, -, -⟩, hvalues⟩ :=
    h.exists_of_hasType .objectPattern htype
  have hentries : ∀ e ∈ entries, e.Regular := fun e he =>
    ((hvalues (.list entries) (List.mem_singleton_self _)).of_list e he).1
  have hattr : (o.attr? "properties").map (Value.toTree s.tree) = some (.list entries) := by
    rw [← Obj.attr?_toTree, htree]
    rfl
  obtain ⟨v, hv, hvtree⟩ := Option.map_eq_some_iff.mp hattr
  exact ⟨entries, hentries, v, hv, hvtree⟩

/-- An object that is written out as a regular node fits, provided that no single attribute of it
is a list by reference. -/
theorem fits_of_regular {shape : Shape} {attributes : List (String × Value)}
    (h : ((Obj.record shape attributes).toTree s.tree).Regular)
    (hrefs : ∀ r ∈ (Obj.record shape attributes).refs, r.index < s.size)
    (hlists : ∀ a ∈ (Obj.record shape attributes).singles, s.isSequence a = false) :
    s.Fits (.record shape attributes) := by
  obtain ⟨type, lines, values, hfields, hattributes, hadmits, hvalues, hentries⟩ :=
    attributes_of_regular h
  -- what an attribute holds is written out as one of the attributes of the tree
  have hcases : ∀ a ∈ attributes,
      (a.1, a.2.toTree s.tree) ∈ Tree.header type lines ∨ (a.1, a.2.toTree s.tree) ∈ values := by
    intro a ha
    rw [← List.mem_append, ← hattributes]
    exact List.mem_map.mpr ⟨a, ha, rfl⟩
  have hlist : ∀ name v, (name, v) ∈ attributes → ∀ a, v = .atom a → s.isSequence a = false := by
    rintro name v hmem a rfl
    exact hlists a (mem_singles hmem)
  refine ⟨⟨hadmits, fun a ha hname => ?_⟩, hlists, fun b hb => ?_, fun hpattern => ?_⟩
  · rcases hcases a ha with hheader | hvalue
    · have hheaderName : a.1 ∈ (Tree.header type lines).map Prod.fst :=
        List.mem_map.mpr ⟨_, hheader, rfl⟩
      rw [hname] at hheaderName
      exact absurd hheaderName (by simp [Tree.header])
    · obtain ⟨entries, hlistTree, hshort⟩ := hentries _ hvalue hname
      obtain ⟨atoms, hitems, hmap⟩ := exists_items_of_toTree (hlist a.1 a.2 ha) hlistTree
      rw [hitems]
      rw [← hmap, List.length_map] at hshort
      exact hshort
  · obtain ⟨a, ha, hmem⟩ := List.mem_flatMap.mp hb
    have hatom : b ∈ a.2.atoms := by
      split at hmem
      · exact List.mem_of_mem_filter hmem
      · exact hmem
    rcases hcases a ha with hheader | hvalue
    · exact refs_eq_nil_of_header hheader hatom
    · have hfield : a.1 ∈ shape.fields?.getD [] := by
        rw [hfields]
        exact List.mem_map.mpr ⟨_, hvalue, rfl⟩
      rw [if_pos hfield, List.mem_filter] at hmem
      exact refs_eq_nil_of_field (hvalues _ hvalue) (hlist a.1 a.2 ha) hatom
        (fun r hr => hrefs r (Obj.mem_refs_of_mem_atoms (List.mem_flatMap.mpr ⟨a, ha, hatom⟩) hr))
        (by simpa using hmem.2)
  · obtain ⟨entries, hregular, hentries⟩ := exists_entries_of_isPattern h hpattern
    obtain ⟨v, hv, hvtree⟩ := hentries
    obtain ⟨atoms, rfl, rfl⟩ := exists_items_of_toTree (hlist _ v (mem_of_lookup hv)) hvtree
    exact ⟨atoms, hv, fun e he => searchable_of_regular (hregular _ (List.mem_map.mpr ⟨e, he, rfl⟩))⟩

/-! ### Stores that fit -/

/-- What an attribute of a value that is there refers to is there too. -/
theorem refs_lt_of_attr? {v : Value} {name : String} {b : Atom}
    (hv : s.attr? a name = some v) (hb : b ∈ v.atoms) : ∀ r ∈ b.refs, r.index < s.size := by
  intro r hr
  obtain ⟨q, o, rfl, ho, hattr⟩ := exists_obj_of_attr? hv
  have hmem : r ∈ o.refs := Obj.mem_refs_of_mem_atoms (Obj.atoms_subset_of_attr? hattr hb) hr
  exact lt_trans (refs_index_lt ho hmem) (index_lt_size ho)

theorem Searchable.extend (h : s.Searchable a) (hs : s.Extends s')
    (hrefs : ∀ r ∈ a.refs, r.index < s.size) : s'.Searchable a := by
  intro value name htype hvalue hid hname
  rw [hs.attr?_eq hrefs] at htype hvalue
  have hvalueRefs : ∀ r ∈ value.refs, r.index < s.size :=
    refs_lt_of_attr? hvalue (List.mem_singleton_self _)
  rw [hs.attr?_eq hvalueRefs] at hid hname
  exact h value name htype hvalue hid hname

/-- What is held aside is the same when the store grows. -/
theorem Extends.aside_eq (hs : s.Extends s') (hrefs : ∀ r ∈ o.refs, r.index < s.size) :
    s'.aside o = s.aside o := by
  cases o with
  | sequence values => rfl
  | record shape attributes =>
    refine List.flatMap_congr fun b hb => ?_
    have hsame : b.2.atoms.filter (!s'.isNode ·) = b.2.atoms.filter (!s.isNode ·) := by
      refine List.filter_congr fun a ha => ?_
      rw [hs.isNode_eq fun r hr => hrefs r
        (Obj.mem_refs_of_mem_atoms (List.mem_flatMap.mpr ⟨b, hb, ha⟩) hr)]
    rw [hsame]

/-- What fits still does when the store grows. -/
theorem Fits.extend (h : s.Fits o) (hs : s.Extends s') (hrefs : ∀ r ∈ o.refs, r.index < s.size) :
    s'.Fits o := by
  have hatoms : ∀ a ∈ o.atoms, ∀ r ∈ a.refs, r.index < s.size := fun a ha r hr =>
    hrefs r (Obj.mem_refs_of_mem_atoms ha hr)
  refine ⟨h.wellFormed, fun a ha => ?_, ?_, fun hpattern => ?_⟩
  · rw [hs.isSequence_eq (hatoms a (singles_subset_atoms ha)), h.lists a ha]
  · rw [hs.aside_eq hrefs]
    exact h.aside
  · obtain ⟨values, hvalues, hsearch⟩ := h.entries hpattern
    refine ⟨values, hvalues, fun e he => (hsearch e he).extend hs (hatoms e ?_)⟩
    exact Obj.atoms_subset_of_attr? hvalues he

/-- A store of which all objects fit. -/
def Fitted (s : Store) : Prop :=
  ∀ r o, s.obj? r = some o → s.Fits o

theorem fitted_empty : empty.Fitted := by
  intro r o ho
  simp [obj?, empty] at ho

/-- A store to which an object is added that fits. -/
theorem Fitted.add (hs : s.Fitted) (ho : s.Fits o) (hrefs : ∀ r ∈ o.refs, r.index < s.size) :
    (s.add o).1.Fitted := by
  have hgrow : s.Extends (s.add o).1 := extends_add s o
  intro r o' ho'
  have hr : r.index < s.size + 1 := by
    rw [← size_add s o]
    exact index_lt_size ho'
  rcases Nat.lt_or_ge r.index s.size with hlt | hge
  · rw [hgrow.obj?_eq r hlt] at ho'
    exact (hs r o' ho').extend hgrow fun q hq =>
      lt_trans (refs_index_lt ho' hq) hlt
  · have heq : r = ⟨s.size⟩ := by
      obtain ⟨i⟩ := r
      exact congrArg Ref.mk (by dsimp only at hr hge; omega)
    subst heq
    cases (obj?_add hrefs).symm.trans ho'
    exact ho.extend hgrow hrefs

/-! ### Loading regular trees -/

mutual

/-- Loading a regular tree that is no list keeps a store fitted. -/
theorem Fitted.addTree {s : Store} (hs : s.Fitted) (t : Tree) (h : t.Regular)
    (hlist : ∀ ts, t ≠ .list ts) : (s.addTree t).1.Fitted :=
  match t with
  | .null => hs
  | .bool _ => hs
  | .int _ => hs
  | .str _ => hs
  | .list items => absurd rfl (hlist items)
  | .node shape attributes => by
    have hload := loadsAttributes_addAttributes s attributes
    have hfitted := Fitted.addAttributes hs attributes h.of_mem_attributes
    have hrefs : ∀ r ∈ (Obj.record shape (s.addAttributes attributes).2).refs,
        r.index < (s.addAttributes attributes).1.size := by
      intro r hr
      obtain ⟨a, ha, hatom⟩ := List.mem_flatMap.mp (Obj.mem_refs.mp hr)
      exact (hload.between a ha _ hatom).refs_lt r (by simp)
    have hregular : ((Obj.record shape (s.addAttributes attributes).2).toTree
        (s.addAttributes attributes).1.tree).Regular := by
      unfold Obj.toTree
      dsimp only
      rw [hload.trees_eq]
      exact h
    refine hfitted.add (fits_of_regular hregular hrefs fun a ha => ?_) hrefs
    obtain ⟨name, hmem⟩ := exists_of_mem_singles ha
    exact hload.lists _ hmem a rfl

/-- Loading regular trees that are no lists keeps a store fitted. -/
theorem Fitted.addItems {s : Store} (hs : s.Fitted) (items : List Tree)
    (h : ∀ t ∈ items, t.Regular) (hlist : ∀ t ∈ items, ∀ ts, t ≠ .list ts) :
    (s.addItems items).1.Fitted :=
  match items with
  | [] => hs
  | t :: ts =>
    have hfirst := Fitted.addTree hs t (h t List.mem_cons_self) (hlist t List.mem_cons_self)
    Fitted.addItems hfirst ts (fun t ht => h t (List.mem_cons_of_mem _ ht))
      fun t ht => hlist t (List.mem_cons_of_mem _ ht)

/-- Loading regular attributes keeps a store fitted. -/
theorem Fitted.addAttributes {s : Store} (hs : s.Fitted) (attributes : List (String × Tree))
    (h : ∀ a ∈ attributes, a.2.Regular) : (s.addAttributes attributes).1.Fitted :=
  match attributes with
  | [] => hs
  | (name, .list items) :: rest =>
    have hitems := (h (name, .list items) List.mem_cons_self).of_list
    have hfirst := Fitted.addItems hs items (fun t ht => (hitems t ht).1)
      fun t ht => (hitems t ht).2
    Fitted.addAttributes hfirst rest fun a ha => h a (List.mem_cons_of_mem _ ha)
  | (_, .null) :: rest =>
    Fitted.addAttributes hs rest fun a ha => h a (List.mem_cons_of_mem _ ha)
  | (_, .bool _) :: rest =>
    Fitted.addAttributes hs rest fun a ha => h a (List.mem_cons_of_mem _ ha)
  | (_, .int _) :: rest =>
    Fitted.addAttributes hs rest fun a ha => h a (List.mem_cons_of_mem _ ha)
  | (_, .str _) :: rest =>
    Fitted.addAttributes hs rest fun a ha => h a (List.mem_cons_of_mem _ ha)
  | (name, .node shape attributes) :: rest =>
    have hfirst := Fitted.addTree hs (.node shape attributes) (h _ List.mem_cons_self) (by simp)
    Fitted.addAttributes hfirst rest fun a ha => h a (List.mem_cons_of_mem _ ha)

end

/-! ### What can be done with a fitted store -/

theorem Fitted.wellFormed (h : s.Fitted) : s.WellFormed := by
  refine ⟨fun o ho => ?_, fun o ho => ?_⟩ <;> obtain ⟨r, hr⟩ := mem_objects_iff.mp ho
  · exact (h r o hr).wellFormed
  · exact (h r o hr).lists

theorem Fitted.strippable (h : s.Fitted) (r : Ref) : s.Strippable r :=
  fun o ho => (h r o ho).entries

theorem Fitted.separate (h : s.Fitted) (X : Set Ref) (top : Atom) : s.Separate X top := by
  refine separate_of_aside (fun o ho => ?_) X top
  obtain ⟨r, hr⟩ := mem_objects_iff.mp ho
  exact (h r o hr).aside

/-! ### Stripped stores fit -/

variable {names : List String}

theorem atoms_filter_sublist (keep : Atom → Bool) (v : Value) :
    (v.filter keep).atoms.Sublist v.atoms := by
  cases v with
  | atom value => exact .refl _
  | items values => exact List.filter_sublist

/-- A stripped object holds what is left of what it held, in the same order. -/
theorem atoms_stripObj_sublist (o : Obj) : (s.stripObj names o).atoms.Sublist o.atoms := by
  cases o with
  | sequence values =>
    rw [stripObj_sequence]
  | record shape attributes =>
    rw [stripObj_record_eq, Obj.atoms, Obj.atoms, List.flatMap_map]
    exact List.Sublist.flatMap_right _ fun a _ => atoms_filter_sublist _ a.2

theorem aside_stripObj_sublist (o : Obj) : (s.aside (s.stripObj names o)).Sublist (s.aside o) := by
  cases o with
  | sequence values =>
    rw [stripObj_sequence]
  | record shape attributes =>
    rw [stripObj_record_eq, aside, aside, List.flatMap_map]
    refine List.Sublist.flatMap_right _ fun a _ => ?_
    have hsub := atoms_filter_sublist (fun entry => !(((Obj.record shape attributes).isPattern &&
      a.1 == "properties") && s.binds names entry)) a.2
    dsimp only
    split
    · exact hsub.filter _
    · exact hsub

/-- The objects of a stripped store hold what is left of what they held. -/
theorem atoms_stripIn_sublist {X : Set Ref} {r : Ref} {o o' : Obj} (ho : s.obj? r = some o)
    (ho' : (s.stripIn names X).obj? r = some o') : o'.atoms.Sublist o.atoms := by
  rw [obj?_stripIn, ho, Option.map_some, Option.some.injEq] at ho'
  subst ho'
  split
  · exact atoms_stripObj_sublist o
  · exact .refl _

theorem aside_stripIn (X : Set Ref) (o : Obj) : (s.stripIn names X).aside o = s.aside o := by
  cases o with
  | sequence values => rfl
  | record shape attributes => simp only [aside, isNode_stripIn]

/-- Stripping keeps a store fitted. -/
theorem Fitted.stripIn (h : s.Fitted) (X : Set Ref) : (s.stripIn names X).Fitted := by
  intro r o' ho'
  have hwf : (s.stripIn names X).WellFormed := wellFormed_stripIn h.wellFormed X
  refine ⟨hwf.obj ho', hwf.lists o' (mem_objects_iff.mpr ⟨r, ho'⟩), fun a ha => ?_,
    (h.strippable r).stripIn X o' ho'⟩
  obtain ⟨o, ho, rfl⟩ := Option.map_eq_some_iff.mp ((obj?_stripIn X r).symm.trans ho')
  rw [aside_stripIn] at ha
  refine (h r o ho).aside a ?_
  split at ha
  · exact (aside_stripObj_sublist o).subset ha
  · exact ha

end NamedExports.Store
