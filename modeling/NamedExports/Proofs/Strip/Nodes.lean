import NamedExports.Proofs.Program.Regular
import NamedExports.Proofs.Strip.Compose
import NamedExports.Proofs.Strip.Pattern

/-!
# Values made of nodes

Objects that are no nodes may have whatever attributes they were given, and stripping does not look
into them.  Where every object is a node, an attribute that is asked for is one that all nodes have,
or a field of the node, or not there (`Tree.OfNodes.get_eq_null`).  So all that is read from a
stripped value is what was read before, stripped (`Tree.OfNodes.get_stripFields`).
-/

namespace NamedExports

namespace Tree

/-! ### Values made of nodes -/

/-- A value in which every object is a node, with the attributes of its construct, and every object
pattern has a list of entries. -/
inductive OfNodes : Tree → Prop where
  | null : OfNodes .null
  | bool (value : Bool) : OfNodes (.bool value)
  | int (value : Int) : OfNodes (.int value)
  | str (value : String) : OfNodes (.str value)
  | list {items : List Tree} (hitems : ∀ t ∈ items, OfNodes t) : OfNodes (.list items)
  | node {shape : Shape} {attributes : List (String × Tree)} (hshape : shape.isNode = true)
      (hnames : shape.Admits (attributes.map Prod.fst))
      (hentries : (Tree.node shape attributes).hasType "ObjectPattern" = true →
        ∃ entries, (Tree.node shape attributes).get "properties" = .list entries)
      (hattributes : ∀ a ∈ attributes, OfNodes a.2) : OfNodes (.node shape attributes)

variable {names : List String} {name type : String} {drop : Bool} {t u : Tree}

theorem OfNodes.get (h : t.OfNodes) (name : String) : (t.get name).OfNodes := by
  cases h with
  | @node shape attributes hshape hnames hentries hattributes =>
    show ((attributes.lookup name).getD .null).OfNodes
    cases hlookup : attributes.lookup name with
    | none => exact .null
    | some v => exact hattributes _ (mem_of_lookup hlookup)
  | _ => exact .null

/-- The first item of a list made of nodes is made of nodes. -/
theorem OfNodes.of_eq_cons (h : t.OfNodes) {others : List Tree} (hlist : t = .list (u :: others)) :
    u.OfNodes := by
  subst hlist
  cases h with
  | list hitems => exact hitems u List.mem_cons_self

theorem OfNodes.exists_entries (h : t.OfNodes) (htype : t.hasType "ObjectPattern" = true) :
    ∃ entries, t.get "properties" = .list entries := by
  cases h with
  | node hshape hnames hentries hattributes => exact hentries htype
  | _ => cases htype

/-- An attribute that is neither common to all nodes nor a field is none of a node. -/
theorem OfNodes.get_eq_null (h : t.OfNodes) (hname : name ∉ Shape.headerNames)
    (hfield : name ∉ t.fields) : t.get name = .null := by
  cases h with
  | @node shape attributes hshape hnames hentries hattributes =>
    obtain ⟨fields, hfields⟩ := Shape.exists_fields_of_isNode hshape
    have hsame : (Tree.node shape attributes).fields = fields := by
      show shape.fields?.getD [] = fields
      rw [hfields]
      rfl
    show (attributes.lookup name).getD .null = .null
    cases hlookup : attributes.lookup name with
    | none => rfl
    | some v =>
      have hmem := List.mem_map_of_mem (f := Prod.fst) (mem_of_lookup hlookup)
      rw [hnames.eq_append hfields, List.mem_append] at hmem
      exact absurd (hsame ▸ hmem.resolve_left hname) hfield
  | _ => rfl

/-! ### Attributes and entries of stripped values -/

theorem OfNodes.get_stripFields (h : t.OfNodes) (hname : name ∉ Shape.headerNames) :
    (t.stripFields names drop).get name =
      stripField names (drop && name == "properties") (t.get name) := by
  rw [Tree.get_stripFields]
  split
  · rfl
  next hfield =>
    rw [h.get_eq_null hname hfield]
    rfl

theorem OfNodes.get_stripBelow (h : t.OfNodes) (hname : name ∉ Shape.headerNames) :
    (t.stripBelow names).get name = stripField names false (t.get name) := by
  rw [stripBelow_eq_stripFields, h.get_stripFields hname, Bool.false_and]

theorem OfNodes.get_strip (h : t.OfNodes) (hname : name ∉ "properties" :: Shape.headerNames) :
    (t.strip names).get name = stripField names false (t.get name) := by
  obtain ⟨hentries, hname⟩ := List.ne_and_not_mem_of_not_mem_cons hname
  rw [strip_eq_stripFields, h.get_stripFields hname, beq_false_of_ne hentries, Bool.and_false]

theorem OfNodes.get_stripField (h : t.OfNodes) (hname : name ∉ "properties" :: Shape.headerNames) :
    (stripField names drop t).get name = stripField names false (t.get name) := by
  cases t with
  | list items => rfl
  | _ => exact h.get_strip hname

/-- The entries of a stripped object pattern. -/
theorem OfNodes.get_properties_stripField (h : t.OfNodes)
    (htype : t.hasType "ObjectPattern" = true) :
    (stripField names drop t).get "properties" = stripField names true (t.get "properties") := by
  cases t with
  | list items => cases htype
  | _ =>
    rw [stripField_of_ne_list (by simp), strip_eq_stripFields, h.get_stripFields (by decide), htype]
    rfl

end Tree

/-! ### Stores of nodes -/

theorem Value.ofNodes_toTree {f : Atom → Tree} {v : Value} (h : ∀ a ∈ v.atoms, (f a).OfNodes) :
    (v.toTree f).OfNodes := by
  cases v with
  | atom value => exact h value (List.mem_singleton_self value)
  | items values =>
    refine .list fun t ht => ?_
    obtain ⟨a, ha, rfl⟩ := List.mem_map.mp ht
    exact h a ha

theorem Obj.regular_of_mem_atoms {f : Atom → Tree} {o : Obj} (h : (o.toTree f).Regular) :
    ∀ a ∈ o.atoms, (f a).Regular := by
  intro a ha
  cases o with
  | sequence values => exact (h.of_list _ (List.mem_map.mpr ⟨a, ha, rfl⟩)).1
  | record shape attributes =>
    obtain ⟨b, hb, ha⟩ := List.mem_flatMap.mp ha
    have hvalue : (b.2.toTree f).Regular := h.of_mem_attributes _ (List.mem_map.mpr ⟨b, hb, rfl⟩)
    cases hv : b.2 with
    | atom value =>
      rw [hv] at ha hvalue
      rw [List.mem_singleton.mp ha]
      exact hvalue
    | items values =>
      rw [hv] at ha hvalue
      exact (hvalue.of_list _ (List.mem_map.mpr ⟨a, ha, rfl⟩)).1

namespace Store

variable {s : Store} {a : Atom}

/-- A value is written out as one made of nodes if every object that hangs in it is a node and its
object patterns can be stripped. -/
theorem ofNodes_tree (hs : s.WellFormed)
    (hnodes : ∀ q ∈ s.region a, s.shape? (.ref q) ≠ some .loose)
    (hpatterns : ∀ q ∈ s.region a, s.isNode (.ref q) = true → s.Strippable q) :
    (s.tree a).OfNodes := by
  induction a using s.atom_induction with
  | plain a hplain =>
    cases a with
    | ref r => cases hplain
    | null => rw [tree_null]; exact .null
    | bool value => rw [tree_bool]; exact .bool value
    | int value => rw [tree_int]; exact .int value
    | str value => rw [tree_str]; exact .str value
  | ref r ih =>
    cases ho : s.obj? r with
    | none =>
      -- what is not in the store is written out as null
      rw [tree_of_obj?_eq_none ho]
      exact .null
    | some o =>
      have hheld : ∀ b ∈ o.atoms, (s.tree b).OfNodes := fun b hb =>
        ih o ho b hb (fun q hq => hnodes q (region_subset ho hb hq))
          fun q hq => hpatterns q (region_subset ho hb hq)
      have hshape := hnodes r (self_mem_region r)
      have hpattern := hpatterns r (self_mem_region r)
      cases o with
      | sequence values =>
        rw [tree_ref ho]
        exact Value.ofNodes_toTree (v := .items values) hheld
      | record shape attributes =>
        have hnode : shape.isNode = true := by
          rw [shape?_ref ho] at hshape
          cases shape <;> first | rfl | exact absurd rfl hshape
        have hentries := (hpattern (by rw [isNode_ref ho, hnode])).exists_entries
        rw [tree_ref ho] at hentries ⊢
        refine .node hnode ?_ (fun htype => ?_) fun b hb => ?_
        · rw [List.map_map]
          exact (hs.obj ho).1
        · obtain ⟨entries, hentries⟩ := hentries htype
          exact ⟨entries, congrArg (·.getD .null) hentries⟩
        · obtain ⟨c, hc, rfl⟩ := List.mem_map.mp hb
          exact Value.ofNodes_toTree fun d hd => hheld d (List.mem_flatMap.mpr ⟨c, hc, hd⟩)

/-- Every object that hangs in a value that is written out as a regular tree is a node. -/
theorem ne_loose_of_regular (h : (s.tree a).Regular) :
    ∀ q ∈ s.region a, s.shape? (.ref q) ≠ some .loose := by
  induction a using s.atom_induction with
  | plain a hplain =>
    rintro q ⟨r, rfl, -⟩
    cases hplain
  | ref r ih =>
    intro q hq
    rcases Relation.ReflTransGen.cases_head (mem_region_ref.mp hq) with
      rfl | ⟨t, ⟨o, ho, ht⟩, hreach⟩
    · intro hloose
      obtain ⟨r', attributes, hr, ho⟩ := exists_record_of_shape? hloose
      cases hr
      rw [tree_ref ho] at h
      rcases h.node_cases with ⟨hplain, -⟩ | ⟨kind, -, -, hmodelled, -⟩
      · cases hplain
      · cases hmodelled
    · rw [tree_ref ho] at h
      have hmem := Obj.mem_refs.mp ht
      exact ih o ho _ hmem (Obj.regular_of_mem_atoms h _ hmem) q (mem_region_ref.mpr hreach)

end Store

end NamedExports
