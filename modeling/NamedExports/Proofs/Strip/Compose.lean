import NamedExports.Proofs.Strip.Filter

/-!
# Stripping one time after another

A stripped value still says what it is, and the texts in it that are compared are what they were.  So
the entries that bind one of some names are the same before and after other names have been stripped,
and stripping some names and then others comes to stripping all of them at once
(`Tree.strip_strip`).
-/

namespace NamedExports.Tree

/-- A property that lists have if their items have it, and objects if what their attributes hold has
it, is one of all trees. -/
@[elab_as_elim]
theorem induction {P : Tree → Prop}
    (leaf : ∀ t, (∀ ts, t ≠ list ts) → (∀ shape as, t ≠ node shape as) → P t)
    (list : ∀ items, (∀ t ∈ items, P t) → P (list items))
    (node : ∀ shape attributes, (∀ a ∈ attributes, P a.2) → P (node shape attributes))
    (t : Tree) : P t :=
  match t with
  | .list items => list items fun t _ => induction leaf list node t
  | .node shape attributes => node shape attributes fun a _ => induction leaf list node a.2
  | .null => leaf _ (by simp) (by simp)
  | .bool _ => leaf _ (by simp) (by simp)
  | .int _ => leaf _ (by simp) (by simp)
  | .str _ => leaf _ (by simp) (by simp)
termination_by sizeOf t
decreasing_by
  · have hlt := List.sizeOf_lt_of_mem ‹t ∈ items›
    rw [Tree.list.sizeOf_spec]
    omega
  · obtain ⟨name, value⟩ := a
    have hlt := List.sizeOf_lt_of_mem ‹(name, value) ∈ attributes›
    rw [Tree.node.sizeOf_spec]
    rw [Prod.mk.sizeOf_spec] at hlt
    show sizeOf value < _
    omega

variable {names : List String} {drop : Bool} {t : Tree}

/-! ### What a stripped value says of itself -/

/-- The fields of a value, none if it is no node. -/
def fields : Tree → List String
  | node shape _ => shape.fields?.getD []
  | _ => []

/-- A node with its fields stripped; `drop` says whether the entries of the node itself are
concerned. -/
def stripFields (names : List String) (drop : Bool) : Tree → Tree
  | node shape attributes =>
    node shape (stripAttributes names (shape.fields?.getD []) drop attributes)
  | t => t

theorem strip_eq_stripFields (names : List String) (t : Tree) :
    t.strip names = t.stripFields names (t.hasType "ObjectPattern") := by
  cases t <;> rfl

theorem stripBelow_eq_stripFields (names : List String) (t : Tree) :
    t.stripBelow names = t.stripFields names false := by
  cases t <;> rfl

/-- An attribute of a stripped node. -/
theorem get_stripFields (name : String) : (t.stripFields names drop).get name =
    if name ∈ t.fields then stripField names (drop && name == "properties") (t.get name)
    else t.get name := by
  cases t with
  | node shape attributes =>
    unfold get attr? stripFields fields
    dsimp only
    rw [stripAttributes_eq, lookup_map fun name v => if name ∈ shape.fields?.getD [] then
      stripField names (drop && name == "properties") v else v]
    cases attributes.lookup name with
    | none => simp [stripField, strip]
    | some v => rfl
  | _ => simp [stripFields, fields]

theorem isText_stripField (text : String) : (stripField names drop t).isText text = t.isText text := by
  cases t <;> simp [stripField, strip, isText]

theorem isText_get_stripFields (name text : String) :
    ((t.stripFields names drop).get name).isText text = (t.get name).isText text := by
  rw [get_stripFields]
  split
  · exact isText_stripField text
  · rfl

theorem isText_get_stripField (name text : String) :
    ((stripField names drop t).get name).isText text = (t.get name).isText text := by
  cases t with
  | list items => rfl
  | _ =>
    rw [stripField_of_ne_list (by simp), strip_eq_stripFields]
    exact isText_get_stripFields name text

@[simp] theorem hasType_stripFields (type : String) :
    (t.stripFields names drop).hasType type = t.hasType type :=
  isText_get_stripFields "type" type

@[simp] theorem hasType_strip (type : String) : (t.strip names).hasType type = t.hasType type := by
  rw [strip_eq_stripFields, hasType_stripFields]

@[simp] theorem hasType_stripField (type : String) :
    (stripField names drop t).hasType type = t.hasType type :=
  isText_get_stripField "type" type

@[simp] theorem isIdentifierNamed_stripField (name : String) :
    (stripField names drop t).isIdentifierNamed name = t.isIdentifierNamed name := by
  unfold isIdentifierNamed
  rw [hasType_stripField, isText_get_stripField]

/-- An attribute of a stripped value is an identifier of a name if it was one. -/
@[simp] theorem isIdentifierNamed_get_strip (field name : String) :
    ((t.strip names).get field).isIdentifierNamed name = (t.get field).isIdentifierNamed name := by
  rw [strip_eq_stripFields, get_stripFields]
  split
  · exact isIdentifierNamed_stripField name
  · rfl

/-- A stripped entry binds the names that the entry binds. -/
@[simp] theorem bindsAny_strip (others : List String) :
    (t.strip names).bindsAny others = t.bindsAny others := by
  simp [bindsAny]

/-! ### Stripping twice -/

section Twice

variable {first second both : List String}

theorem bindsAny_of_mem_iff (h : ∀ name, name ∈ both ↔ name ∈ first ∨ name ∈ second) (t : Tree) :
    t.bindsAny both = (t.bindsAny first || t.bindsAny second) := by
  have hany : ∀ p : String → Bool, both.any p = (first.any p || second.any p) := by
    intro p
    rw [Bool.eq_iff_iff]
    simp only [Bool.or_eq_true, List.any_eq_true, h]
    constructor
    · rintro ⟨name, hname | hname, hp⟩
      · exact Or.inl ⟨name, hname, hp⟩
      · exact Or.inr ⟨name, hname, hp⟩
    · rintro (⟨name, hname, hp⟩ | ⟨name, hname, hp⟩)
      · exact ⟨name, Or.inl hname, hp⟩
      · exact ⟨name, Or.inr hname, hp⟩
  unfold bindsAny
  rw [hany, Bool.and_or_distrib_left]

theorem stripEntries_stripEntries (h : ∀ name, name ∈ both ↔ name ∈ first ∨ name ∈ second)
    {items : List Tree} (hitems : ∀ t ∈ items, (t.strip first).strip second = t.strip both) :
    stripEntries second drop (stripEntries first drop items) = stripEntries both drop items := by
  induction items with
  | nil => rfl
  | cons t ts ih =>
    have hrest := ih fun u hu => hitems u (List.mem_cons_of_mem _ hu)
    conv_rhs => rw [stripEntries, bindsAny_of_mem_iff h, Bool.and_or_distrib_left]
    rw [stripEntries]
    cases hfirst : drop && t.bindsAny first with
    | true => exact hrest
    | false =>
      rw [if_neg Bool.false_ne_true, stripEntries, bindsAny_strip, Bool.false_or, hrest,
        hitems t List.mem_cons_self]

/-- Stripping some names and then others is stripping all of them; and so it is in a field. -/
theorem strip_strip_and_stripField (h : ∀ name, name ∈ both ↔ name ∈ first ∨ name ∈ second)
    (t : Tree) : (t.strip first).strip second = t.strip both ∧
      ∀ drop, stripField second drop (stripField first drop t) = stripField both drop t := by
  -- the fields of a node may hold lists, so the two facts need each other
  induction t using Tree.induction with
  | leaf t hlist hnode =>
    have hsame : ∀ names, t.strip names = t := fun names => strip_of_not_node names hnode
    have hfield : ∀ names drop, stripField names drop t = t := fun names drop =>
      (stripField_of_ne_list hlist).trans (hsame names)
    exact ⟨by simp only [hsame], fun drop => by simp only [hfield]⟩
  | list items ih =>
    refine ⟨rfl, fun drop => congrArg list ?_⟩
    exact stripEntries_stripEntries h fun t ht => (ih t ht).1
  | node shape attributes ih =>
    have hfields : ∀ drop, ((node shape attributes).stripFields first drop).stripFields second drop =
        (node shape attributes).stripFields both drop := by
      intro drop
      unfold stripFields
      simp only [stripAttributes_eq, List.map_map]
      refine congrArg (node shape) (List.map_congr_left fun a ha => congrArg (Prod.mk a.1) ?_)
      dsimp only [Function.comp_apply]
      split
      · exact (ih a ha).2 _
      · rfl
    have hstrip : ((node shape attributes).strip first).strip second =
        (node shape attributes).strip both := by
      rw [strip_eq_stripFields second, hasType_strip, strip_eq_stripFields, strip_eq_stripFields,
        hfields]
    exact ⟨hstrip, fun drop => hstrip⟩

theorem strip_strip (h : ∀ name, name ∈ both ↔ name ∈ first ∨ name ∈ second) (t : Tree) :
    (t.strip first).strip second = t.strip both :=
  (strip_strip_and_stripField h t).1

theorem stripBelow_stripBelow (h : ∀ name, name ∈ both ↔ name ∈ first ∨ name ∈ second) (t : Tree) :
    (t.stripBelow first).stripBelow second = t.stripBelow both := by
  cases t with
  | node shape attributes =>
    unfold stripBelow
    simp only [stripAttributes_eq, List.map_map]
    refine congrArg (node shape) (List.map_congr_left fun a ha => congrArg (Prod.mk a.1) ?_)
    dsimp only [Function.comp_apply]
    split
    · exact (strip_strip_and_stripField h a.2).2 _
    · rfl
  | _ => rfl

end Twice

end NamedExports.Tree
