import NamedExports.Export.Form
import NamedExports.Proofs.Store.WellFormed

/-!
# Stripping as a filter

What stripping comes to, said without any walk.  On trees it is the recursive function
`Tree.strip`: in every object pattern the entries that bind one of some names are dropped, the rest
keep their order, and the function goes on into what is left.  `Tree.stripBelow` does the same
below a node but leaves the node itself.

On a store the same filter is applied to a set of objects (`Store.stripIn`), and the objects that
stripping enters are those that are still reached through nodes once the patterns above them are
filtered (`Store.Entered`).
-/

namespace NamedExports

namespace Tree

/-- Whether an entry of an object pattern is a property that binds one of some names. -/
def bindsAny (names : List String) (entry : Tree) : Bool :=
  entry.hasType "ObjectProperty" &&
    names.any fun name => (entry.get "value").isIdentifierNamed name

mutual

/-- A tree with the entries dropped that bind one of some names, in all object patterns at or below
it that are reached through the fields of nodes. -/
def strip (names : List String) : Tree → Tree
  | node shape attributes =>
    node shape (stripAttributes names (shape.fields?.getD [])
      ((node shape attributes).hasType "ObjectPattern") attributes)
  | t => t

/-- The attributes of a node with the fields among them stripped; `drop` says whether the node is an
object pattern, so that the entries themselves are concerned. -/
def stripAttributes (names fields : List String) (drop : Bool) :
    List (String × Tree) → List (String × Tree)
  | [] => []
  | (name, list items) :: rest =>
    (name, list (if name ∈ fields then stripEntries names (drop && name == "properties") items
      else items)) :: stripAttributes names fields drop rest
  | (name, t) :: rest =>
    (name, if name ∈ fields then strip names t else t) :: stripAttributes names fields drop rest

/-- The entries of a list stripped, those that bind one of some names left out if they are entries
of an object pattern. -/
def stripEntries (names : List String) (drop : Bool) : List Tree → List Tree
  | [] => []
  | t :: ts =>
    if drop && t.bindsAny names then stripEntries names drop ts
    else strip names t :: stripEntries names drop ts

end

/-- A tree stripped below its first node, which keeps all its own entries. -/
def stripBelow (names : List String) : Tree → Tree
  | node shape attributes =>
    node shape (stripAttributes names (shape.fields?.getD []) false attributes)
  | t => t

/-- The entries of a list are first filtered, in their order, and then stripped one by one. -/
theorem stripEntries_eq (names : List String) (drop : Bool) (items : List Tree) :
    stripEntries names drop items =
      (items.filter fun t => !(drop && t.bindsAny names)).map (strip names) := by
  induction items with
  | nil => rfl
  | cons t ts ih =>
    unfold stripEntries
    rw [List.filter_cons, ih]
    cases hdrop : drop && t.bindsAny names <;> simp

/-- What a field of a node is stripped to. -/
def stripField (names : List String) (drop : Bool) : Tree → Tree
  | list items => list (stripEntries names drop items)
  | t => strip names t

theorem stripField_of_ne_list {names : List String} {drop : Bool} {t : Tree}
    (h : ∀ ts, t ≠ list ts) : stripField names drop t = t.strip names := by
  cases t with
  | list items => exact absurd rfl (h items)
  | _ => rfl

/-- The attributes are stripped one by one. -/
theorem stripAttributes_eq (names fields : List String) (drop : Bool)
    (attributes : List (String × Tree)) :
    stripAttributes names fields drop attributes = attributes.map fun a =>
      (a.1, if a.1 ∈ fields then stripField names (drop && a.1 == "properties") a.2
        else a.2) := by
  induction attributes with
  | nil => rfl
  | cons a rest ih =>
    obtain ⟨name, t⟩ := a
    rw [List.map_cons, ← ih]
    cases t <;> by_cases h : name ∈ fields <;> simp [stripAttributes, stripField, h]

/-- What is no node and no list is left as it is. -/
theorem strip_of_not_node {t : Tree} (names : List String) (h : ∀ shape as, t ≠ node shape as) :
    strip names t = t := by
  cases t with
  | node shape as => exact absurd rfl (h shape as)
  | _ => rfl

end Tree

/-- A list without the entries that do not meet a condition; a single value stays as it is. -/
def Value.filter (keep : Atom → Bool) : Value → Value
  | atom value => atom value
  | items values => items (values.filter keep)

theorem Value.refs_filter {keep : Atom → Bool} {v : Value} :
    ∀ r ∈ (v.filter keep).refs, r ∈ v.refs := by
  intro r hr
  cases v with
  | atom value => exact hr
  | items values =>
    simp only [filter, refs, List.mem_flatMap] at hr ⊢
    obtain ⟨a, ha, hr⟩ := hr
    exact ⟨a, (List.mem_filter.mp ha).1, hr⟩

/-- What meets a condition already is not filtered by a weaker one. -/
theorem Value.filter_filter_of_imp {keep keep' : Atom → Bool} (h : ∀ a, keep a = true → keep' a = true)
    (v : Value) : (v.filter keep).filter keep' = v.filter keep := by
  cases v with
  | atom value => rfl
  | items values =>
    refine congrArg items (List.filter_eq_self.mpr fun a ha => ?_)
    exact h a (List.mem_filter.mp ha).2

/-- Whether an object says that it is an object pattern. -/
def Obj.isPattern (o : Obj) : Bool :=
  o.attr? "type" == some (.atom (.str "ObjectPattern"))

/-- The single values that the fields of an object hold, in the order in which they are visited. -/
def Obj.fieldAtoms : Obj → List Atom
  | record shape attributes =>
    (shape.fields?.getD []).flatMap fun name =>
      ((attributes.lookup name).map Value.atoms).getD []
  | sequence _ => []

/-- The values in the fields of an object are values of the object. -/
theorem Obj.fieldAtoms_subset {o : Obj} : o.fieldAtoms ⊆ o.atoms := by
  intro a h
  cases o with
  | sequence values => simp [fieldAtoms] at h
  | record shape attributes =>
    obtain ⟨name, _, hname⟩ := List.mem_flatMap.mp h
    cases hl : attributes.lookup name with
    | none => simp [hl] at hname
    | some v =>
      rw [hl] at hname
      exact List.mem_flatMap.mpr ⟨(name, v), mem_of_lookup hl, hname⟩

namespace Store

variable {s : Store} {names : List String}

/-- Whether an entry of an object pattern is a property that binds one of some names. -/
def binds (s : Store) (names : List String) (entry : Atom) : Bool :=
  s.attr? entry "type" == some (.atom (.str "ObjectProperty")) &&
    match s.attr? entry "value" with
    | some (.atom value) =>
      s.attr? value "type" == some (.atom (.str "Identifier")) &&
        names.any fun name => s.attr? value "name" == some (.atom (.str name))
    | _ => false

/-- An object stripped of the entries that bind one of some names, if it is an object pattern. -/
def stripObj (s : Store) (names : List String) (o : Obj) : Obj :=
  if o.isPattern then o.mapAttr "properties" (·.filter fun entry => !s.binds names entry) else o

theorem refs_stripObj {o : Obj} : ∀ r ∈ (s.stripObj names o).refs, r ∈ o.refs := by
  intro r hr
  unfold stripObj at hr
  split at hr
  · exact Obj.refs_mapAttr (fun _ => Value.refs_filter) r hr
  · exact hr

open Classical in
/-- A store in which the objects of a set are stripped. -/
noncomputable def stripIn (s : Store) (names : List String) (X : Set Ref) : Store where
  objects := s.objects.mapIdx fun i o => if ⟨i⟩ ∈ X then s.stripObj names o else o
  refs_lt := by
    intro i h r hr
    have hi : i < s.objects.size := by simpa using h
    rw [Array.getElem_mapIdx] at hr
    split at hr
    · exact s.refs_lt i hi r (refs_stripObj r hr)
    · exact s.refs_lt i hi r hr

/-- The nodes that an object holds in its fields. -/
def Child (s : Store) (o : Obj) (c : Ref) : Prop :=
  .ref c ∈ o.fieldAtoms ∧ s.isNode (.ref c) = true

/-- The objects that stripping enters once it has entered an object: the object itself, and what it
enters from the nodes that the object still holds. -/
inductive Entered (s : Store) (names : List String) : Ref → Ref → Prop where
  | self (r : Ref) : Entered s names r r
  | step {r c q : Ref} {o : Obj} (ho : s.obj? r = some o) (hc : s.Child (s.stripObj names o) c)
      (hq : Entered s names c q) : Entered s names r q

/-- The objects that stripping enters from some values. -/
def enteredFrom (s : Store) (names : List String) (atoms : List Atom) : Set Ref :=
  {q | ∃ c, .ref c ∈ atoms ∧ s.isNode (.ref c) = true ∧ s.Entered names c q}

/-- The objects that stripping enters below a value, which is not entered itself. -/
def enteredBelow (s : Store) (names : List String) (a : Atom) : Set Ref :=
  {q | ∃ r o, a = .ref r ∧ s.obj? r = some o ∧ q ∈ s.enteredFrom names o.fieldAtoms}

/-! ### The filter on objects -/

/-- The text test of a tree is a test of the stored attribute. -/
theorem isText_get_tree (a : Atom) (name text : String) :
    ((s.tree a).get name).isText text = (s.attr? a name == some (.atom (.str text))) := by
  unfold Tree.get
  rw [attr?_tree]
  cases s.attr? a name with
  | none => rfl
  | some v =>
    cases v with
    | items values => rfl
    | atom value =>
      rw [Option.map_some, Option.getD_some]
      show (s.tree value).isText text = _
      have hwritten := s.writtenAs_tree value
      generalize s.tree value = t at hwritten ⊢
      cases hwritten with
      | str value =>
        rw [Bool.eq_iff_iff]
        simp [Tree.isText]
      | _ => simp [Tree.isText]

theorem hasType_tree (a : Atom) (type : String) :
    (s.tree a).hasType type = (s.attr? a "type" == some (.atom (.str type))) :=
  isText_get_tree a "type" type

/-- The written-out entry binds a name exactly if the stored one does. -/
theorem bindsAny_tree (entry : Atom) : (s.tree entry).bindsAny names = s.binds names entry := by
  unfold Tree.bindsAny binds
  rw [hasType_tree]
  congr 1
  unfold Tree.get
  rw [attr?_tree]
  cases s.attr? entry "value" with
  | none => simp [Tree.isIdentifierNamed, Tree.hasType, Tree.get, Tree.attr?, Tree.isText]
  | some v =>
    cases v with
    | items values =>
      simp [Value.toTree, Tree.isIdentifierNamed, Tree.hasType, Tree.get, Tree.attr?, Tree.isText]
    | atom value =>
      simp only [Option.map_some, Option.getD_some, Value.toTree, Tree.isIdentifierNamed,
        hasType_tree, isText_get_tree]
      cases s.attr? value "type" == some (.atom (.str "Identifier")) <;> simp

/-- What binds one of some names binds one of more names. -/
theorem binds_mono {others : List String} (h : ∀ name ∈ others, name ∈ names) {entry : Atom}
    (hbinds : s.binds others entry = true) : s.binds names entry = true := by
  rw [← bindsAny_tree] at hbinds ⊢
  obtain ⟨htype, hvalue⟩ := (Bool.and_eq_true _ _).mp hbinds
  obtain ⟨name, hname, hvalue⟩ := List.any_eq_true.mp hvalue
  exact (Bool.and_eq_true _ _).mpr ⟨htype, List.any_eq_true.mpr ⟨name, h name hname, hvalue⟩⟩

/-- A stripped object is still the same kind of object. -/
theorem stripObj_record (s : Store) (names : List String) (shape : Shape)
    (attributes : List (String × Value)) :
    ∃ attributes', s.stripObj names (.record shape attributes) = .record shape attributes' := by
  unfold stripObj
  split
  · exact ⟨_, rfl⟩
  · exact ⟨attributes, rfl⟩

theorem stripObj_sequence (values : List Atom) :
    s.stripObj names (.sequence values) = .sequence values := by
  unfold stripObj
  split <;> rfl

/-- Stripping touches the entries of an object pattern and no other attribute. -/
theorem attr?_stripObj_of_ne (o : Obj) {name : String} (h : name ≠ "properties") :
    (s.stripObj names o).attr? name = o.attr? name := by
  unfold stripObj
  split
  · exact o.attr?_mapAttr_of_ne _ h
  · rfl

theorem isPattern_stripObj (o : Obj) : (s.stripObj names o).isPattern = o.isPattern := by
  unfold Obj.isPattern
  rw [attr?_stripObj_of_ne o (by decide)]

theorem stripObj_of_not_isPattern {o : Obj} (h : o.isPattern = false) :
    s.stripObj names o = o := by
  unfold stripObj
  rw [h]
  rfl

/-! ### The store with some objects stripped -/

open Classical in
theorem obj?_stripIn (X : Set Ref) (r : Ref) :
    (s.stripIn names X).obj? r =
      (s.obj? r).map fun o => if r ∈ X then s.stripObj names o else o := by
  unfold obj? stripIn
  rw [Array.getElem?_mapIdx]

theorem obj?_stripIn_of_mem {X : Set Ref} {r : Ref} (h : r ∈ X) :
    (s.stripIn names X).obj? r = (s.obj? r).map (s.stripObj names) := by
  rw [obj?_stripIn]
  simp only [h, if_true]

theorem obj?_stripIn_of_not_mem {X : Set Ref} {r : Ref} (h : r ∉ X) :
    (s.stripIn names X).obj? r = s.obj? r := by
  rw [obj?_stripIn]
  simp only [h, if_false, Option.map_id']

/-- Without any objects to strip the store is as it was. -/
theorem stripIn_empty : s.stripIn names ∅ = s :=
  ext_obj? fun r => obj?_stripIn_of_not_mem (Set.notMem_empty r)

@[simp] theorem size_stripIn (X : Set Ref) : (s.stripIn names X).size = s.size := by
  simp [size, stripIn]

/-- An attribute other than the entries of patterns is as it was. -/
theorem attr?_stripIn_of_ne (X : Set Ref) (a : Atom) {name : String} (h : name ≠ "properties") :
    (s.stripIn names X).attr? a name = s.attr? a name := by
  cases a with
  | ref r =>
    unfold attr?
    dsimp only
    rw [obj?_stripIn]
    cases s.obj? r with
    | none => rfl
    | some o =>
      simp only [Option.map_some, Option.bind_some]
      split
      · exact attr?_stripObj_of_ne o h
      · rfl
  | _ => rfl

/-- Objects keep their shapes. -/
theorem shape?_stripIn (X : Set Ref) (a : Atom) :
    (s.stripIn names X).shape? a = s.shape? a := by
  cases a with
  | ref r =>
    unfold shape?
    dsimp only
    rw [obj?_stripIn]
    cases s.obj? r with
    | none => rfl
    | some o =>
      simp only [Option.map_some]
      cases o with
      | sequence values =>
        rw [stripObj_sequence, ite_self]
      | record shape attributes =>
        obtain ⟨attributes', h⟩ := stripObj_record s names shape attributes
        rw [h]
        by_cases hr : r ∈ X <;> simp [hr]
  | _ => rfl

theorem isNode_stripIn (X : Set Ref) (a : Atom) :
    (s.stripIn names X).isNode a = s.isNode a := by
  unfold isNode
  rw [shape?_stripIn]

/-! ### What is entered -/

/-- What is entered comes no later than where it is entered from. -/
theorem Entered.index_le {r q : Ref} (h : s.Entered names r q) : q.index ≤ r.index := by
  induction h with
  | self r => exact le_rfl
  | @step r c q o ho hc _ ih =>
    have hrefs : c ∈ o.refs := refs_stripObj c (Obj.mem_refs.mpr (Obj.fieldAtoms_subset hc.1))
    exact le_trans ih (le_of_lt (refs_index_lt ho hrefs))

end Store

end NamedExports
