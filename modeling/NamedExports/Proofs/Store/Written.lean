import Mathlib.Data.Set.Basic
import Mathlib.Logic.Relation
import NamedExports.Node.Store

/-!
# Objects and the trees they are written out as

`Store.tree` writes a value out with a bound on the depth.  This file removes the bound: an object
is written out as a node whose attributes are the written-out attributes (`tree_ref`), and a
reader of the tree sees exactly what the store holds (`attr?_tree`).

`Store.Reaches` is the relation "hangs below or is" between objects.  What a value is written out
as depends on the objects that it reaches and on no others (`tree_congr`), which is the frame rule
of everything that changes a store in place.
-/

namespace NamedExports

/-! ### Attribute lists -/

/-- Looking up in a list whose values are mapped, each in a way that depends on its name, is mapping
what is looked up. -/
theorem lookup_map {α β : Type} (f : String → α → β) (name : String) (l : List (String × α)) :
    (l.map fun a => (a.1, f a.1 a.2)).lookup name = (l.lookup name).map (f name) := by
  induction l with
  | nil => rfl
  | cons a l ih =>
    rw [List.map_cons, List.lookup_cons, List.lookup_cons]
    cases ha : name == a.1 with
    | true =>
      have hname : name = a.1 := by simpa using ha
      rw [hname]
      rfl
    | false => exact ih

theorem lookup_map_snd {α β : Type} (f : α → β) (name : String) (l : List (String × α)) :
    (l.map fun a => (a.1, f a.2)).lookup name = (l.lookup name).map f :=
  lookup_map (fun _ => f) name l

/-- A list with an entry of a name has one to look up. -/
theorem exists_lookup_of_mem {α : Type} {name : String} {l : List (String × α)}
    (h : name ∈ l.map Prod.fst) : ∃ value, l.lookup name = some value := by
  induction l with
  | nil => simp at h
  | cons a l ih =>
    rw [List.lookup_cons]
    cases ha : name == a.1 with
    | true => exact ⟨a.2, rfl⟩
    | false =>
      have hne : name ≠ a.1 := by simpa using ha
      rw [List.map_cons, List.mem_cons] at h
      exact ih (h.resolve_left hne)

/-- What is looked up stands in the list. -/
theorem mem_of_lookup {α : Type} {name : String} {value : α} {l : List (String × α)}
    (h : l.lookup name = some value) : (name, value) ∈ l := by
  induction l with
  | nil => simp at h
  | cons a l ih =>
    rw [List.lookup_cons] at h
    cases ha : name == a.1 with
    | true =>
      rw [ha] at h
      have hname : name = a.1 := by simpa using ha
      have hvalue : a.2 = value := Option.some.inj h
      subst hname hvalue
      exact List.mem_cons_self
    | false =>
      rw [ha] at h
      exact List.mem_cons_of_mem _ (ih h)

/-- Where the names of a list differ, each entry is the one that is looked up. -/
theorem lookup_of_mem {α : Type} {name : String} {value : α} {l : List (String × α)}
    (hnodup : (l.map Prod.fst).Nodup) (h : (name, value) ∈ l) : l.lookup name = some value := by
  induction l with
  | nil => simp at h
  | cons a l ih =>
    rw [List.map_cons, List.nodup_cons] at hnodup
    rw [List.lookup_cons]
    rcases List.mem_cons.mp h with rfl | hmem
    · simp
    · have hne : name ≠ a.1 := by
        rintro rfl
        exact hnodup.1 (List.mem_map.mpr ⟨_, hmem, rfl⟩)
      have hbeq : (name == a.1) = false := by simpa using hne
      rw [hbeq]
      exact ih hnodup.2 hmem

/-! ### The single values of attributes and objects -/

/-- The single values that an attribute holds. -/
def Value.atoms : Value → List Atom
  | atom value => [value]
  | items values => values

/-- The single values that an object holds, in the order of its attributes. -/
def Obj.atoms : Obj → List Atom
  | record _ attributes => attributes.flatMap fun a => a.2.atoms
  | sequence values => values

/-- The references of an attribute are those of its single values. -/
theorem Value.refs_eq (v : Value) : v.refs = v.atoms.flatMap Atom.refs := by
  cases v with
  | atom value => simp [refs, atoms]
  | items values => rfl

/-- The references of an object are those of its single values. -/
theorem Obj.refs_eq (o : Obj) : o.refs = o.atoms.flatMap Atom.refs := by
  cases o with
  | sequence values => rfl
  | record shape attributes =>
    unfold refs atoms
    rw [List.flatMap_assoc]
    exact congrArg (attributes.flatMap ·) (funext fun a => a.2.refs_eq)

@[simp] theorem Atom.mem_refs {a : Atom} {r : Ref} : r ∈ a.refs ↔ a = .ref r := by
  cases a <;> simp [refs, eq_comm]

/-- An object refers to what is one of its single values. -/
theorem Obj.mem_refs {o : Obj} {r : Ref} : r ∈ o.refs ↔ Atom.ref r ∈ o.atoms := by
  rw [refs_eq, List.mem_flatMap]
  constructor
  · rintro ⟨a, ha, hr⟩
    exact Atom.mem_refs.mp hr ▸ ha
  · intro h
    exact ⟨.ref r, h, by simp⟩

/-- The single values of one attribute are among those of the object. -/
theorem Obj.atoms_subset_of_attr? {o : Obj} {name : String} {v : Value}
    (h : o.attr? name = some v) : v.atoms ⊆ o.atoms := by
  cases o with
  | sequence values => simp [attr?] at h
  | record shape attributes =>
    intro a ha
    exact List.mem_flatMap.mpr ⟨(name, v), mem_of_lookup h, ha⟩

/-- The references of a single value of an object are references of the object. -/
theorem Obj.mem_refs_of_mem_atoms {o : Obj} {a : Atom} {r : Ref} (ha : a ∈ o.atoms)
    (hr : r ∈ a.refs) : r ∈ o.refs := by
  rw [mem_refs]
  exact Atom.mem_refs.mp hr ▸ ha

/-! ### Trees of attributes and objects -/

/-- What an attribute is written out as, given what its single values are written out as. -/
def Value.toTree (f : Atom → Tree) : Value → Tree
  | atom value => f value
  | items values => .list (values.map f)

/-- What an object is written out as, given what its single values are written out as. -/
def Obj.toTree (f : Atom → Tree) : Obj → Tree
  | record shape attributes => .node shape (attributes.map fun a => (a.1, a.2.toTree f))
  | sequence values => .list (values.map f)

theorem Value.toTree_congr {f g : Atom → Tree} {v : Value} (h : ∀ a ∈ v.atoms, f a = g a) :
    v.toTree f = v.toTree g := by
  cases v with
  | atom value => exact h value (by simp [atoms])
  | items values => exact congrArg Tree.list (List.map_congr_left h)

theorem Obj.toTree_congr {f g : Atom → Tree} {o : Obj} (h : ∀ a ∈ o.atoms, f a = g a) :
    o.toTree f = o.toTree g := by
  cases o with
  | sequence values => exact congrArg Tree.list (List.map_congr_left h)
  | record shape attributes =>
    refine congrArg (Tree.node shape) (List.map_congr_left fun a ha => ?_)
    rw [Value.toTree_congr fun b hb => h b (List.mem_flatMap.mpr ⟨a, ha, hb⟩)]

/-- The tree of an object has the attributes of the object. -/
theorem Obj.attr?_toTree (o : Obj) (f : Atom → Tree) (name : String) :
    (o.toTree f).attr? name = (o.attr? name).map (Value.toTree f) := by
  cases o with
  | sequence values => rfl
  | record shape attributes => exact lookup_map_snd (Value.toTree f) name attributes

/-! ### Changed attributes -/

/-- A changed attribute is the change of the attribute. -/
theorem Obj.attr?_mapAttr_self (o : Obj) (name : String) (f : Value → Value) :
    (o.mapAttr name f).attr? name = (o.attr? name).map f := by
  cases o with
  | sequence values => rfl
  | record shape attributes =>
    unfold mapAttr attr?
    dsimp only
    induction attributes with
    | nil => rfl
    | cons a l ih =>
      rw [List.map_cons, List.lookup_cons, List.lookup_cons]
      by_cases h : a.1 = name
      · simp [h]
      · have hbeq : (name == a.1) = false := by simpa using Ne.symm h
        rw [if_neg h, hbeq]
        exact ih

/-- A change of one attribute leaves the others. -/
theorem Obj.attr?_mapAttr_of_ne (o : Obj) {name other : String} (f : Value → Value)
    (h : other ≠ name) : (o.mapAttr name f).attr? other = o.attr? other := by
  cases o with
  | sequence values => rfl
  | record shape attributes =>
    unfold mapAttr attr?
    dsimp only
    induction attributes with
    | nil => rfl
    | cons a l ih =>
      rw [List.map_cons, List.lookup_cons, List.lookup_cons]
      by_cases ha : a.1 = name
      · have hbeq : (other == a.1) = false := by simpa [ha] using h
        rw [if_pos ha, hbeq]
        exact ih
      · rw [if_neg ha]
        cases other == a.1 with
        | true => rfl
        | false => exact ih

namespace Store

variable {s s' : Store}

/-! ### Looking objects up -/

/-- An object refers to earlier ones only. -/
theorem refs_index_lt {r q : Ref} {o : Obj} (h : s.obj? r = some o) (hq : q ∈ o.refs) :
    q.index < r.index := by
  obtain ⟨hr, ho⟩ := Array.getElem?_eq_some_iff.mp h
  exact s.refs_lt r.index hr q (ho ▸ hq)

/-- An object has its place among all objects. -/
theorem index_lt_size {r : Ref} {o : Obj} (h : s.obj? r = some o) : r.index < s.size :=
  (Array.getElem?_eq_some_iff.mp h).1

/-- Two stores with the same objects are the same. -/
theorem ext_obj? (h : ∀ r, s.obj? r = s'.obj? r) : s = s' := by
  obtain ⟨objects, hlt⟩ := s
  obtain ⟨objects', hlt'⟩ := s'
  have hobjects : objects = objects' := Array.ext_getElem? fun i => h ⟨i⟩
  subst hobjects
  rfl

/-- The attribute of an object. -/
theorem attr?_ref {r : Ref} {o : Obj} (h : s.obj? r = some o) (name : String) :
    s.attr? (.ref r) name = o.attr? name := by
  unfold attr?
  dsimp only
  rw [h]
  rfl

/-- What has an attribute is an object. -/
theorem exists_obj_of_attr? {a : Atom} {name : String} {v : Value} (h : s.attr? a name = some v) :
    ∃ r o, a = .ref r ∧ s.obj? r = some o ∧ o.attr? name = some v := by
  cases a with
  | ref r =>
    cases ho : s.obj? r with
    | none => simp [attr?, ho] at h
    | some o => exact ⟨r, o, rfl, ho, attr?_ref ho name ▸ h⟩
  | _ => simp [attr?] at h

/-- The entries of a list are those of the attribute. -/
theorem entries_of_attr? {a : Atom} {name : String} {values : List Atom}
    (h : s.attr? a name = some (.items values)) : s.entries a name = values := by
  unfold entries
  rw [h]

/-- What has a shape is an object with attributes. -/
theorem exists_record_of_shape? {a : Atom} {shape : Shape} (h : s.shape? a = some shape) :
    ∃ r attributes, a = .ref r ∧ s.obj? r = some (.record shape attributes) := by
  cases a with
  | ref r =>
    cases ho : s.obj? r with
    | none => simp [shape?, ho] at h
    | some o =>
      cases o with
      | sequence values => simp [shape?, ho] at h
      | record shape' attributes =>
        have hshape : shape' = shape := by simpa [shape?, ho] using h
        exact ⟨r, attributes, rfl, hshape ▸ ho⟩
  | _ => simp [shape?] at h

/-- A node is an object with attributes. -/
theorem exists_record_of_isNode {a : Atom} (h : s.isNode a = true) :
    ∃ r shape attributes, a = .ref r ∧ s.obj? r = some (.record shape attributes) ∧
      shape.isNode = true := by
  unfold isNode at h
  cases hs : s.shape? a with
  | none => rw [hs] at h; simp at h
  | some shape =>
    rw [hs] at h
    obtain ⟨r, attributes, rfl, ho⟩ := exists_record_of_shape? hs
    exact ⟨r, shape, attributes, rfl, ho, h⟩

theorem shape?_ref {r : Ref} {shape : Shape} {attributes : List (String × Value)}
    (h : s.obj? r = some (.record shape attributes)) : s.shape? (.ref r) = some shape := by
  simp [shape?, h]

theorem isNode_ref {r : Ref} {shape : Shape} {attributes : List (String × Value)}
    (h : s.obj? r = some (.record shape attributes)) : s.isNode (.ref r) = shape.isNode := by
  simp [isNode, shape?_ref h]

/-! ### Reachable objects -/

/-- One object holds a reference to another. -/
def Holds (s : Store) (r q : Ref) : Prop :=
  ∃ o, s.obj? r = some o ∧ q ∈ o.refs

/-- One object is, or hangs below, another. -/
def Reaches (s : Store) : Ref → Ref → Prop :=
  Relation.ReflTransGen s.Holds

/-- The objects that hang below a value, with the value itself if it is one. -/
def region (s : Store) (a : Atom) : Set Ref :=
  {q | ∃ r, a = .ref r ∧ s.Reaches r q}

/-- What hangs below an object comes earlier. -/
theorem Reaches.index_le {r q : Ref} (h : s.Reaches r q) : q.index ≤ r.index := by
  induction h with
  | refl => exact le_rfl
  | tail _ hstep ih =>
    obtain ⟨o, ho, hq⟩ := hstep
    exact le_trans (le_of_lt (refs_index_lt ho hq)) ih

theorem mem_region_ref {r q : Ref} : q ∈ s.region (.ref r) ↔ s.Reaches r q := by
  constructor
  · rintro ⟨r', hr', h⟩
    cases hr'
    exact h
  · intro h
    exact ⟨r, rfl, h⟩

/-- The object itself belongs to its region. -/
theorem self_mem_region (r : Ref) : r ∈ s.region (.ref r) :=
  mem_region_ref.mpr .refl

/-- The region of a value that an object holds is part of the region of the object. -/
theorem region_subset {r : Ref} {o : Obj} {a : Atom} (h : s.obj? r = some o) (ha : a ∈ o.atoms) :
    s.region a ⊆ s.region (.ref r) := by
  rintro q ⟨t, rfl, hq⟩
  exact mem_region_ref.mpr (.head ⟨o, h, Obj.mem_refs.mpr ha⟩ hq)

/-- An object does not belong to the region of a value that it holds. -/
theorem not_mem_region {r : Ref} {o : Obj} {a : Atom} (h : s.obj? r = some o) (ha : a ∈ o.atoms) :
    r ∉ s.region a := by
  rintro ⟨t, rfl, hq⟩
  have hlt : t.index < r.index := refs_index_lt h (Obj.mem_refs.mpr ha)
  exact absurd hq.index_le (Nat.not_le.mpr hlt)

/-- A region lies at one object and in the regions of what the object holds. -/
theorem mem_region_iff {r q : Ref} {o : Obj} (h : s.obj? r = some o) :
    q ∈ s.region (.ref r) ↔ q = r ∨ ∃ a ∈ o.atoms, q ∈ s.region a := by
  rw [mem_region_ref]
  constructor
  · intro hq
    rcases Relation.ReflTransGen.cases_head hq with rfl | ⟨t, ⟨o', ho', ht⟩, htq⟩
    · exact Or.inl rfl
    · rw [h] at ho'
      cases ho'
      exact Or.inr ⟨.ref t, Obj.mem_refs.mp ht, mem_region_ref.mpr htq⟩
  · rintro (rfl | ⟨a, ha, hq⟩)
    · exact .refl
    · exact mem_region_ref.mp (region_subset h ha hq)

/-- A property that an object has if all that it holds has it is one of all values, since what an
object holds comes before the object. -/
theorem atom_induction (s : Store) {P : Atom → Prop} (plain : ∀ a, a.refs = [] → P a)
    (ref : ∀ r, (∀ o, s.obj? r = some o → ∀ b ∈ o.atoms, P b) → P (.ref r)) (a : Atom) : P a := by
  cases a with
  | ref r =>
    induction hn : r.index using Nat.strong_induction_on generalizing r with
    | _ n ih =>
      subst hn
      refine ref r fun o ho b hb => ?_
      cases b with
      | ref q => exact ih q.index (refs_index_lt ho (Obj.mem_refs.mpr hb)) q rfl
      | _ => exact plain _ rfl
  | _ => exact plain _ rfl

/-! ### Writing out without a bound -/

/-- One more step of depth writes out one object. -/
theorem writeOut_succ_ref (d : ℕ) (r : Ref) :
    s.writeOut (d + 1) (.ref r) = ((s.obj? r).map (Obj.toTree (s.writeOut d))).getD .null := by
  conv_lhs => unfold writeOut
  cases s.obj? r with
  | none => rfl
  | some o =>
    cases o with
    | sequence values => rfl
    | record shape attributes =>
      refine congrArg (Tree.node shape) (List.map_congr_left fun a _ => ?_)
      obtain ⟨name, v⟩ := a
      cases v <;> rfl

/-- The depth does not matter as long as it exceeds the place of the object. -/
theorem writeOut_eq {d d' : ℕ} {a : Atom} (h : ∀ r ∈ a.refs, r.index < d)
    (h' : ∀ r ∈ a.refs, r.index < d') : s.writeOut d a = s.writeOut d' a := by
  induction d generalizing d' a with
  | zero =>
    cases a with
    | ref r => exact absurd (h r (by simp)) (Nat.not_lt_zero _)
    | _ => cases d' <;> simp only [writeOut]
  | succ d ih =>
    cases a with
    | ref r =>
      cases d' with
      | zero => exact absurd (h' r (by simp)) (Nat.not_lt_zero _)
      | succ d' =>
        have hr : r.index < d + 1 := h r (by simp)
        have hr' : r.index < d' + 1 := h' r (by simp)
        rw [writeOut_succ_ref, writeOut_succ_ref]
        cases ho : s.obj? r with
        | none => rfl
        | some o =>
          refine Obj.toTree_congr fun a ha => ih (fun q hq => ?_) (fun q hq => ?_) <;>
          · have := refs_index_lt ho (Obj.mem_refs_of_mem_atoms ha hq)
            omega
    | _ => cases d' <;> simp only [writeOut]

@[simp] theorem tree_null : s.tree .null = .null := by
  unfold tree
  cases s.size <;> simp only [writeOut]

@[simp] theorem tree_bool (b : Bool) : s.tree (.bool b) = .bool b := by
  unfold tree
  cases s.size <;> simp only [writeOut]

@[simp] theorem tree_int (n : Int) : s.tree (.int n) = .int n := by
  unfold tree
  cases s.size <;> simp only [writeOut]

@[simp] theorem tree_str (text : String) : s.tree (.str text) = .str text := by
  unfold tree
  cases s.size <;> simp only [writeOut]

/-- An object is written out as what it holds is written out. -/
theorem tree_ref {r : Ref} {o : Obj} (h : s.obj? r = some o) :
    s.tree (.ref r) = o.toTree s.tree := by
  have hr : r.index < s.size := index_lt_size h
  obtain ⟨d, hd⟩ : ∃ d, s.size = d + 1 := Nat.exists_eq_succ_of_ne_zero (Nat.ne_zero_of_lt hr)
  conv_lhs => unfold tree; rw [hd]
  rw [writeOut_succ_ref, h]
  refine Obj.toTree_congr fun a ha => writeOut_eq (fun q hq => ?_) (fun q hq => ?_) <;>
  · have := refs_index_lt h (Obj.mem_refs_of_mem_atoms ha hq)
    omega

/-- A reference that leads to no object is written out as null. -/
theorem tree_of_obj?_eq_none {r : Ref} (h : s.obj? r = none) : s.tree (.ref r) = .null := by
  unfold tree
  cases s.size with
  | zero => simp only [writeOut]
  | succ d =>
    rw [writeOut_succ_ref, h]
    rfl

/-- What a value is written out as, by what the value is. -/
inductive WrittenAs (s : Store) : Atom → Tree → Prop where
  | null : WrittenAs s .null .null
  | bool (value : Bool) : WrittenAs s (.bool value) (.bool value)
  | int (value : Int) : WrittenAs s (.int value) (.int value)
  | str (text : String) : WrittenAs s (.str text) (.str text)
  | missing {r : Ref} (hobj : s.obj? r = none) : WrittenAs s (.ref r) .null
  | sequence {r : Ref} {values : List Atom} (hobj : s.obj? r = some (.sequence values)) :
      WrittenAs s (.ref r) (.list (values.map s.tree))
  | record {r : Ref} {shape : Shape} {attributes : List (String × Value)}
      (hobj : s.obj? r = some (.record shape attributes)) :
      WrittenAs s (.ref r) (.node shape (attributes.map fun b => (b.1, b.2.toTree s.tree)))

theorem writtenAs_tree (a : Atom) : s.WrittenAs a (s.tree a) := by
  cases a with
  | null => rw [tree_null]; exact .null
  | bool value => rw [tree_bool]; exact .bool value
  | int value => rw [tree_int]; exact .int value
  | str text => rw [tree_str]; exact .str text
  | ref r =>
    cases ho : s.obj? r with
    | none =>
      rw [tree_of_obj?_eq_none ho]
      exact .missing ho
    | some o =>
      rw [tree_ref ho]
      cases o with
      | sequence values => exact .sequence ho
      | record shape attributes => exact .record ho

theorem writtenAs_of_tree {a : Atom} {t : Tree} (h : s.tree a = t) : s.WrittenAs a t :=
  h ▸ s.writtenAs_tree a

/-- What is written out as a text is the text. -/
theorem eq_str_of_tree {a : Atom} {text : String} (h : s.tree a = .str text) : a = .str text := by
  cases writtenAs_of_tree h with
  | str => rfl

/-- What is written out as a number is the number. -/
theorem eq_int_of_tree {a : Atom} {n : Int} (h : s.tree a = .int n) : a = .int n := by
  cases writtenAs_of_tree h with
  | int => rfl

/-- What is written out as a list is an object that is a list. -/
theorem exists_sequence_of_tree {a : Atom} {ts : List Tree} (h : s.tree a = .list ts) :
    ∃ r values, a = .ref r ∧ s.obj? r = some (.sequence values) ∧ ts = values.map s.tree := by
  cases writtenAs_of_tree h with
  | sequence hobj => exact ⟨_, _, rfl, hobj, rfl⟩

/-- What is written out as a node is an object with attributes. -/
theorem exists_record_of_tree {a : Atom} {shape : Shape} {attributes : List (String × Tree)}
    (h : s.tree a = .node shape attributes) : ∃ r held, a = .ref r ∧
      s.obj? r = some (.record shape held) ∧
      attributes = held.map fun b => (b.1, b.2.toTree s.tree) := by
  cases writtenAs_of_tree h with
  | record hobj => exact ⟨_, _, rfl, hobj, rfl⟩

/-- A tree has the attributes that the object has, written out. -/
theorem attr?_tree (a : Atom) (name : String) :
    (s.tree a).attr? name = (s.attr? a name).map (Value.toTree s.tree) := by
  cases a with
  | ref r =>
    cases ho : s.obj? r with
    | none => simp [tree_of_obj?_eq_none ho, Tree.attr?, attr?, ho]
    | some o =>
      rw [attr?_ref ho, tree_ref ho]
      exact o.attr?_toTree s.tree name
  | _ => simp [Tree.attr?, attr?]

/-! ### The frame rule -/

/-- A value is written out alike in two stores that agree on what it reaches. -/
theorem tree_congr {a : Atom} (h : ∀ q ∈ s.region a, s'.obj? q = s.obj? q) :
    s'.tree a = s.tree a := by
  induction a using s.atom_induction with
  | plain a hplain =>
    cases a with
    | ref r => cases hplain
    | _ => simp
  | ref r ih =>
    have hr : s'.obj? r = s.obj? r := h r (self_mem_region r)
    cases ho : s.obj? r with
    | none => rw [tree_of_obj?_eq_none ho, tree_of_obj?_eq_none (hr.trans ho)]
    | some o =>
      rw [tree_ref ho, tree_ref (hr.trans ho)]
      exact Obj.toTree_congr fun b hb => ih o ho b hb fun t ht => h t (region_subset ho hb ht)

end Store

end NamedExports
