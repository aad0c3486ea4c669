import Mathlib.Data.List.Nodup
import NamedExports.Proofs.Store.WellFormed

/-!
# Trees with identities

A labelled tree is a tree in which every object carries its reference.  A store has a labelled tree
if it has all objects of it (`Store.Has`); then what the tree starts with is written out as the tree
(`Store.Has.tree_atom`).  Whatever hangs below a value of a store is such a tree
(`Store.exists_has`); no object hangs in two places of it if its references differ.
-/

namespace NamedExports

/-- What an attribute holds: one thing or a list of things. -/
inductive Held (α : Type) where
  | one (value : α)
  | many (values : List α)

/-- The things that an attribute holds. -/
def Held.toList {α : Type} : Held α → List α
  | one value => [value]
  | many values => values

/-- A tree in which every object carries its reference. -/
inductive Labelled where
  /-- A value that is no object. -/
  | value (a : Atom) (plain : a.refs = [])
  /-- A list that is itself an object. -/
  | sequence (object : Ref) (items : List Labelled)
  /-- An object with attributes. -/
  | record (object : Ref) (shape : Shape) (attributes : List (String × Held Labelled))

/-- A value that is no object, written out. -/
def Atom.toTree : Atom → Tree
  | null => .null
  | bool value => .bool value
  | int value => .int value
  | str value => .str value
  | ref _ => .null

namespace Labelled

/-- No value at all. -/
def null : Labelled :=
  .value .null rfl

/-- The value that a tree starts with. -/
def atom : Labelled → Atom
  | value a _ => a
  | sequence r _ => .ref r
  | record r _ _ => .ref r

/-- Whether a tree starts with a node. -/
def isNode : Labelled → Bool
  | record _ shape _ => shape.isNode
  | _ => false

/-- What an attribute holds in a store. -/
def toValue : Held Labelled → Value
  | .one t => .atom t.atom
  | .many ts => .items (ts.map atom)

/-- An object with the given attributes, as it is in a store. -/
def toObj (shape : Shape) (attributes : List (String × Held Labelled)) : Obj :=
  .record shape (attributes.map fun a => (a.1, toValue a.2))

mutual

/-- A tree without the references. -/
def toTree : Labelled → Tree
  | value a _ => a.toTree
  | sequence _ items => .list (toTrees items)
  | record _ shape attributes => .node shape (toAttributes attributes)

/-- Some trees without the references. -/
def toTrees : List Labelled → List Tree
  | [] => []
  | t :: ts => toTree t :: toTrees ts

/-- The attributes of an object without the references. -/
def toAttributes : List (String × Held Labelled) → List (String × Tree)
  | [] => []
  | (name, .one t) :: rest => (name, toTree t) :: toAttributes rest
  | (name, .many ts) :: rest => (name, .list (toTrees ts)) :: toAttributes rest

end

mutual

/-- The objects of a tree, each before those that hang below it. -/
def objects : Labelled → List (Ref × Obj)
  | value _ _ => []
  | sequence r items => (r, .sequence (items.map atom)) :: objectsOfItems items
  | record r shape attributes => (r, toObj shape attributes) :: objectsOfAttributes attributes

/-- The objects of some trees. -/
def objectsOfItems : List Labelled → List (Ref × Obj)
  | [] => []
  | t :: ts => objects t ++ objectsOfItems ts

/-- The objects below the attributes of an object. -/
def objectsOfAttributes : List (String × Held Labelled) → List (Ref × Obj)
  | [] => []
  | (_, .one t) :: rest => objects t ++ objectsOfAttributes rest
  | (_, .many ts) :: rest => objectsOfItems ts ++ objectsOfAttributes rest

end

/-- The references of the objects of a tree. -/
def refs (t : Labelled) : List Ref :=
  t.objects.map Prod.fst

theorem toTrees_eq (ts : List Labelled) : toTrees ts = ts.map toTree := by
  induction ts with
  | nil => rfl
  | cons t ts ih => rw [toTrees, ih, List.map_cons]

/-- What an attribute holds, without the references. -/
def heldTree : Held Labelled → Tree
  | .one t => t.toTree
  | .many ts => .list (ts.map toTree)

theorem toAttributes_eq (attributes : List (String × Held Labelled)) :
    toAttributes attributes = attributes.map fun a => (a.1, heldTree a.2) := by
  induction attributes with
  | nil => rfl
  | cons a rest ih =>
    obtain ⟨name, t | ts⟩ := a
    · rw [toAttributes, ih]
      rfl
    · rw [toAttributes, ih, toTrees_eq]
      rfl

theorem objectsOfItems_eq (ts : List Labelled) : objectsOfItems ts = ts.flatMap objects := by
  induction ts with
  | nil => rfl
  | cons t ts ih => rw [objectsOfItems, ih, List.flatMap_cons]

theorem objectsOfAttributes_eq (attributes : List (String × Held Labelled)) :
    objectsOfAttributes attributes = attributes.flatMap fun a => a.2.toList.flatMap objects := by
  induction attributes with
  | nil => rfl
  | cons a rest ih =>
    obtain ⟨name, t | ts⟩ := a
    · rw [objectsOfAttributes, ih, List.flatMap_cons]
      simp [Held.toList]
    · rw [objectsOfAttributes, ih, List.flatMap_cons, objectsOfItems_eq]
      rfl

theorem refs_record (r : Ref) (shape : Shape) (attributes : List (String × Held Labelled)) :
    (record r shape attributes).refs =
      r :: attributes.flatMap fun a => a.2.toList.flatMap refs := by
  unfold refs
  rw [objects, objectsOfAttributes_eq, List.map_cons, List.map_flatMap]
  simp only [List.map_flatMap]

theorem refs_sequence (r : Ref) (items : List Labelled) :
    (sequence r items).refs = r :: items.flatMap refs := by
  unfold refs
  rw [objects, objectsOfItems_eq, List.map_cons, List.map_flatMap]

/-- What the attributes of an object hold, one after the other. -/
def parts (attributes : List (String × Held Labelled)) : List Labelled :=
  attributes.flatMap fun a => a.2.toList

theorem refs_record_eq (r : Ref) (shape : Shape) (attributes : List (String × Held Labelled)) :
    (record r shape attributes).refs = r :: (parts attributes).flatMap refs := by
  unfold parts
  rw [refs_record, List.flatMap_assoc]

/-- Where no object hangs twice, a part of an object has nothing in common with the other parts, and
no part has the object itself. -/
theorem nodup_parts {r : Ref} {as bs : List Labelled} {t : Labelled}
    (h : (r :: (as ++ t :: bs).flatMap refs).Nodup) :
    t.refs.Nodup ∧ (∀ u ∈ as ++ t :: bs, r ∉ u.refs) ∧ ∀ u ∈ as ++ bs, ∀ x ∈ u.refs, x ∉ t.refs := by
  obtain ⟨howner, hparts⟩ := List.nodup_cons.mp h
  rw [List.flatMap_append, List.flatMap_cons] at hparts
  obtain ⟨-, htail, hfirst⟩ := List.nodup_append.mp hparts
  obtain ⟨ht, -, hlast⟩ := List.nodup_append.mp htail
  refine ⟨ht, fun u hu hr => howner (List.mem_flatMap.mpr ⟨u, hu, hr⟩), fun u hu x hx hxt => ?_⟩
  rcases List.mem_append.mp hu with hu | hu
  · exact hfirst x (List.mem_flatMap.mpr ⟨u, hu, hx⟩) x (List.mem_append_left _ hxt) rfl
  · exact hlast x hxt x (List.mem_flatMap.mpr ⟨u, hu, hx⟩) rfl

/-- A tree that starts with an object has the object. -/
theorem mem_refs_of_atom {t : Labelled} {r : Ref} (h : t.atom = .ref r) : r ∈ t.refs := by
  cases t with
  | value a plain =>
    have ha : a = .ref r := h
    rw [ha] at plain
    cases plain
  | sequence q items =>
    cases h
    rw [refs_sequence]
    exact List.mem_cons_self
  | record q shape attributes =>
    cases h
    rw [refs_record]
    exact List.mem_cons_self

/-- The objects of a part of an object are objects of the whole. -/
theorem refs_subset_of_mem_parts {r : Ref} {shape : Shape}
    {attributes : List (String × Held Labelled)} {t : Labelled} (ht : t ∈ parts attributes) :
    t.refs ⊆ (record r shape attributes).refs := by
  intro x hx
  rw [refs_record_eq]
  exact List.mem_cons_of_mem _ (List.mem_flatMap.mpr ⟨t, ht, hx⟩)

/-- A tree that starts with a node. -/
theorem exists_record_of_isNode {t : Labelled} (h : t.isNode = true) :
    ∃ r shape attributes, t = record r shape attributes ∧ shape.isNode = true := by
  cases t with
  | record r shape attributes => exact ⟨r, shape, attributes, rfl, h⟩
  | _ => exact absurd h Bool.false_ne_true

/-- What an attribute holds is smaller than the attribute. -/
theorem sizeOf_lt_of_mem_toList {h : Held Labelled} {t : Labelled} (ht : t ∈ h.toList) :
    sizeOf t < sizeOf h := by
  cases h with
  | one u =>
    rw [List.mem_singleton.mp ht, Held.one.sizeOf_spec]
    omega
  | many ts =>
    have hlt := List.sizeOf_lt_of_mem (show t ∈ ts from ht)
    rw [Held.many.sizeOf_spec]
    omega

theorem sizeOf_lt_of_mem_sequence {r : Ref} {items : List Labelled} {t : Labelled}
    (ht : t ∈ items) : sizeOf t < sizeOf (sequence r items) := by
  have hlt := List.sizeOf_lt_of_mem ht
  rw [sequence.sizeOf_spec]
  omega

theorem sizeOf_lt_of_mem_record {r : Ref} {shape : Shape}
    {attributes : List (String × Held Labelled)} {a : String × Held Labelled} {t : Labelled}
    (ha : a ∈ attributes) (ht : t ∈ a.2.toList) : sizeOf t < sizeOf (record r shape attributes) := by
  obtain ⟨name, h⟩ := a
  have hpair := List.sizeOf_lt_of_mem ha
  have hheld : sizeOf t < sizeOf h := sizeOf_lt_of_mem_toList ht
  rw [Prod.mk.sizeOf_spec] at hpair
  rw [record.sizeOf_spec]
  omega

/-- A property that every tree has if its parts have it is one of all trees. -/
@[elab_as_elim, induction_eliminator]
theorem induction {P : Labelled → Prop} (value : ∀ a plain, P (value a plain))
    (sequence : ∀ r items, (∀ t ∈ items, P t) → P (sequence r items))
    (record : ∀ r shape attributes, (∀ a ∈ attributes, ∀ t ∈ a.2.toList, P t) →
      P (record r shape attributes)) (t : Labelled) : P t :=
  match t with
  | .value a plain => value a plain
  | .sequence r items => sequence r items fun t _ => induction value sequence record t
  | .record r shape attributes =>
    record r shape attributes fun _ _ t _ => induction value sequence record t
termination_by sizeOf t
decreasing_by
  · exact sizeOf_lt_of_mem_sequence ‹t ∈ items›
  · exact sizeOf_lt_of_mem_record ‹_ ∈ attributes› ‹t ∈ _›

/-! ### Complete trees -/

end Labelled

/-- A node has the attributes of its construct, whatever they hold. -/
def Obj.Complete : Obj → Prop
  | record shape attributes => shape.Admits (attributes.map Prod.fst)
  | sequence _ => True

instance (o : Obj) : Decidable o.Complete :=
  match o with
  | .record shape attributes =>
    inferInstanceAs (Decidable (shape.Admits (attributes.map Prod.fst)))
  | .sequence _ => inferInstanceAs (Decidable True)

namespace Labelled

/-- Every node of a tree has the attributes of its construct. -/
def Complete (t : Labelled) : Prop :=
  ∀ b ∈ t.objects, b.2.Complete

instance (t : Labelled) : Decidable t.Complete :=
  inferInstanceAs (Decidable (∀ b ∈ t.objects, b.2.Complete))

/-- The parts of a complete object are complete. -/
theorem Complete.record {r : Ref} {shape : Shape} {attributes : List (String × Held Labelled)}
    (h : (record r shape attributes).Complete) :
    shape.Admits (attributes.map Prod.fst) ∧ ∀ u ∈ parts attributes, u.Complete := by
  unfold Complete at h
  rw [objects, objectsOfAttributes_eq] at h
  obtain ⟨hobj, hbelow⟩ := List.forall_mem_cons.mp h
  constructor
  · have hnames : (attributes.map fun a => (a.1, toValue a.2)).map Prod.fst =
        attributes.map Prod.fst := by
      rw [List.map_map]
      rfl
    rw [← hnames]
    exact hobj
  · intro u hu b hb
    obtain ⟨a, ha, hu⟩ := List.mem_flatMap.mp hu
    exact hbelow b (List.mem_flatMap.mpr ⟨a, ha, List.mem_flatMap.mpr ⟨u, hu, hb⟩⟩)

end Labelled

/-! ### Stores that have a tree -/

namespace Store

variable {s s' : Store} {t : Labelled}

/-- A store has some objects. -/
def Contains (s : Store) (objects : List (Ref × Obj)) : Prop :=
  ∀ b ∈ objects, s.obj? b.1 = some b.2

/-- A store has all objects of a tree. -/
def Has (s : Store) (t : Labelled) : Prop :=
  s.Contains t.objects

instance (s : Store) (t : Labelled) : Decidable (s.Has t) :=
  inferInstanceAs (Decidable (∀ b ∈ t.objects, s.obj? b.1 = some b.2))

theorem Contains.mono {as bs : List (Ref × Obj)} (h : s.Contains as) (hsub : bs ⊆ as) :
    s.Contains bs :=
  fun b hb => h b (hsub hb)

/-- Objects that are the same in another store are there as well. -/
theorem Contains.of_agree {as : List (Ref × Obj)} (h : s.Contains as)
    (hsame : ∀ r ∈ as.map Prod.fst, s'.obj? r = s.obj? r) : s'.Contains as := by
  intro b hb
  rw [hsame b.1 (List.mem_map.mpr ⟨b, hb, rfl⟩), h b hb]

theorem Has.of_agree (h : s.Has t) (hsame : ∀ r ∈ t.refs, s'.obj? r = s.obj? r) : s'.Has t :=
  Contains.of_agree h hsame

theorem Has.of_mem_sequence {r : Ref} {items : List Labelled} (h : s.Has (.sequence r items))
    (ht : t ∈ items) : s.Has t := by
  refine Contains.mono h fun b hb => ?_
  rw [Labelled.objects, Labelled.objectsOfItems_eq]
  exact List.mem_cons_of_mem _ (List.mem_flatMap.mpr ⟨t, ht, hb⟩)

theorem Has.of_mem_record {r : Ref} {shape : Shape} {attributes : List (String × Held Labelled)}
    (h : s.Has (.record r shape attributes)) {a : String × Held Labelled} (ha : a ∈ attributes)
    (ht : t ∈ a.2.toList) : s.Has t := by
  refine Contains.mono h fun b hb => ?_
  rw [Labelled.objects, Labelled.objectsOfAttributes_eq]
  exact List.mem_cons_of_mem _
    (List.mem_flatMap.mpr ⟨a, ha, List.mem_flatMap.mpr ⟨t, ht, hb⟩⟩)

theorem Has.obj?_record {r : Ref} {shape : Shape} {attributes : List (String × Held Labelled)}
    (h : s.Has (.record r shape attributes)) :
    s.obj? r = some (Labelled.toObj shape attributes) :=
  h (r, Labelled.toObj shape attributes) (by rw [Labelled.objects]; exact List.mem_cons_self)

theorem Has.obj?_sequence {r : Ref} {items : List Labelled} (h : s.Has (.sequence r items)) :
    s.obj? r = some (.sequence (items.map Labelled.atom)) :=
  h (r, .sequence (items.map Labelled.atom))
    (by rw [Labelled.objects]; exact List.mem_cons_self)

/-- A store has a tree that starts with a list if it has the list and its entries. -/
theorem has_sequence_iff {r : Ref} {items : List Labelled} :
    s.Has (.sequence r items) ↔
      s.obj? r = some (.sequence (items.map Labelled.atom)) ∧ ∀ t ∈ items, s.Has t := by
  constructor
  · exact fun h => ⟨h.obj?_sequence, fun t ht => h.of_mem_sequence ht⟩
  · rintro ⟨ho, hitems⟩ b hb
    rw [Labelled.objects, Labelled.objectsOfItems_eq] at hb
    rcases List.mem_cons.mp hb with rfl | hb
    · exact ho
    · obtain ⟨t, ht, hb⟩ := List.mem_flatMap.mp hb
      exact hitems t ht b hb

/-- A store has a tree that starts with an object with attributes if it has the object and what its
attributes hold. -/
theorem has_record_iff {r : Ref} {shape : Shape} {attributes : List (String × Held Labelled)} :
    s.Has (.record r shape attributes) ↔
      s.obj? r = some (Labelled.toObj shape attributes) ∧
        ∀ t ∈ Labelled.parts attributes, s.Has t := by
  constructor
  · intro h
    refine ⟨h.obj?_record, fun t ht => ?_⟩
    obtain ⟨a, ha, ht⟩ := List.mem_flatMap.mp ht
    exact h.of_mem_record ha ht
  · rintro ⟨ho, hparts⟩ b hb
    rw [Labelled.objects, Labelled.objectsOfAttributes_eq] at hb
    rcases List.mem_cons.mp hb with rfl | hb
    · exact ho
    · obtain ⟨a, ha, hb⟩ := List.mem_flatMap.mp hb
      obtain ⟨t, ht, hb⟩ := List.mem_flatMap.mp hb
      exact hparts t (List.mem_flatMap.mpr ⟨a, ha, ht⟩) b hb

/-- What a tree that a store has starts with is written out as the tree. -/
theorem Has.tree_atom (h : s.Has t) : s.tree t.atom = t.toTree := by
  induction t with
  | value a plain =>
    rw [Labelled.atom, Labelled.toTree]
    cases a with
    | ref r => simp [Atom.refs] at plain
    | _ => simp [Atom.toTree]
  | sequence r items ih =>
    rw [Labelled.atom, Labelled.toTree, tree_ref h.obj?_sequence, Labelled.toTrees_eq]
    unfold Obj.toTree
    dsimp only
    rw [List.map_map]
    refine congrArg Tree.list (List.map_congr_left fun t ht => ih t ht (h.of_mem_sequence ht))
  | record r shape attributes ih =>
    rw [Labelled.atom, Labelled.toTree, tree_ref h.obj?_record, Labelled.toAttributes_eq]
    unfold Obj.toTree Labelled.toObj
    dsimp only
    rw [List.map_map]
    refine congrArg (Tree.node shape) (List.map_congr_left fun a ha => ?_)
    have hparts : ∀ t ∈ a.2.toList, s.tree t.atom = t.toTree := fun t ht =>
      ih a ha t ht (h.of_mem_record ha ht)
    obtain ⟨name, t | ts⟩ := a
    · exact congrArg (Prod.mk name) (hparts t (List.mem_singleton_self t))
    · refine congrArg (fun items => (name, Tree.list items)) ?_
      rw [List.map_map]
      exact List.map_congr_left hparts

theorem Has.isNode_atom (h : s.Has t) : s.isNode t.atom = t.isNode := by
  cases t with
  | value a plain =>
    cases a with
    | ref r => simp [Atom.refs] at plain
    | _ => rfl
  | sequence r items => simp [Labelled.atom, Labelled.isNode, isNode, shape?, h.obj?_sequence]
  | record r shape attributes => exact isNode_ref h.obj?_record

/-- Some values that start trees, as a list of trees. -/
theorem exists_has_list {values : List Atom} (h : ∀ a ∈ values, ∃ t : Labelled, t.atom = a ∧ s.Has t) :
    ∃ ts : List Labelled, ts.map Labelled.atom = values ∧ ∀ t ∈ ts, s.Has t := by
  induction values with
  | nil => exact ⟨[], rfl, by simp⟩
  | cons a values ih =>
    obtain ⟨t, rfl, ht⟩ := h a List.mem_cons_self
    obtain ⟨ts, rfl, hts⟩ := ih fun b hb => h b (List.mem_cons_of_mem _ hb)
    exact ⟨t :: ts, rfl, List.forall_mem_cons.mpr ⟨ht, hts⟩⟩

/-- Some attributes that hold values that start trees. -/
theorem exists_has_attributes {attributes : List (String × Value)}
    (h : ∀ a ∈ attributes, ∀ b ∈ a.2.atoms, ∃ t : Labelled, t.atom = b ∧ s.Has t) :
    ∃ held : List (String × Held Labelled),
      (held.map fun a => (a.1, Labelled.toValue a.2)) = attributes ∧
      ∀ a ∈ held, ∀ t ∈ a.2.toList, s.Has t := by
  induction attributes with
  | nil => exact ⟨[], rfl, by simp⟩
  | cons a attributes ih =>
    obtain ⟨held, rfl, hheld⟩ := ih fun b hb => h b (List.mem_cons_of_mem _ hb)
    obtain ⟨name, value | values⟩ := a
    · obtain ⟨t, rfl, ht⟩ := h _ List.mem_cons_self value (List.mem_singleton_self value)
      refine ⟨(name, .one t) :: held, rfl, List.forall_mem_cons.mpr ⟨fun u hu => ?_, hheld⟩⟩
      rw [List.mem_singleton.mp hu]
      exact ht
    · obtain ⟨ts, rfl, hts⟩ := exists_has_list (h _ List.mem_cons_self)
      exact ⟨(name, .many ts) :: held, rfl, List.forall_mem_cons.mpr ⟨hts, hheld⟩⟩

theorem exists_has_of_plain {a : Atom} (h : a.refs = []) : ∃ t : Labelled, t.atom = a ∧ s.Has t :=
  ⟨.value a h, rfl, fun b hb => by rw [Labelled.objects] at hb; exact absurd hb List.not_mem_nil⟩

/-- Whatever hangs below a value of a store is a labelled tree. -/
theorem exists_has (s : Store) {a : Atom} (ha : ∀ r ∈ a.refs, r.index < s.size) :
    ∃ t : Labelled, t.atom = a ∧ s.Has t := by
  cases a with
  | ref r =>
    have hr : r.index < s.size := ha r (by simp)
    clear ha
    induction hn : r.index using Nat.strong_induction_on generalizing r with
    | _ n ih =>
      subst hn
      obtain ⟨o, ho⟩ : ∃ o, s.obj? r = some o := ⟨_, Array.getElem?_eq_getElem hr⟩
      -- what an object holds comes before the object
      have hparts : ∀ b ∈ o.atoms, ∃ t : Labelled, t.atom = b ∧ s.Has t := by
        intro b hb
        cases b with
        | ref q =>
          have hlt : q.index < r.index := refs_index_lt ho (Obj.mem_refs.mpr hb)
          exact ih q.index hlt q (lt_trans hlt hr) rfl
        | _ => exact exists_has_of_plain rfl
      cases o with
      | sequence values =>
        obtain ⟨ts, rfl, hts⟩ := exists_has_list hparts
        exact ⟨.sequence r ts, rfl, has_sequence_iff.mpr ⟨ho, hts⟩⟩
      | record shape attributes =>
        obtain ⟨held, rfl, hheld⟩ := exists_has_attributes fun a ha b hb =>
          hparts b (List.mem_flatMap.mpr ⟨a, ha, hb⟩)
        refine ⟨.record r shape held, rfl, has_record_iff.mpr ⟨ho, fun t ht => ?_⟩⟩
        obtain ⟨a, ha, ht⟩ := List.mem_flatMap.mp ht
        exact hheld a ha t ht
  | _ => exact exists_has_of_plain rfl

end Store

end NamedExports
