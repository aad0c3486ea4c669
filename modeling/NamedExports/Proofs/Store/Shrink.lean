import Mathlib.Data.List.Flatten
import Mathlib.Data.List.Pairwise
import Mathlib.Data.List.Perm.Basic
import NamedExports.Proofs.Walk.Place

/-!
# Stores that lose values

A removal takes an entry out of a list or sets a field to null.  A store shrinks to another one if
nothing but removals lies between them (`Store.ShrinksTo`): lists have lost entries, fields have
become null, and everything else is as it was.  Where no object hangs in two places of a tree, every
object of it is held once at most (`Store.Has.unshared`), and it stays so while the store shrinks
(`Store.Unshared.shrink`).
-/

namespace NamedExports

/-! ### Losing values -/

/-- What an attribute holds has lost some of its entries, or has been set to null. -/
inductive Value.ShrinksTo : Value → Value → Prop
  | items {values left : List Atom} (h : left.Sublist values) :
      ShrinksTo (.items values) (.items left)
  | kept (a : Atom) : ShrinksTo (.atom a) (.atom a)
  | cleared (a : Atom) : ShrinksTo (.atom a) (.atom .null)

namespace Value.ShrinksTo

variable {u v w : Value}

theorem refl (v : Value) : v.ShrinksTo v := by
  cases v with
  | atom a => exact .kept a
  | items values => exact .items (.refl values)

theorem trans (h : u.ShrinksTo v) (h' : v.ShrinksTo w) : u.ShrinksTo w := by
  cases h with
  | items hsub =>
    cases h' with
    | items hsub' => exact .items (hsub'.trans hsub)
  | kept a => exact h'
  | cleared a =>
    cases h' with
    | kept => exact .cleared a
    | cleared => exact .cleared a

/-- References are lost with the values. -/
theorem refs_sublist (h : u.ShrinksTo v) : v.refs.Sublist u.refs := by
  cases h with
  | items hsub => exact hsub.flatMap Atom.refs
  | kept a => exact .refl _
  | cleared a => exact List.nil_sublist _

end Value.ShrinksTo

/-- Objects have their shapes and attributes still, some of them with less in them. -/
structure Store.ShrinksTo (s s' : Store) : Prop where
  shape?_eq : ∀ a, s'.shape? a = s.shape? a
  attr?_some : ∀ a name v, s.attr? a name = some v →
    ∃ v', s'.attr? a name = some v' ∧ v.ShrinksTo v'
  attr?_none : ∀ a name, s.attr? a name = none → s'.attr? a name = none

namespace Store.ShrinksTo

variable {s s' s'' : Store} {a b : Atom} {name list : String} {values : List Atom}

theorem refl (s : Store) : s.ShrinksTo s where
  shape?_eq _ := rfl
  attr?_some _ _ v hv := ⟨v, hv, .refl v⟩
  attr?_none _ _ hnone := hnone

theorem trans (h : s.ShrinksTo s') (h' : s'.ShrinksTo s'') : s.ShrinksTo s'' where
  shape?_eq a := (h'.shape?_eq a).trans (h.shape?_eq a)
  attr?_some a name v hv := by
    obtain ⟨v', hv', hshrinks⟩ := h.attr?_some a name v hv
    obtain ⟨v'', hv'', hshrinks'⟩ := h'.attr?_some a name v' hv'
    exact ⟨v'', hv'', hshrinks.trans hshrinks'⟩
  attr?_none a name hnone := h'.attr?_none a name (h.attr?_none a name hnone)

theorem isNode_eq (h : s.ShrinksTo s') (a : Atom) : s'.isNode a = s.isNode a := by
  unfold isNode
  rw [h.shape?_eq a]

/-- An attribute held what it holds, and perhaps more. -/
theorem exists_attr?_of (h : s.ShrinksTo s') {v' : Value} (hv' : s'.attr? a name = some v') :
    ∃ v, s.attr? a name = some v ∧ v.ShrinksTo v' := by
  cases hattr : s.attr? a name with
  | none =>
    rw [h.attr?_none a name hattr] at hv'
    cases hv'
  | some v =>
    obtain ⟨u, hu, hshrinks⟩ := h.attr?_some a name v hattr
    rw [hv', Option.some.injEq] at hu
    exact ⟨v, rfl, hu ▸ hshrinks⟩

/-- A list stays a list. -/
theorem exists_items (h : s.ShrinksTo s') (hlist : s.attr? a name = some (.items values)) :
    ∃ left, s'.attr? a name = some (.items left) ∧ left.Sublist values := by
  obtain ⟨v, hv, hshrinks⟩ := h.attr?_some a name _ hlist
  cases hshrinks with
  | items hsub => exact ⟨_, hv, hsub⟩

/-- A single value stays or gives way to null. -/
theorem attr?_atom (h : s.ShrinksTo s') (hfield : s.attr? a name = some (.atom b)) :
    s'.attr? a name = some (.atom b) ∨ s'.attr? a name = some (.atom .null) := by
  obtain ⟨v, hv, hshrinks⟩ := h.attr?_some a name _ hfield
  cases hshrinks with
  | kept => exact Or.inl hv
  | cleared => exact Or.inr hv

/-- A field that holds something held it before. -/
theorem attr?_atom_of (h : s.ShrinksTo s') (hfield : s'.attr? a name = some (.atom b))
    (hb : b ≠ .null) : s.attr? a name = some (.atom b) := by
  obtain ⟨v, hv, hshrinks⟩ := h.exists_attr?_of hfield
  cases hshrinks with
  | kept => exact hv
  | cleared => exact absurd rfl hb

/-- Lists lose entries, and the others keep their order. -/
theorem entries_sublist (h : s.ShrinksTo s') (a : Atom) (list : String) :
    (s'.entries a list).Sublist (s.entries a list) := by
  unfold entries
  cases hattr : s.attr? a list with
  | none => rw [h.attr?_none a list hattr]
  | some v =>
    obtain ⟨v', hv', hshrinks⟩ := h.attr?_some a list v hattr
    rw [hv']
    cases hshrinks with
    | items hsub => exact hsub
    | kept => exact .refl _
    | cleared => exact List.nil_sublist _

end Store.ShrinksTo

/-- Only objects have lists. -/
theorem Store.exists_items_of_entries {s : Store} {a value : Atom} {list : String} {index : ℕ}
    (h : (s.entries a list)[index]? = some value) :
    ∃ q, a = .ref q ∧ s.attr? a list = some (.items (s.entries a list)) := by
  cases hattr : s.attr? a list with
  | none => simp [entries, hattr] at h
  | some u =>
    obtain ⟨q, -, rfl, -⟩ := exists_obj_of_attr? hattr
    cases u with
    | atom b => simp [entries, hattr] at h
    | items values => exact ⟨q, rfl, by rw [entries_of_attr? hattr]⟩

/-! ### Emptying a place -/

/-- The attribute that a place belongs to. -/
def Slot.attribute? : Slot → Option String
  | nowhere => none
  | field name => some name
  | entry list _ => some list

namespace Obj

variable {o : Obj} {slot : Slot} {a : Atom} {name : String}

/-- What is left of an attribute without what is in a place of it. -/
def emptied : Slot → Value → Value
  | .nowhere, v => v
  | .field _, _ => .atom .null
  | .entry _ index, v => v.eraseIdx index

/-- Emptying a place changes the attribute that the place belongs to. -/
theorem without_eq_mapAttr (h : slot.attribute? = some name) :
    o.without slot = o.mapAttr name (emptied slot) := by
  cases slot with
  | nowhere => cases h
  | field other =>
    cases h
    rfl
  | entry list index =>
    cases h
    rfl

/-- The attributes that a place does not belong to are as they were. -/
theorem attr?_without_of_ne (h : slot.attribute? ≠ some name) :
    (o.without slot).attr? name = o.attr? name := by
  cases hslot : slot.attribute? with
  | none =>
    cases slot with
    | nowhere => rfl
    | field other => cases hslot
    | entry list index => cases hslot
  | some other =>
    rw [without_eq_mapAttr hslot]
    exact attr?_mapAttr_of_ne o _ fun heq => h (hslot.trans (congrArg some heq.symm))

/-- The attribute that a place belongs to is without it. -/
theorem attr?_without_self (h : slot.attribute? = some name) :
    (o.without slot).attr? name = (o.attr? name).map (emptied slot) := by
  rw [without_eq_mapAttr h]
  exact attr?_mapAttr_self o name _

/-- Where a value is, there is an attribute to hold it. -/
theorem HoldsAt.exists_attribute (h : o.HoldsAt slot a) :
    ∃ name v, slot.attribute? = some name ∧ o.attr? name = some v ∧ a ∈ v.atoms ∧
      v.ShrinksTo (emptied slot v) := by
  cases slot with
  | nowhere => exact absurd h id
  | field name => exact ⟨name, _, rfl, h, List.mem_singleton_self a, .cleared a⟩
  | entry list index =>
    obtain ⟨values, hvalues, hindex⟩ := h
    exact ⟨list, _, rfl, hvalues, List.mem_of_getElem? hindex,
      .items (List.eraseIdx_sublist values index)⟩

end Obj

namespace Store

variable {s s' : Store} {owner : Ref} {o : Obj} {slot : Slot} {a : Atom}

theorem obj?_without_self (ho : s.obj? owner = some o) :
    (s.without owner slot).obj? owner = some (o.without slot) := by
  rw [without, obj?_modify_self, ho, Option.map_some]

theorem obj?_without_of_ne {r : Ref} (h : r ≠ owner) :
    (s.without owner slot).obj? r = s.obj? r := by
  rw [without, obj?_modify_of_ne h]

/-- Shapes stay. -/
theorem shape?_without (ho : s.obj? owner = some o) (b : Atom) :
    (s.without owner slot).shape? b = s.shape? b := by
  cases b with
  | ref r =>
    unfold shape?
    dsimp only
    by_cases hr : r = owner
    · subst hr
      rw [obj?_without_self ho, ho]
      cases o <;> cases slot <;> rfl
    · rw [obj?_without_of_ne hr]
  | _ => rfl

/-- Attributes of other objects, and attributes that the place does not belong to, stay. -/
theorem attr?_without_of_ne {b : Atom} {name : String} (ho : s.obj? owner = some o)
    (h : b ≠ .ref owner ∨ slot.attribute? ≠ some name) :
    (s.without owner slot).attr? b name = s.attr? b name := by
  cases b with
  | ref r =>
    by_cases hr : r = owner
    · subst hr
      rw [attr?_ref (obj?_without_self ho), attr?_ref ho]
      exact Obj.attr?_without_of_ne (h.resolve_left fun hne => hne rfl)
    · unfold attr?
      dsimp only
      rw [obj?_without_of_ne hr]
  | _ => rfl

/-- Emptying a place in which something is makes the store shrink. -/
theorem shrinksTo_without (ho : s.obj? owner = some o) (hat : o.HoldsAt slot a) :
    s.ShrinksTo (s.without owner slot) := by
  obtain ⟨name, v, hname, hv, -, hshrinks⟩ := hat.exists_attribute
  have hself : (s.without owner slot).attr? (.ref owner) name = some (Obj.emptied slot v) := by
    rw [attr?_ref (obj?_without_self ho), Obj.attr?_without_self hname, hv, Option.map_some]
  have hother : ∀ {b : Atom} {other : String}, ¬ (b = .ref owner ∧ other = name) →
      b ≠ .ref owner ∨ slot.attribute? ≠ some other := by
    intro b other hplace
    rw [hname]
    by_cases hb : b = .ref owner
    · exact Or.inr fun heq => hplace ⟨hb, (Option.some.inj heq).symm⟩
    · exact Or.inl hb
  refine ⟨shape?_without ho, fun b other u hu => ?_, fun b other hnone => ?_⟩
  · by_cases hplace : b = .ref owner ∧ other = name
    · obtain ⟨rfl, rfl⟩ := hplace
      rw [attr?_ref ho, hv, Option.some.injEq] at hu
      exact ⟨_, hself, hu ▸ hshrinks⟩
    · refine ⟨u, (attr?_without_of_ne ho (hother hplace)).trans hu, .refl u⟩
  · refine (attr?_without_of_ne ho (hother ?_)).trans hnone
    rintro ⟨rfl, rfl⟩
    rw [attr?_ref ho, hv] at hnone
    cases hnone

end Store

/-! ### Objects that are held once -/

/-- Lists that have nothing twice, all of them together, have no common members. -/
theorem eq_of_nodup_flatMap {α β : Type} {l : List α} {f : α → List β} (h : (l.flatMap f).Nodup)
    {a b : α} {x : β} (ha : a ∈ l) (hb : b ∈ l) (hxa : x ∈ f a) (hxb : x ∈ f b) : a = b := by
  by_contra hne
  have hsymm : Std.Symm (Function.onFun List.Disjoint f) := ⟨fun _ _ hd _ hb ha => hd ha hb⟩
  exact (List.nodup_flatMap.mp h).2.forall ha hb hne hxa hxb

namespace Labelled

/-- What a tree starts with and what its objects hold are all of its objects. -/
theorem refs_perm (t : Labelled) :
    t.refs.Perm (t.atom.refs ++ t.objects.flatMap fun b => b.2.refs) := by
  -- what some trees start with, and what their objects hold
  have htrees : ∀ ts : List Labelled,
      (∀ t ∈ ts, t.refs.Perm (t.atom.refs ++ t.objects.flatMap fun b => b.2.refs)) →
      (ts.flatMap refs).Perm ((ts.flatMap fun t => t.atom.refs) ++
        (ts.flatMap objects).flatMap fun b => b.2.refs) := by
    intro ts hts
    rw [List.flatMap_assoc]
    exact (List.Perm.flatMap_left ts hts).trans (List.flatMap_append_perm ts _ _).symm
  induction t with
  | value a plain => simp [refs, objects, atom, plain]
  | sequence r items ih =>
    have hitems : (Obj.sequence (items.map atom)).refs = items.flatMap fun t => t.atom.refs := by
      rw [Obj.refs, List.flatMap_map]
    rw [refs_sequence, objects, objectsOfItems_eq, List.flatMap_cons, hitems]
    exact (htrees items ih).cons r
  | record r shape attributes ih =>
    have hparts : (toObj shape attributes).refs = (parts attributes).flatMap fun t => t.atom.refs := by
      unfold toObj parts
      rw [Obj.refs, List.flatMap_map, List.flatMap_assoc]
      refine List.flatMap_congr fun a _ => ?_
      obtain ⟨name, t | ts⟩ := a
      · simp [toValue, Value.refs, Held.toList]
      · simp [toValue, Value.refs, Held.toList, List.flatMap_map]
    have hobjects : (attributes.flatMap fun a => a.2.toList.flatMap objects) =
        (parts attributes).flatMap objects := by
      rw [parts, List.flatMap_assoc]
    rw [refs_record_eq, objects, objectsOfAttributes_eq, List.flatMap_cons, hparts, hobjects]
    refine (htrees (parts attributes) fun t ht => ?_).cons r
    obtain ⟨a, ha, ht⟩ := List.mem_flatMap.mp ht
    exact ih a ha t ht

end Labelled

namespace Store

variable {s s' : Store} {objects : List Ref}

/-- Some objects hold nothing but each other, and none of them is held twice. -/
structure Unshared (s : Store) (objects : List Ref) : Prop where
  closed : ∀ r ∈ objects, ∀ name v, s.attr? (.ref r) name = some v → v.refs ⊆ objects
  nodup : ∀ r ∈ objects, ∀ name v, s.attr? (.ref r) name = some v → v.refs.Nodup
  unique : ∀ r ∈ objects, ∀ r' ∈ objects, ∀ name name' v v',
    s.attr? (.ref r) name = some v → s.attr? (.ref r') name' = some v' →
    ∀ q ∈ v.refs, q ∈ v'.refs → r = r' ∧ name = name'

/-- It stays so when the store shrinks. -/
theorem Unshared.shrink (h : s.Unshared objects) (hshrinks : s.ShrinksTo s') :
    s'.Unshared objects where
  closed r hr name v' hv' := by
    obtain ⟨v, hv, hsub⟩ := hshrinks.exists_attr?_of hv'
    exact fun q hq => h.closed r hr name v hv (hsub.refs_sublist.subset hq)
  nodup r hr name v' hv' := by
    obtain ⟨v, hv, hsub⟩ := hshrinks.exists_attr?_of hv'
    exact (h.nodup r hr name v hv).sublist hsub.refs_sublist
  unique r hr r' hr' name name' u u' hu hu' q hq hq' := by
    obtain ⟨v, hv, hsub⟩ := hshrinks.exists_attr?_of hu
    obtain ⟨v', hv', hsub'⟩ := hshrinks.exists_attr?_of hu'
    exact h.unique r hr r' hr' name name' v v' hv hv' q (hsub.refs_sublist.subset hq)
      (hsub'.refs_sublist.subset hq')

/-- Where no object hangs in two places of a tree, none of its objects is held twice. -/
theorem Has.unshared {t : Labelled} (h : s.Has t) (hrefs : t.refs.Nodup) : s.Unshared t.refs := by
  have hperm := t.refs_perm
  obtain ⟨-, hheld, -⟩ := List.nodup_append.mp (hperm.nodup_iff.mp hrefs)
  have hobject := (List.nodup_flatMap.mp hheld).1
  -- the attributes of an object of the tree are those that it has in the tree
  have hrecord : ∀ r ∈ t.refs, ∀ name v, s.attr? (.ref r) name = some v →
      ∃ shape attributes, (r, Obj.record shape attributes) ∈ t.objects ∧
        (name, v) ∈ attributes := by
    intro r hr name v hv
    obtain ⟨⟨r', o⟩, hmem, rfl⟩ := List.mem_map.mp hr
    rw [attr?_ref (h _ hmem)] at hv
    cases o with
    | sequence values => cases hv
    | record shape attributes => exact ⟨shape, attributes, hmem, mem_of_lookup hv⟩
  refine ⟨?_, ?_, ?_⟩
  · intro r hr name v hv q hq
    obtain ⟨shape, attributes, hmem, hattr⟩ := hrecord r hr name v hv
    refine hperm.mem_iff.mpr (List.mem_append_right _ (List.mem_flatMap.mpr ⟨_, hmem, ?_⟩))
    exact List.mem_flatMap.mpr ⟨_, hattr, hq⟩
  · intro r hr name v hv
    obtain ⟨shape, attributes, hmem, hattr⟩ := hrecord r hr name v hv
    exact (List.nodup_flatMap.mp (hobject _ hmem)).1 _ hattr
  · intro r hr r' hr' name name' v v' hv hv' q hq hq'
    obtain ⟨shape, attributes, hmem, hattr⟩ := hrecord r hr name v hv
    obtain ⟨shape', attributes', hmem', hattr'⟩ := hrecord r' hr' name' v' hv'
    have howner := eq_of_nodup_flatMap hheld hmem hmem' (List.mem_flatMap.mpr ⟨_, hattr, hq⟩)
      (List.mem_flatMap.mpr ⟨_, hattr', hq'⟩)
    cases howner
    exact ⟨rfl, congrArg Prod.fst (eq_of_nodup_flatMap (hobject _ hmem) hattr hattr' hq hq')⟩

/-- The entries of a list of an object that holds nothing twice. -/
theorem Unshared.nodup_entries (h : s.Unshared objects) {r : Ref} (hr : r ∈ objects)
    (list : String) : ((s.entries (.ref r) list).flatMap Atom.refs).Nodup := by
  unfold entries
  split
  · exact h.nodup r hr list _ ‹_›
  · exact List.nodup_nil

/-! ### Objects that are held no longer -/

/-- None of some objects holds an object. -/
def Gone (s : Store) (objects : List Ref) (q : Ref) : Prop :=
  ∀ r ∈ objects, ∀ name v, s.attr? (.ref r) name = some v → q ∉ v.refs

/-- What is gone does not come back. -/
theorem Gone.shrink {q : Ref} (h : s.Gone objects q) (hshrinks : s.ShrinksTo s') :
    s'.Gone objects q := by
  intro r hr name v' hv' hq
  obtain ⟨v, hv, hsub⟩ := hshrinks.exists_attr?_of hv'
  exact h r hr name v hv (hsub.refs_sublist.subset hq)

theorem Gone.not_mem_entries {q r : Ref} (h : s.Gone objects q) (hr : r ∈ objects) (list : String) :
    .ref q ∉ s.entries (.ref r) list := by
  unfold entries
  split
  · rename_i values hattr
    exact fun hq => h r hr list _ hattr (List.mem_flatMap.mpr ⟨_, hq, Atom.mem_refs.mpr rfl⟩)
  · exact List.not_mem_nil

theorem Gone.attr?_ne {q r : Ref} (h : s.Gone objects q) (hr : r ∈ objects) (name : String) :
    s.attr? (.ref r) name ≠ some (.atom (.ref q)) :=
  fun hattr => h r hr name _ hattr (List.mem_singleton_self q)

/-- Where no object is an entry twice, none is left when its entry is taken out. -/
theorem not_mem_refs_eraseIdx {values : List Atom} {q : Ref} {index : ℕ}
    (hnodup : (values.flatMap Atom.refs).Nodup) (hindex : values[index]? = some (.ref q)) :
    q ∉ (values.eraseIdx index).flatMap Atom.refs := by
  obtain ⟨hlt, hget⟩ := List.getElem?_eq_some_iff.mp hindex
  have hsplit : values = values.take index ++ .ref q :: values.drop (index + 1) := by
    rw [← hget, List.getElem_cons_drop, List.take_append_drop]
  rw [hsplit, List.flatMap_append, List.flatMap_cons] at hnodup
  obtain ⟨-, hrest, hbefore⟩ := List.nodup_append.mp hnodup
  obtain ⟨-, -, hafter⟩ := List.nodup_append.mp hrest
  rw [List.eraseIdx_eq_take_drop_succ, List.flatMap_append, List.mem_append]
  rintro (hq | hq)
  · exact hbefore q hq q (List.mem_append_left _ (List.mem_singleton_self q)) rfl
  · exact hafter q (List.mem_singleton_self q) q hq rfl

/-- An object that is held once is gone when its place is emptied. -/
theorem Unshared.gone_without {owner q : Ref} {o : Obj} {place : Slot} (h : s.Unshared objects)
    (howner : owner ∈ objects) (ho : s.obj? owner = some o) (hat : o.HoldsAt place (.ref q)) :
    (s.without owner place).Gone objects q := by
  have hshrinks := shrinksTo_without ho hat
  intro r hr name v' hv' hq
  obtain ⟨v, hv, hsub⟩ := hshrinks.exists_attr?_of hv'
  obtain ⟨held, u, hheld, hu, hmem, -⟩ := hat.exists_attribute
  have hu' : s.attr? (.ref owner) held = some u := (attr?_ref ho held).trans hu
  have hqu : q ∈ u.refs := by
    rw [Value.refs_eq]
    exact List.mem_flatMap.mpr ⟨_, hmem, Atom.mem_refs.mpr rfl⟩
  -- the object was held by the attribute that the place belongs to and by no other one
  obtain ⟨rfl, rfl⟩ := h.unique r hr owner howner name held v u hv hu' q
    (hsub.refs_sublist.subset hq) hqu
  have hleft : v' = Obj.emptied place u := by
    rw [attr?_ref (obj?_without_self ho), Obj.attr?_without_self hheld, hu, Option.map_some,
      Option.some.injEq] at hv'
    exact hv'.symm
  subst hleft
  cases place with
  | nowhere => exact hat
  | field other => simp [Obj.emptied, Value.refs, Atom.refs] at hq
  | entry list index =>
    obtain ⟨values, hvalues, hindex⟩ := hat
    cases hheld
    rw [hu, Option.some.injEq] at hvalues
    subst hvalues
    exact not_mem_refs_eraseIdx (h.nodup r hr _ _ hu') hindex hq

end Store

end NamedExports
