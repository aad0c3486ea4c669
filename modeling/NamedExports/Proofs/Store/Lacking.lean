import NamedExports.Proofs.Store.Shrink

/-!
# Trees without some nodes

What a tree is without some of its nodes: the nodes are left out of the lists that they are entries
of, the other entries keeping their order, and the fields that hold them are null
(`Labelled.lacking`).  The same is said of a single object (`Obj.lacking`).  A store in which every
object of a tree lacks some nodes has the tree without them (`Store.Has.lacking`), and emptying the
place of one more node makes its object lack that node too (`Obj.without_lacking`).
-/

namespace NamedExports

/-- What an attribute holds without some values, which are left out of a list and give way to null
in a field. -/
def Value.lacking (gone : List Atom) : Value → Value
  | atom a => atom (if a ∈ gone then .null else a)
  | items values => items (values.filter (· ∉ gone))

/-- An object without some values in its attributes; a list that is itself an object stays. -/
def Obj.lacking (gone : List Atom) : Obj → Obj
  | record shape attributes => record shape (attributes.map fun a => (a.1, a.2.lacking gone))
  | sequence values => sequence values

/-- No two attributes of an object have the same name. -/
def Obj.Distinct : Obj → Prop
  | record _ attributes => (attributes.map Prod.fst).Nodup
  | sequence _ => True

instance (o : Obj) : Decidable o.Distinct :=
  match o with
  | .record _ attributes => inferInstanceAs (Decidable (attributes.map Prod.fst).Nodup)
  | .sequence _ => inferInstanceAs (Decidable True)

variable {gone : List Atom}

/-! ### Values and objects -/

namespace Value

variable {v : Value} {q : Ref} {place : Slot}

@[simp] theorem lacking_nil (v : Value) : v.lacking [] = v := by
  cases v <;> simp [lacking]

theorem lacking_congr {gone' : List Atom} (h : ∀ a, a ∈ gone ↔ a ∈ gone') (v : Value) :
    v.lacking gone = v.lacking gone' := by
  cases v <;> simp [lacking, h]

/-- What is not held need not be left out. -/
theorem lacking_cons_of_not_mem (h : q ∉ v.refs) :
    v.lacking (.ref q :: gone) = v.lacking gone := by
  cases v with
  | atom a =>
    have hne : a ≠ .ref q := by
      rintro rfl
      exact h (List.mem_singleton_self q)
    simp [lacking, hne]
  | items values =>
    refine congrArg items (List.filter_congr fun a ha => ?_)
    have hne : a ≠ .ref q := by
      rintro rfl
      exact h (List.mem_flatMap.mpr ⟨_, ha, Atom.mem_refs.mpr rfl⟩)
    simp [hne]

/-- A list without the entry at an index, where the entry is an object that is in the list once, is
the list without the object. -/
theorem eraseIdx_eq_filter {values : List Atom} {index : ℕ}
    (hnodup : (values.flatMap Atom.refs).Nodup) (hindex : values[index]? = some (.ref q)) :
    values.eraseIdx index = values.filter (· ≠ .ref q) := by
  obtain ⟨hlt, hget⟩ := List.getElem?_eq_some_iff.mp hindex
  have hleft : ∀ a ∈ values.eraseIdx index, a ≠ .ref q := by
    rintro a ha rfl
    exact Store.not_mem_refs_eraseIdx hnodup hindex
      (List.mem_flatMap.mpr ⟨_, ha, Atom.mem_refs.mpr rfl⟩)
  rw [List.eraseIdx_eq_take_drop_succ] at hleft ⊢
  conv_rhs => rw [← List.take_append_drop index values, ← List.getElem_cons_drop hlt, hget]
  have hkeep : ∀ as : List Atom, (∀ a ∈ as, a ≠ .ref q) → as.filter (· ≠ .ref q) = as :=
    fun as has => List.filter_eq_self.mpr fun a ha => by simpa using has a ha
  rw [List.filter_append, List.filter_cons_of_neg (by simp),
    hkeep _ fun a ha => hleft a (List.mem_append_left _ ha),
    hkeep _ fun a ha => hleft a (List.mem_append_right _ ha)]

/-- A field that is set to null lacks what was in it. -/
theorem clear_lacking (h : v.lacking gone = .atom (.ref q)) :
    atom .null = v.lacking (.ref q :: gone) := by
  cases v with
  | items values => cases h
  | atom a =>
    have ha : (if a ∈ gone then Atom.null else a) = .ref q := by
      simpa [lacking] using h
    have haq : a = .ref q := by
      split at ha
      · cases ha
      · exact ha
    simp [lacking, haq]

/-- A list that loses an entry lacks it, where the list has every object once. -/
theorem eraseIdx_lacking {values : List Atom} {index : ℕ} (hnodup : v.refs.Nodup)
    (h : v.lacking gone = .items values) (hindex : values[index]? = some (.ref q)) :
    (v.lacking gone).eraseIdx index = v.lacking (.ref q :: gone) := by
  cases v with
  | atom a => cases h
  | items all =>
    have hvalues : all.filter (· ∉ gone) = values := by
      simpa [lacking] using h
    subst hvalues
    have hfiltered : ((all.filter (· ∉ gone)).flatMap Atom.refs).Nodup :=
      hnodup.sublist (List.filter_sublist.flatMap Atom.refs)
    show items ((all.filter (· ∉ gone)).eraseIdx index) = _
    rw [eraseIdx_eq_filter hfiltered hindex, List.filter_filter]
    refine congrArg items (List.filter_congr fun a _ => ?_)
    simp [Bool.and_comm]

/-- What is left was there. -/
theorem atoms_lacking {a : Atom} (h : a ∈ (v.lacking gone).atoms) (ha : a ≠ .null) :
    a ∈ v.atoms := by
  cases v with
  | items values => exact (List.mem_filter.mp h).1
  | atom b =>
    have hab : a = if b ∈ gone then .null else b := List.mem_singleton.mp h
    split at hab
    · exact absurd hab ha
    · exact List.mem_singleton.mpr hab

end Value

namespace Obj

variable {o : Obj} {q : Ref} {place : Slot} {name : String}

@[simp] theorem lacking_nil (o : Obj) : o.lacking [] = o := by
  cases o <;> simp [lacking]

/-- It does not matter in which order values are left out, nor how often. -/
theorem lacking_congr {gone' : List Atom} (h : ∀ a, a ∈ gone ↔ a ∈ gone') (o : Obj) :
    o.lacking gone = o.lacking gone' := by
  cases o with
  | sequence values => rfl
  | record shape attributes =>
    exact congrArg (record shape) (List.map_congr_left fun a _ => by rw [Value.lacking_congr h])

theorem attr?_lacking (o : Obj) (name : String) :
    (o.lacking gone).attr? name = (o.attr? name).map (Value.lacking gone) := by
  cases o with
  | sequence values => rfl
  | record shape attributes => exact lookup_map_snd (Value.lacking gone) name attributes

/-- An object of which no attribute holds another one need not leave it out. -/
theorem lacking_cons_of_not_mem (hdistinct : o.Distinct)
    (h : ∀ name v, o.attr? name = some v → q ∉ v.refs) :
    o.lacking (.ref q :: gone) = o.lacking gone := by
  cases o with
  | sequence values => rfl
  | record shape attributes =>
    refine congrArg (record shape) (List.map_congr_left fun a ha => ?_)
    rw [Value.lacking_cons_of_not_mem (h a.1 a.2 (lookup_of_mem hdistinct ha))]

/-- What is in a place of an object that lacks some values was in the object before. -/
theorem HoldsAt.of_lacking (hat : (o.lacking gone).HoldsAt place (.ref q)) :
    ∃ name v, place.attribute? = some name ∧ o.attr? name = some v ∧ q ∈ v.refs := by
  obtain ⟨name, left, hplace, hleft, hmem, -⟩ := hat.exists_attribute
  rw [attr?_lacking] at hleft
  obtain ⟨v, hv, rfl⟩ := Option.map_eq_some_iff.mp hleft
  refine ⟨name, v, hplace, hv, ?_⟩
  rw [Value.refs_eq]
  exact List.mem_flatMap.mpr ⟨_, Value.atoms_lacking hmem nofun, Atom.mem_refs.mpr rfl⟩

/-- An object that holds every object once, in one attribute, lacks one more when the place is
emptied where that one is. -/
theorem without_lacking (hdistinct : o.Distinct)
    (hnodup : ∀ name v, o.attr? name = some v → v.refs.Nodup)
    (hunique : ∀ name name' v v', o.attr? name = some v → o.attr? name' = some v' → q ∈ v.refs →
      q ∈ v'.refs → name = name')
    (hat : (o.lacking gone).HoldsAt place (.ref q)) :
    (o.lacking gone).without place = o.lacking (.ref q :: gone) := by
  obtain ⟨name, v, hplace, hv, hqv⟩ := hat.of_lacking
  have hself : emptied place (v.lacking gone) = v.lacking (.ref q :: gone) := by
    cases place with
    | nowhere => exact absurd hat id
    | field other =>
      cases hplace
      have hheld : (o.lacking gone).attr? name = some (.atom (.ref q)) := hat
      rw [attr?_lacking, hv] at hheld
      exact Value.clear_lacking (Option.some.inj hheld)
    | entry list index =>
      cases hplace
      obtain ⟨values, hvalues, hindex⟩ := hat
      rw [attr?_lacking, hv] at hvalues
      exact Value.eraseIdx_lacking (hnodup name v hv) (Option.some.inj hvalues) hindex
  rw [without_eq_mapAttr hplace]
  cases o with
  | sequence values => cases hv
  | record shape attributes =>
    unfold lacking mapAttr
    dsimp only
    rw [List.map_map]
    refine congrArg (record shape) (List.map_congr_left fun a ha => ?_)
    have hattr : (record shape attributes).attr? a.1 = some a.2 := lookup_of_mem hdistinct ha
    dsimp only [Function.comp_apply]
    split
    · -- the attribute that the place belongs to
      rename_i hname
      rw [hname, hv, Option.some.injEq] at hattr
      rw [← hattr, hself]
    · -- the other attributes do not hold the object
      rename_i hname
      rw [Value.lacking_cons_of_not_mem fun hq =>
        hname (hunique a.1 name a.2 v hattr hv hq hqv)]

end Obj

/-! ### Trees -/

namespace Labelled

mutual

/-- A tree without some values below its start: they are left out of the lists and give way to null
in the fields. -/
def lacking (gone : List Atom) : Labelled → Labelled
  | value a plain => value a plain
  | sequence r items => sequence r (lackingItems gone items)
  | record r shape attributes => record r shape (lackingAttributes gone attributes)

/-- The entries of a list that is itself an object stay. -/
def lackingItems (gone : List Atom) : List Labelled → List Labelled
  | [] => []
  | t :: ts => lacking gone t :: lackingItems gone ts

/-- The entries of a list attribute that are left. -/
def lackingEntries (gone : List Atom) : List Labelled → List Labelled
  | [] => []
  | t :: ts =>
    if t.atom ∈ gone then lackingEntries gone ts else lacking gone t :: lackingEntries gone ts

/-- What is left in the attributes of an object. -/
def lackingAttributes (gone : List Atom) :
    List (String × Held Labelled) → List (String × Held Labelled)
  | [] => []
  | (name, .one t) :: rest =>
    (name, .one (if t.atom ∈ gone then null else lacking gone t)) :: lackingAttributes gone rest
  | (name, .many ts) :: rest => (name, .many (lackingEntries gone ts)) :: lackingAttributes gone rest

end

/-- What is left in an attribute. -/
def lackingHeld (gone : List Atom) : Held Labelled → Held Labelled
  | .one t => .one (if t.atom ∈ gone then null else t.lacking gone)
  | .many ts => .many ((ts.filter (·.atom ∉ gone)).map (lacking gone))

theorem lackingItems_eq (ts : List Labelled) : lackingItems gone ts = ts.map (lacking gone) := by
  induction ts with
  | nil => rfl
  | cons t ts ih => rw [lackingItems, ih, List.map_cons]

theorem lackingEntries_eq (ts : List Labelled) :
    lackingEntries gone ts = (ts.filter (·.atom ∉ gone)).map (lacking gone) := by
  induction ts with
  | nil => rfl
  | cons t ts ih =>
    rw [lackingEntries, ih]
    split
    · rw [List.filter_cons_of_neg (by simpa)]
    · rw [List.filter_cons_of_pos (by simpa), List.map_cons]

theorem lackingAttributes_eq (attributes : List (String × Held Labelled)) :
    lackingAttributes gone attributes = attributes.map fun a => (a.1, lackingHeld gone a.2) := by
  induction attributes with
  | nil => rfl
  | cons a rest ih =>
    obtain ⟨name, t | ts⟩ := a
    · rw [lackingAttributes, ih]
      rfl
    · rw [lackingAttributes, ih, lackingEntries_eq]
      rfl

@[simp] theorem atom_lacking (t : Labelled) : (t.lacking gone).atom = t.atom := by
  cases t <;> rfl

theorem toValue_lackingHeld (h : Held Labelled) :
    toValue (lackingHeld gone h) = (toValue h).lacking gone := by
  cases h with
  | one t =>
    refine congrArg Value.atom ?_
    split
    · rfl
    · exact atom_lacking t
  | many ts =>
    refine congrArg Value.items ?_
    rw [List.map_map, List.filter_map]
    exact List.map_congr_left fun t _ => atom_lacking t

/-- What is left in an attribute are parts of it, and null. -/
theorem mem_lackingHeld {h : Held Labelled} {u : Labelled} (hu : u ∈ (lackingHeld gone h).toList) :
    u = null ∨ ∃ t ∈ h.toList, u = t.lacking gone := by
  cases h with
  | one t =>
    have hut : u = if t.atom ∈ gone then null else t.lacking gone := List.mem_singleton.mp hu
    split at hut
    · exact Or.inl hut
    · exact Or.inr ⟨t, List.mem_singleton_self t, hut⟩
  | many ts =>
    obtain ⟨t, ht, rfl⟩ := List.mem_map.mp hu
    exact Or.inr ⟨t, (List.mem_filter.mp ht).1, rfl⟩

/-- In no object of a tree two attributes have the same name. -/
def Distinct (t : Labelled) : Prop :=
  ∀ b ∈ t.objects, b.2.Distinct

instance (t : Labelled) : Decidable t.Distinct :=
  inferInstanceAs (Decidable (∀ b ∈ t.objects, b.2.Distinct))

end Labelled

namespace Store

variable {s s' : Store} {r : Ref}

theorem attr?_lacking (h : s'.obj? r = (s.obj? r).map (Obj.lacking gone)) (name : String) :
    s'.attr? (.ref r) name = (s.attr? (.ref r) name).map (Value.lacking gone) := by
  unfold attr?
  dsimp only
  rw [h]
  cases s.obj? r with
  | none => rfl
  | some o => exact Obj.attr?_lacking o name

theorem entries_lacking (h : s'.obj? r = (s.obj? r).map (Obj.lacking gone)) (list : String) :
    s'.entries (.ref r) list = (s.entries (.ref r) list).filter (· ∉ gone) := by
  unfold entries
  rw [attr?_lacking h]
  cases s.attr? (.ref r) list with
  | none => rfl
  | some v => cases v <;> rfl

/-- A store in which the objects of a tree lack some values has the tree without them. -/
theorem Has.lacking {t : Labelled} (h : s.Has t)
    (hobj : ∀ r ∈ t.refs, s'.obj? r = (s.obj? r).map (Obj.lacking gone)) :
    s'.Has (t.lacking gone) := by
  induction t with
  | value a plain =>
    intro b hb
    rw [Labelled.lacking, Labelled.objects] at hb
    exact absurd hb List.not_mem_nil
  | sequence r items ih =>
    rw [Labelled.refs_sequence, List.forall_mem_cons] at hobj
    rw [Labelled.lacking, Labelled.lackingItems_eq]
    refine has_sequence_iff.mpr ⟨?_, fun u hu => ?_⟩
    · rw [hobj.1, h.obj?_sequence, Option.map_some, List.map_map]
      exact congrArg (some ∘ Obj.sequence) (List.map_congr_left fun t _ => (t.atom_lacking).symm)
    · obtain ⟨t, ht, rfl⟩ := List.mem_map.mp hu
      exact ih t ht (h.of_mem_sequence ht) fun q hq => hobj.2 q (List.mem_flatMap.mpr ⟨t, ht, hq⟩)
  | record r shape attributes ih =>
    rw [Labelled.refs_record, List.forall_mem_cons] at hobj
    rw [Labelled.lacking, Labelled.lackingAttributes_eq]
    refine has_record_iff.mpr ⟨?_, fun u hu => ?_⟩
    · rw [hobj.1, h.obj?_record, Option.map_some]
      unfold Labelled.toObj Obj.lacking
      dsimp only
      rw [List.map_map, List.map_map]
      refine congrArg (some ∘ Obj.record shape) (List.map_congr_left fun a _ => ?_)
      exact congrArg (Prod.mk a.1) (Labelled.toValue_lackingHeld a.2).symm
    · obtain ⟨b, hb, hu⟩ := List.mem_flatMap.mp hu
      obtain ⟨a, ha, rfl⟩ := List.mem_map.mp hb
      -- a field that lacks what it held holds null instead
      rcases Labelled.mem_lackingHeld hu with rfl | ⟨t, ht, rfl⟩
      · exact fun b hb => absurd hb List.not_mem_nil
      · exact ih a ha t ht (h.of_mem_record ha ht) fun q hq =>
          hobj.2 q (List.mem_flatMap.mpr ⟨a, ha, List.mem_flatMap.mpr ⟨t, ht, hq⟩⟩)

end Store

end NamedExports
