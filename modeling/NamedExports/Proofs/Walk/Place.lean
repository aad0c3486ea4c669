import NamedExports.Proofs.Path.Running
import NamedExports.Proofs.Store.Labelled

/-!
# Places of an object

A value hangs in a place of an object: in one of its fields, or at an index of one of its lists.  A
removal through the path of a value empties the place if the value is still there
(`Edit.exists_run_remove`).  For objects that start a labelled tree the places and what is left
without them can be read off the attributes of the tree.
-/

namespace NamedExports

/-! ### Places -/

/-- A path to a value in a place of the object above it. -/
def Path.ofPlace (node : Atom) (above : PathId) (slot : Slot) : Path where
  node := node
  above := some above
  slot := slot
  removed := false

namespace Obj

variable {o : Obj} {slot : Slot} {a : Atom}

/-- A value is in a place of an object. -/
def HoldsAt (o : Obj) (slot : Slot) (a : Atom) : Prop :=
  match slot with
  | .nowhere => False
  | .field name => o.attr? name = some (.atom a)
  | .entry list index => ∃ values, o.attr? list = some (.items values) ∧ values[index]? = some a

/-- An object without what is in one of its places. -/
def without (o : Obj) : Slot → Obj
  | .nowhere => o
  | .field name => o.clearAttr name
  | .entry list index => o.eraseEntry list index

theorem refs_without : ∀ r ∈ (o.without slot).refs, r ∈ o.refs := by
  cases slot with
  | nowhere => exact fun r hr => hr
  | field name => exact refs_clearAttr
  | entry list index => exact refs_eraseEntry

end Obj

/-- A store with one place of one object emptied. -/
def Store.without (s : Store) (r : Ref) (slot : Slot) : Store :=
  s.modify r (·.without slot) fun _ => Obj.refs_without

namespace Edit

variable {σ : Type} {w₀ w : Workspace σ} {p q : PathId} {owner : Ref} {o : Obj} {slot : Slot}
  {a : Atom}

/-- A value is removed from the place in which it is. -/
theorem run_remove_place (hp : w.path p = .ofPlace a q slot) (hq : (w.path q).node = .ref owner)
    (ho : w.store.obj? owner = some o) (ha : a ≠ .null) (hat : o.HoldsAt slot a) :
    (remove p).run w = .ok () ((w.setStore (w.store.without owner slot)).setPath p
      { Path.ofPlace a q slot with removed := true }) := by
  cases slot with
  | nowhere => exact absurd hat id
  | field name => exact run_remove_field hp hq ha ((Store.attr?_ref ho name).trans hat)
  | entry list index =>
    obtain ⟨values, hvalues, hindex⟩ := hat
    have hentries : (w.store.entries (.ref owner) list)[index]? = some a := by
      unfold Store.entries
      rw [Store.attr?_ref ho, hvalues]
      exact hindex
    exact run_remove_entry hp hq ha hentries

/-- Removing empties the place, is noted on the path, and concerns nothing else. -/
theorem exists_run_remove (hkeeps : w₀.KeepsPaths w) (hnew : ¬ w₀.Knows p) (hknown : w.Knows p)
    (hp : w.path p = .ofPlace a q slot) (hq : (w.path q).node = .ref owner)
    (ho : w.store.obj? owner = some o) (ha : a ≠ .null) (hat : o.HoldsAt slot a) :
    ∃ w', (remove p).run w = .ok () w' ∧ w'.store.obj? owner = some (o.without slot) ∧
      (∀ x, x ≠ owner → w'.store.obj? x = w.store.obj? x) ∧ w'.notes = w.notes ∧
      (w'.path p).removed = true ∧ w₀.KeepsPaths w' := by
  refine ⟨_, run_remove_place hp hq ho ha hat, ?_, fun x hx => ?_, rfl, ?_, ?_⟩
  · rw [Workspace.store_setPath, Workspace.store_setStore, Store.without, Store.obj?_modify_self,
      ho, Option.map_some]
  · rw [Workspace.store_setPath, Workspace.store_setStore, Store.without,
      Store.obj?_modify_of_ne hx]
  · have hknown' : (w.setStore (w.store.without owner slot)).Knows p := hknown
    rw [Workspace.path_setPath_self hknown']
  · exact (hkeeps.trans (w.keepsPaths_setStore _)).setPath hnew _

end Edit

/-! ### One attribute of an object -/

namespace Labelled

variable {shape : Shape} {before after : List (String × Held Labelled)} {name : String}
  {h h' : Held Labelled} {kept rest : List Labelled} {t : Labelled}

theorem parts_split (before after : List (String × Held Labelled)) (name : String)
    (h : Held Labelled) :
    parts (before ++ (name, h) :: after) = parts before ++ h.toList ++ parts after := by
  unfold parts
  rw [List.flatMap_append, List.flatMap_cons, List.append_assoc]

/-- The parts before and after one part. -/
theorem parts_around {as bs : List Labelled} (hsplit : h.toList = as ++ t :: bs) :
    parts (before ++ (name, h) :: after) =
      (parts before ++ as) ++ t :: (bs ++ parts after) := by
  rw [parts_split, hsplit]
  simp

theorem mem_parts {u : Labelled} (hu : u ∈ h.toList) :
    u ∈ parts (before ++ (name, h) :: after) := by
  rw [parts_split]
  exact List.mem_append_left _ (List.mem_append_right _ hu)

/-- If an attribute shrinks, so does the object. -/
theorem sublist_refs {r : Ref} (hsub : (h'.toList.flatMap refs).Sublist (h.toList.flatMap refs)) :
    (record r shape (before ++ (name, h') :: after)).refs.Sublist
      (record r shape (before ++ (name, h) :: after)).refs := by
  rw [refs_record_eq, refs_record_eq, parts_split, parts_split]
  simp only [List.flatMap_append]
  exact (((List.Sublist.refl _).append hsub).append (.refl _)).cons_cons r

theorem attr?_toObj (hnames : (before.map Prod.fst ++ name :: after.map Prod.fst).Nodup) :
    (toObj shape (before ++ (name, h) :: after)).attr? name = some (toValue h) := by
  have hmem : (name, toValue h) ∈ (before ++ (name, h) :: after).map fun a => (a.1, toValue a.2) :=
    List.mem_map.mpr ⟨(name, h), by simp, rfl⟩
  refine lookup_of_mem ?_ hmem
  rw [List.map_map, List.map_append, List.map_cons]
  exact hnames

/-- A change of one attribute leaves the others. -/
theorem mapAttr_toObj {f : Value → Value}
    (hnames : (before.map Prod.fst ++ name :: after.map Prod.fst).Nodup)
    (hf : f (toValue h) = toValue h') :
    (toObj shape (before ++ (name, h) :: after)).mapAttr name f =
      toObj shape (before ++ (name, h') :: after) := by
  rw [List.nodup_append] at hnames
  obtain ⟨-, hafter, hbefore⟩ := hnames
  have hnotBefore : ∀ a ∈ before, a.1 ≠ name := fun a ha =>
    hbefore a.1 (List.mem_map.mpr ⟨a, ha, rfl⟩) name List.mem_cons_self
  have hnotAfter : ∀ a ∈ after, a.1 ≠ name := by
    intro a ha heq
    refine (List.nodup_cons.mp hafter).1 ?_
    rw [← heq]
    exact List.mem_map.mpr ⟨a, ha, rfl⟩
  unfold Obj.mapAttr toObj
  dsimp only
  rw [List.map_map, List.map_append, List.map_cons, List.map_append, List.map_cons]
  refine congrArg (Obj.record shape) ?_
  congr 1
  · exact List.map_congr_left fun a ha => by simp [hnotBefore a ha]
  · congr 1
    · simp [hf]
    · exact List.map_congr_left fun a ha => by simp [hnotAfter a ha]

/-- A field is emptied by being set to null. -/
theorem without_field (hnames : (before.map Prod.fst ++ name :: after.map Prod.fst).Nodup) :
    (toObj shape (before ++ (name, .one t) :: after)).without (.field name) =
      toObj shape (before ++ (name, .one .null) :: after) := by
  show (toObj shape _).mapAttr name (fun _ => .atom .null) = _
  exact mapAttr_toObj hnames rfl

/-- An entry of a list goes without leaving a gap. -/
theorem without_entry (hnames : (before.map Prod.fst ++ name :: after.map Prod.fst).Nodup) :
    (toObj shape (before ++ (name, .many (kept ++ t :: rest)) :: after)).without
        (.entry name kept.length) =
      toObj shape (before ++ (name, .many (kept ++ rest)) :: after) := by
  show (toObj shape _).mapAttr name (·.eraseIdx kept.length) = _
  refine mapAttr_toObj hnames ?_
  simp [toValue, Value.eraseIdx, List.eraseIdx_append_of_length_le]

/-- What an attribute holds counts by what it starts with only. -/
theorem toObj_congr (heq : toValue h = toValue h') :
    toObj shape (before ++ (name, h) :: after) = toObj shape (before ++ (name, h') :: after) := by
  unfold toObj
  rw [List.map_append, List.map_cons, List.map_append, List.map_cons, heq]

end Labelled

end NamedExports
