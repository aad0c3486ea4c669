import NamedExports.Proofs.Store.Shrink

/-!
# What a removal does

A removal through a path succeeds if the path has not removed its node before and the node is in
place: in the field, or somewhere in the list, that the path names (`Edit.run_remove_of_inPlace`).
It then empties that place and marks the path (`Workspace.removing`).  Otherwise it is refused and
nothing changes (`Edit.run_remove_of_not_inPlace`).
-/

namespace NamedExports

variable {σ : Type}

/-- A place without the index, which changes when entries before it go. -/
def Slot.unindexed : Slot → Slot
  | nowhere => nowhere
  | field name => field name
  | entry list _ => entry list 0

namespace Slot

variable {slot : Slot} {name list : String} {index : ℕ}

theorem attribute?_unindexed (slot : Slot) : slot.unindexed.attribute? = slot.attribute? := by
  cases slot <;> rfl

theorem eq_field_of_unindexed (h : (field name).unindexed = slot.unindexed) : slot = field name := by
  cases slot with
  | field other =>
    cases h
    rfl
  | _ => cases h

/-- A place in the same list can have another index. -/
theorem exists_entry_of_unindexed (h : (entry list index).unindexed = slot.unindexed) :
    ∃ hint, slot = entry list hint := by
  cases slot with
  | entry other hint =>
    cases h
    exact ⟨hint, rfl⟩
  | _ => cases h

end Slot

namespace Workspace

variable {w : Workspace σ} {p : PathId} {owner : Ref} {place : Slot}

/-- The node of a path is in the list, or is the value of the field, that the path names. -/
def InPlace (w : Workspace σ) (p : PathId) : Prop :=
  match (w.path p).slot with
  | .nowhere => False
  | .field name => w.store.attr? (w.parent p) name = some (.atom (w.path p).node)
  | .entry list _ => (w.path p).node ∈ w.store.entries (w.parent p) list

instance (w : Workspace σ) (p : PathId) : Decidable (w.InPlace p) := by
  unfold InPlace
  split <;> infer_instance

/-- The node of a path is in a place of an object, in the list or the field that the path names. -/
structure HoldsAt (w : Workspace σ) (p : PathId) (owner : Ref) (place : Slot) : Prop where
  parent : w.parent p = .ref owner
  slot : place.unindexed = (w.path p).slot.unindexed
  holds : ∃ o, w.store.obj? owner = some o ∧ o.HoldsAt place (w.path p).node

/-- A node that is in place is so in some place of the object above it. -/
theorem inPlace_iff : w.InPlace p ↔ ∃ owner place, w.HoldsAt p owner place := by
  constructor
  · intro h
    unfold InPlace at h
    cases hslot : (w.path p).slot with
    | nowhere =>
      rw [hslot] at h
      exact absurd h id
    | field name =>
      rw [hslot] at h
      obtain ⟨owner, o, howner, ho, hattr⟩ := Store.exists_obj_of_attr? h
      exact ⟨owner, .field name, howner, by rw [hslot], o, ho, hattr⟩
    | entry list hint =>
      rw [hslot] at h
      obtain ⟨index, hindex⟩ := List.mem_iff_getElem?.mp h
      obtain ⟨_, -, hattr⟩ := Store.exists_items_of_entries hindex
      obtain ⟨owner, o, howner, ho, hv⟩ := Store.exists_obj_of_attr? hattr
      exact ⟨owner, .entry list index, howner, by rw [hslot]; rfl, o, ho, _, hv, hindex⟩
  · rintro ⟨owner, place, hparent, hslot, o, ho, hat⟩
    unfold InPlace
    rw [hparent]
    cases place with
    | nowhere => exact absurd hat id
    | field name =>
      rw [Slot.eq_field_of_unindexed hslot]
      exact (Store.attr?_ref ho name).trans hat
    | entry list index =>
      obtain ⟨hint, hpath⟩ := Slot.exists_entry_of_unindexed hslot
      obtain ⟨values, hvalues, hindex⟩ := hat
      rw [hpath]
      dsimp only
      rw [Store.entries_of_attr? ((Store.attr?_ref ho list).trans hvalues)]
      exact List.mem_of_getElem? hindex

/-- A workspace in which a path has removed its node from a place. -/
def removing (w : Workspace σ) (p : PathId) (owner : Ref) (place : Slot) : Workspace σ :=
  (w.setStore (w.store.without owner place)).setPath p
    { w.path p with slot := place, removed := true }

@[simp] theorem store_removing :
    (w.removing p owner place).store = w.store.without owner place := rfl

@[simp] theorem notes_removing : (w.removing p owner place).notes = w.notes := rfl

theorem knows_removing {q : PathId} : (w.removing p owner place).Knows q ↔ w.Knows q :=
  knows_setPath

theorem path_removing_self (h : w.Knows p) :
    (w.removing p owner place).path p = { w.path p with slot := place, removed := true } :=
  path_setPath_self (w := w.setStore _) h _

theorem path_removing_of_ne {q : PathId} (h : q ≠ p) :
    (w.removing p owner place).path q = w.path q :=
  path_setPath_of_ne h _

end Workspace

namespace Edit

variable {w w' : Workspace σ} {p : PathId} {refusal : Refusal} {fault : Fault}

/-! ### Refusals -/

/-- To read the type of a value changes nothing. -/
theorem run_typeOf_or (w : Workspace σ) (a : Atom) :
    (∃ type, (typeOf a).run w = .ok type w) ∨
      w.store.attr? a "type" = none ∧ ∃ fault, (typeOf a).run w = .error fault w := by
  cases hattr : w.store.attr? a "type" with
  | some v => exact Or.inl ⟨_, run_typeOf hattr⟩
  | none =>
    refine Or.inr ⟨rfl, .noAttribute (w.store.tree a).owner "type", ?_⟩
    unfold typeOf
    rw [EStateM.run_bind, run_store]
    dsimp only
    rw [hattr]
    rfl

/-- To write a path down changes nothing. -/
theorem run_written (w : Workspace σ) (p : PathId) :
    (∃ text, (written p).run w = .ok text w) ∨
      (w.path p).node ≠ .null ∧ w.store.attr? (w.path p).node "type" = none ∧
        ∃ fault, (written p).run w = .error fault w := by
  unfold written
  rw [EStateM.run_bind, run_path]
  dsimp only
  split
  · exact Or.inl ⟨_, rfl⟩
  · rename_i hnull
    rcases run_typeOf_or w (w.path p).node with ⟨type, hrun⟩ | ⟨hnone, fault, hrun⟩
    · left
      rw [EStateM.run_bind, hrun]
      exact ⟨_, rfl⟩
    · right
      refine ⟨hnull, hnone, fault, ?_⟩
      rw [EStateM.run_bind, hrun]

/-- A refusal changes nothing. -/
theorem run_refuse (w : Workspace σ) (p : PathId) (refusal : Refusal) :
    ∃ fault, (refuse p refusal).run w = .error fault w := by
  unfold refuse
  rcases run_written w p with ⟨text, hrun⟩ | ⟨-, -, fault, hrun⟩
  · refine ⟨.refused refusal text, ?_⟩
    rw [EStateM.run_bind, hrun]
    rfl
  · refine ⟨fault, ?_⟩
    rw [EStateM.run_bind, hrun]

/-- The refusal itself is the fault, wherever the path can be written down. -/
theorem run_refuse_of_type
    (h : (w.path p).node = .null ∨ ∃ v, w.store.attr? (w.path p).node "type" = some v)
    (refusal : Refusal) : ∃ text, (refuse p refusal).run w = .error (.refused refusal text) w := by
  unfold refuse
  rcases run_written w p with ⟨text, hrun⟩ | ⟨hnull, hnone, -⟩
  · refine ⟨text, ?_⟩
    rw [EStateM.run_bind, hrun]
    rfl
  · rcases h with hnode | ⟨v, hv⟩
    · exact absurd hnode hnull
    · rw [hnone] at hv
      cases hv

/-! ### Removals -/

theorem currentIndex?_eq_some {values : List Atom} {node : Atom} {hint index : ℕ}
    (h : Path.currentIndex? values node hint = some index) : values[index]? = some node := by
  unfold Path.currentIndex? at h
  split at h
  · rename_i hhint
    cases h
    exact hhint
  · obtain ⟨hlt, hnode, -⟩ := List.findIdx?_eq_some_iff_getElem.mp h
    rw [List.getElem?_eq_getElem hlt, of_decide_eq_true hnode]

theorem currentIndex?_eq_none {values : List Atom} {node : Atom} {hint : ℕ}
    (h : Path.currentIndex? values node hint = none) : node ∉ values := by
  unfold Path.currentIndex? at h
  split at h
  · cases h
  · rw [List.findIdx?_eq_none_iff] at h
    intro hmem
    simpa using h node hmem

/-- A path that has not removed its node removes it from where it is. -/
theorem run_remove_of_inPlace (hlive : (w.path p).removed = false)
    (hnode : (w.path p).node ≠ .null) (hat : w.InPlace p) :
    ∃ owner place, w.HoldsAt p owner place ∧
      (remove p).run w = .ok () (w.removing p owner place) := by
  obtain ⟨owner, _, hparent, -⟩ := Workspace.inPlace_iff.mp hat
  have hgo : ¬ ((w.path p).node = .null ∨ w.parent p = .null) := by simp [hnode, hparent]
  unfold Workspace.InPlace at hat
  unfold remove
  simp only [EStateM.run_bind, run_path, run_parent, run_store, hlive, Bool.false_eq_true,
    if_false, hgo]
  cases hslot : (w.path p).slot with
  | nowhere =>
    rw [hslot] at hat
    exact absurd hat id
  | field name =>
    rw [hslot, hparent] at hat
    obtain ⟨r, o, howner, ho, hattr⟩ := Store.exists_obj_of_attr? hat
    cases howner
    refine ⟨owner, .field name, ⟨hparent, by rw [hslot], o, ho, hattr⟩, ?_⟩
    simp only [hparent, hat, if_true, EStateM.run_bind, run_setStore, run_setPath]
    rfl
  | entry list hint =>
    -- the hint is where the search begins, the entry may stand elsewhere
    rw [hslot, hparent] at hat
    dsimp only at hat
    simp only [hparent]
    cases hindex : Path.currentIndex? (w.store.entries (.ref owner) list) (w.path p).node hint with
    | none => exact absurd hat (currentIndex?_eq_none hindex)
    | some index =>
      have hentry := currentIndex?_eq_some hindex
      obtain ⟨_, -, hattr⟩ := Store.exists_items_of_entries hentry
      obtain ⟨r, o, howner, ho, hv⟩ := Store.exists_obj_of_attr? hattr
      cases howner
      exact ⟨owner, .entry list index, ⟨hparent, by rw [hslot]; rfl, o, ho, _, hv, hentry⟩, rfl⟩

/-- Any other removal is refused. -/
theorem run_remove_of_not_inPlace (h : (w.path p).removed = false → (w.path p).node ≠ .null →
      ¬ w.InPlace p) : ∃ refusal, (remove p).run w = (refuse p refusal).run w := by
  unfold remove
  simp only [EStateM.run_bind, run_path, run_parent, run_store]
  split
  · exact ⟨_, rfl⟩
  · rename_i hlive
    split
    · exact ⟨_, rfl⟩
    · rename_i hgo
      have hat := h (by simpa using hlive) fun hnull => hgo (Or.inl hnull)
      unfold Workspace.InPlace at hat
      split
      · rename_i owner list hint hparent hslot
        rw [hslot, hparent] at hat
        rw [hparent]
        cases hindex : Path.currentIndex? (w.store.entries (.ref owner) list) (w.path p).node hint with
        | none => exact ⟨_, rfl⟩
        | some index => exact absurd (List.mem_of_getElem? (currentIndex?_eq_some hindex)) hat
      · rename_i owner name hparent hslot
        rw [hslot, hparent] at hat
        rw [hparent, if_neg hat]
        exact ⟨_, rfl⟩
      · exact ⟨_, rfl⟩

/-- A removal that succeeds has removed a node that was in place. -/
theorem of_run_remove_ok (h : (remove p).run w = .ok () w') :
    (w.path p).removed = false ∧ (w.path p).node ≠ .null ∧
      ∃ owner place, w.HoldsAt p owner place ∧ w' = w.removing p owner place := by
  by_cases hat : (w.path p).removed = false ∧ (w.path p).node ≠ .null ∧ w.InPlace p
  · obtain ⟨owner, place, hholds, hrun⟩ := run_remove_of_inPlace hat.1 hat.2.1 hat.2.2
    rw [hrun] at h
    cases h
    exact ⟨hat.1, hat.2.1, owner, place, hholds, rfl⟩
  · obtain ⟨refusal, hrun⟩ := run_remove_of_not_inPlace fun hlive hnode hin =>
      hat ⟨hlive, hnode, hin⟩
    obtain ⟨fault, hrefuse⟩ := run_refuse w p refusal
    rw [hrun, hrefuse] at h
    cases h

/-- A removal that fails changes nothing. -/
theorem of_run_remove_error (h : (remove p).run w = .error fault w') : w' = w := by
  by_cases hat : (w.path p).removed = false ∧ (w.path p).node ≠ .null ∧ w.InPlace p
  · obtain ⟨owner, place, -, hrun⟩ := run_remove_of_inPlace hat.1 hat.2.1 hat.2.2
    rw [hrun] at h
    cases h
  · obtain ⟨refusal, hrun⟩ := run_remove_of_not_inPlace fun hlive hnode hin =>
      hat ⟨hlive, hnode, hin⟩
    obtain ⟨_, hrefuse⟩ := run_refuse w p refusal
    rw [hrun, hrefuse] at h
    cases h
    rfl

end Edit

end NamedExports
