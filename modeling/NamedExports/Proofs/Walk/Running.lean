import NamedExports.Node.Load
import NamedExports.Proofs.Path.Entry
import NamedExports.Walk.Basic

/-!
# Running walks

The equations by which a walk is run: what becomes of one entry of a list, of one field, of the
fields of a node, and of one visit.  They leave open what a visitor does, so that every account of
a walk can be put together from them.
-/

namespace NamedExports.Walk

variable {σ : Type} {visit : PathId → Edit σ Unit} {above p : PathId} {owner : Atom}
  {list name : String} {visits index : ℕ} {w w' : Workspace σ}

/-! ### Entries -/

/-- Beyond the end of the list there is nothing to visit. -/
theorem run_entries_end (h : (w.store.entries owner list)[index]? = none) :
    (entries visit above owner list visits index).run w = .ok () w := by
  cases visits with
  | zero => rfl
  | succ visits =>
    unfold entries
    simp only [EStateM.run_bind, Edit.run_store, h, EStateM.run_pure]

/-- An entry that is no node is passed over. -/
theorem run_entries_skip {value : Atom} (h : (w.store.entries owner list)[index]? = some value)
    (hnode : w.store.isNode value = false) :
    (entries visit above owner list (visits + 1) index).run w =
      (entries visit above owner list visits (index + 1)).run w := by
  conv_lhs => unfold entries
  simp only [EStateM.run_bind, Edit.run_store, h, hnode, Bool.false_eq_true, if_false]

/-- An entry that is still in its place after the visit is followed by the next index. -/
theorem run_entries_kept {value : Atom} (h : (w.store.entries owner list)[index]? = some value)
    (hnode : w.store.isNode value = true)
    (hvisit : (visit w.nextPath).run (w.addPath (.ofEntry value above list index)) = .ok () w')
    (hkept : (w'.store.entries owner list)[index]? = some value) :
    (entries visit above owner list (visits + 1) index).run w =
      (entries visit above owner list visits (index + 1)).run w' := by
  conv_lhs => unfold entries
  simp only [EStateM.run_bind, Edit.run_store, h, hnode, if_true, Edit.run_newPath, hvisit, hkept]

/-- After the visit of an entry that is gone the same index is looked at again. -/
theorem run_entries_gone {value : Atom} (h : (w.store.entries owner list)[index]? = some value)
    (hnode : w.store.isNode value = true)
    (hvisit : (visit w.nextPath).run (w.addPath (.ofEntry value above list index)) = .ok () w')
    (hgone : (w'.store.entries owner list)[index]? ≠ some value) :
    (entries visit above owner list (visits + 1) index).run w =
      (entries visit above owner list visits index).run w' := by
  conv_lhs => unfold entries
  simp only [EStateM.run_bind, Edit.run_store, h, hnode, if_true, Edit.run_newPath, hvisit, hgone,
    if_false]

/-- A fault at an entry stops the walk of the list. -/
theorem run_entries_stop {value : Atom} {fault : Fault}
    (h : (w.store.entries owner list)[index]? = some value) (hnode : w.store.isNode value = true)
    (hvisit : (visit w.nextPath).run (w.addPath (.ofEntry value above list index)) =
      .error fault w') :
    (entries visit above owner list (visits + 1) index).run w = .error fault w' := by
  conv_lhs => unfold entries
  simp only [EStateM.run_bind, Edit.run_store, h, hnode, if_true, Edit.run_newPath, hvisit]

/-! ### Fields -/

/-- A list field is visited entry by entry. -/
theorem run_field_items {values : List Atom} (h : w.store.attr? owner name = some (.items values)) :
    (field visit above owner name).run w =
      (entries visit above owner name values.length 0).run w := by
  unfold field
  simp only [EStateM.run_bind, Edit.run_store, h]

/-- A field that holds a node is a visit of the node. -/
theorem run_field_node {value : Atom} (h : w.store.attr? owner name = some (.atom value))
    (hnode : w.store.isNode value = true) :
    (field visit above owner name).run w =
      (visit w.nextPath).run (w.addPath (.ofField value above name)) := by
  unfold field
  simp only [EStateM.run_bind, Edit.run_store, h, hnode, if_true, Edit.run_newPath]

/-- A field that holds no node is passed over. -/
theorem run_field_skip {value : Atom} (h : w.store.attr? owner name = some (.atom value))
    (hnode : w.store.isNode value = false) :
    (field visit above owner name).run w = .ok () w := by
  unfold field
  simp only [EStateM.run_bind, Edit.run_store, h, hnode, Bool.false_eq_true, if_false,
    EStateM.run_pure]

/-- A field that is not there is passed over. -/
theorem run_field_absent (h : w.store.attr? owner name = none) :
    (field visit above owner name).run w = .ok () w := by
  unfold field
  simp only [EStateM.run_bind, Edit.run_store, h, EStateM.run_pure]

theorem run_fields_nil : (fields visit above owner []).run w = .ok () w := rfl

/-- The fields are visited one after the other. -/
theorem run_fields_cons {names : List String}
    (h : (field visit above owner name).run w = .ok () w') :
    (fields visit above owner (name :: names)).run w = (fields visit above owner names).run w' := by
  conv_lhs => unfold fields
  rw [EStateM.run_bind, h]

/-- A fault in a field stops the walk of the fields. -/
theorem run_fields_stop {names : List String} {fault : Fault}
    (h : (field visit above owner name).run w = .error fault w') :
    (fields visit above owner (name :: names)).run w = .error fault w' := by
  unfold fields
  rw [EStateM.run_bind, h]

/-- What hangs below a node is what its fields hold. -/
theorem run_children {names : List String} {shape : Shape}
    (hshape : w.store.shape? (w.path p).node = some shape) (h : shape.fields? = some names) :
    (children visit p).run w = (fields visit p (w.path p).node names).run w := by
  have hfields : (w.store.shape? (w.path p).node).bind Shape.fields? = some names := by
    rw [hshape]
    exact h
  unfold children
  simp only [EStateM.run_bind, Edit.run_path, Edit.run_store, hfields]

/-- What is no node has nothing that could be visited below it. -/
theorem run_children_of_not_isNode (h : w.store.isNode (w.path p).node = false) :
    (children visit p).run w = .error .notNode w := by
  have hfields : (w.store.shape? (w.path p).node).bind Shape.fields? = none := by
    unfold Store.isNode at h
    cases hs : w.store.shape? (w.path p).node with
    | none => rfl
    | some shape =>
      rw [hs] at h
      cases shape with
      | loose => rfl
      | _ => simp [Shape.isNode] at h
  unfold children
  simp only [EStateM.run_bind, Edit.run_path, Edit.run_store, hfields]
  rfl

/-! ### Visits -/

/-- Without a hook nothing is done. -/
theorem run_call_none : (call (σ := σ) none p).run w = .ok () w := rfl

/-- A hook that is there is run. -/
theorem run_call_some (f : PathId → Edit σ Unit) : (call (some f) p).run w = (f p).run w := rfl

variable {v : Visitor σ} {depth : ℕ} {type : Value}

/-- A node that is removed when it is entered is not looked into. -/
theorem run_visit_removed (htype : w.store.attr? (w.path p).node "type" = some type)
    (henter : (call (hooks v (type.toTree w.store.tree)).enter p).run w = .ok () w')
    (hremoved : (w'.path p).removed = true) :
    (Walk.visit v (depth + 1) p).run w = .ok () w' := by
  unfold Walk.visit
  simp only [EStateM.run_bind, Edit.run_path, Edit.run_typeOf htype, henter, hremoved, if_true,
    EStateM.run_pure]

/-- A fault when a node is entered stops the visit. -/
theorem run_visit_stop_enter {fault : Fault}
    (htype : w.store.attr? (w.path p).node "type" = some type)
    (henter : (call (hooks v (type.toTree w.store.tree)).enter p).run w = .error fault w') :
    (Walk.visit v (depth + 1) p).run w = .error fault w' := by
  unfold Walk.visit
  simp only [EStateM.run_bind, Edit.run_path, Edit.run_typeOf htype, henter]

/-- So does a fault below the node. -/
theorem run_visit_stop_below {w'' : Workspace σ} {fault : Fault}
    (htype : w.store.attr? (w.path p).node "type" = some type)
    (henter : (call (hooks v (type.toTree w.store.tree)).enter p).run w = .ok () w')
    (hremoved : (w'.path p).removed = false)
    (hchildren : (children (Walk.visit v depth) p).run w' = .error fault w'') :
    (Walk.visit v (depth + 1) p).run w = .error fault w'' := by
  unfold Walk.visit
  simp only [EStateM.run_bind, Edit.run_path, Edit.run_typeOf htype, henter, hremoved,
    Bool.false_eq_true, if_false, hchildren]

/-- A node that is not removed is left after what hangs below it has been visited. -/
theorem run_visit_left {w'' : Workspace σ}
    (htype : w.store.attr? (w.path p).node "type" = some type)
    (henter : (call (hooks v (type.toTree w.store.tree)).enter p).run w = .ok () w')
    (hremoved : (w'.path p).removed = false)
    (hchildren : (children (Walk.visit v depth) p).run w' = .ok () w'')
    (hremoved' : (w''.path p).removed = false) :
    (Walk.visit v (depth + 1) p).run w =
      (call (hooks v (type.toTree w.store.tree)).exit p).run w'' := by
  conv_lhs => unfold Walk.visit
  simp only [EStateM.run_bind, Edit.run_path, Edit.run_typeOf htype, henter, hremoved,
    Bool.false_eq_true, if_false, hchildren, hremoved']

end NamedExports.Walk

namespace NamedExports.Edit

variable {σ : Type} {v : Visitor σ} {p : PathId} {w : Workspace σ}

/-- A walk below a path that has not removed its node looks into the node. -/
theorem run_walkBelow (hnode : (w.path p).node ≠ .null) (hlive : (w.path p).removed = false) :
    (walkBelow v p).run w = (Walk.children (Walk.visit v w.store.size) p).run w := by
  have hgo : ¬ ((w.path p).node = .null ∨ (w.path p).removed = true) := by simp [hnode, hlive]
  unfold walkBelow
  simp only [EStateM.run_bind, run_path, hgo, if_false, run_store]

/-- A walk below a path to nothing, or below one that has removed its node, does nothing. -/
theorem run_walkBelow_stop (hstop : (w.path p).node = .null ∨ (w.path p).removed = true) :
    (walkBelow v p).run w = .ok () w := by
  unfold walkBelow
  simp only [EStateM.run_bind, run_path, hstop, if_true, EStateM.run_pure]

/-- A walk of a value visits it through a new path. -/
theorem run_walk (node : Atom) :
    (walk v node).run w =
      (Walk.visit v (w.store.size + 1) w.nextPath).run (w.addPath (.start node)) := by
  unfold walk
  simp only [EStateM.run_bind, run_newPath, run_store, Workspace.store_addPath]

/-- An identifier on its own. -/
def identifierAlone : Store :=
  (Store.empty.addModelled .identifier ⟨0, 0⟩ [("name", .atom (.str "a"))]).1

/-- The path to the text that an identifier has as its name is taken and not removed, but no walk
goes below it, whatever the visitor. -/
theorem run_walkBelow_name (v : Visitor σ) (notes : σ) :
    ∃ (w : Workspace σ) (p : PathId),
      (do get (← newPath (.start (.ref ⟨0⟩))) "name").run (.ofStore identifierAlone notes) =
        .ok (.one p) w ∧
      (w.path p).removed = false ∧ (walkBelow v p).run w = .error .notNode w := by
  have hname : identifierAlone.attr? (.ref ⟨0⟩) "name" = some (.atom (.str "a")) := by decide
  set w := (Workspace.ofStore identifierAlone notes).addPath (.start (.ref ⟨0⟩))
  have hget := run_get_field (w := w) (p := ⟨0⟩) (by decide +kernel) (by decide) hname
  have hpath := w.path_addPath_nextPath (.ofField (.str "a") ⟨0⟩ "name")
  refine ⟨_, _, hget, by rw [hpath]; rfl, ?_⟩
  rw [run_walkBelow (by rw [hpath]; exact nofun) (by rw [hpath]; rfl)]
  exact Walk.run_children_of_not_isNode (by rw [hpath]; rfl)

end NamedExports.Edit
