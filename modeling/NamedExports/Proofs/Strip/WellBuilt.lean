import NamedExports.Proofs.Program.Building
import NamedExports.Proofs.Strip.Program

/-!
# Stripped trees are well built

Stripping makes lists of entries shorter and leaves every node the kind it is, so a well-built tree
stays one (`Tree.WellBuilt.strip`), and a statement of a program stays what a program may hold
(`Content.Filled.stripStatement`).
-/

namespace NamedExports

namespace Tree

variable {names : List String} {drop : Bool} {kind : Kind} {lines : Lines} {values : List Tree}
  {t u : Tree} {p : Place}

theorem isNode_strip : (t.strip names).isNode = t.isNode := by
  cases t with
  | node shape attributes => rw [strip, Tree.isNode, Tree.isNode]
  | _ => rw [strip_of_not_node names fun shape attributes => by simp]

/-- A stripped tree may stand where the tree may. -/
theorem admits_strip : p.Admits (t.strip names) ↔ p.Admits t := by
  cases t with
  | node shape attributes =>
    rw [strip]
    cases shape <;> rfl
  | _ => rw [strip_of_not_node names fun shape attributes => by simp]

theorem mem_stripEntries {ts : List Tree} (h : u ∈ stripEntries names drop ts) :
    ∃ e ∈ ts, e.strip names = u := by
  rw [stripEntries_eq] at h
  obtain ⟨e, he, rfl⟩ := List.mem_map.mp h
  exact ⟨e, (List.mem_filter.mp he).1, rfl⟩

/-- The nodes in a stripped field are stripped nodes of the field. -/
theorem mem_nodes_stripField (h : u ∈ (stripField names drop t).nodes) :
    ∃ e ∈ t.nodes, e.strip names = u := by
  cases t with
  | list items =>
    obtain ⟨hmem, hnode⟩ := mem_nodes_list.mp h
    obtain ⟨e, he, rfl⟩ := mem_stripEntries hmem
    exact ⟨e, mem_nodes_list.mpr ⟨he, isNode_strip.symm.trans hnode⟩, rfl⟩
  | node shape attributes =>
    obtain ⟨hmem, hnode⟩ : u ∈ [(node shape attributes).strip names] ∧ u.isNode = true :=
      List.mem_filter.mp h
    rw [List.mem_singleton] at hmem
    subst hmem
    exact ⟨_, mem_nodes_of_isNode (isNode_strip.symm.trans hnode), rfl⟩
  | _ => exact absurd h (by simp [stripField, strip_of_not_node, nodes, isNode])

/-- A stripped field holds what the field holds. -/
theorem admits_stripField {content : Content} (h : content.Admits t) :
    content.Admits (stripField names drop t) := by
  have hentries : ∀ {p : Place} {ts : List Tree}, (∀ e ∈ ts, p.Admits e) →
      ∀ e ∈ stripEntries names drop ts, p.Admits e := by
    intro p ts hts e he
    obtain ⟨e', he', rfl⟩ := mem_stripEntries he
    exact admits_strip.mpr (hts e' he')
  cases content with
  | text =>
    obtain ⟨value, rfl⟩ := h
    exact ⟨value, rfl⟩
  | truth =>
    obtain ⟨value, rfl⟩ := h
    exact ⟨value, rfl⟩
  | one p =>
    have hadmits : p.Admits t := h
    show p.Admits (stripField names drop t)
    rw [stripField_of_ne_list fun ts => hadmits.ne_list]
    exact admits_strip.mpr hadmits
  | many p =>
    obtain ⟨ts, rfl, hts⟩ := h
    exact ⟨_, rfl, hentries hts⟩
  | numbered p =>
    obtain ⟨ts, rfl, hts, hlength⟩ := h
    refine ⟨_, rfl, hentries hts, le_trans ?_ hlength⟩
    rw [stripEntries_eq, List.length_map]
    exact List.length_filter_le _ _

/-- A node with its fields stripped is well built if the stripped nodes in them are. -/
theorem wellBuilt_stripField (lines : Lines) (hholds : kind.Holds values)
    (hparts : ∀ v ∈ values, ∀ u ∈ v.nodes, (u.strip names).WellBuilt) :
    (modelled kind lines (values.map (stripField names drop))).WellBuilt := by
  refine .modelled lines ?_ fun v hv u hu => ?_
  · exact List.forall₂_map_right_iff.mpr (hholds.imp fun _ _ h => admits_stripField h)
  · obtain ⟨w, hw, rfl⟩ := List.mem_map.mp hv
    obtain ⟨e, he, rfl⟩ := mem_nodes_stripField hu
    exact hparts w hw e he

/-- A stripped well-built tree is well built. -/
theorem WellBuilt.strip (h : t.WellBuilt) (names : List String) : (t.strip names).WellBuilt := by
  induction h with
  | plain lines htype =>
    rw [strip_plain]
    exact .plain lines htype
  | @modelled kind lines values hholds _ ih =>
    by_cases hkind : kind = .objectPattern
    · subst hkind
      obtain ⟨entries, rfl, -⟩ := hholds.exists_entries
      exact wellBuilt_stripField lines hholds ih
    · rw [strip_modelled_of_ne hkind hholds.length_eq]
      exact wellBuilt_stripField lines hholds ih

end Tree

/-- A stripped statement is what a program may hold. -/
theorem Content.Filled.stripStatement {t : Tree} (h : (Content.one .statement).Filled t)
    (names : List String) : (Content.one .statement).Filled (t.stripStatement names) := by
  unfold Tree.stripStatement
  split
  next htype =>
    obtain ⟨lines, values, rfl, hholds, hparts⟩ :=
      (h.wellBuilt rfl).exists_of_hasType .exportNamedDeclaration htype
    rw [Tree.stripBelow_modelled hholds.length_eq]
    exact .node h.admits (Tree.wellBuilt_stripField lines hholds fun v hv u hu =>
      (hparts v hv u hu).strip names)
  next => exact h

end NamedExports
