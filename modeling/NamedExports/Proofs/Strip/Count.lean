import Mathlib.Algebra.Order.BigOperators.Group.List
import Mathlib.Algebra.Order.Group.Nat
import NamedExports.Proofs.Strip.Report
import NamedExports.Proofs.Strip.Walk

/-!
# Counting entries

What went when a program was stripped is told by counting the entries of patterns before and after.
The entries of all patterns at or below a value (`Tree.entryTotal`) do not become more when it is
stripped (`Tree.entryTotal_stripBelow_le`): a pattern keeps some of its entries, and an entry that is
dropped takes the patterns below it along.  In a store of which the patterns have lists of entries
they can always be counted (`Store.countProperties_tree`).
-/

namespace NamedExports

namespace Tree

variable {names : List String} {drop : Bool} {t : Tree}

/-! ### The number of entries -/

/-- The number of entries of a list or text, none of what is neither. -/
def size : Tree → ℕ
  | list items => items.length
  | str value => value.length
  | _ => 0

/-- The number of entries of a pattern. -/
def entryLength (pattern : Tree) : ℕ :=
  (pattern.get "properties").size

/-- The number of entries of all patterns at or below a value. -/
def entryTotal (t : Tree) : ℕ :=
  (t.objectPatterns.map entryLength).sum

/-- The number of entries of all patterns in what a field holds. -/
def fieldTotal (t : Tree) : ℕ :=
  (t.patternsInField.map entryLength).sum

theorem fieldTotal_list (items : List Tree) :
    fieldTotal (list items) = (items.map entryTotal).sum := by
  show ((patternsInEntries items).map entryLength).sum = _
  rw [patternsInEntries_eq, List.map_flatMap, List.flatMap, List.sum_flatten, List.map_map]
  rfl

/-- The entries in a node are its own and those in its fields. -/
theorem entryTotal_node (shape : Shape) (attributes : List (String × Tree)) :
    (node shape attributes).entryTotal = if shape.isNode then
      (if (node shape attributes).hasType "ObjectPattern" then (node shape attributes).entryLength
        else 0) + (attributes.map fun a =>
          if a.1 ∈ shape.fields?.getD [] then a.2.fieldTotal else 0).sum
    else 0 := by
  unfold entryTotal
  rw [objectPatterns]
  split
  · rw [patternsInAttributes_eq, List.map_append, List.sum_append, List.map_flatMap, List.flatMap,
      List.sum_flatten, List.map_map]
    congr 1
    · split <;> simp
    · refine congrArg List.sum (List.map_congr_left fun a _ => ?_)
      dsimp only [Function.comp_apply]
      split <;> simp [fieldTotal]
  · rfl

theorem size_stripField_le : (stripField names drop t).size ≤ t.size := by
  cases t with
  | list items =>
    show (stripEntries names drop items).length ≤ items.length
    rw [stripEntries_eq, List.length_map]
    exact List.length_filter_le _ _
  | _ => exact le_rfl

/-- A node with its fields stripped has no more entries than before. -/
theorem entryLength_stripFields_le : (t.stripFields names drop).entryLength ≤ t.entryLength := by
  unfold entryLength
  rw [get_stripFields]
  split
  · exact size_stripField_le
  · exact le_rfl

/-- Where stripping makes the entries in the attributes of a node no more, it makes those in the node
no more. -/
theorem entryTotal_stripFields_le {shape : Shape} {attributes : List (String × Tree)}
    (h : ∀ a ∈ attributes, ∀ drop, (stripField names drop a.2).fieldTotal ≤ a.2.fieldTotal) :
    ((node shape attributes).stripFields names drop).entryTotal ≤
      (node shape attributes).entryTotal := by
  have hown : ((node shape attributes).stripFields names drop).entryLength ≤
      (node shape attributes).entryLength := entryLength_stripFields_le
  have htype : ((node shape attributes).stripFields names drop).hasType "ObjectPattern" =
      (node shape attributes).hasType "ObjectPattern" := hasType_stripFields "ObjectPattern"
  unfold stripFields at hown htype ⊢
  rw [entryTotal_node, entryTotal_node, htype]
  split
  · refine Nat.add_le_add ?_ ?_
    · split
      · exact hown
      · exact le_rfl
    · rw [stripAttributes_eq, List.map_map]
      refine List.sum_le_sum fun a ha => ?_
      dsimp only [Function.comp_apply]
      split
      · exact h a ha _
      · exact le_rfl
  · exact le_rfl

/-- Stripping makes the entries no more, at or below a value and in a field. -/
theorem entryTotal_le_and_fieldTotal_le (names : List String) (t : Tree) :
    (t.strip names).entryTotal ≤ t.entryTotal ∧
      ∀ drop, (stripField names drop t).fieldTotal ≤ t.fieldTotal := by
  induction t using Tree.induction with
  | leaf t hlist hnode =>
    have hsame : t.strip names = t := strip_of_not_node names hnode
    refine ⟨by rw [hsame], fun drop => ?_⟩
    rw [stripField_of_ne_list hlist, hsame]
  | list items ih =>
    refine ⟨le_rfl, fun drop => ?_⟩
    show fieldTotal (list (stripEntries names drop items)) ≤ _
    rw [fieldTotal_list, fieldTotal_list, stripEntries_eq, List.map_map]
    refine le_trans (List.sum_le_sum (g := entryTotal) fun t ht => ?_) ?_
    · exact (ih t (List.mem_filter.mp ht).1).1
    · exact (List.filter_sublist.map entryTotal).sum_le_sum fun _ _ => Nat.zero_le _
  | node shape attributes ih =>
    have hstrip : ((node shape attributes).strip names).entryTotal ≤
        (node shape attributes).entryTotal := by
      rw [strip_eq_stripFields]
      exact entryTotal_stripFields_le fun a ha => (ih a ha).2
    exact ⟨hstrip, fun drop => hstrip⟩

theorem entryTotal_stripBelow_le (names : List String) (t : Tree) :
    (t.stripBelow names).entryTotal ≤ t.entryTotal := by
  rw [stripBelow_eq_stripFields]
  cases t with
  | node shape attributes =>
    exact entryTotal_stripFields_le fun a _ => (entryTotal_le_and_fieldTotal_le names a.2).2
  | _ => exact le_rfl

/-! ### What can be counted -/

theorem size_of_length {n : ℕ} (h : t.length = .ok n) : t.size = n := by
  cases t with
  | list items => exact Except.ok.inj h
  | str value => exact Except.ok.inj h
  | _ => cases h

/-- What is counted, if it can be counted, are the entries of all patterns at or below the node. -/
theorem entryTotal_of_countProperties {n : ℕ} (h : t.countProperties = .ok n) : t.entryTotal = n := by
  obtain ⟨patterns, hpatterns, hrest⟩ := Built.bind_eq_ok.mp h
  obtain ⟨counts, hcounts, -⟩ := Built.bind_eq_ok.mp hrest
  have hlengths : patterns.map entryLength = counts := by
    refine (List.forall₂_eq_eq_eq ▸ List.forall₂_map_left_iff.mpr ?_ :)
    refine (Built.mapM_eq_ok_iff.mp hcounts).imp fun pattern count hcount => ?_
    obtain ⟨properties, hproperties, hlength⟩ := Built.bind_eq_ok.mp hcount
    unfold entryLength
    rw [get_of_read hproperties, size_of_length hlength]
  have hcount := countProperties_eq patterns counts hpatterns hcounts
  rw [h, Except.ok.injEq] at hcount
  unfold entryTotal
  rw [objectPatterns_of_collectPatterns hpatterns, hlengths, hcount]

/-- The entries in a node can be counted if all patterns have lists of them. -/
theorem countProperties_eq_entryTotal {type : Tree} (htype : t.attr? "type" = some type)
    (hnode : t.isNode = true) (h : ∀ pattern ∈ t.objectPatterns,
      ∃ items, pattern.attr? "properties" = some (list items)) :
    t.countProperties = .ok t.entryTotal := by
  obtain ⟨counts, hcounts⟩ : ∃ counts : List ℕ, t.objectPatterns.mapM entryCount =
      .ok (counts.map id) := by
    refine Built.exists_mapM_eq_ok fun pattern hpattern => ?_
    obtain ⟨items, hitems⟩ := h pattern hpattern
    refine ⟨items.length, ?_⟩
    unfold entryCount read
    rw [hitems]
    rfl
  have hpatterns : t.collectPatterns = .ok t.objectPatterns := by
    cases t with
    | node shape attributes =>
      obtain ⟨fields, hfields⟩ := Shape.exists_fields_of_isNode hnode
      unfold collectPatterns read
      rw [htype]
      dsimp only
      rw [hfields]
      rfl
    | _ => exact absurd hnode Bool.false_ne_true
  have hcount := countProperties_eq _ _ hpatterns hcounts
  rw [hcount, entryTotal_of_countProperties hcount]

end Tree

namespace Store

variable {s : Store} {a : Atom} {pattern : Tree}

/-- The patterns in an attribute are those at or below the values that it holds. -/
theorem exists_of_mem_patternsInField {v : Value} (hlist : ∀ b, v = .atom b → s.isSequence b = false)
    (h : pattern ∈ (v.toTree s.tree).patternsInField) :
    ∃ b ∈ v.atoms, pattern ∈ (s.tree b).objectPatterns := by
  cases v with
  | items values =>
    change pattern ∈ Tree.patternsInEntries (values.map s.tree) at h
    rw [Tree.patternsInEntries_eq, List.flatMap_map] at h
    exact List.mem_flatMap.mp h
  | atom b =>
    refine ⟨b, List.mem_singleton_self b, ?_⟩
    rwa [← Tree.patternsInField_of_ne_list (tree_ne_list (hlist b rfl))]

/-- The patterns at or below a written-out value are the written-out patterns that hang below it. -/
theorem exists_of_mem_objectPatterns (hs : s.WellFormed) (h : pattern ∈ (s.tree a).objectPatterns) :
    ∃ q ∈ s.region a, s.isNode (.ref q) = true ∧ s.tree (.ref q) = pattern ∧
      pattern.hasType "ObjectPattern" = true := by
  induction a using s.atom_induction with
  | plain a hplain =>
    obtain ⟨shape, attributes, htree⟩ := Tree.exists_node_of_mem_objectPatterns h
    obtain ⟨r, -, rfl, -⟩ := exists_record_of_tree htree
    cases hplain
  | ref r ih =>
    obtain ⟨shape, attributes, htree⟩ := Tree.exists_node_of_mem_objectPatterns h
    obtain ⟨r', held, hr', ho, rfl⟩ := exists_record_of_tree htree
    cases hr'
    rw [htree] at h
    obtain ⟨hshape, ⟨htype, rfl⟩ | ⟨b, hb, -, hpattern⟩⟩ := Tree.mem_objectPatterns_node.mp h
    · exact ⟨r, self_mem_region r, (isNode_ref ho).trans hshape, htree, htype⟩
    · obtain ⟨⟨name, v⟩, ha, rfl⟩ := List.mem_map.mp hb
      have hlist : ∀ c, v = .atom c → s.isSequence c = false := by
        rintro c rfl
        exact hs.isSequence_of_mem ho ha
      obtain ⟨c, hc, hpattern⟩ := exists_of_mem_patternsInField hlist hpattern
      have hatom : c ∈ (Obj.record shape held).atoms := List.mem_flatMap.mpr ⟨_, ha, hc⟩
      obtain ⟨q, hq, hfound⟩ := ih _ ho c hatom hpattern
      exact ⟨q, region_subset ho hatom hq, hfound⟩

/-- The written-out value is a node exactly if the value is. -/
theorem isNode_tree (a : Atom) : (s.tree a).isNode = s.isNode a := by
  have hwritten := s.writtenAs_tree a
  generalize s.tree a = t at hwritten ⊢
  cases hwritten with
  | missing hobj => simp [isNode, shape?, hobj, Tree.isNode]
  | sequence hobj => simp [isNode, shape?, hobj, Tree.isNode]
  | record hobj => rw [isNode_ref hobj]; rfl
  | _ => simp [isNode, shape?, Tree.isNode]

/-- The entries in a node can be counted if all patterns at or below it can be stripped. -/
theorem countProperties_tree (hs : s.WellFormed) (hnode : s.isNode a = true)
    (hstrip : ∀ q ∈ s.region a, s.isNode (.ref q) = true → s.Strippable q) :
    (s.tree a).countProperties = .ok (s.tree a).entryTotal := by
  obtain ⟨r, shape, attributes, rfl, ho, hshape⟩ := exists_record_of_isNode hnode
  obtain ⟨v, hv⟩ := hs.exists_type ho hshape
  have htype : (s.tree (.ref r)).attr? "type" = some (v.toTree s.tree) := by
    rw [attr?_tree, hv, Option.map_some]
  refine Tree.countProperties_eq_entryTotal htype (by rw [isNode_tree, hnode]) fun q hq => ?_
  obtain ⟨x, hx, hisNode, rfl, hpattern⟩ := exists_of_mem_objectPatterns hs hq
  exact (hstrip x hx hisNode).exists_entries hpattern

end Store

end NamedExports
