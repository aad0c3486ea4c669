import Mathlib.Data.List.Flatten
import NamedExports.Proofs.Walk.Pruner

/-!
# The tour of a tree

The tour of a tree lists its nodes in the order in which a walk that removes nothing meets them: a
node is entered, then come the tours of the nodes in its fields, then the node is left.  Entering
alone is the preorder (`Labelled.nodes`).  The tour of a node is one piece of every tour that has it
(`Labelled.exists_tours_eq`), and where no object hangs in two places nothing comes twice in a tour
(`Labelled.nodup_tours`).  So wherever a part of a tour leaves a node, it is through with what hangs
below the node, and has not come to what follows (`Labelled.around_exit`).
-/

namespace NamedExports.Labelled

mutual

/-- The nodes at and below a value, as they are entered and left. -/
def tour : Labelled → List (Phase × Labelled)
  | .record r shape attributes =>
    if shape.isNode then
      (.enter, .record r shape attributes) ::
        (tourOfAttributes (shape.fields?.getD []) attributes ++
          [(.exit, .record r shape attributes)])
    else []
  | _ => []

/-- The tours of the entries of a list. -/
def tourOfItems : List Labelled → List (Phase × Labelled)
  | [] => []
  | t :: ts => tour t ++ tourOfItems ts

/-- The tours of what the fields of a node hold. -/
def tourOfAttributes (fields : List String) :
    List (String × Held Labelled) → List (Phase × Labelled)
  | [] => []
  | (name, .one t) :: rest => (if name ∈ fields then tour t else []) ++ tourOfAttributes fields rest
  | (name, .many ts) :: rest =>
    (if name ∈ fields then tourOfItems ts else []) ++ tourOfAttributes fields rest

end

/-- What the fields of a node hold, in their order. -/
def children : Labelled → List Labelled
  | .record _ shape attributes =>
    parts (attributes.filter fun a => a.1 ∈ shape.fields?.getD [])
  | _ => []

/-- The tours of some trees, one after the other. -/
def tours (ts : List Labelled) : List (Phase × Labelled) :=
  ts.flatMap tour

/-- The nodes at and below some values, each before those below it. -/
def nodes (ts : List Labelled) : List Labelled :=
  ((tours ts).filter fun m => m.1 = .enter).map Prod.snd

/-- A moment of a tour, by the object of its node. -/
def moment (m : Phase × Labelled) : Phase × Atom :=
  (m.1, m.2.atom)

variable {t u : Labelled} {ts us : List Labelled} {phase : Phase}

/-! ### One node after the other -/

theorem tourOfItems_eq (ts : List Labelled) : tourOfItems ts = tours ts := by
  induction ts with
  | nil => rfl
  | cons t ts ih => rw [tourOfItems, ih, tours, tours, List.flatMap_cons]

theorem tourOfAttributes_eq (fields : List String) (attributes : List (String × Held Labelled)) :
    tourOfAttributes fields attributes = tours (parts (attributes.filter fun a => a.1 ∈ fields)) := by
  induction attributes with
  | nil => rfl
  | cons a rest ih =>
    have hhead : ∀ (held : Held Labelled) (name : String),
        tours (parts (((name, held) :: rest).filter fun a => a.1 ∈ fields)) =
          (if name ∈ fields then tours held.toList else []) ++
            tours (parts (rest.filter fun a => a.1 ∈ fields)) := by
      intro held name
      rw [List.filter_cons]
      by_cases hname : name ∈ fields
      · simp [hname, parts, tours]
      · simp [hname]
    obtain ⟨name, t | us⟩ := a
    · rw [tourOfAttributes, ih, hhead]
      simp [tours, Held.toList]
    · rw [tourOfAttributes, ih, hhead, tourOfItems_eq]
      rfl

/-- A node is entered before and left after what its fields hold. -/
theorem tour_eq (h : t.isNode = true) :
    t.tour = (.enter, t) :: (tours t.children ++ [(.exit, t)]) := by
  obtain ⟨r, shape, attributes, rfl, hshape⟩ := exists_record_of_isNode h
  rw [tour, if_pos hshape, tourOfAttributes_eq]
  rfl

/-- What is no node has no tour. -/
theorem tour_of_not_isNode (h : t.isNode = false) : t.tour = [] := by
  cases t with
  | record r shape attributes =>
    have hshape : ¬ shape.isNode = true := by
      rw [show shape.isNode = false from h]
      exact Bool.false_ne_true
    rw [tour, if_neg hshape]
  | _ => rfl

theorem tours_cons (t : Labelled) (ts : List Labelled) : tours (t :: ts) = t.tour ++ tours ts :=
  List.flatMap_cons

theorem tours_append (ts us : List Labelled) : tours (ts ++ us) = tours ts ++ tours us :=
  List.flatMap_append

theorem nodes_singleton (h : t.isNode = true) : nodes [t] = t :: nodes t.children := by
  unfold nodes
  rw [tours_cons, tour_eq h]
  simp [tours]

theorem nodes_of_not_isNode (h : t.isNode = false) : nodes [t] = [] := by
  unfold nodes
  rw [tours_cons, tour_of_not_isNode h]
  rfl

theorem mem_nodes_iff : u ∈ nodes ts ↔ ∃ t ∈ ts, u ∈ nodes [t] := by
  simp [nodes, tours]

/-- What hangs in a field hangs below the node. -/
theorem children_sublist_parts {r : Ref} {shape : Shape} {attributes : List (String × Held Labelled)} :
    (record r shape attributes).children.Sublist (parts attributes) :=
  List.filter_sublist.flatMap _

/-- A property of a node that its children hand on to it is one of all trees. -/
theorem children_induction {P : Labelled → Prop} (h : ∀ t, (∀ u ∈ t.children, P u) → P t)
    (t : Labelled) : P t := by
  induction t with
  | value a plain => exact h _ fun u hu => absurd hu List.not_mem_nil
  | sequence r items ih => exact h _ fun u hu => absurd hu List.not_mem_nil
  | record r shape attributes ih =>
    refine h _ fun u hu => ?_
    obtain ⟨a, ha, hu⟩ := List.mem_flatMap.mp (children_sublist_parts.subset hu)
    exact ih a ha u hu

/-- The nodes of a tour are nodes, and they are entered and left. -/
theorem mem_tour_iff : (phase, u) ∈ t.tour ↔ u ∈ nodes [t] := by
  induction t using children_induction with
  | h t ih =>
    cases hnode : t.isNode with
    | false =>
      rw [tour_of_not_isNode hnode, nodes_of_not_isNode hnode]
      exact iff_of_false List.not_mem_nil List.not_mem_nil
    | true =>
      have hbelow : (phase, u) ∈ tours t.children ↔ u ∈ nodes t.children := by
        rw [mem_nodes_iff, tours, List.mem_flatMap]
        exact exists_congr fun c => and_congr_right fun hc => ih c hc
      rw [tour_eq hnode, nodes_singleton hnode, List.mem_cons, List.mem_append, List.mem_cons,
        hbelow]
      cases phase <;> simp [or_comm]

theorem mem_tours_iff : (phase, u) ∈ tours ts ↔ u ∈ nodes ts := by
  rw [mem_nodes_iff, tours, List.mem_flatMap]
  exact exists_congr fun t => and_congr_right fun _ => mem_tour_iff

theorem isNode_of_mem_nodes_singleton (h : u ∈ nodes [t]) : t.isNode = true := by
  by_contra hnot
  rw [nodes_of_not_isNode (Bool.eq_false_of_not_eq_true hnot)] at h
  exact absurd h List.not_mem_nil

/-- A property of a node that is handed on from children to the nodes that have them is one of every
tree that has the node. -/
@[elab_as_elim]
theorem nodes_induction {motive : Labelled → Prop} (h : u ∈ nodes [t])
    (self : u.isNode = true → motive u)
    (child : ∀ t c, t.isNode = true → c ∈ t.children → u ∈ nodes [c] → motive c → motive t) :
    motive t := by
  induction t using children_induction with
  | h t ih =>
    have hnode := isNode_of_mem_nodes_singleton h
    rw [nodes_singleton hnode] at h
    rcases List.mem_cons.mp h with rfl | h
    · exact self hnode
    · obtain ⟨c, hc, h⟩ := mem_nodes_iff.mp h
      exact child t c hnode hc h (ih c hc h)

theorem isNode_of_mem_nodes (h : u ∈ nodes ts) : u.isNode = true := by
  obtain ⟨t, -, h⟩ := mem_nodes_iff.mp h
  exact nodes_induction h id fun _ _ _ _ _ ih => ih

theorem exists_tours_of_mem (h : t ∈ ts) : ∃ before after, tours ts = before ++ t.tour ++ after := by
  obtain ⟨as, bs, rfl⟩ := List.append_of_mem h
  refine ⟨tours as, tours bs, ?_⟩
  rw [tours_append, tours_cons, List.append_assoc]

/-- The tour of a node is one piece of every tour that has it. -/
theorem exists_tour_eq (h : u ∈ nodes [t]) : ∃ before after, t.tour = before ++ u.tour ++ after := by
  refine nodes_induction h (fun _ => ⟨[], [], by simp⟩) ?_
  rintro t c hnode hc - ⟨before, after, htour⟩
  obtain ⟨front, back, htours⟩ := exists_tours_of_mem hc
  refine ⟨(.enter, t) :: (front ++ before), after ++ (back ++ [(.exit, t)]), ?_⟩
  rw [tour_eq hnode, htours, htour]
  simp only [List.append_assoc, List.cons_append]

theorem exists_tours_eq (h : u ∈ nodes ts) : ∃ before after, tours ts = before ++ u.tour ++ after := by
  obtain ⟨t, ht, h⟩ := mem_nodes_iff.mp h
  obtain ⟨before, after, htour⟩ := exists_tour_eq h
  obtain ⟨front, back, htours⟩ := exists_tours_of_mem ht
  refine ⟨front ++ before, after ++ back, ?_⟩
  rw [htours, htour]
  simp only [List.append_assoc]

/-! ### Nothing comes twice -/

/-- The objects of a node are objects of every tree that has the node. -/
theorem refs_subset_of_mem_nodes (h : u ∈ nodes [t]) : u.refs ⊆ t.refs := by
  refine nodes_induction h (fun _ => List.Subset.refl _) ?_
  intro t c hnode hc _ ih
  obtain ⟨r, shape, attributes, rfl, -⟩ := exists_record_of_isNode hnode
  exact fun x hx => refs_subset_of_mem_parts (children_sublist_parts.subset hc) (ih hx)

/-- A node is an object of every tree that has it. -/
theorem exists_ref_of_mem_nodes (h : u ∈ nodes ts) :
    ∃ r, u.atom = .ref r ∧ r ∈ u.refs ∧ r ∈ ts.flatMap refs := by
  obtain ⟨t, ht, h⟩ := mem_nodes_iff.mp h
  obtain ⟨r, shape, attributes, rfl, -⟩ := exists_record_of_isNode (isNode_of_mem_nodes h)
  have hr : r ∈ (record r shape attributes).refs := mem_refs_of_atom rfl
  exact ⟨r, rfl, hr, List.mem_flatMap.mpr ⟨t, ht, refs_subset_of_mem_nodes h hr⟩⟩

/-- The objects of the children of a node are objects of the node. -/
theorem refs_children_subset (t : Labelled) : t.children.flatMap refs ⊆ t.refs := by
  cases t with
  | record r shape attributes =>
    intro q hq
    obtain ⟨u, hu, hq⟩ := List.mem_flatMap.mp hq
    exact refs_subset_of_mem_parts (children_sublist_parts.subset hu) hq
  | _ => exact fun q hq => absurd hq List.not_mem_nil

/-- A node does not hang below itself. -/
theorem not_mem_refs_children {r : Ref} (hrefs : t.refs.Nodup) (hatom : t.atom = .ref r) :
    r ∉ t.children.flatMap refs := by
  cases t with
  | record q shape attributes =>
    cases hatom
    rw [refs_record_eq] at hrefs
    exact fun hr => (List.nodup_cons.mp hrefs).1 ((children_sublist_parts.flatMap refs).subset hr)
  | _ => exact List.not_mem_nil

/-- No object hangs in two places of the children of a tree if none does in the tree. -/
theorem nodup_refs_children {t : Labelled} (h : t.refs.Nodup) : (t.children.flatMap refs).Nodup := by
  cases t with
  | record r shape attributes =>
    rw [refs_record_eq] at h
    exact (List.nodup_cons.mp h).2.sublist (children_sublist_parts.flatMap refs)
  | _ => exact List.nodup_nil

/-- No object hangs in two places of a node of a tree if none does in the tree. -/
theorem nodup_of_mem_nodes (hrefs : t.refs.Nodup) (h : u ∈ nodes [t]) : u.refs.Nodup := by
  refine nodes_induction (motive := fun t => t.refs.Nodup → u.refs.Nodup) h (fun _ => id) ?_ hrefs
  intro t c _ hc _ ih hrefs
  exact ih ((List.nodup_flatMap.mp (nodup_refs_children hrefs)).1 c hc)

/-- A moment of a tour is one of an object of the trees. -/
theorem exists_ref_of_mem_tours {m : Phase × Atom} (h : m ∈ (tours ts).map moment) :
    ∃ r ∈ ts.flatMap refs, m.2 = .ref r := by
  obtain ⟨⟨phase, u⟩, hm, rfl⟩ := List.mem_map.mp h
  obtain ⟨r, hatom, -, hr⟩ := exists_ref_of_mem_nodes (mem_tours_iff.mp hm)
  exact ⟨r, hr, hatom⟩

/-- The tours of trees that have no object in common have no moment in common. -/
theorem nodup_tours_of_each (hone : ∀ t ∈ ts, (t.tour.map moment).Nodup)
    (hrefs : (ts.flatMap refs).Nodup) : ((tours ts).map moment).Nodup := by
  induction ts with
  | nil => exact List.nodup_nil
  | cons t ts ih =>
    rw [List.flatMap_cons] at hrefs
    obtain ⟨-, hrest, hdisjoint⟩ := List.nodup_append.mp hrefs
    rw [tours_cons, List.map_append]
    refine List.nodup_append.mpr ⟨hone t List.mem_cons_self,
      ih (fun v hv => hone v (List.mem_cons_of_mem _ hv)) hrest, ?_⟩
    rintro m hm _ hm' rfl
    have hsingle : m ∈ (tours [t]).map moment := by
      rw [tours_cons]
      exact List.map_subset _ (List.subset_append_left _ _) hm
    obtain ⟨r, hr, hatom⟩ := exists_ref_of_mem_tours hsingle
    obtain ⟨r', hr', hatom'⟩ := exists_ref_of_mem_tours hm'
    rw [hatom] at hatom'
    cases hatom'
    exact hdisjoint r (by simpa using hr) r hr' rfl

/-- A node is not come to again below it. -/
theorem not_mem_tours_children (hrefs : t.refs.Nodup) (phase : Phase) :
    (phase, t.atom) ∉ (tours t.children).map moment := by
  intro hmem
  obtain ⟨r, hr, hatom⟩ := exists_ref_of_mem_tours hmem
  exact not_mem_refs_children hrefs hatom hr

theorem nodup_tour (hrefs : t.refs.Nodup) : (t.tour.map moment).Nodup := by
  induction t using children_induction with
  | h t ih =>
    cases hnode : t.isNode with
    | false =>
      rw [tour_of_not_isNode hnode]
      exact List.nodup_nil
    | true =>
      have hparts := nodup_refs_children hrefs
      have hchildren : ((tours t.children).map moment).Nodup :=
        nodup_tours_of_each (fun c hc => ih c hc ((List.nodup_flatMap.mp hparts).1 c hc)) hparts
      rw [tour_eq hnode, List.map_cons, List.map_append]
      refine List.nodup_cons.mpr ⟨fun hmem => ?_, List.nodup_append.mpr
        ⟨hchildren, List.nodup_singleton _, fun x hx y hy => ?_⟩⟩
      · rcases List.mem_append.mp hmem with hmem | hmem
        · exact not_mem_tours_children hrefs _ hmem
        · cases congrArg Prod.fst (List.mem_singleton.mp hmem)
      · rw [List.mem_singleton.mp hy]
        rintro rfl
        exact not_mem_tours_children hrefs _ hx

/-- Where no object hangs in two places of some trees, no moment comes twice in their tours. -/
theorem nodup_tours (h : (ts.flatMap refs).Nodup) : ((tours ts).map moment).Nodup :=
  nodup_tours_of_each (fun t ht => nodup_tour ((List.nodup_flatMap.mp h).1 t ht)) h

/-! ### Leaving a node -/

/-- What stands beside a member of a part of a list stands on the same side of it in the list. -/
theorem sublist_sides {α : Type} {x : α} {as bs before after : List α}
    (hnodup : (as ++ x :: bs).Nodup) (h : (before ++ x :: after).Sublist (as ++ x :: bs)) :
    before.Sublist as ∧ after.Sublist bs := by
  induction as generalizing before with
  | nil =>
    have hx : x ∉ bs := (List.nodup_cons.mp hnodup).1
    rcases List.sublist_cons_iff.mp h with hrest | ⟨rest, heq, hrest⟩
    · exact absurd (hrest.subset (by simp)) hx
    · cases before with
      | nil =>
        cases heq
        exact ⟨.refl _, hrest⟩
      | cons b before =>
        cases heq
        exact absurd (hrest.subset (by simp)) hx
  | cons a as ih =>
    obtain ⟨ha, has⟩ := List.nodup_cons.mp hnodup
    rcases List.sublist_cons_iff.mp h with hrest | ⟨rest, heq, hrest⟩
    · obtain ⟨hbefore, hafter⟩ := ih has hrest
      exact ⟨hbefore.cons a, hafter⟩
    · cases before with
      | nil =>
        cases heq
        exact absurd (by simp) ha
      | cons b before =>
        cases heq
        obtain ⟨hbefore, hafter⟩ := ih has hrest
        exact ⟨hbefore.cons_cons a, hafter⟩

/-- When a part of a tour leaves a node, nothing of the node comes afterwards, and what has been
entered before is below the node, or comes before it in the order of the nodes. -/
theorem around_exit {before after : List (Phase × Atom)} (hrefs : (ts.flatMap refs).Nodup)
    (h : (before ++ (.exit, u.atom) :: after).Sublist ((tours ts).map moment)) (hu : u ∈ nodes ts) :
    (∀ m ∈ after, m.2 ∉ (nodes [u]).map atom) ∧
      ∀ a, (.enter, a) ∈ before → a ∉ (nodes [u]).map atom →
        [a, u.atom].Sublist ((nodes ts).map atom) := by
  obtain ⟨xs, ys, htours⟩ := exists_tours_eq hu
  have hnode := isNode_of_mem_nodes hu
  have hnodup := nodup_tours hrefs
  -- the moments of the node and of what is below it, in one piece
  have hpiece : ∀ m : Phase × Atom, m ∈ u.tour.map moment ↔ m.2 ∈ (nodes [u]).map atom := by
    rintro ⟨phase, a⟩
    constructor
    · intro hm
      obtain ⟨m, hm, heq⟩ := List.mem_map.mp hm
      exact List.mem_map.mpr ⟨m.2, mem_tour_iff.mp hm, congrArg Prod.snd heq⟩
    · intro ha
      obtain ⟨c, hc, rfl⟩ := List.mem_map.mp ha
      exact List.mem_map.mpr ⟨(phase, c), mem_tour_iff.mpr hc, rfl⟩
  have hmoments : (tours ts).map moment =
      (xs.map moment ++ ((.enter, u.atom) :: (tours u.children).map moment)) ++
        (.exit, u.atom) :: ys.map moment := by
    rw [htours, tour_eq hnode]
    simp [moment]
  have hsides := hmoments ▸ hnodup
  rw [hmoments] at h
  obtain ⟨hbefore, hafter⟩ := sublist_sides hsides h
  constructor
  · intro m hm ha
    have hmu := (hpiece m).mpr ha
    rw [htours, List.map_append] at hnodup
    exact (List.nodup_append.mp hnodup).2.2 m (by simp [hmu]) m (hafter.subset hm) rfl
  · intro a ha hother
    have hxs : (Phase.enter, a) ∈ xs.map moment := by
      rcases List.mem_append.mp (hbefore.subset ha) with hmem | hmem
      · exact hmem
      · refine absurd ((hpiece (.enter, a)).mp ?_) hother
        rw [tour_eq hnode]
        simp only [List.map_cons, List.map_append]
        exact List.mem_append_left _ hmem
    obtain ⟨m, hm, heq⟩ := List.mem_map.mp hxs
    have hnodes : (nodes ts).map atom =
        ((xs.filter fun m => m.1 = .enter).map Prod.snd).map atom ++ (nodes [u]).map atom ++
          ((ys.filter fun m => m.1 = .enter).map Prod.snd).map atom := by
      unfold nodes
      rw [htours, tours_cons]
      simp [tours]
    rw [hnodes, nodes_singleton hnode]
    have hsingle : [a].Sublist (((xs.filter fun m => m.1 = .enter).map Prod.snd).map atom) := by
      rw [List.singleton_sublist]
      refine List.mem_map.mpr ⟨m.2, List.mem_map.mpr ⟨m, List.mem_filter.mpr ⟨hm, ?_⟩, rfl⟩, ?_⟩
      · exact decide_eq_true (show m.1 = .enter from congrArg Prod.fst heq)
      · exact congrArg Prod.snd heq
    have hself : [u.atom].Sublist ((u :: nodes u.children).map atom) := by simp
    exact (hsingle.append hself).trans (List.sublist_append_left _ _)

end NamedExports.Labelled
