import NamedExports.Proofs.Store.Shrink
import NamedExports.Proofs.Strip.Outcome
import NamedExports.Proofs.Walk.Tour

/-!
# Stripping where nothing is shared

Where no object hangs in two places of a tree, an object that stripping enters hangs as a node in
the fields of nodes, and nowhere else.  So what stripping does to a node of such a tree is the
recursive filter, whatever else hangs in the tree (`Store.Has.separate`).
-/

namespace NamedExports

namespace Labelled

variable {t n m : Labelled} {x : Ref}

/-- A node of a tree that hangs somewhere below another node, where no object hangs in two places,
hangs below it as a node in fields. -/
theorem mem_nodes_children (hrefs : t.refs.Nodup) (hn : n ∈ nodes [t]) (hm : m ∈ nodes [t])
    (hx : m.atom = .ref x) (hmem : x ∈ n.refs) (hne : n.atom ≠ .ref x) : m ∈ nodes n.children := by
  refine nodes_induction (motive := fun t => t.refs.Nodup → m ∈ nodes [t] → m ∈ nodes n.children) hn
    ?_ ?_ hrefs hm
  · intro hnode _ hm
    rw [nodes_singleton hnode, List.mem_cons] at hm
    exact hm.resolve_left fun hroot => hne (hroot ▸ hx)
  · intro t c hnode hc hn ih hrefs hm
    have hxc : x ∈ c.refs := refs_subset_of_mem_nodes hn hmem
    rw [nodes_singleton hnode, List.mem_cons] at hm
    rcases hm with rfl | hm
    · exact absurd (List.mem_flatMap.mpr ⟨c, hc, hxc⟩) (not_mem_refs_children hrefs hx)
    · -- the child that has the one node also has the other
      obtain ⟨d, hd, hm⟩ := mem_nodes_iff.mp hm
      have hxd : x ∈ d.refs := refs_subset_of_mem_nodes hm (mem_refs_of_atom hx)
      have hchildren := nodup_refs_children hrefs
      rw [← eq_of_nodup_flatMap hchildren hc hd hxc hxd] at hm
      exact ih ((List.nodup_flatMap.mp hchildren).1 c hc) hm

/-- What is held by an attribute, as it is in a store. -/
theorem atoms_toValue (h : Held Labelled) : (toValue h).atoms = h.toList.map atom := by
  cases h <;> rfl

end Labelled

namespace Store

open Labelled (nodes)

variable {s : Store} {t n : Labelled} {names : List String}

/-- What hangs below a value of a tree are objects of the tree. -/
theorem Has.region_subset (h : s.Has t) : ∀ q ∈ s.region t.atom, q ∈ t.refs := by
  induction t with
  | value a plain =>
    rintro q ⟨r, hr, -⟩
    rw [show a = .ref r from hr] at plain
    cases plain
  | sequence r items ih =>
    intro q hq
    rw [Labelled.refs_sequence]
    rcases (mem_region_iff h.obj?_sequence).mp hq with rfl | ⟨a, ha, hq⟩
    · exact List.mem_cons_self
    · obtain ⟨u, hu, rfl⟩ := List.mem_map.mp ha
      exact List.mem_cons_of_mem _ (List.mem_flatMap.mpr ⟨u, hu, ih u hu (h.of_mem_sequence hu) q hq⟩)
  | record r shape attributes ih =>
    intro q hq
    rw [Labelled.refs_record]
    rcases (mem_region_iff h.obj?_record).mp hq with rfl | ⟨a, ha, hq⟩
    · exact List.mem_cons_self
    · obtain ⟨b, hb, ha⟩ := List.mem_flatMap.mp ha
      obtain ⟨c, hc, rfl⟩ := List.mem_map.mp hb
      rw [Labelled.atoms_toValue] at ha
      obtain ⟨u, hu, rfl⟩ := List.mem_map.mp ha
      exact List.mem_cons_of_mem _ (List.mem_flatMap.mpr ⟨c, hc, List.mem_flatMap.mpr
        ⟨u, hu, ih c hc u hu (h.of_mem_record hc hu) q hq⟩⟩)

/-- What a stripped object holds in its fields the object holds there. -/
theorem fieldAtoms_stripObj_subset (o : Obj) : (s.stripObj names o).fieldAtoms ⊆ o.fieldAtoms := by
  cases o with
  | sequence values =>
    rw [stripObj_sequence]
    exact List.Subset.refl _
  | record shape attributes =>
    rw [stripObj_record_eq]
    intro b hb
    obtain ⟨name, hname, hb⟩ := List.mem_flatMap.mp hb
    refine List.mem_flatMap.mpr ⟨name, hname, ?_⟩
    rw [lookup_map fun name v => s.stripValue names
      ((Obj.record shape attributes).isPattern && name == "properties") v] at hb
    cases hlookup : attributes.lookup name with
    | none => simp [hlookup] at hb
    | some v =>
      rw [hlookup] at hb
      cases v with
      | atom value => exact hb
      | items values => exact List.mem_of_mem_filter hb

/-- The nodes in the fields of a node of a tree are its children there. -/
theorem Has.exists_child {r c : Ref} {o : Obj} (h : s.Has t) (hatom : t.atom = .ref r)
    (ho : s.obj? r = some o) (hc : s.Child o c) :
    ∃ u ∈ t.children, s.Has u ∧ u.atom = .ref c ∧ u.isNode = true := by
  cases t with
  | value a plain =>
    rw [show a = .ref r from hatom] at plain
    cases plain
  | sequence q items =>
    cases hatom
    cases ho.symm.trans h.obj?_sequence
    exact absurd hc.1 List.not_mem_nil
  | record q shape attributes =>
    cases hatom
    cases ho.symm.trans h.obj?_record
    obtain ⟨name, hname, hatom⟩ := List.mem_flatMap.mp hc.1
    rw [lookup_map_snd] at hatom
    cases hlookup : attributes.lookup name with
    | none => simp [hlookup] at hatom
    | some held =>
      rw [hlookup, Option.map_some, Option.map_some, Option.getD_some, Labelled.atoms_toValue] at hatom
      obtain ⟨u, hu, hatom⟩ := List.mem_map.mp hatom
      have hattribute := mem_of_lookup hlookup
      have hhas : s.Has u := h.of_mem_record hattribute hu
      refine ⟨u, List.mem_flatMap.mpr ⟨(name, held), ?_, hu⟩, hhas, hatom, ?_⟩
      · exact List.mem_filter.mpr ⟨hattribute, by simpa using hname⟩
      · rw [← hhas.isNode_atom, hatom, hc.2]

/-- What stripping enters from a node of a tree are nodes at and below it. -/
theorem Has.exists_node_of_entered {r q : Ref} (hentered : s.Entered names r q) (h : s.Has t)
    (hatom : t.atom = .ref r) (hnode : t.isNode = true) :
    ∃ m ∈ nodes [t], s.Has m ∧ m.atom = .ref q := by
  induction hentered generalizing t with
  | self r =>
    rw [Labelled.nodes_singleton hnode]
    exact ⟨t, List.mem_cons_self, h, hatom⟩
  | step ho hc _ ih =>
    obtain ⟨u, hu, hhas, hatomu, hnodeu⟩ :=
      h.exists_child hatom ho ⟨fieldAtoms_stripObj_subset _ hc.1, hc.2⟩
    obtain ⟨m, hm, hfound⟩ := ih hhas hatomu hnodeu
    refine ⟨m, ?_, hfound⟩
    rw [Labelled.nodes_singleton hnode]
    exact List.mem_cons_of_mem _ (Labelled.mem_nodes_iff.mpr ⟨u, hu, hm⟩)

/-- What stripping enters below a node of a tree are nodes below it. -/
theorem Has.exists_node_of_enteredBelow {q : Ref} (h : s.Has t) (hnode : t.isNode = true)
    (hq : q ∈ s.enteredBelow names t.atom) : ∃ m ∈ nodes [t], s.Has m ∧ m.atom = .ref q := by
  obtain ⟨r, o, hatom, ho, c, hc, hisNode, hentered⟩ := hq
  obtain ⟨u, hu, hhas, hatomu, hnodeu⟩ := h.exists_child hatom ho ⟨hc, hisNode⟩
  obtain ⟨m, hm, hfound⟩ := hhas.exists_node_of_entered hentered hatomu hnodeu
  refine ⟨m, ?_, hfound⟩
  rw [Labelled.nodes_singleton hnode]
  exact List.mem_cons_of_mem _ (Labelled.mem_nodes_iff.mpr ⟨u, hu, hm⟩)

/-- What a node holds aside has no object in common with what hangs below the node in fields. -/
theorem Has.not_mem_region_of_aside {r x : Ref} {shape : Shape}
    {attributes : List (String × Held Labelled)} (h : s.Has (.record r shape attributes))
    (hrefs : (Labelled.record r shape attributes).refs.Nodup) {b : Atom}
    (hb : b ∈ s.aside (Labelled.toObj shape attributes)) {m : Labelled}
    (hm : m ∈ nodes (Labelled.record r shape attributes).children) (hx : m.atom = .ref x) :
    x ∉ s.region b := by
  intro hmem
  obtain ⟨c, hc, hm⟩ := Labelled.mem_nodes_iff.mp hm
  have hxc : x ∈ c.refs :=
    Labelled.refs_subset_of_mem_nodes hm (Labelled.mem_refs_of_atom hx)
  have hnode : c.isNode = true := Labelled.isNode_of_mem_nodes_singleton hm
  obtain ⟨a', ha', hc⟩ := List.mem_flatMap.mp hc
  obtain ⟨ha', hfield⟩ := List.mem_filter.mp ha'
  obtain ⟨v, hv, hb⟩ := List.mem_flatMap.mp hb
  obtain ⟨a, ha, rfl⟩ := List.mem_map.mp hv
  dsimp only at hb
  have hatom : b ∈ a.2.toList.map Labelled.atom := by
    rw [← Labelled.atoms_toValue]
    split at hb
    · exact List.mem_of_mem_filter hb
    · exact hb
  obtain ⟨u, hu, rfl⟩ := List.mem_map.mp hatom
  have hhas : s.Has u := h.of_mem_record ha hu
  have hxu : x ∈ u.refs := hhas.region_subset x hmem
  -- both hang in the same place, which is a node in a field
  rw [Labelled.refs_record] at hrefs
  have hattributes := (List.nodup_cons.mp hrefs).2
  have hsame := eq_of_nodup_flatMap hattributes ha ha' (List.mem_flatMap.mpr ⟨u, hu, hxu⟩)
    (List.mem_flatMap.mpr ⟨c, hc, hxc⟩)
  subst hsame
  have huc := eq_of_nodup_flatMap ((List.nodup_flatMap.mp hattributes).1 a ha) hu hc hxu hxc
  subst huc
  rw [if_pos (by simpa using hfield), List.mem_filter, hhas.isNode_atom, hnode] at hb
  exact absurd hb.2 (by decide)

/-- What stripping enters below a node of a tree in which no object hangs in two places hangs as
nodes in fields only. -/
theorem Has.separate (names : List String) (h : s.Has t) (hrefs : t.refs.Nodup)
    (hnode : t.isNode = true) : s.Separate (s.enteredBelow names t.atom) t.atom := by
  intro q o hq ho b hb
  -- the object is a node of the tree
  obtain ⟨n, hn, hhas, hatom⟩ : ∃ n ∈ nodes [t], s.Has n ∧ n.atom = .ref q := by
    rcases hq with hq | hq
    · refine ⟨t, ?_, h, hq⟩
      rw [Labelled.nodes_singleton hnode]
      exact List.mem_cons_self
    · exact h.exists_node_of_enteredBelow hnode hq
  refine Set.disjoint_left.mpr fun x hx hentered => ?_
  obtain ⟨m, hm, -, hmx⟩ := h.exists_node_of_enteredBelow hnode hentered
  have hbelow : m ∈ nodes n.children := by
    refine Labelled.mem_nodes_children hrefs hn hm hmx ?_ ?_
    · exact hhas.region_subset x (hatom ▸ Store.region_subset ho (aside_subset_atoms hb) hx)
    · rw [hatom]
      rintro ⟨⟩
      exact not_mem_region ho (aside_subset_atoms hb) hx
  obtain ⟨r, shape, attributes, rfl, -⟩ :=
    Labelled.exists_record_of_isNode (Labelled.isNode_of_mem_nodes hn)
  cases hatom
  cases ho.symm.trans hhas.obj?_record
  exact hhas.not_mem_region_of_aside (Labelled.nodup_of_mem_nodes hrefs hn) hb hbelow hmx hx

/-- Trees that have no object in common have no objects in common that hang below them. -/
theorem pairwise_disjoint_region {ts : List Labelled} (h : ∀ t ∈ ts, s.Has t)
    (hrefs : (ts.flatMap Labelled.refs).Nodup) :
    (ts.map Labelled.atom).Pairwise fun a b => Disjoint (s.region a) (s.region b) := by
  refine List.pairwise_map.mpr ((List.nodup_flatMap.mp hrefs).2.imp_of_mem fun ht hu hdisjoint => ?_)
  exact Set.disjoint_left.mpr fun q hqt hqu =>
    hdisjoint ((h _ ht).region_subset q hqt) ((h _ hu).region_subset q hqu)

end Store

end NamedExports
