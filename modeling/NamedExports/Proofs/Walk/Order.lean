import NamedExports.Proofs.Walk.Remover
import NamedExports.Proofs.Walk.Rewrite
import NamedExports.Proofs.Walk.Tour

/-!
# The order of a walk

However a visitor removes nodes while it is walked, it goes along the tour of the tree as it was at
the start, and only leaves parts of it out (`Walk.Runs.along`).  The reason is that lists only lose
entries and that the index of a list never moves left of an entry that has been visited: what is
still to be visited is part of what came after it at the start.  So a node is entered once and left
once at most, it is left after it has been entered and after everything below it, and before
everything that follows (`Walk.Orderly`).
-/

namespace NamedExports

variable {σ : Type}

namespace Labelled

/-- The fields of a complete node are its attributes of these names, in their order. -/
theorem exists_fields {t : Labelled} {names : List String} {shape : Shape} {s : Store}
    (hcomplete : t.Complete) (hhas : s.Has t) (hshape : s.shape? t.atom = some shape)
    (hnames : shape.fields? = some names) :
    ∃ todo : List (String × Held Labelled), todo.map Prod.fst = names ∧ t.children = parts todo ∧
      ∀ a ∈ todo, s.attr? t.atom a.1 = some (toValue a.2) := by
  obtain ⟨r, attributes', hr, ho'⟩ := Store.exists_record_of_shape? hshape
  cases t with
  | value a plain =>
    have ha : a = .ref r := hr
    rw [ha] at plain
    cases plain
  | sequence q items =>
    cases hr
    rw [hhas.obj?_sequence] at ho'
    cases ho'
  | record q shape' attributes =>
    cases hr
    have ho := hhas.obj?_record
    have hsame : some shape' = some shape := (Store.shape?_ref ho).symm.trans hshape
    cases hsame
    have hnode : shape.isNode = true := by
      cases shape with
      | loose => cases hnames
      | _ => rfl
    have hadmits := hcomplete.record.1
    have hnodup := hadmits.nodup hnode
    obtain ⟨header, todo, rfl, hheader, htodo⟩ :=
      List.map_eq_append_iff.mp (hadmits.eq_append hnames)
    refine ⟨todo, htodo, ?_, fun a ha => ?_⟩
    · have hpassed : header.filter (fun a => a.1 ∈ names) = [] := by
        rw [List.filter_eq_nil_iff]
        intro a ha hmem
        exact Shape.headerNames_disjoint hnames a.1 (hheader ▸ List.mem_map_of_mem ha)
          (of_decide_eq_true hmem)
      have hlooked : todo.filter (fun a => a.1 ∈ names) = todo := by
        rw [List.filter_eq_self]
        exact fun a ha => decide_eq_true (htodo ▸ List.mem_map_of_mem ha)
      show parts (List.filter _ _) = _
      rw [hnames, Option.getD_some, List.filter_append, hpassed, hlooked, List.nil_append]
    · have hmem : (a.1, toValue a.2) ∈ (header ++ todo).map fun a => (a.1, toValue a.2) :=
        List.mem_map.mpr ⟨a, List.mem_append_right _ ha, rfl⟩
      refine (Store.attr?_ref ho a.1).trans (lookup_of_mem ?_ hmem)
      rw [List.map_map]
      exact hnodup

/-- The children of a tree that a store has are trees that it has, and complete if the tree is. -/
theorem has_children {t : Labelled} {s : Store} (hcomplete : t.Complete) (hhas : s.Has t) :
    ∀ u ∈ t.children, s.Has u ∧ u.Complete := by
  cases t with
  | record r shape attributes =>
    intro u hu
    have hpart := children_sublist_parts.subset hu
    exact ⟨(Store.has_record_iff.mp hhas).2 u hpart, hcomplete.record.2 u hpart⟩
  | _ => exact fun u hu => absurd hu List.not_mem_nil

end Labelled

namespace Walk

open Labelled (tours nodes moment toValue parts)

/-! ### Along the tour -/

/-- A call as a moment of a tour. -/
def Call.moment (c : Call σ) : Phase × Atom :=
  (c.phase, c.node)

/-- The trees that a task has ahead of it, as they were at the start. -/
def Task.Ahead (s : Store) (w : Workspace σ) (ts : List Labelled) : Task → Prop
  | .visit p => ∃ t, (w.path p).node = t.atom ∧ ts = [t]
  | .children p => ∃ t, (w.path p).node = t.atom ∧ t.isNode = true ∧ s.Has t ∧ t.Complete ∧
      ts = t.children
  | .fields _ owner names => ∃ todo : List (String × NamedExports.Held Labelled),
      todo.map Prod.fst = names ∧ ts = parts todo ∧ ∀ a ∈ todo, s.attr? owner a.1 = some (toValue a.2)
  | .field _ owner name => ∃ held, s.attr? owner name = some (toValue held) ∧ ts = held.toList
  | .entries _ owner list index =>
      ((w.store.entries owner list).drop index).Sublist (ts.map Labelled.atom)

/-- If a walk ends with a fault, it is the fault of the last call. -/
def FailsInCall (v : Visitor σ) (calls : List (Call σ)) (r : Outcome σ) : Prop :=
  ∀ fault w, r = .error fault w → ∃ before c, calls = before ++ [c] ∧ c.outcome v = .error fault w

/-- The calls go along the tours of some trees, and nothing else can fail. -/
structure Along (v : Visitor σ) (ts : List Labelled) (calls : List (Call σ)) (r : Outcome σ) :
    Prop where
  sublist : (calls.map Call.moment).Sublist ((tours ts).map moment)
  fault : FailsInCall v calls r

theorem drop_eq_cons {values : List Atom} {index : ℕ} {value : Atom}
    (h : values[index]? = some value) :
    values.drop index = value :: values.drop (index + 1) := by
  obtain ⟨hlt, rfl⟩ := List.getElem?_eq_some_iff.mp h
  exact (List.getElem_cons_drop hlt).symm

/-- Where what is left of a list is part of some trees, one of them is that of the next entry, and
what comes after the entry is part of those that come after this one. -/
theorem exists_split {values : List Atom} {index : ℕ} {value : Atom} {ts : List Labelled}
    (hindex : values[index]? = some value)
    (h : (values.drop index).Sublist (ts.map Labelled.atom)) :
    ∃ as t bs, ts = as ++ t :: bs ∧ t.atom = value ∧
      (values.drop (index + 1)).Sublist (bs.map Labelled.atom) := by
  rw [drop_eq_cons hindex] at h
  obtain ⟨front, back, hsplit, ha, hrest⟩ := List.cons_sublist_iff.mp h
  obtain ⟨us, vs, rfl, rfl, rfl⟩ := List.map_eq_append_iff.mp hsplit
  obtain ⟨t, ht, rfl⟩ := List.mem_map.mp ha
  obtain ⟨as, bs, rfl⟩ := List.append_of_mem ht
  refine ⟨as, t, bs ++ vs, by simp, rfl, ?_⟩
  rw [List.map_append]
  exact hrest.trans (List.sublist_append_right _ _)

namespace Along

variable {v : Visitor σ} {ts us : List Labelled} {calls calls' : List (Call σ)} {r : Outcome σ}

theorem nil (w : Workspace σ) : Along v ts [] (.ok () w) where
  sublist := List.nil_sublist _
  fault _ _ h := by cases h

theorem append {w : Workspace σ} (h : Along v ts calls (.ok () w)) (h' : Along v us calls' r) :
    Along v (ts ++ us) (calls ++ calls') r where
  sublist := by
    rw [Labelled.tours_append, List.map_append, List.map_append]
    exact h.sublist.append h'.sublist
  fault fault w' hr := by
    obtain ⟨before, c, rfl, hc⟩ := h'.fault fault w' hr
    exact ⟨calls ++ before, c, by rw [List.append_assoc], hc⟩

end Along

section Along

variable {v : Visitor σ} {removable : Atom → Prop} {start w : Workspace σ} {task : Task}
  {calls : List (Call σ)} {turns : List Turn} {r : Outcome σ} {ts : List Labelled} {t : Labelled}

/-- What is held as a node at some moment was a node at the start. -/
theorem isNode_of_held {a : Atom} (hw : start.Steps removable w) (hhas : start.store.Has t)
    (ha : a = t.atom) (hnode : w.store.isNode a = true) : t.isNode = true := by
  rw [← hhas.isNode_atom, ← (Workspace.Steps.shrinks hw).isNode_eq, ← ha, hnode]

/-- A visit has a single tree ahead of it, and that of a node. -/
theorem exists_tree_of_ahead {p : PathId} (hw : start.Steps removable w)
    (hheld : (Task.visit p).Held w) (hts : ∀ t ∈ ts, start.store.Has t ∧ t.Complete)
    (hahead : (Task.visit p).Ahead start.store w ts) :
    ∃ t, ts = [t] ∧ (w.path p).node = t.atom ∧ t.isNode = true ∧ start.store.Has t ∧ t.Complete := by
  obtain ⟨t, ha, rfl⟩ := hahead
  obtain ⟨hhas, hcomplete⟩ := hts t (List.mem_singleton_self t)
  exact ⟨t, rfl, ha, isNode_of_held hw hhas ha hheld.2, hhas, hcomplete⟩

/-- A visit of a new path has the tree ahead of it that the path leads to. -/
theorem ahead_addPath {path : Path} (s : Store) (h : path.node = t.atom) :
    (Task.visit w.nextPath).Ahead s (w.addPath path) [t] :=
  ⟨t, by rw [w.path_addPath_nextPath, h], rfl⟩

/-- The type of a complete node can be read at any time. -/
theorem run_typeOf_ne_error {a : Atom} {fault : Fault} {w' : Workspace σ}
    (hw : start.Steps removable w) (hhas : start.store.Has t) (hcomplete : t.Complete)
    (hnode : t.isNode = true) (ha : a = t.atom) : (Edit.typeOf a).run w ≠ .error fault w' := by
  obtain ⟨r, shape, attributes, rfl, hshape⟩ := Labelled.exists_record_of_isNode hnode
  obtain ⟨u, hu⟩ := exists_lookup_of_mem (hcomplete.record.1.type_mem hshape)
  have hattr : start.store.attr? (.ref r) "type" = some (toValue u) := by
    refine (Store.attr?_ref hhas.obj?_record "type").trans ?_
    unfold Labelled.toObj Obj.attr?
    dsimp only
    rw [lookup_map_snd, hu, Option.map_some]
  obtain ⟨u', hu', -⟩ := (Workspace.Steps.shrinks hw).attr?_some _ _ _ hattr
  rw [ha, show (Labelled.record r shape attributes).atom = .ref r from rfl, Edit.run_typeOf hu']
  exact nofun

/-- A field that holds a node held it at the start. -/
theorem eq_one_of_attr? {owner value : Atom} {name : String} {held : NamedExports.Held Labelled}
    (hw : start.Steps removable w) (hheld : start.store.attr? owner name = some (toValue held))
    (hattr : w.store.attr? owner name = some (.atom value)) (hnode : w.store.isNode value = true) :
    ∃ t, held = .one t ∧ t.atom = value := by
  have hvalue : value ≠ .null := by
    rintro rfl
    cases hnode
  have hstart := (Workspace.Steps.shrinks hw).attr?_atom_of hattr hvalue
  rw [hheld, Option.some.injEq] at hstart
  cases held with
  | one t =>
    cases hstart
    exact ⟨t, rfl, rfl⟩
  | many ts => cases hstart

/-- A list has only entries that it had at the start, in their order. -/
theorem eq_many_of_attr? {owner : Atom} {values : List Atom} {name : String}
    {held : NamedExports.Held Labelled} (hw : start.Steps removable w)
    (hheld : start.store.attr? owner name = some (toValue held))
    (hattr : w.store.attr? owner name = some (.items values)) :
    ∃ ts, held = .many ts ∧ values.Sublist (ts.map Labelled.atom) := by
  obtain ⟨u, hu, hshrinks⟩ := (Workspace.Steps.shrinks hw).exists_attr?_of hattr
  rw [hheld, Option.some.injEq] at hu
  cases held with
  | one t =>
    subst hu
    cases hshrinks
  | many ts =>
    subst hu
    cases hshrinks with
    | items hsub => exact ⟨ts, rfl, hsub⟩

/-- Something is handed on from the parts of a walk to the whole: it is said of the trees that a walk
has ahead of it, of the calls that it makes, and of how it ends. -/
structure HandedOn (v : Visitor σ) (P : List Labelled → List (Call σ) → Outcome σ → Prop) :
    Prop where
  nil (w : Workspace σ) : P [] [] (.ok () w)
  extend {ts us : List Labelled} {calls : List (Call σ)} {r : Outcome σ} (hts : ts.Sublist us)
    (h : P ts calls r) : P us calls r
  append {ts us : List Labelled} {calls calls' : List (Call σ)} {w : Workspace σ} {r : Outcome σ}
    (h : P ts calls (.ok () w)) (h' : P us calls' r) : P (ts ++ us) (calls ++ calls') r
  entered {t : Labelled} {c : Call σ} (hnode : t.isNode = true) (hphase : c.phase = .enter)
    (hatom : c.node = t.atom) : P [t] [c] (c.outcome v)
  halted {t : Labelled} {c : Call σ} {w : Workspace σ} {calls : List (Call σ)} {r : Outcome σ}
    (hnode : t.isNode = true) (hphase : c.phase = .enter) (hatom : c.node = t.atom)
    (henter : c.outcome v = .ok () w) (hlive : (w.path c.path).removed = false)
    (h : P t.children calls r) : P [t] (c :: calls) r
  left {t : Labelled} {c d : Call σ} {w : Workspace σ} {calls : List (Call σ)}
    (hnode : t.isNode = true) (hphase : c.phase = .enter) (hatom : c.node = t.atom)
    (henter : c.outcome v = .ok () w) (hlive : (w.path c.path).removed = false)
    (hexit : d.phase = .exit) (hpath : d.path = c.path) (hatom' : d.node = t.atom)
    (hlive' : (d.before.path d.path).removed = false)
    (h : P t.children calls (.ok () d.before)) : P [t] (c :: (calls ++ [d])) (d.outcome v)

/-- What is handed on from the parts of a walk to the whole holds of every walk. -/
theorem HandedOn.of_runs {P : List Labelled → List (Call σ) → Outcome σ → Prop}
    (hP : HandedOn v P) (hv : v.OnlyRemoves removable start) (h : Runs v task w calls turns r)
    (hw : start.Steps removable w) (hheld : task.Held w)
    (hts : ∀ t ∈ ts, start.store.Has t ∧ t.Complete) (hahead : task.Ahead start.store w ts) :
    P ts calls r := by
  have hnil : ∀ {ts} (w : Workspace σ), P ts [] (.ok () w) := fun w =>
    hP.extend (List.nil_sublist _) (hP.nil w)
  -- the trees ahead of a part are some of those ahead of the whole: lists only lose entries
  induction h generalizing ts with
  | untyped htype =>
    obtain ⟨t, rfl, ha, hnode, hhas, hcomplete⟩ := exists_tree_of_ahead hw hheld hts hahead
    exact absurd htype (run_typeOf_ne_error hw hhas hcomplete hnode ha)
  | entered htype henter hhalts =>
    obtain ⟨t, rfl, ha, hnode, -, -⟩ := exists_tree_of_ahead hw hheld hts hahead
    rw [← henter]
    exact hP.entered hnode rfl ha
  | halted htype henter hlive hbelow hhalts ih =>
    obtain ⟨t, rfl, ha, hnode, hhas, hcomplete⟩ := exists_tree_of_ahead hw hheld hts hahead
    have hcall := steps_of_call_ok hv hw hheld henter
    exact hP.halted hnode rfl ha henter hlive (ih (hw.trans hcall)
      (Workspace.Steps.knows hcall hheld.1) (Labelled.has_children hcomplete hhas)
      ⟨t, (Workspace.Steps.node_eq hcall hheld.1).trans ha, hnode, hhas, hcomplete, rfl⟩)
  | left htype henter hlive hbelow hleft ih =>
    obtain ⟨t, rfl, ha, hnode, hhas, hcomplete⟩ := exists_tree_of_ahead hw hheld hts hahead
    have hcall := steps_of_call_ok hv hw hheld henter
    have hknown := Workspace.Steps.knows hcall hheld.1
    have ha₁ := (Workspace.Steps.node_eq hcall hheld.1).trans ha
    have hchildren := hbelow.steps hv (hw.trans hcall) hknown
    exact hP.left hnode rfl ha henter hlive rfl rfl
      ((Workspace.Steps.node_eq hchildren hknown).trans ha₁) hleft (ih (hw.trans hcall) hknown
        (Labelled.has_children hcomplete hhas) ⟨t, ha₁, hnode, hhas, hcomplete, rfl⟩)
  | no_node hnode =>
    obtain ⟨t, ha, hisNode, hhas, hcomplete, rfl⟩ := hahead
    rw [ha, (Workspace.Steps.shrinks hw).isNode_eq, hhas.isNode_atom, hisNode] at hnode
    cases hnode
  | children hshape hnames hfields ih =>
    obtain ⟨t, ha, hisNode, hhas, hcomplete, rfl⟩ := hahead
    rw [ha, (Workspace.Steps.shrinks hw).shape?_eq] at hshape
    obtain ⟨todo, htodo, hchildren, hattrs⟩ := Labelled.exists_fields hcomplete hhas hshape hnames
    exact ih hw ⟨hheld, rfl⟩ hts ⟨todo, htodo, hchildren, by rwa [ha]⟩
  | fields_nil => exact hnil _
  | fields_stop hfield ih =>
    obtain ⟨todo, htodo, rfl, hattrs⟩ := hahead
    obtain ⟨a, rest, rfl, rfl, -⟩ := List.map_eq_cons_iff.mp htodo
    have hsplit : parts (a :: rest) = a.2.toList ++ parts rest := List.flatMap_cons
    rw [hsplit] at hts ⊢
    exact hP.extend (List.sublist_append_left _ _) (ih hw hheld
      (fun t ht => hts t (List.mem_append_left _ ht)) ⟨a.2, hattrs a List.mem_cons_self, rfl⟩)
  | fields_cons hfield hrest ih ihrest =>
    obtain ⟨todo, htodo, rfl, hattrs⟩ := hahead
    obtain ⟨a, rest, rfl, rfl, hnames⟩ := List.map_eq_cons_iff.mp htodo
    have hsplit : parts (a :: rest) = a.2.toList ++ parts rest := List.flatMap_cons
    rw [hsplit] at hts ⊢
    have hsteps := hfield.steps hv hw hheld
    exact hP.append (ih hw hheld (fun t ht => hts t (List.mem_append_left _ ht))
      ⟨a.2, hattrs a List.mem_cons_self, rfl⟩)
      (ihrest (hw.trans hsteps) (held_above hsteps hheld)
        (fun t ht => hts t (List.mem_append_right _ ht))
        ⟨rest, hnames, rfl, fun b hb => hattrs b (List.mem_cons_of_mem _ hb)⟩)
  | field_absent hattr => exact hnil _
  | field_skip hattr hnode => exact hnil _
  | field_node hattr hnode hvisit ih =>
    obtain ⟨held, hstart, rfl⟩ := hahead
    obtain ⟨t, rfl, ht⟩ := eq_one_of_attr? hw hstart hattr hnode
    exact ih (hw.tail (step_field _ hattr hheld)) (held_nextPath hnode) hts
      (ahead_addPath _ ht.symm)
  | field_items hattr hentries ih =>
    obtain ⟨held, hstart, rfl⟩ := hahead
    obtain ⟨ts, rfl, hsub⟩ := eq_many_of_attr? hw hstart hattr
    refine ih hw hheld hts (List.Sublist.trans ?_ hsub)
    rw [Store.entries_of_attr? hattr, List.drop_zero]
  | entries_end hindex => exact hnil _
  | entries_skip hindex hnode hrest ih =>
    refine ih hw hheld hts (List.Sublist.trans ?_ hahead)
    rw [drop_eq_cons hindex]
    exact List.sublist_cons_self _ _
  | entries_stop hindex hnode hvisit ih =>
    obtain ⟨as, t, bs, rfl, ht, -⟩ := exists_split hindex hahead
    refine hP.extend (List.singleton_sublist.mpr (by simp)) (@ih [t]
      (hw.tail (step_entry _ hindex hheld)) (held_nextPath hnode)
      (fun u hu => hts u (by simp [List.mem_singleton.mp hu])) (ahead_addPath _ ht.symm))
  | entries_next hindex hnode hvisit hrest ih ihrest =>
    obtain ⟨as, t, bs, rfl, ht, hbs⟩ := exists_split hindex hahead
    have htake := step_entry removable hindex hheld
    have hsteps := hvisit.steps_entry hv hw hheld hindex hnode
    have htree := @ih [t] (hw.tail htake) (held_nextPath hnode)
      (fun u hu => hts u (by simp [List.mem_singleton.mp hu])) (ahead_addPath _ ht.symm)
    have hothers := ihrest (hw.trans hsteps) (held_above hsteps hheld)
      (fun u hu => hts u (by simp [hu]))
      ((drop_nextIndex_sublist (Workspace.Steps.shrinks hsteps) hindex).trans hbs)
    exact hP.extend (List.sublist_append_right _ _) (hP.append htree hothers)

theorem moment_enter {c : Call σ} (hphase : c.phase = .enter) (hatom : c.node = t.atom) :
    c.moment = moment (.enter, t) := by
  unfold Call.moment
  rw [hphase, hatom]
  rfl

theorem handedOn_along (v : Visitor σ) : HandedOn v (Along v) where
  nil := .nil
  extend hts h := ⟨h.sublist.trans ((hts.flatMap Labelled.tour).map moment), h.fault⟩
  append := .append
  entered hnode hphase hatom := by
    refine ⟨?_, fun fault w hr => ⟨[], _, rfl, hr⟩⟩
    rw [Labelled.tours_cons, Labelled.tour_eq hnode]
    simp [moment_enter hphase hatom]
  halted hnode hphase hatom _ _ h := by
    refine ⟨?_, fun fault w hr => ?_⟩
    · rw [Labelled.tours_cons, Labelled.tour_eq hnode]
      simp only [List.map_cons, List.cons_append, List.map_append]
      rw [moment_enter hphase hatom, List.append_assoc]
      exact (h.sublist.trans (List.sublist_append_left _ _)).cons_cons _
    · obtain ⟨before, c, rfl, hc⟩ := h.fault fault w hr
      exact ⟨_ :: before, c, rfl, hc⟩
  left {t _ d _ calls} hnode hphase hatom _ _ hexit _ hatom' _ h := by
    refine ⟨?_, fun fault w hr => ⟨_ :: calls, _, rfl, hr⟩⟩
    have hd : d.moment = moment (.exit, t) := by
      unfold Call.moment
      rw [hexit, hatom']
      rfl
    rw [Labelled.tours_cons, Labelled.tour_eq hnode]
    simp only [List.map_cons, List.cons_append, List.map_append]
    rw [moment_enter hphase hatom, hd, List.append_assoc]
    exact (h.sublist.append (by simp)).cons_cons _

/-- A walk goes along the tours of the trees that it has ahead of it. -/
theorem Runs.along (hv : v.OnlyRemoves removable start) (h : Runs v task w calls turns r)
    (hw : start.Steps removable w) (hheld : task.Held w)
    (hts : ∀ t ∈ ts, start.store.Has t ∧ t.Complete) (hahead : task.Ahead start.store w ts) :
    Along v ts calls r :=
  (handedOn_along v).of_runs hv h hw hheld hts hahead

end Along

/-! ### Entering and leaving -/

/-- Every node that is left was entered before in the same visit, and the path of the visit has not
removed it. -/
def Paired (calls : List (Call σ)) : Prop :=
  ∀ before c after, calls = before ++ c :: after → c.phase = .exit →
    (c.before.path c.path).removed = false ∧
      ∃ e ∈ before, e.phase = .enter ∧ e.path = c.path ∧ e.type = c.type ∧ e.node = c.node

namespace Paired

variable {calls calls' : List (Call σ)} {c e : Call σ}

theorem nil : Paired ([] : List (Call σ)) :=
  fun before c after h => by simp at h

theorem append (h : Paired calls) (h' : Paired calls') : Paired (calls ++ calls') := by
  intro before c after hsplit hexit
  rcases List.append_eq_append_iff.mp hsplit with ⟨front, rfl, hcalls'⟩ | ⟨back, hcalls, hback⟩
  · obtain ⟨hlive, e, he, hpair⟩ := h' front c after hcalls' hexit
    exact ⟨hlive, e, List.mem_append_right _ he, hpair⟩
  · cases back with
    | nil =>
      obtain ⟨-, e, he, -⟩ := h' [] c after hback.symm hexit
      exact absurd he List.not_mem_nil
    | cons x back =>
      cases hback
      exact h before c back hcalls hexit

theorem enter (h : Paired calls) (he : e.phase = .enter) : Paired (e :: calls) := by
  intro before c after hsplit hexit
  cases before with
  | nil =>
    cases hsplit
    rw [he] at hexit
    cases hexit
  | cons x before =>
    cases hsplit
    obtain ⟨hlive, e', he', hpair⟩ := h before c after rfl hexit
    exact ⟨hlive, e', List.mem_cons_of_mem _ he', hpair⟩

theorem exit (h : Paired calls) (hlive : (c.before.path c.path).removed = false)
    (he : ∃ e ∈ calls, e.phase = .enter ∧ e.path = c.path ∧ e.type = c.type ∧ e.node = c.node) :
    Paired (calls ++ [c]) := by
  intro before x after hsplit hexit
  rcases List.append_eq_append_iff.mp hsplit with ⟨front, rfl, hlast⟩ | ⟨back, hcalls, hback⟩
  · cases front with
    | nil =>
      cases hlast
      rw [List.append_nil]
      exact ⟨hlive, he⟩
    | cons y front => simp at hlast
  · cases back with
    | nil =>
      cases hback
      rw [List.append_nil] at hcalls
      exact ⟨hlive, hcalls ▸ he⟩
    | cons y back =>
      cases hback
      exact h before x back hcalls hexit

end Paired

section Paired

variable {v : Visitor σ} {removable : Atom → Prop} {start w : Workspace σ} {task : Task}
  {calls : List (Call σ)} {turns : List Turn} {r : Outcome σ}

theorem Runs.paired (hv : v.OnlyRemoves removable start) (h : Runs v task w calls turns r)
    (hw : start.Steps removable w) (hheld : task.Held w) : Paired calls := by
  induction h with
  | untyped htype => exact .nil
  | entered htype henter hhalts => exact Paired.nil.enter rfl
  | halted htype henter hlive hbelow hhalts ih =>
    have hcall := steps_of_call_ok hv hw hheld henter
    exact (ih (hw.trans hcall) (Workspace.Steps.knows hcall hheld.1)).enter rfl
  | @left p w w₁ w₂ type calls turns htype henter hlive hbelow hleft ih =>
    have hcall := steps_of_call_ok hv hw hheld henter
    have hknown := Workspace.Steps.knows hcall hheld.1
    have hchildren := hcall.trans (hbelow.steps hv (hw.trans hcall) hknown)
    have hentered : Paired (⟨.enter, p, type, w⟩ :: calls) := (ih (hw.trans hcall) hknown).enter rfl
    refine hentered.exit hleft ⟨_, List.mem_cons_self, rfl, rfl, rfl, ?_⟩
    exact (Workspace.Steps.node_eq hchildren hheld.1).symm
  | no_node hnode => exact .nil
  | children hshape hnames hfields ih => exact ih hw ⟨hheld, rfl⟩
  | fields_nil => exact .nil
  | fields_stop hfield ih => exact ih hw hheld
  | fields_cons hfield hrest ih ihrest =>
    have hsteps := hfield.steps hv hw hheld
    exact (ih hw hheld).append (ihrest (hw.trans hsteps) (held_above hsteps hheld))
  | field_absent hattr => exact .nil
  | field_skip hattr hnode => exact .nil
  | field_node hattr hnode hvisit ih =>
    exact ih (hw.tail (step_field _ hattr hheld)) (held_nextPath hnode)
  | field_items hattr hentries ih => exact ih hw hheld
  | entries_end hindex => exact .nil
  | entries_skip hindex hnode hrest ih => exact ih hw hheld
  | entries_stop hindex hnode hvisit ih =>
    exact ih (hw.tail (step_entry _ hindex hheld)) (held_nextPath hnode)
  | entries_next hindex hnode hvisit hrest ih ihrest =>
    have htake := step_entry removable hindex hheld
    have hsteps := hvisit.steps_entry hv hw hheld hindex hnode
    exact (ih (hw.tail htake) (held_nextPath hnode)).append
      (ihrest (hw.trans hsteps) (held_above hsteps hheld))

end Paired

/-! ### Orderly walks -/

/-- The calls of a walk of some trees are in order. -/
structure Orderly (ts : List Labelled) (calls : List (Call σ)) : Prop where
  /-- The nodes that are entered are some of the nodes of the trees, in the order of these. -/
  preorder : ((calls.filter fun c => c.phase = .enter).map Call.node).Sublist
    ((nodes ts).map Labelled.atom)
  /-- No node is entered twice, and none is left twice. -/
  once : (calls.map Call.moment).Nodup
  /-- A node that is left was entered before in the same visit; its path has not removed it; nothing
  at or below the node comes later; and what was entered before and is not below the node comes
  before it in the order of the nodes. -/
  left : ∀ before c after, calls = before ++ c :: after → c.phase = .exit →
    (∃ e ∈ before, e.phase = .enter ∧ e.path = c.path ∧ e.type = c.type ∧ e.node = c.node) ∧
    (c.before.path c.path).removed = false ∧
    ∃ t ∈ nodes ts, t.atom = c.node ∧
      (∀ d ∈ after, d.node ∉ (nodes [t]).map Labelled.atom) ∧
      ∀ d ∈ before, d.node ∉ (nodes [t]).map Labelled.atom →
        [d.node, c.node].Sublist ((nodes ts).map Labelled.atom)

/-- A walk along the tours of trees in which no object hangs in two places is orderly. -/
theorem Along.orderly {v : Visitor σ} {ts : List Labelled} {calls : List (Call σ)} {r : Outcome σ}
    (h : Along v ts calls r) (hpaired : Paired calls) (hrefs : (ts.flatMap Labelled.refs).Nodup) :
    Orderly ts calls where
  preorder := by
    have hfilter := (h.sublist.filter fun m => m.1 = .enter).map Prod.snd
    rw [List.filter_map, List.filter_map, List.map_map, List.map_map] at hfilter
    unfold nodes
    rw [List.map_map]
    exact hfilter
  once := (Labelled.nodup_tours hrefs).sublist h.sublist
  left before c after hcalls hexit := by
    obtain ⟨hlive, hentered⟩ := hpaired before c after hcalls hexit
    have hsub := h.sublist
    rw [hcalls, List.map_append, List.map_cons] at hsub
    obtain ⟨m, hm, hmoment⟩ := List.mem_map.mp (hsub.subset (by simp : c.moment ∈ _))
    have hnode : m.2.atom = c.node := congrArg Prod.snd hmoment
    have hmem : m.2 ∈ nodes ts := Labelled.mem_tours_iff.mp hm
    rw [show c.moment = (.exit, m.2.atom) by rw [hnode, ← hexit]; rfl] at hsub
    obtain ⟨hafter, hbefore⟩ := Labelled.around_exit hrefs hsub hmem
    refine ⟨hentered, hlive, m.2, hmem, hnode, fun d hd => hafter _ (List.mem_map_of_mem hd),
      fun d hd hother => ?_⟩
    -- the visit of an earlier call began with a call for entering
    have henter : ∃ e ∈ before, e.phase = .enter ∧ e.node = d.node := by
      cases hphase : d.phase with
      | enter => exact ⟨d, hd, hphase, rfl⟩
      | exit =>
        obtain ⟨front, back, rfl⟩ := List.append_of_mem hd
        obtain ⟨-, e, he, henter, -, -, hsame⟩ :=
          hpaired front d (back ++ c :: after) (by simp [hcalls]) hphase
        exact ⟨e, List.mem_append_left _ he, henter, hsame⟩
    obtain ⟨e, he, hphase, hsame⟩ := henter
    rw [← hnode]
    refine hbefore d.node (List.mem_map.mpr ⟨e, he, ?_⟩) hother
    rw [← hsame, ← hphase]
    rfl

/-- A path to a node of the tree is held. -/
theorem held_children {t : Labelled} {w : Workspace σ} {p : PathId} (hhas : w.store.Has t)
    (hnode : t.isNode = true) (hp : (w.path p).node = t.atom) :
    (w.path p).node ≠ .null ∧ (Task.children p).Held w := by
  have hnotNull : (w.path p).node ≠ .null := by
    have hisNode := hhas.isNode_atom.trans hnode
    intro hnull
    rw [← hp, hnull] at hisNode
    cases hisNode
  exact ⟨hnotNull, Workspace.knows_of_node_ne hnotNull⟩

/-- A walk of a node, and a walk below a held path, ends, normally or with the fault of a call, and
visits the nodes in order, whatever the hooks remove on the way. -/
theorem walks_in_order {t : Labelled} (hrefs : t.refs.Nodup) (hcomplete : t.Complete)
    (hnode : t.isNode = true) {w : Workspace σ} (hhas : w.store.Has t) (v : Visitor σ)
    (removable : Atom → Prop) :
    (v.OnlyRemoves removable (w.addPath (.start t.atom)) →
      ∃ calls turns, Runs v (.visit w.nextPath) (w.addPath (.start t.atom)) calls turns
          ((Edit.walk v t.atom).run w) ∧
        Orderly [t] calls ∧ FailsInCall v calls ((Edit.walk v t.atom).run w)) ∧
    ∀ p, (w.path p).node = t.atom → (w.path p).removed = false → v.OnlyRemoves removable w →
      ∃ calls turns, Runs v (.children p) w calls turns ((Edit.walkBelow v p).run w) ∧
        Orderly t.children calls ∧ FailsInCall v calls ((Edit.walkBelow v p).run w) := by
  have hisNode : w.store.isNode t.atom = true := hhas.isNode_atom.trans hnode
  constructor
  · intro hv
    obtain ⟨calls, turns, hruns⟩ := Edit.runs_walk hv hisNode
    have hheld : (Task.visit w.nextPath).Held (w.addPath (.start t.atom)) := held_nextPath hisNode
    have htree : ∀ u ∈ [t], w.store.Has u ∧ u.Complete := fun u hu =>
      List.mem_singleton.mp hu ▸ ⟨hhas, hcomplete⟩
    have halong := hruns.along hv .refl hheld htree
      ⟨t, by rw [w.path_addPath_nextPath]; rfl, rfl⟩
    exact ⟨calls, turns, hruns, halong.orderly (hruns.paired hv .refl hheld) (by simpa using hrefs),
      halong.fault⟩
  · intro p hp hlive hv
    obtain ⟨hnotNull, hheld⟩ := held_children hhas hnode hp
    obtain ⟨calls, turns, hruns⟩ := Edit.runs_walkBelow hv hnotNull hlive
    have halong := hruns.along hv .refl hheld (Labelled.has_children hcomplete hhas)
      ⟨t, hp, hnode, hhas, hcomplete, rfl⟩
    exact ⟨calls, turns, hruns, halong.orderly (hruns.paired hv .refl hheld)
      (Labelled.nodup_refs_children hrefs), halong.fault⟩

/-- Entering `b` removes the object pattern that holds it and then `b` itself, and entering `c`
removes the entry that stands two places before it. -/
def clearing : Visitor (List Script.Event) :=
  Script.visitor [("Identifier", ⟨"enter", [⟨.log, none⟩, ⟨.removeAbove, some (.str "b")⟩,
    ⟨.remove, some (.str "b")⟩, ⟨.removeNeighbour (-2), some (.str "c")⟩], [⟨.log, none⟩]⟩)]

theorem walks_in_order_fourElements :
    let w : Workspace (List Script.Event) :=
      (Workspace.ofStore Pruner.fourElements []).addPath (.start (.ref ⟨4⟩))
    (∃ calls turns, Runs clearing (.visit w.nextPath) (w.addPath (.start (.ref ⟨4⟩))) calls turns
        ((Edit.walk clearing (.ref ⟨4⟩)).run w) ∧ Orderly [Pruner.fourElementsTree] calls) ∧
      ∃ calls turns, Runs clearing (.children ⟨0⟩) w calls turns
        ((Edit.walkBelow clearing ⟨0⟩).run w) ∧ Orderly Pruner.fourElementsTree.children calls := by
  intro w
  have hclosed : w.Closed := (Workspace.closed_ofStore _ _).addPath fun q hq => by cases hq
  have hv : clearing.OnlyRemoves anyValue w := (Script.removesAnywhere _ hclosed).onlyRemoves
  have hv' : clearing.OnlyRemoves anyValue (w.addPath (.start (.ref ⟨4⟩))) :=
    (Script.removesAnywhere _ (hclosed.addPath fun q hq => by cases hq)).onlyRemoves
  obtain ⟨hwalk, hbelow⟩ := walks_in_order (t := Pruner.fourElementsTree) (w := w)
    (by decide +kernel) (by decide +kernel) rfl (by decide +kernel) clearing anyValue
  obtain ⟨calls, turns, hruns, horderly, -⟩ := hwalk hv'
  obtain ⟨calls', turns', hruns', horderly', -⟩ := hbelow ⟨0⟩ rfl rfl hv
  exact ⟨⟨calls, turns, hruns, horderly⟩, calls', turns', hruns', horderly'⟩

end Walk

end NamedExports
