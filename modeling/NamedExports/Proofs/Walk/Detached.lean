import NamedExports.Proofs.Walk.Coverage
import NamedExports.Proofs.Walk.Entered

/-!
# What a walk does with removed nodes

A node that has been removed before the walk comes to it is never entered, because it is looked for
where it hung (`Walk.Runs.attached`).  A node that is removed while it is visited is another matter:
the walk asks the path that it has taken to the node itself, once before it looks below the node and
once before it leaves the node, and no other path.  So whatever is done below a node comes after the
node was entered, as it still hung in the tree, and after the hook for entering it has returned
without that path having removed it (`Walk.walks_guarded`).

This is all that holds.  If a node is removed through another path, or from below, while it is
visited, the walk goes on below it, and may leave it (`Walk.not_quiet`).
-/

namespace NamedExports

variable {σ : Type}

namespace Labelled

/-! ### The nodes above a node -/

/-- A node of some trees, and the nodes of the trees above it, outermost first. -/
inductive Reached : List Labelled → List Labelled → Labelled → Prop where
  | here {ts : List Labelled} {u : Labelled} (hu : u ∈ ts) (hnode : u.isNode = true) :
      Reached ts [] u
  | step {ts above : List Labelled} {t u : Labelled} (ht : t ∈ ts) (hnode : t.isNode = true)
      (h : Reached t.children above u) : Reached ts (t :: above) u

variable {ts us above : List Labelled} {t u : Labelled}

namespace Reached

theorem mono (h : Reached ts above u) (hsub : ts ⊆ us) : Reached us above u := by
  cases h with
  | here hu hnode => exact .here (hsub hu) hnode
  | step ht hnode h => exact .step (hsub ht) hnode h

theorem mem_nodes (h : Reached ts above u) : u ∈ nodes ts := by
  induction h with
  | here hu hnode => exact mem_nodes_iff.mpr ⟨_, hu, by simp [nodes_singleton hnode]⟩
  | step ht hnode _ ih => exact mem_nodes_iff.mpr ⟨_, ht, by simp [nodes_singleton hnode, ih]⟩

end Reached

/-- Where no object hangs in two places, the nodes above a node are all nodes that it hangs below. -/
theorem Reached.mem_above (h : Reached ts above u) (hrefs : (ts.flatMap refs).Nodup)
    (ht : t ∈ nodes ts) (hu : u.atom ∈ (nodes t.children).map atom) : t ∈ above := by
  obtain ⟨r, hatom, hr, -⟩ := exists_ref_of_mem_nodes h.mem_nodes
  -- the object hangs below `t`, so `t` belongs to the one tree that has the object
  have hbelow : r ∈ t.children.flatMap refs := by
    obtain ⟨m, hm, hsame⟩ := List.mem_map.mp hu
    obtain ⟨q, hq, -, hmem⟩ := exists_ref_of_mem_nodes hm
    rw [hsame, hatom] at hq
    cases hq
    exact hmem
  have hroot : ∀ s ∈ ts, r ∈ s.refs → t ∈ nodes [s] := by
    intro s hs hrs
    obtain ⟨s', hs', ht⟩ := mem_nodes_iff.mp ht
    have hrs' := refs_subset_of_mem_nodes ht (refs_children_subset t hbelow)
    exact eq_of_nodup_flatMap hrefs hs' hs hrs' hrs ▸ ht
  induction h with
  | @here ts u hu' hnode =>
    have hnodup := (List.nodup_flatMap.mp hrefs).1 u hu'
    have ht := hroot u hu' hr
    rw [nodes_singleton hnode] at ht
    rcases List.mem_cons.mp ht with rfl | ht
    · exact absurd hbelow (not_mem_refs_children hnodup hatom)
    · obtain ⟨c, hc, ht⟩ := mem_nodes_iff.mp ht
      refine absurd (List.mem_flatMap.mpr ⟨c, hc, ?_⟩) (not_mem_refs_children hnodup hatom)
      exact refs_subset_of_mem_nodes ht (refs_children_subset t hbelow)
  | @step ts above s u hs hnode h ih =>
    obtain ⟨q, hq, -, hrs⟩ := exists_ref_of_mem_nodes h.mem_nodes
    rw [hatom] at hq
    cases hq
    have hnodup := (List.nodup_flatMap.mp hrefs).1 s hs
    have hts := hroot s hs (refs_children_subset s hrs)
    rw [nodes_singleton hnode] at hts
    rcases List.mem_cons.mp hts with rfl | hts
    · exact List.mem_cons_self
    · refine List.mem_cons_of_mem _ (ih (nodup_refs_children hnodup) hts hu hatom hr ?_)
      intro s' hs' hrs'
      obtain ⟨c, hc, hct⟩ := mem_nodes_iff.mp hts
      have hrc := refs_subset_of_mem_nodes hct (refs_children_subset t hbelow)
      exact eq_of_nodup_flatMap (nodup_refs_children hnodup) hc hs' hrc hrs' ▸ hct

end Labelled

namespace Walk

open Labelled (nodes Reached)
open Pruner (labelled)

/-! ### Calls at nodes that hang in the tree -/

/-- A hook is called at a node that some object holds at that moment. -/
def Call.Attached (objects : List Ref) (c : Call σ) : Prop :=
  ∀ q, c.node = .ref q → ¬ c.before.store.Gone objects q

section Attached

variable {v : Visitor σ} {removable : Atom → Prop} {start w : Workspace σ} {objects : List Ref}
  {task : Task} {calls : List (Call σ)} {turns : List Turn} {r : Outcome σ} {owner value : Atom}
  {slot : Slot}

/-- What stands in a place of an object of the tree hangs in the tree, with all its objects. -/
theorem hangs_childAt (hunshared : w.store.Unshared objects) (howner : owner.refs ⊆ objects)
    (hat : w.store.ChildAt owner slot value) :
    value.refs ⊆ objects ∧ ∀ q, value = .ref q → ¬ w.store.Gone objects q := by
  cases hat with
  | field hname hattr hnode =>
    obtain ⟨o, -, rfl, -⟩ := Store.exists_obj_of_attr? hattr
    have ho : o ∈ objects := howner (Atom.mem_refs.mpr rfl)
    refine ⟨hunshared.closed o ho _ _ hattr, ?_⟩
    rintro q rfl hgone
    exact hgone.attr?_ne ho _ hattr
  | entry hname hindex hnode =>
    obtain ⟨o, rfl, hattr⟩ := Store.exists_items_of_entries hindex
    have ho : o ∈ objects := howner (Atom.mem_refs.mpr rfl)
    have hmem := List.mem_of_getElem? hindex
    refine ⟨fun q hq => hunshared.closed o ho _ _ hattr (List.mem_flatMap.mpr ⟨_, hmem, hq⟩), ?_⟩
    rintro q rfl hgone
    exact hgone.not_mem_entries ho _ hmem

/-- Every node that a walk enters hangs in the tree at that moment, the first one aside. -/
theorem Runs.attached (hv : v.OnlyRemoves removable start) (h : Runs v task w calls turns r)
    (hunshared : start.store.Unshared objects) (hw : start.Steps removable w)
    (hheld : task.Held w) (hlawful : task.Lawful w)
    (hwithin : (w.path task.top).node.refs ⊆ objects) :
    ∀ c ∈ calls, c.phase = .enter → c.Attached objects ∨ task.Begins w c := by
  have hlater : ∀ w, start.Steps removable w → w.store.Unshared objects := fun w hsteps =>
    hunshared.shrink (Workspace.Steps.shrinks hsteps)
  intro c hc hphase
  refine (h.stands hv (fun w hsteps a slot b ha hat => (hangs_childAt (hlater w hsteps) ha hat).1) hw
    hheld hlawful hwithin c hc hphase).imp_left ?_
  rintro ⟨hsteps, above, slot, -, hat, habove⟩
  exact (hangs_childAt (hlater _ hsteps) habove hat).2

end Attached

/-! ### Visits within visits -/

/-- A node is entered by a call, after which the path of the visit has not removed it. -/
def Opens (v : Visitor σ) (t : Labelled) (e : Call σ) : Prop :=
  e.phase = .enter ∧ e.node = t.atom ∧
    ∃ w, e.outcome v = .ok () w ∧ (w.path e.path).removed = false

/-- A call that comes after some others is made at a node of some trees.  All nodes above the node
have been opened before; and if it is a call for leaving the node, then the node itself has been
opened through the same path, which has not removed it yet. -/
def Nests (v : Visitor σ) (ts : List Labelled) (before : List (Call σ)) (c : Call σ) : Prop :=
  ∃ above u, Reached ts above u ∧ c.node = u.atom ∧
    (∀ t ∈ above, ∃ e ∈ before, Opens v t e) ∧
    (c.phase = .exit → (c.before.path c.path).removed = false ∧
      ∃ e ∈ before, Opens v u e ∧ e.path = c.path)

/-- All calls of a walk are nested. -/
def Nested (v : Visitor σ) (ts : List Labelled) (calls : List (Call σ)) : Prop :=
  ∀ before c after, calls = before ++ c :: after → Nests v ts before c

section Nested

variable {v : Visitor σ} {ts us : List Labelled} {t : Labelled} {calls calls' before : List (Call σ)}
  {c e : Call σ}

theorem Nests.mono {before' : List (Call σ)} (h : Nests v ts before c) (hts : ts ⊆ us)
    (hbefore : before ⊆ before') : Nests v us before' c := by
  obtain ⟨above, u, hreached, hnode, habove, hexit⟩ := h
  refine ⟨above, u, hreached.mono hts, hnode, fun t ht => ?_, fun hphase => ?_⟩
  · obtain ⟨e, he, hopens⟩ := habove t ht
    exact ⟨e, hbefore he, hopens⟩
  · obtain ⟨hlive, e, he, hopens⟩ := hexit hphase
    exact ⟨hlive, e, hbefore he, hopens⟩

/-- A call below a node that has been opened. -/
theorem Nests.step (h : Nests v t.children before c) (hnode : t.isNode = true)
    (ht : ∃ e ∈ before, Opens v t e) : Nests v [t] before c := by
  obtain ⟨above, u, hreached, hatom, habove, hexit⟩ := h
  refine ⟨t :: above, u, .step (List.mem_singleton_self t) hnode hreached, hatom, ?_, hexit⟩
  exact List.forall_mem_cons.mpr ⟨ht, habove⟩

namespace Nested

theorem nil : Nested v ts [] :=
  fun before c after h => by simp at h

theorem mono (h : Nested v ts calls) (hts : ts ⊆ us) : Nested v us calls :=
  fun before c after hsplit => (h before c after hsplit).mono hts fun _ he => he

/-- Calls that are nested after some others can be added to these. -/
theorem append_of (h : Nested v ts calls)
    (h' : ∀ before c after, calls' = before ++ c :: after → Nests v ts (calls ++ before) c) :
    Nested v ts (calls ++ calls') := by
  intro before c after hsplit
  rcases List.append_eq_append_iff.mp hsplit with ⟨front, rfl, hcalls'⟩ | ⟨back, hcalls, hback⟩
  · exact h' front c after hcalls'
  · cases back with
    | nil =>
      rw [List.append_nil] at hcalls
      have hlast := h' [] c after hback.symm
      rwa [List.append_nil, hcalls] at hlast
    | cons x back =>
      cases hback
      exact h before c back hcalls

theorem append (h : Nested v ts calls) (h' : Nested v us calls') :
    Nested v (ts ++ us) (calls ++ calls') :=
  (h.mono (List.subset_append_left _ _)).append_of fun before c after hsplit =>
    (h' before c after hsplit).mono (List.subset_append_right _ _) (List.subset_append_right _ _)

/-- Entering a node comes before everything that is nested below it. -/
theorem enter (h : Nested v t.children calls) (hnode : t.isNode = true) (he : e.phase = .enter)
    (hatom : e.node = t.atom) (hopens : calls ≠ [] → Opens v t e) : Nested v [t] (e :: calls) := by
  have hfirst : Nested v [t] [e] := by
    intro before c after hsplit
    obtain ⟨rfl, hcons⟩ | ⟨before, rfl, hnil⟩ := List.cons_eq_append_iff.mp hsplit
    · cases hcons
      refine ⟨[], t, .here (List.mem_singleton_self t) hnode, hatom,
        fun _ hmem => absurd hmem List.not_mem_nil, fun hexit => ?_⟩
      rw [he] at hexit
      cases hexit
    · simp at hnil
  refine hfirst.append_of fun before c after hsplit => ?_
  have hne : calls ≠ [] := by
    rintro rfl
    simp at hsplit
  exact ((h before c after hsplit).mono (fun _ hu => hu) (List.subset_cons_self _ _)).step hnode
    ⟨e, List.mem_cons_self, hopens hne⟩

/-- Leaving a node comes last. -/
theorem exit (h : Nested v [t] calls) (hnode : t.isNode = true) (hatom : c.node = t.atom)
    (hlive : (c.before.path c.path).removed = false)
    (he : ∃ e ∈ calls, Opens v t e ∧ e.path = c.path) : Nested v [t] (calls ++ [c]) := by
  refine h.append_of fun before x after hsplit => ?_
  obtain ⟨rfl, hcons⟩ | ⟨before, rfl, hnil⟩ := List.cons_eq_append_iff.mp hsplit
  · cases hcons
    rw [List.append_nil]
    exact ⟨[], t, .here (List.mem_singleton_self t) hnode, hatom,
      fun _ hmem => absurd hmem List.not_mem_nil, fun _ => ⟨hlive, he⟩⟩
  · simp at hnil

end Nested

/-- Nesting is handed on from the parts of a walk to the whole. -/
theorem handedOn_nested (v : Visitor σ) : HandedOn v fun ts calls _ => Nested v ts calls where
  nil _ := .nil
  extend hts h := h.mono hts.subset
  append := .append
  entered hnode hphase hatom := Nested.nil.enter hnode hphase hatom fun hne => absurd rfl hne
  halted hnode hphase hatom henter hlive h :=
    h.enter hnode hphase hatom fun _ => ⟨hphase, hatom, _, henter, hlive⟩
  left hnode hphase hatom henter hlive _ hpath hatom' hlive' h :=
    have hopens := ⟨hphase, hatom, _, henter, hlive⟩
    (h.enter hnode hphase hatom fun _ => hopens).exit hnode hatom' hlive'
      ⟨_, List.mem_cons_self, hopens, hpath.symm⟩

end Nested

/-! ### Removed nodes -/

/-- What a walk does at a node, and below it, if it has been removed. -/
structure Guarded (v : Visitor σ) (objects : List Ref) (calls : List (Call σ)) (t : Labelled) :
    Prop where
  /-- The node is entered only as long as it hangs in the tree. -/
  entered : ∀ c ∈ calls, c.phase = .enter → c.node = t.atom → c.Attached objects
  /-- Hooks are called below the node only after it was entered, as it hung in the tree, and only if
  the path of its visit had not removed it when the hook for entering it was through. -/
  below : ∀ before c after, calls = before ++ c :: after →
    c.node ∈ (nodes t.children).map Labelled.atom →
    ∃ e ∈ before, Opens v t e ∧ e.Attached objects
  /-- The node is left only after it was entered, as it hung in the tree, and only as long as the
  path of its visit has not removed it. -/
  left : ∀ before c after, calls = before ++ c :: after → c.phase = .exit → c.node = t.atom →
    (c.before.path c.path).removed = false ∧
      ∃ e ∈ before, Opens v t e ∧ e.path = c.path ∧ e.Attached objects

/-- Nested calls are guarded at every node that is entered only as long as it hangs in the tree. -/
theorem Nested.guarded {v : Visitor σ} {objects : List Ref} {ts : List Labelled}
    {calls : List (Call σ)} {t : Labelled} (h : Nested v ts calls)
    (hrefs : (ts.flatMap Labelled.refs).Nodup) (ht : t ∈ nodes ts)
    (hentered : ∀ c ∈ calls, c.phase = .enter → c.node = t.atom → c.Attached objects) :
    Guarded v objects calls t where
  entered := hentered
  below before c after hsplit hbelow := by
    obtain ⟨above, u, hreached, hnode, habove, -⟩ := h before c after hsplit
    obtain ⟨e, he, hopens⟩ := habove t (hreached.mem_above hrefs ht (hnode ▸ hbelow))
    exact ⟨e, he, hopens, hentered e (by simp [hsplit, he]) hopens.1 hopens.2.1⟩
  left before c after hsplit hexit hnode := by
    obtain ⟨-, u, -, hnode', -, hleft⟩ := h before c after hsplit
    obtain ⟨hlive, e, he, ⟨hphase, hatom, hopened⟩, hpath⟩ := hleft hexit
    have hat : e.node = t.atom := hatom.trans (hnode'.symm.trans hnode)
    exact ⟨hlive, e, he, ⟨hphase, hat, hopened⟩, hpath,
      hentered e (by simp [hsplit, he]) hphase hat⟩

/-- If a node other than the start node has been removed before a walk comes to it, or through the
path of the walk when it is entered, then nothing is done any more at the node or below it; and if
it is removed in any other way while it is visited, it was entered as it hung in the tree, and it is
left only if the path of the walk has not removed it. -/
theorem walks_guarded {t : Labelled} (hrefs : t.refs.Nodup) (hcomplete : t.Complete)
    (hnode : t.isNode = true) {w : Workspace σ} (hhas : w.store.Has t) (v : Visitor σ)
    (removable : Atom → Prop) :
    (v.OnlyRemoves removable (w.addPath (.start t.atom)) →
      ∃ calls turns, Runs v (.visit w.nextPath) (w.addPath (.start t.atom)) calls turns
          ((Edit.walk v t.atom).run w) ∧ ∀ u ∈ nodes t.children, Guarded v t.refs calls u) ∧
    ∀ p, (w.path p).node = t.atom → (w.path p).removed = false → v.OnlyRemoves removable w →
      ∃ calls turns, Runs v (.children p) w calls turns ((Edit.walkBelow v p).run w) ∧
        ∀ u ∈ nodes t.children, Guarded v t.refs calls u := by
  have hunshared := hhas.unshared hrefs
  have hwithin : t.atom.refs ⊆ t.refs := fun r hr =>
    Labelled.mem_refs_of_atom (Atom.mem_refs.mp hr)
  obtain ⟨hwalk, hbelow⟩ := walks_in_order hrefs hcomplete hnode hhas v removable
  constructor
  · intro hv
    obtain ⟨calls, turns, hruns, -⟩ := hwalk hv
    have hheld : (Task.visit w.nextPath).Held (w.addPath (.start t.atom)) :=
      held_nextPath (hhas.isNode_atom.trans hnode)
    have hpath := w.path_addPath_nextPath (.start t.atom)
    have htree : ∀ u ∈ [t], w.store.Has u ∧ u.Complete := fun u hu =>
      List.mem_singleton.mp hu ▸ ⟨hhas, hcomplete⟩
    have hnested : Nested v [t] calls := (handedOn_nested v).of_runs hv hruns .refl hheld htree
      ⟨t, by rw [hpath]; rfl, rfl⟩
    have hattached := hruns.attached hv hunshared .refl hheld (lawful_nextPath rfl)
      (show ((w.addPath _).path w.nextPath).node.refs ⊆ t.refs by rw [hpath]; exact hwithin)
    refine ⟨calls, turns, hruns, fun u hu => hnested.guarded (by simpa using hrefs) ?_ ?_⟩
    · rw [Labelled.nodes_singleton hnode]
      exact List.mem_cons_of_mem _ hu
    · intro c hc hphase hcu
      refine (hattached c hc hphase).resolve_right fun ⟨hp, hbefore⟩ => ?_
      -- the start node does not hang below itself
      obtain ⟨r, hatom, -, hmem⟩ := Labelled.exists_ref_of_mem_nodes hu
      refine Labelled.not_mem_refs_children hrefs ?_ hmem
      rw [← hatom, ← hcu, Call.node, hp, hbefore, hpath]
      rfl
  · intro p hp hlive hv
    obtain ⟨calls, turns, hruns, -⟩ := hbelow p hp hlive hv
    obtain ⟨-, hheld⟩ := held_children hhas hnode hp
    have hnested := (handedOn_nested v).of_runs hv hruns .refl hheld
      (Labelled.has_children hcomplete hhas) ⟨t, hp, hnode, hhas, hcomplete, rfl⟩
    have hattached := hruns.attached hv hunshared .refl hheld trivial
      (show (w.path p).node.refs ⊆ t.refs by rw [hp]; exact hwithin)
    refine ⟨calls, turns, hruns, fun u hu => hnested.guarded
      (Labelled.nodup_refs_children hrefs) hu fun c hc hphase _ => ?_⟩
    exact (hattached c hc hphase).resolve_right id

/-- An array pattern of a rest element for `a`. -/
def restPattern : Store :=
  let (s, a) := Store.empty.addModelled .identifier ⟨0, 0⟩ [("name", .atom (.str "a"))]
  let (s, rest) := s.addModelled .restElement ⟨0, 0⟩ [("argument", .atom (.ref a))]
  (s.addModelled .arrayPattern ⟨0, 0⟩ [("elements", .items [.ref rest])]).1

/-- The rest element as a labelled tree. -/
def restElementTree : Labelled :=
  labelled ⟨1⟩ .restElement [("argument", .one (
    labelled ⟨0⟩ .identifier [("name", .one (.value (.str "a") rfl))]))]

/-- The array pattern as a labelled tree. -/
def restPatternTree : Labelled :=
  labelled ⟨2⟩ .arrayPattern [("elements", .many [restElementTree])]

theorem has_restPattern : restPattern.Has restPatternTree := by decide +kernel

theorem nodup_restPatternTree : restPatternTree.refs.Nodup := by decide +kernel

theorem complete_restPatternTree : restPatternTree.Complete := by decide +kernel

theorem mem_nodes_restPatternTree : restElementTree ∈ nodes restPatternTree.children := by
  rw [show restPatternTree.children = [restElementTree] from rfl, Labelled.nodes_singleton rfl]
  exact List.mem_cons_self

/-- What is done at the rest element, which is removed through another path when it is entered, is
guarded, in a walk of the array pattern and in a walk below it. -/
theorem walks_guarded_restPattern :
    let w : Workspace Unit := (Workspace.ofStore restPattern ()).addPath (.start (.ref ⟨2⟩))
    (∃ calls turns, Runs (ousting ⟨1⟩ ⟨1⟩) (.visit ⟨1⟩) (w.addPath (.start (.ref ⟨2⟩))) calls turns
        ((Edit.walk (ousting ⟨1⟩ ⟨1⟩) (.ref ⟨2⟩)).run w) ∧
      Guarded (ousting ⟨1⟩ ⟨1⟩) restPatternTree.refs calls restElementTree) ∧
    ∃ calls turns, Runs (ousting ⟨1⟩ ⟨1⟩) (.children ⟨0⟩) w calls turns
        ((Edit.walkBelow (ousting ⟨1⟩ ⟨1⟩) ⟨0⟩).run w) ∧
      Guarded (ousting ⟨1⟩ ⟨1⟩) restPatternTree.refs calls restElementTree := by
  intro w
  have hclosed : w.Closed := (Workspace.closed_ofStore _ _).addPath fun q hq => by cases hq
  obtain ⟨hwalk, hbelow⟩ := walks_guarded nodup_restPatternTree complete_restPatternTree rfl
    (w := w) has_restPattern (ousting ⟨1⟩ ⟨1⟩) (· = .ref ⟨1⟩)
  obtain ⟨calls, turns, hruns, hguarded⟩ := hwalk
    (ousting_onlyRemoves ⟨1⟩ (hclosed.addPath fun q hq => by cases hq) rfl)
  obtain ⟨calls', turns', hruns', hguarded'⟩ := hbelow ⟨0⟩ rfl rfl
    (ousting_onlyRemoves ⟨1⟩ hclosed rfl)
  exact ⟨⟨calls, turns, hruns, hguarded _ mem_nodes_restPatternTree⟩,
    calls', turns', hruns', hguarded' _ mem_nodes_restPatternTree⟩

/-! ### Nodes that are removed while they are visited -/

/-- Once a node has been removed, nothing below it is entered, and it is not left. -/
def Quiet (objects : List Ref) (calls : List (Call σ)) (t : Labelled) : Prop :=
  ∀ c ∈ calls, (∃ q, t.atom = .ref q ∧ c.before.store.Gone objects q) →
    (c.phase = .enter → c.node ∉ (nodes t.children).map Labelled.atom) ∧
      (c.phase = .exit → c.node ≠ t.atom)

set_option maxRecDepth 100000 in
/-- A walk goes on below a node that is removed through another path while it is visited. -/
theorem not_quiet :
    ¬ ∀ (t : Labelled) (w : Workspace Unit) (v : Visitor Unit), t.refs.Nodup → t.Complete →
      t.isNode = true → w.store.Has t →
      v.OnlyRemoves (fun a => w.store.isNode a = true) (w.addPath (.start t.atom)) →
      ∀ calls turns, Runs v (.visit w.nextPath) (w.addPath (.start t.atom)) calls turns
          ((Edit.walk v t.atom).run w) →
        ∀ u ∈ nodes t.children, Quiet t.refs calls u := by
  intro hquiet
  let w : Workspace Unit := .ofStore restPattern ()
  have hv : (ousting ⟨1⟩ ⟨1⟩).OnlyRemoves (fun a => w.store.isNode a = true)
      (w.addPath (.start (.ref ⟨2⟩))) :=
    ousting_onlyRemoves ⟨1⟩ ((Workspace.closed_ofStore _ _).addPath fun q hq => by cases hq) rfl
  obtain ⟨calls, turns, hruns⟩ := Edit.runs_walk hv rfl
  -- the walk by its rules: the third call enters `a`
  have hrule : ∃ calls turns w' c, Runs (ousting ⟨1⟩ ⟨1⟩) (.visit ⟨0⟩)
      (w.addPath (.start (.ref ⟨2⟩))) calls turns (.ok () w') ∧ calls[2]? = some c ∧
      c.phase = .enter ∧ c.node = .ref ⟨0⟩ ∧
      c.before.store = restPattern.without ⟨2⟩ (.entry "elements" 0) := by
    exact ⟨_, _, _, _, .left (Edit.run_typeOf_kind .arrayPattern rfl) rfl rfl
      (.children rfl rfl (.fields_cons (.field_items rfl
        (.entries_next rfl rfl (.left (Edit.run_typeOf_kind .restElement rfl) rfl rfl
          (.children rfl rfl (.fields_cons (.field_node rfl rfl
            (.left (Edit.run_typeOf_kind .identifier rfl) rfl rfl
              (.children rfl rfl (.fields_cons (.field_skip rfl rfl) .fields_nil)) rfl))
            .fields_nil)) rfl)
        (.entries_end rfl))) .fields_nil)) rfl, rfl, rfl, rfl, rfl⟩
  obtain ⟨calls', turns', w', c, hruns', hc, hphase, hnode, hstore⟩ := hrule
  obtain ⟨rfl, -, -⟩ := hruns.unique hruns'
  have hgone : c.before.store.Gone restPatternTree.refs ⟨1⟩ := by
    rw [hstore]
    exact (has_restPattern.unshared nodup_restPatternTree).gone_without (by decide) rfl
      ⟨[.ref ⟨1⟩], rfl, rfl⟩
  have hrest := hquiet restPatternTree w (ousting ⟨1⟩ ⟨1⟩) nodup_restPatternTree
    complete_restPatternTree rfl has_restPattern hv calls turns hruns _
    mem_nodes_restPatternTree c (List.mem_of_getElem? hc) ⟨⟨1⟩, rfl, hgone⟩
  exact hrest.1 hphase (hnode ▸ by decide)

end Walk

end NamedExports
