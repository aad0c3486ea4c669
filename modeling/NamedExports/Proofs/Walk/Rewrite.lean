import NamedExports.Proofs.Walk.Prune

/-!
# Walks as rewriting

A visit of a node that hangs in a place does what `Pruner.Prunes` asks for, by induction on the
depth to which it goes down (`Pruner.prunes_visit`).  A walk of a start node that stays, and a walk
below a path, thereby amount to one rewriting of the tree as it was given (`Pruner.walk_prunes`).
-/

namespace NamedExports

variable {ε : Type}

namespace Pruner

variable {v : Pruner ε} {s : Store}

/-! ### Visits -/

section Visits

variable {r : Ref} {shape : Shape} {attributes : List (String × Held Labelled)} {depth : ℕ}
  {w : Workspace (List (Event ε))} {p : PathId}

/-- A node has a type, by which the walk looks up what is to be done. -/
theorem exists_type (hhas : s.Has (.record r shape attributes))
    (hadmits : shape.Admits (attributes.map Prod.fst)) (hnode : shape.isNode = true) :
    ∃ type, s.attr? (.ref r) "type" = some type ∧
      Walk.hooks v.visitor (type.toTree s.tree) =
        { enter := v.hook .enter (.record r shape attributes)
          exit := v.hook .exit (.record r shape attributes) } := by
  obtain ⟨a, ha, hname⟩ := List.mem_map.mp (hadmits.type_mem hnode)
  have hattr : s.attr? (.ref r) "type" = some (Labelled.toValue a.2) := by
    obtain ⟨before, after, rfl⟩ := List.append_of_mem ha
    obtain ⟨name, held⟩ := a
    cases hname
    have hnames := hadmits.nodup hnode
    rw [List.map_append, List.map_cons] at hnames
    rw [Store.attr?_ref hhas.obj?_record, Labelled.attr?_toObj hnames]
  refine ⟨_, hattr, ?_⟩
  have htype := Store.attr?_tree (s := s) (.ref r) "type"
  rw [hattr, Option.map_some, show s.tree (.ref r) = _ from hhas.tree_atom] at htype
  rw [← hooks_visitor]
  unfold Tree.get
  rw [htype]
  rfl

/-- A node that stays when it is entered is left once what hangs below it has been pruned. -/
theorem exists_run_visit
    (hvisit : ∀ u ∈ Labelled.parts attributes, u.isNode = true →
      v.Prunes (Walk.visit v.visitor depth) u)
    (hadmits : shape.Admits (attributes.map Prod.fst)) (hnode : shape.isNode = true)
    (hhas : w.store.Has (.record r shape attributes))
    (hrefs : (Labelled.record r shape attributes).refs.Nodup) (hp : (w.path p).node = .ref r)
    (hlive : (w.path p).removed = false)
    (hstays : v.removes .enter (.record r shape attributes) (.record r shape attributes) = false) :
    ∃ w', (Walk.visit v.visitor (depth + 1) p).run w =
        (Walk.call (v.hook .exit (.record r shape attributes)) p).run w' ∧
      w'.notes = w.notes ++
        (v.events .enter (.record r shape attributes) (.record r shape attributes) ++
          (v.pruneBelow (.record r shape attributes)).1) ∧
      w.KeepsPaths w' ∧
      (∀ x, x ∉ (Labelled.record r shape attributes).refs → w'.store.obj? x = w.store.obj? x) ∧
      w'.store.Has (v.pruneBelow (.record r shape attributes)).2 := by
  set t := Labelled.record r shape attributes
  obtain ⟨type, htype, hhooks⟩ := exists_type (v := v) hhas hadmits hnode
  rw [← hp] at htype
  have henter := run_call_stays (t := t) hhas hp hstays
  have hknown : w.Knows p := Workspace.knows_of_node_ne (by rw [hp]; exact nofun)
  obtain ⟨w', hrun, hnotes, hkeeps, hothers, hhas'⟩ := turns_children
    (w := w.record (v.events .enter t t)) hvisit hadmits hnode hhas hrefs hp
  refine ⟨w', ?_, ?_, hkeeps, hothers, hhas'⟩
  · have hlive₁ : ((w.record (v.events .enter t t)).path p).removed = false := hlive
    have hlive' : (w'.path p).removed = false := by rw [(hkeeps p hknown).2, hlive₁]
    rw [Walk.run_visit_left htype (by rw [hhooks]; exact henter) hlive₁ hrun hlive', hhooks]
  · rw [hnotes]
    exact List.append_assoc _ _ _

/-- A part of an object comes before the object in the store. -/
theorem index_lt_of_mem_parts (hhas : s.Has (.record r shape attributes)) {u : Labelled}
    (hu : u ∈ Labelled.parts attributes) : ∀ q, u.atom = .ref q → q.index < r.index := by
  intro q hq
  refine Store.refs_index_lt hhas.obj?_record (Obj.mem_refs.mpr ?_)
  obtain ⟨a, ha, hu⟩ := List.mem_flatMap.mp hu
  refine List.mem_flatMap.mpr ⟨_, List.mem_map_of_mem ha, ?_⟩
  rw [← hq]
  obtain ⟨name, t | ts⟩ := a
  · rw [List.mem_singleton.mp hu]
    exact List.mem_singleton_self _
  · exact List.mem_map_of_mem hu

/-- What hangs below a node is pruned by visits that go down far enough. -/
theorem prunes_parts
    (hvisit : ∀ {u : Labelled}, u.isNode = true → u.Complete →
      (∀ q, u.atom = .ref q → q.index < depth) → v.Prunes (Walk.visit v.visitor depth) u)
    (hhas : s.Has (.record r shape attributes))
    (hcomplete : (Labelled.record r shape attributes).Complete) (hdepth : r.index ≤ depth) :
    ∀ u ∈ Labelled.parts attributes, u.isNode = true →
      v.Prunes (Walk.visit v.visitor depth) u := by
  intro u hu hnode
  refine hvisit hnode (hcomplete.record.2 u hu) fun q hq => ?_
  have hlt : q.index < r.index := index_lt_of_mem_parts hhas hu q hq
  omega

/-- A visit of a node that hangs in a place records what is to be recorded and leaves the node as it
is to be left. -/
theorem prunes_visit (v : Pruner ε) (depth : ℕ) {t : Labelled} (hnode : t.isNode = true)
    (hcomplete : t.Complete) (hdepth : ∀ r, t.atom = .ref r → r.index < depth) :
    v.Prunes (Walk.visit v.visitor depth) t := by
  induction depth generalizing t with
  | zero =>
    obtain ⟨r, shape, attributes, rfl, -⟩ := Labelled.exists_record_of_isNode hnode
    exact absurd (hdepth r rfl) (Nat.not_lt_zero _)
  | succ depth ih =>
    obtain ⟨r, shape, attributes, rfl, hshape⟩ := Labelled.exists_record_of_isNode hnode
    intro w above owner o slot hhas hrefs howner habove ho hat
    have hadmits := hcomplete.record.1
    have hchildren := prunes_parts ih hhas hcomplete (Nat.le_of_lt_succ (hdepth r rfl))
    set t := Labelled.record r shape attributes
    set w₁ := w.addPath (.ofPlace t.atom above slot)
    have hp : w₁.path w.nextPath = .ofPlace t.atom above slot := w.path_addPath_nextPath _
    have hkeeps₁ : w.KeepsPaths w₁ := w.keepsPaths_addPath _
    have hknown₁ : w₁.Knows w.nextPath := w.knows_addPath_nextPath _
    rw [prune_record hshape]
    cases hremoves : v.removes .enter t t with
    | true =>
      -- the node goes when it is entered, and nothing below it is visited
      obtain ⟨type, htype, hhooks⟩ := exists_type (v := v) (s := w₁.store) hhas hadmits hshape
      obtain ⟨w', hrun, howner', hothers, hnotes, hremoved, hkeeps⟩ := exists_run_call hkeeps₁
        w.not_knows_nextPath hknown₁ hp (hkeeps₁.node_eq habove nofun) ho nofun hat hhas hremoves
      refine ⟨w', Walk.run_visit_removed (by rw [hp]; exact htype) (by rw [hhooks]; exact hrun)
        hremoved, hnotes, hkeeps, fun x _ hne => hothers x hne, ?_, nofun⟩
      rw [howner', ho]
      rfl
    | false =>
      -- what is left of the node is left or removed once the parts have been pruned
      obtain ⟨w₂, hrun, hnotes, hkeeps, hothers, hhas'⟩ := exists_run_visit (w := w₁) hchildren
        hadmits hshape hhas hrefs (by rw [hp]; rfl) (by rw [hp]; rfl) hremoves
      obtain ⟨hknown₂, hpath⟩ := hkeeps w.nextPath hknown₁
      have hkeeps₂ : w.KeepsPaths w₂ := hkeeps₁.trans hkeeps
      have hp₂ : w₂.path w.nextPath = .ofPlace (v.pruneBelow t).2.atom above slot :=
        hpath.trans hp
      have ho₂ : w₂.store.obj? owner = some o := (hothers owner howner).trans ho
      obtain ⟨w', hexit, hnotes', hkeeps', hleaves⟩ := exists_run_call_leaves (v := v) (t := t)
        hkeeps₂ w.not_knows_nextPath hknown₂ hp₂ (hkeeps₂.node_eq habove nofun) ho₂ nofun hat
        hhas'
      rw [if_neg Bool.false_ne_true]
      refine ⟨w', hrun.trans hexit, ?_, hkeeps', hleaves.of_agree hothers howner ?_⟩
      · rw [hnotes', hnotes]
        exact List.append_assoc _ _ _
      · exact (v.sublist_pruneBelow t).subset

/-! ### Walks -/

/-- A walk of a node that stays. -/
theorem turns_walk (v : Pruner ε) {t : Labelled} (hnode : t.isNode = true)
    (hhas : w.store.Has t) (hrefs : t.refs.Nodup) (hcomplete : t.Complete)
    (henter : v.removes .enter t t = false)
    (hexit : v.removes .exit t (v.pruneBelow t).2 = false) :
    Turns (Edit.walk v.visitor t.atom) w (v.prune t).1 t (v.pruneBelow t).2 := by
  obtain ⟨r, shape, attributes, rfl, hshape⟩ := Labelled.exists_record_of_isNode hnode
  set t := Labelled.record r shape attributes
  set w₁ := w.addPath (.start t.atom)
  have hp : w₁.path w.nextPath = .start t.atom := w.path_addPath_nextPath _
  have hbound : r.index < w.store.size := Store.index_lt_size hhas.obj?_record
  obtain ⟨w₂, hrun, hnotes, hkeeps, hothers, hhas'⟩ := exists_run_visit (w := w₁)
    (prunes_parts (prunes_visit v _) hhas hcomplete hbound.le) hcomplete.record.1 hshape hhas hrefs
    (by rw [hp]; rfl) (by rw [hp]; rfl) henter
  have hp₂ : (w₂.path w.nextPath).node = (v.pruneBelow t).2.atom :=
    hkeeps.node_eq (by rw [hp]; rfl) nofun
  refine ⟨w₂.record (v.events .exit t (v.pruneBelow t).2), ?_, ?_,
    (w.keepsPaths_addPath _).trans hkeeps, hothers, hhas'⟩
  · rw [Edit.run_walk, hrun]
    exact run_call_stays hhas' hp₂ hexit
  · show w₂.notes ++ _ = _
    rw [hnotes, prune_record hshape, henter, if_neg Bool.false_ne_true]
    exact List.append_assoc _ _ _

/-- A walk below a path to a node, or to nothing, that the path has not removed. -/
theorem turns_walkBelow (v : Pruner ε) {t : Labelled} (hstart : t.isNode = true ∨ t.atom = .null)
    (hhas : w.store.Has t) (hrefs : t.refs.Nodup) (hcomplete : t.Complete)
    (hp : (w.path p).node = t.atom) (hlive : (w.path p).removed = false) :
    Turns (Edit.walkBelow v.visitor p) w (v.pruneBelow t).1 t (v.pruneBelow t).2 := by
  rcases hstart with hnode | hnull
  · obtain ⟨r, shape, attributes, rfl, hshape⟩ := Labelled.exists_record_of_isNode hnode
    have hbound : r.index < w.store.size := Store.index_lt_size hhas.obj?_record
    obtain ⟨w', hrun, hrest⟩ := turns_children (prunes_parts (prunes_visit v _) hhas hcomplete hbound.le)
      hcomplete.record.1 hshape hhas hrefs hp
    refine ⟨w', ?_, hrest⟩
    rw [Edit.run_walkBelow (by rw [hp]; exact nofun) hlive]
    exact hrun
  · refine ⟨w, Edit.run_walkBelow_stop (Or.inl (hp.trans hnull)), ?_, .refl w, fun _ _ => rfl, ?_⟩
    · cases t with
      | value a plain => exact (List.append_nil _).symm
      | _ => cases hnull
    · cases t with
      | value a plain => exact hhas
      | _ => cases hnull

end Visits

/-! ### One rewriting -/

/-- An edit that ends, has recorded some events, and has rewritten one tree and nothing else. -/
def Rewrites (m : Edit (List (Event ε)) Unit) (w : Workspace (List (Event ε)))
    (events : List (Event ε)) (t t' : Labelled) : Prop :=
  ∃ w', m.run w = .ok () w' ∧ w'.notes = w.notes ++ events ∧
    w'.store.tree t.atom = t'.toTree ∧ (∀ x, x ∉ t.refs → w'.store.obj? x = w.store.obj? x) ∧
    w.KeepsPaths w'

theorem Turns.rewrites {m : Edit (List (Event ε)) Unit} {w : Workspace (List (Event ε))}
    {events : List (Event ε)} {t t' : Labelled} (h : Turns m w events t t')
    (hatom : t'.atom = t.atom) : Rewrites m w events t t' := by
  obtain ⟨w', hrun, hnotes, hkeeps, hothers, hhas⟩ := h
  exact ⟨w', hrun, hnotes, hatom ▸ hhas.tree_atom, hothers, hkeeps⟩

/-- Walks with a pruner over a tree in which no object hangs twice.  A walk of a node that the
pruner lets stay ends, and so does a walk below a path that has not removed its node and leads to a
node or to nothing.  Both record and leave what pruning the tree as it was given says.  A walk below
a path to anything else stops at once because that is no node.  Entering is recorded of the nodes
that are entered, one after the other and of none of them twice. -/
theorem walk_prunes (v : Pruner ε) {t : Labelled} {w : Workspace (List (Event ε))} {p : PathId}
    (hhas : w.store.Has t) (hrefs : t.refs.Nodup) (hcomplete : t.Complete) :
    (t.isNode = true → v.removes .enter t t = false →
      v.removes .exit t (v.pruneBelow t).2 = false →
      (v.prune t).2 = some (v.pruneBelow t).2 ∧
        Rewrites (Edit.walk v.visitor t.atom) w (v.prune t).1 t (v.pruneBelow t).2) ∧
    ((w.path p).node = t.atom → (w.path p).removed = false →
      (t.isNode = true ∨ t.atom = .null →
        Rewrites (Edit.walkBelow v.visitor p) w (v.pruneBelow t).1 t (v.pruneBelow t).2) ∧
      (t.isNode = false → t.atom ≠ .null →
        (Edit.walkBelow v.visitor p).run w = .error .notNode w)) ∧
    (entering (v.prune t).1 = v.enterEvents (v.entered t) ∧
      ((v.entered t).map Labelled.atom).Nodup) ∧
    (entering (v.pruneBelow t).1 = v.enterEvents (v.enteredBelow t) ∧
      ((v.enteredBelow t).map Labelled.atom).Nodup) := by
  refine ⟨fun hnode henter hexit => ⟨?_, ?_⟩, fun hp hlive => ⟨fun hstart => ?_, ?_⟩,
    ⟨v.entersOnce t, nodup_entered hrefs⟩, v.entering_pruneBelow t, nodup_enteredBelow hrefs⟩
  · obtain ⟨r, shape, attributes, rfl, hshape⟩ := Labelled.exists_record_of_isNode hnode
    rw [prune_record hshape, henter, if_neg Bool.false_ne_true]
    dsimp only
    rw [hexit, if_neg Bool.false_ne_true]
  · exact (turns_walk v hnode hhas hrefs hcomplete henter hexit).rewrites (v.atom_pruneBelow t)
  · exact (turns_walkBelow v hstart hhas hrefs hcomplete hp hlive).rewrites (v.atom_pruneBelow t)
  · intro hnode hnull
    rw [Edit.run_walkBelow (hp ▸ hnull) hlive]
    exact Walk.run_children_of_not_isNode (hp ▸ hhas.isNode_atom.trans hnode)

/-- A labelled node of a modelled kind. -/
def labelled (r : Ref) (kind : Kind) (values : List (String × Held Labelled)) : Labelled :=
  .record r (.modelled kind) ([("type", .one (.value (.str kind.name) rfl)),
    ("start_line", .one (.value (.int 0) rfl)), ("end_line", .one (.value (.int 0) rfl))] ++ values)

/-- An array pattern that binds `a`, nothing, `b` alone in an object pattern, and `c`. -/
def fourElements : Store :=
  let (s, a) := Store.empty.addModelled .identifier ⟨0, 0⟩ [("name", .atom (.str "a"))]
  let (s, b) := s.addModelled .identifier ⟨0, 0⟩ [("name", .atom (.str "b"))]
  let (s, pattern) := s.addModelled .objectPattern ⟨0, 0⟩ [("properties", .items [.ref b])]
  let (s, c) := s.addModelled .identifier ⟨0, 0⟩ [("name", .atom (.str "c"))]
  (s.addModelled .arrayPattern ⟨0, 0⟩
    [("elements", .items [.ref a, .null, .ref pattern, .ref c])]).1

/-- The same array pattern as a labelled tree. -/
def fourElementsTree : Labelled :=
  let identifier (r : Ref) (name : String) : Labelled :=
    labelled r .identifier [("name", .one (.value (.str name) rfl))]
  labelled ⟨4⟩ .arrayPattern [("elements", .many [identifier ⟨0⟩ "a", .null,
    labelled ⟨2⟩ .objectPattern [("properties", .many [identifier ⟨1⟩ "b"])],
    identifier ⟨3⟩ "c"])]

/-- Removes the identifiers `a` and `b` when they are entered, and object patterns that are left
without entries. -/
def dropper : Pruner String := fun phase type =>
  if phase = .enter ∧ type = "Identifier" then
    some
      { content := fun _ t => (t.get "name").display
        removes := fun _ t => (t.get "name").isText "a" || (t.get "name").isText "b" }
  else if phase = .exit ∧ type = "ObjectPattern" then
    some
      { content := fun _ t => (t.get "type").display
        removes := fun _ t => (t.get "properties").isEmpty }
  else none

theorem walk_prunes_fourElements :
    let w : Workspace (List (Event String)) :=
      { Workspace.ofStore fourElements [] with paths := #[.start (.ref ⟨4⟩)] }
    let left := Tree.modelled .arrayPattern ⟨0, 0⟩
      [.list [.null, .modelled .identifier ⟨0, 0⟩ [.str "c"]]]
    (∃ w', (Edit.walk dropper.visitor (.ref ⟨4⟩)).run w = .ok () w' ∧
      w'.notes.map (fun e => (e.node, e.content)) = [(.ref ⟨0⟩, "a"), (.ref ⟨1⟩, "b"),
        (.ref ⟨2⟩, "ObjectPattern"), (.ref ⟨3⟩, "c")] ∧
      w'.store.tree (.ref ⟨4⟩) = left) ∧
    ∃ w', (Edit.walkBelow dropper.visitor ⟨0⟩).run w = .ok () w' ∧
      w'.store.tree (.ref ⟨4⟩) = left := by
  intro w left
  obtain ⟨hwalk, hbelow, -⟩ := walk_prunes dropper (t := fourElementsTree) (w := w) (p := ⟨0⟩)
    (by decide +kernel) (by decide +kernel) (by decide +kernel)
  obtain ⟨-, w₁, hrun₁, hnotes₁, htree₁, -⟩ := hwalk rfl (by decide +kernel) (by decide +kernel)
  obtain ⟨w₂, hrun₂, -, htree₂, -⟩ := (hbelow rfl rfl).1 (Or.inl rfl)
  refine ⟨⟨w₁, hrun₁, ?_, htree₁.trans ?_⟩, w₂, hrun₂, htree₂.trans ?_⟩
  · rw [hnotes₁]
    decide +kernel
  · rfl
  · rfl

/-- Not every path leads to a node or nowhere: no walk goes below the text that an identifier has as
its name. -/
theorem not_walkBelow_of_get :
    ¬ ∀ (v : Pruner String) (s : Store) (t : Labelled) (dotted : String)
      (w : Workspace (List (Event String))) (p : PathId), s.Has t → t.refs.Nodup → t.Complete →
      t.isNode = true →
      (do Edit.get (← Edit.newPath (.start t.atom)) dotted).run (.ofStore s []) = .ok (.one p) w →
      (w.path p).removed = false → ∃ w', (Edit.walkBelow v.visitor p).run w = .ok () w' := by
  intro hclaim
  obtain ⟨w, p, hget, hlive, hstop⟩ := Edit.run_walkBelow_name dropper.visitor []
  obtain ⟨w', hrun⟩ := hclaim dropper Edit.identifierAlone
    (labelled ⟨0⟩ .identifier [("name", .one (.value (.str "a") rfl))]) "name" w p
    (by decide +kernel) (by decide +kernel) (by decide +kernel) rfl hget hlive
  cases hrun.symm.trans hstop

end Pruner

end NamedExports
