import NamedExports.Proofs.Walk.Remover
import NamedExports.Proofs.Walk.Rewrite

/-!
# Sessions with held paths

In a session with a tree, dotted paths are followed, nodes are removed, patterns are stripped, and
walks are made whose visitors remove, in any order and through any held paths
(`Workspace.Session`).  Whatever has been done before, a removal takes out its node and changes
nothing else if the node is still in place, and is refused and changes nothing at all otherwise; and
a node that has been removed is never removed again, through whatever path (`Edit.removes_exactly`).

Two things stay true in a session, and these are the reason: the held paths lead to objects of the
tree only (`Workspace.Inside`), and no object is held in two places (`Store.Unshared`).
-/

namespace NamedExports

variable {σ : Type}

namespace Workspace

variable {removable : Atom → Prop} {w w' : Workspace σ} {objects : List Ref} {p : PathId}

/-! ### Paths into some objects -/

/-- Every held path leads to one of some objects, or to no object. -/
def Inside (objects : List Ref) (w : Workspace σ) : Prop :=
  ∀ p, w.Knows p → (w.path p).node.refs ⊆ objects

/-- What is offered to those who hold paths into some objects is a path into them. -/
theorem Offers.refs_subset {path : Path} (h : w.Offers path) (hunshared : w.store.Unshared objects)
    (hw : w.Inside objects) : path.node.refs ⊆ objects := by
  cases h with
  | start hp => exact hw _ hp
  | missing => exact List.nil_subset _
  | field hp hattr =>
    obtain ⟨owner, -, howner, -⟩ := Store.exists_obj_of_attr? hattr
    have hmem := hw _ hp (Atom.mem_refs.mpr howner)
    rw [howner] at hattr
    exact hunshared.closed owner hmem _ _ hattr
  | entry hp hindex =>
    obtain ⟨owner, howner, hattr⟩ := Store.exists_items_of_entries hindex
    have hmem := hw _ hp (Atom.mem_refs.mpr howner)
    rw [howner] at hattr hindex
    exact fun q hq => hunshared.closed owner hmem _ _ hattr
      (List.mem_flatMap.mpr ⟨_, List.mem_of_getElem? hindex, hq⟩)

theorem Step.inside (h : w.Step removable w') (hunshared : w.store.Unshared objects)
    (hw : w.Inside objects) : w'.Inside objects := by
  cases h with
  | note f => exact hw
  | @take path hpath =>
    intro p hp
    rcases knows_of_addPath hp with hold | rfl
    · rw [(w.keepsPaths_addPath path p hold).2]
      exact hw p hold
    · rw [w.path_addPath_nextPath]
      exact hpath.refs_subset hunshared hw
  | @remove _ q hnode hrun =>
    have hstep : w.Step removable w' := .remove hnode hrun
    obtain ⟨-, -, owner, place, -, rfl⟩ := Edit.of_run_remove_ok hrun
    intro p hp
    have hknown := knows_removing.mp hp
    rw [(hstep.ages hknown).node]
    exact hw p hknown

theorem Steps.inside (h : w.Steps removable w') (hunshared : w.store.Unshared objects)
    (hw : w.Inside objects) : w'.Inside objects := by
  induction h with
  | refl => exact hw
  | tail hsteps hstep ih => exact hstep.inside (hunshared.shrink (Steps.shrinks hsteps)) ih

/-- So does what lies above a held path. -/
theorem Inside.parent_mem (hw : w.Inside objects) (hclosed : w.Closed) (hp : w.Knows p)
    {owner : Ref} (hparent : w.parent p = .ref owner) : owner ∈ objects := by
  unfold parent at hparent
  cases habove : (w.path p).above with
  | none =>
    rw [habove] at hparent
    cases hparent
  | some above =>
    rw [habove] at hparent
    exact hw above (hclosed p hp above habove) (Atom.mem_refs.mpr hparent)

/-! ### Sessions -/

/-- An act of a session: something is done with a held path, and goes through or stops at a fault.
To strip below a path, or at and below its node, is to walk with the visitor that strips. -/
inductive Acts : Workspace σ → Workspace σ → Prop
  /-- A path to the node alone is taken. -/
  | hold {w : Workspace σ} {p : PathId} (hp : w.Knows p) :
      Acts w (w.addPath (.start (w.path p).node))
  /-- A dotted path is followed. -/
  | get {w : Workspace σ} {p : PathId} (hp : w.Knows p) (dotted : String) :
      Acts w (Edit.endOf ((Edit.get p dotted).run w))
  /-- The node is removed. -/
  | remove {w : Workspace σ} {p : PathId} (hp : w.Knows p) :
      Acts w (Edit.endOf ((Edit.remove p).run w))
  /-- The pattern is stripped of the properties that bind some names. -/
  | strip {w : Workspace σ} {p : PathId} (hp : w.Knows p) (names : List String) :
      Acts w (Edit.endOf ((Strip.pattern names p).run w))
  /-- A walk is made below the path. -/
  | walkBelow {w : Workspace σ} {p : PathId} (hp : w.Knows p) {v : Visitor σ}
      (hv : v.RemovesAnywhere w) : Acts w (Edit.endOf ((Edit.walkBelow v p).run w))
  /-- A walk is made of the node. -/
  | walk {w : Workspace σ} {p : PathId} (hp : w.Knows p) {v : Visitor σ}
      (hv : v.RemovesAnywhere (w.addPath (.start (w.path p).node))) :
      Acts w (Edit.endOf ((Edit.walk v (w.path p).node).run w))

/-- Any number of acts. -/
abbrev Session : Workspace σ → Workspace σ → Prop :=
  Relation.ReflTransGen Acts

/-- A store with the path of a start node. -/
def opened (s : Store) (node : Atom) (notes : σ) : Workspace σ :=
  (Workspace.ofStore s notes).addPath (.start node)

/-- Acts go by steps. -/
theorem Acts.steps (h : w.Acts w') : w.Steps anyValue w' := by
  cases h with
  | hold hp => exact .single (.take (.start hp))
  | get hp dotted => exact (Edit.bySteps_get hp dotted).1
  | remove hp => exact (Edit.bySteps_remove fun _ => trivial).1
  | strip hp names => exact (Strip.bySteps_pattern (fun _ => trivial) names hp).1
  | walkBelow hp hv => exact (Edit.bySteps_walkBelow hv.onlyRemoves _).1
  | walk hp hv => exact (Edit.bySteps_walk hp hv).1

theorem Session.steps (h : w.Session w') : w.Steps anyValue w' := by
  induction h with
  | refl => exact .refl
  | tail _ hact ih => exact ih.trans hact.steps

/-- What holds in every state of a session with the objects of a tree. -/
structure Sound (objects : List Ref) (w : Workspace σ) : Prop where
  unshared : w.store.Unshared objects
  closed : w.Closed
  inside : w.Inside objects
  /-- The nodes among the objects have a type to be asked for. -/
  typed : ∀ r ∈ objects, w.store.isNode (.ref r) = true →
    ∃ v, w.store.attr? (.ref r) "type" = some v

theorem Sound.steps (h : w.Sound objects) (hsteps : w.Steps removable w') : w'.Sound objects where
  unshared := h.unshared.shrink (Steps.shrinks hsteps)
  closed := Steps.closed hsteps h.closed
  inside := Steps.inside hsteps h.unshared h.inside
  typed r hr hnode := by
    have hshrinks := Steps.shrinks hsteps
    rw [hshrinks.isNode_eq] at hnode
    obtain ⟨v, hv⟩ := h.typed r hr hnode
    obtain ⟨v', hv', -⟩ := hshrinks.attr?_some _ _ v hv
    exact ⟨v', hv'⟩

theorem closed_opened (s : Store) (node : Atom) (notes : σ) : (opened s node notes).Closed :=
  (closed_ofStore s notes).addPath fun q hq => by cases hq

/-- The start of a tree is an object of the tree, or no object. -/
theorem inside_opened (s : Store) (t : Labelled) (notes : σ) :
    (opened s t.atom notes).Inside t.refs := by
  intro p hp
  rcases knows_of_addPath hp with hold | rfl
  · exact absurd hold (Nat.not_lt_zero _)
  · unfold opened
    rw [Workspace.path_addPath_nextPath]
    exact fun r hr => Labelled.mem_refs_of_atom (Atom.mem_refs.mp hr)

/-- A session can begin with any complete tree in which no object hangs in two places. -/
theorem sound_opened {t : Labelled} {s : Store} (hhas : s.Has t) (hrefs : t.refs.Nodup)
    (hcomplete : t.Complete) (notes : σ) : (opened s t.atom notes).Sound t.refs where
  unshared := hhas.unshared hrefs
  closed := closed_opened s t.atom notes
  inside := inside_opened s t notes
  typed r hr hnode := by
    obtain ⟨⟨r, o⟩, hmem, rfl⟩ := List.mem_map.mp hr
    have ho : s.obj? r = some o := hhas _ hmem
    have hobject := hcomplete _ hmem
    have hisNode : s.isNode (.ref r) = true := hnode
    cases o with
    | sequence values =>
      simp only [Store.isNode, Store.shape?, ho] at hisNode
      cases hisNode
    | record shape attributes =>
      simp only [Store.isNode, Store.shape?, ho] at hisNode
      obtain ⟨v, hv⟩ := exists_lookup_of_mem (Shape.Admits.type_mem hobject hisNode)
      exact ⟨v, (Store.attr?_ref ho "type").trans hv⟩

/-! ### Removals in a session -/

/-- A path can remove its node: it has not done so, it has a node and something above it, and the
node is in the list or in the field that the path names. -/
def CanRemove (w : Workspace σ) (p : PathId) : Prop :=
  (w.path p).removed = false ∧ (w.path p).node ≠ .null ∧ w.parent p ≠ .null ∧ w.InPlace p

instance (w : Workspace σ) (p : PathId) : Decidable (w.CanRemove p) :=
  inferInstanceAs (Decidable (_ ∧ _))

/-- The node of a path has been taken out of the list or the field that the path names, and all else
is as it was. -/
structure TakesOut (w : Workspace σ) (p : PathId) (w' : Workspace σ) : Prop where
  /-- The field is null, or the list has its other entries in their order. -/
  emptied : match (w.path p).slot with
    | .nowhere => False
    | .field name => w.store.attr? (w.parent p) name = some (.atom (w.path p).node) ∧
        w'.store.attr? (w.parent p) name = some (.atom .null)
    | .entry list _ => ∃ before after,
        w.store.attr? (w.parent p) list = some (.items (before ++ (w.path p).node :: after)) ∧
        w'.store.attr? (w.parent p) list = some (.items (before ++ after))
  /-- The other attributes of the object above. -/
  attributes : ∀ name, (w.path p).slot.attribute? ≠ some name →
    w'.store.attr? (w.parent p) name = w.store.attr? (w.parent p) name
  shapes : ∀ a, w'.store.shape? a = w.store.shape? a
  /-- The other objects. -/
  objects : ∀ r, w.parent p ≠ .ref r → w'.store.obj? r = w.store.obj? r
  /-- The path is marked, and leads where it led. -/
  marked : (w'.path p).removed = true ∧ (w.path p).Ages (w'.path p)
  /-- The other paths. -/
  paths : ∀ q, q ≠ p → w'.path q = w.path q
  notes : w'.notes = w.notes

/-- What is taken out of a place is taken out of the list or the field that the path names. -/
theorem HoldsAt.takesOut {owner : Ref} {place : Slot} (h : w.HoldsAt p owner place)
    (hp : w.Knows p) : w.TakesOut p (w.removing p owner place) where
  emptied := by
    obtain ⟨hparent, hslot, o, ho, hat⟩ := h
    have hleft : ∀ name, place.attribute? = some name →
        (w.store.without owner place).attr? (.ref owner) name =
          (o.attr? name).map (Obj.emptied place) := fun name hname => by
      rw [Store.attr?_ref (Store.obj?_without_self ho), Obj.attr?_without_self hname]
    rw [hparent, store_removing]
    cases place with
    | nowhere => exact absurd hat id
    | field name =>
      have hattr : o.attr? name = some (.atom (w.path p).node) := hat
      rw [Slot.eq_field_of_unindexed hslot]
      exact ⟨(Store.attr?_ref ho name).trans hattr, by rw [hleft name rfl, hattr]; rfl⟩
    | entry list index =>
      obtain ⟨values, hvalues, hindex⟩ := hat
      obtain ⟨hint, hpath⟩ := Slot.exists_entry_of_unindexed hslot
      obtain ⟨hlt, hget⟩ := List.getElem?_eq_some_iff.mp hindex
      rw [hpath]
      refine ⟨values.take index, values.drop (index + 1), ?_, ?_⟩
      · rw [Store.attr?_ref ho, hvalues, ← hget, List.getElem_cons_drop, List.take_append_drop]
      · rw [hleft list rfl, hvalues, ← List.eraseIdx_eq_take_drop_succ]
        rfl
  attributes name hname := by
    obtain ⟨hparent, hslot, o, ho, -⟩ := h
    refine Store.attr?_without_of_ne ho (Or.inr ?_)
    rwa [← Slot.attribute?_unindexed, hslot, Slot.attribute?_unindexed]
  shapes a := by
    obtain ⟨-, -, o, ho, -⟩ := h
    exact Store.shape?_without ho a
  objects r hr := by
    refine Store.obj?_without_of_ne ?_
    rintro rfl
    exact hr h.parent
  marked := by
    rw [path_removing_self hp]
    exact ⟨rfl, rfl, rfl, h.slot, fun _ => rfl⟩
  paths q hq := path_removing_of_ne hq
  notes := rfl

end Workspace

namespace Edit

variable {w w' : Workspace σ} {p : PathId} {objects : List Ref}

/-- A removal succeeds exactly where the path can remove its node. -/
theorem run_remove_ok_iff : (∃ w', (remove p).run w = .ok () w') ↔ w.CanRemove p := by
  constructor
  · rintro ⟨w', hrun⟩
    obtain ⟨hlive, hnode, owner, place, hat, -⟩ := of_run_remove_ok hrun
    exact ⟨hlive, hnode, by rw [hat.parent]; exact nofun,
      Workspace.inPlace_iff.mpr ⟨owner, place, hat⟩⟩
  · rintro ⟨hlive, hnode, -, hin⟩
    obtain ⟨owner, place, -, hrun⟩ := run_remove_of_inPlace hlive hnode hin
    exact ⟨_, hrun⟩

/-- In a session a removal that does not succeed is refused, and changes nothing. -/
theorem run_remove_refused (hw : w.Sound objects) (hp : w.Knows p)
    (hnode : (w.path p).node = .null ∨ w.store.isNode (w.path p).node = true)
    (hcannot : ¬ w.CanRemove p) :
    ∃ refusal text, (remove p).run w = .error (.refused refusal text) w := by
  obtain ⟨refusal, hrun⟩ := run_remove_of_not_inPlace (w := w) (p := p) fun hlive hnode hin =>
    hcannot (by
      obtain ⟨_, hok⟩ := run_remove_of_inPlace hlive hnode hin
      exact run_remove_ok_iff.mp ⟨_, hok.choose_spec.2⟩)
  have htype : (w.path p).node = .null ∨ ∃ v, w.store.attr? (w.path p).node "type" = some v := by
    refine hnode.imp_right fun hisNode => ?_
    obtain ⟨r, -, -, hr, -⟩ := Store.exists_record_of_isNode hisNode
    rw [hr] at hisNode ⊢
    exact hw.typed r (hw.inside p hp (Atom.mem_refs.mpr hr)) hisNode
  obtain ⟨text, htext⟩ := run_refuse_of_type htype refusal
  exact ⟨refusal, text, hrun.trans htext⟩

/-- A node that has been removed is in place for no path any more. -/
theorem not_canRemove_of_removed {removable : Atom → Prop} {w'' : Workspace σ} {q : PathId}
    (hw : w.Sound objects) (hp : w.Knows p) (hisNode : w.store.isNode (w.path p).node = true)
    (hrun : (remove p).run w = .ok () w') (hsteps : w'.Steps removable w'') (hq : w''.Knows q)
    (hsame : (w''.path q).node = (w.path p).node) : ¬ w''.CanRemove q := by
  have hstep : w.Step anyValue w' := .remove trivial hrun
  have hw'' : w''.Sound objects := (hw.steps (.single hstep)).steps hsteps
  obtain ⟨-, -, owner, place, hat, rfl⟩ := of_run_remove_ok hrun
  obtain ⟨x, -, -, hx, -⟩ := Store.exists_record_of_isNode hisNode
  obtain ⟨o, ho, hholds⟩ := hat.holds
  rw [hx] at hholds hsame
  have hgone := (hw.unshared.gone_without (hw.inside.parent_mem hw.closed hp hat.parent) ho
    hholds).shrink (Workspace.Steps.shrinks hsteps)
  rintro ⟨-, -, -, hin⟩
  obtain ⟨owner', place', hat'⟩ := Workspace.inPlace_iff.mp hin
  have hmem := hw''.inside.parent_mem hw''.closed hq hat'.parent
  unfold Workspace.InPlace at hin
  rw [hat'.parent, hsame] at hin
  cases hslot : (w''.path q).slot with
  | nowhere =>
    rw [hslot] at hin
    exact hin
  | field name =>
    rw [hslot] at hin
    exact hgone.attr?_ne hmem name hin
  | entry list hint =>
    rw [hslot] at hin
    exact hgone.not_mem_entries hmem list hin

/-- In any state of a session with a complete tree in which no object hangs in two places, for any
held path to a node or to nothing: a removal succeeds exactly if the path can remove its node.  Then
the node is taken out and all else is as it was, and whatever follows in the session, a removal of
this node through whatever path is refused.  Where the path cannot remove its node, the removal is
refused, and the tree and the paths are as they were. -/
theorem removes_exactly {t : Labelled} {s : Store} (hhas : s.Has t) (hrefs : t.refs.Nodup)
    (hcomplete : t.Complete) {notes : σ} (hw : (Workspace.opened s t.atom notes).Session w)
    (hp : w.Knows p)
    (hnode : (w.path p).node = .null ∨ w.store.isNode (w.path p).node = true) :
    ((∃ w', (remove p).run w = .ok () w') ↔ w.CanRemove p) ∧
    (∀ w', (remove p).run w = .ok () w' → w.TakesOut p w' ∧
      ∀ w'', w'.Session w'' → ∀ q, w''.Knows q → (w''.path q).node = (w.path p).node →
        ∃ refusal text, (remove q).run w'' = .error (.refused refusal text) w'') ∧
    (¬ w.CanRemove p →
      ∃ refusal text, (remove p).run w = .error (.refused refusal text) w) := by
  have hsound := (Workspace.sound_opened hhas hrefs hcomplete notes).steps
    (Workspace.Session.steps hw)
  refine ⟨run_remove_ok_iff, fun w' hrun => ⟨?_, fun w'' hw'' q hq hsame => ?_⟩,
    run_remove_refused hsound hp hnode⟩
  · obtain ⟨-, -, owner, place, hat, rfl⟩ := of_run_remove_ok hrun
    exact hat.takesOut hp
  · have hisNode := hnode.resolve_left (of_run_remove_ok hrun).2.1
    have hstep : w.Step anyValue w' := .remove trivial hrun
    have hsteps := Workspace.Session.steps hw''
    have hnode'' : w''.store.isNode (w''.path q).node = true := by
      rw [hsame, (hstep.shrinks.trans (Workspace.Steps.shrinks hsteps)).isNode_eq, hisNode]
    exact run_remove_refused ((hsound.steps (.single hstep)).steps hsteps) hq (Or.inr hnode'')
      (not_canRemove_of_removed hsound hp hisNode hrun hsteps hq hsame)

/-- The elements of an array pattern are taken twice, and the first one is removed. -/
def takenTwice : Workspace Unit :=
  let w := Workspace.opened Pruner.fourElements (.ref ⟨4⟩) ()
  let w := endOf ((get ⟨0⟩ "elements").run w)
  let w := endOf ((get ⟨0⟩ "elements").run w)
  endOf ((remove ⟨1⟩).run w)

/-- The last element has moved; it is removed through the second path to it, and then no more through
the first one. -/
theorem removes_exactly_takenTwice :
    ∃ w', (remove ⟨8⟩).run takenTwice = .ok () w' ∧
      takenTwice.store.entries (.ref ⟨4⟩) "elements" = [.null, .ref ⟨2⟩, .ref ⟨3⟩] ∧
      w'.store.entries (.ref ⟨4⟩) "elements" = [.null, .ref ⟨2⟩] ∧
      ∃ refusal text, (remove ⟨4⟩).run w' = .error (.refused refusal text) w' := by
  have hsession : (Workspace.opened Pruner.fourElements (.ref ⟨4⟩) ()).Session takenTwice :=
    .tail (.tail (.tail .refl
      (.get (Workspace.knows_of_node_ne (p := ⟨0⟩) (by decide +kernel)) "elements"))
      (.get (Workspace.knows_of_node_ne (p := ⟨0⟩) (by decide +kernel)) "elements"))
      (.remove (Workspace.knows_of_node_ne (p := ⟨1⟩) (by decide +kernel)))
  obtain ⟨hiff, hdone, -⟩ := removes_exactly (t := Pruner.fourElementsTree) (p := ⟨8⟩)
    (by decide +kernel) (by decide +kernel) (by decide +kernel) hsession
    (Workspace.knows_of_node_ne (by decide +kernel)) (Or.inr (by decide +kernel))
  obtain ⟨w', hrun⟩ := hiff.mpr (by decide +kernel)
  have hend : w' = endOf ((remove ⟨8⟩).run takenTwice) := by rw [hrun]; rfl
  refine ⟨w', hrun, by decide +kernel, ?_, ?_⟩
  · rw [hend]
    decide +kernel
  · refine (hdone w' hrun).2 w' .refl ⟨4⟩ ?_ ?_
    · rw [hend]
      exact Workspace.knows_of_node_ne (by decide +kernel)
    · rw [hend]
      decide +kernel

end Edit

end NamedExports
