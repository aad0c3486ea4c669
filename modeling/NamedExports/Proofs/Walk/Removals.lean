import NamedExports.Proofs.Store.Lacking
import NamedExports.Proofs.Walk.Session

/-!
# Removals in any order

Some paths into a tree are taken, and then their nodes are removed.  As long as nothing has been
removed, the node of every path is where the path says (`Workspace.Fresh`).  A removal takes one
node out of the one object that holds it, whatever has been removed before, and leaves the other
paths as they were (`Workspace.Removed.remove`).  So the nodes can be removed in any order, and what
is left of the tree does not depend on it (`Edit.removals_commute`).

Nodes below removed ones are no exception: they hang where they hung, only out of sight.
-/

namespace NamedExports

variable {σ : Type}

namespace Workspace

variable {w₀ w w' : Workspace σ} {p : PathId} {objects : List Ref} {gone : List Atom}

/-! ### Taking paths -/

/-- A path is taken, and nothing is removed. -/
inductive Takes : Workspace σ → Workspace σ → Prop
  /-- A path to the node of a held path alone. -/
  | hold {w : Workspace σ} {p : PathId} (hp : w.Knows p) :
      Takes w (w.addPath (.start (w.path p).node))
  /-- What a dotted path leads to. -/
  | get {w : Workspace σ} {p : PathId} (hp : w.Knows p) (dotted : String) :
      Takes w (Edit.endOf ((Edit.get p dotted).run w))

/-- Any number of paths are taken. -/
abbrev Takings : Workspace σ → Workspace σ → Prop :=
  Relation.ReflTransGen Takes

/-- To take paths is to go by steps of which none is a removal. -/
theorem Takings.steps (h : w.Takings w') : w.Steps (fun _ => False) w' := by
  induction h with
  | refl => exact .refl
  | tail _ htakes ih =>
    cases htakes with
    | hold hp => exact ih.tail (.take (.start hp))
    | get hp dotted => exact ih.trans (Edit.bySteps_get hp dotted).1

/-! ### Paths before any removal -/

/-- No held path has removed its node, and each leads to nothing, starts at its node, or has its
node where it says. -/
def Fresh (w : Workspace σ) : Prop :=
  ∀ p, w.Knows p → (w.path p).removed = false ∧
    ((w.path p).node = .null ∨ (w.path p).above = none ∨ w.InPlace p)

theorem InPlace.congr (h : w.InPlace p) (hpath : w'.path p = w.path p)
    (hparent : w'.parent p = w.parent p) (hstore : w'.store = w.store) : w'.InPlace p := by
  unfold InPlace at h ⊢
  rw [hpath, hparent, hstore]
  exact h

theorem fresh_opened (s : Store) (node : Atom) (notes : σ) : (opened s node notes).Fresh := by
  intro p hp
  rcases knows_of_addPath hp with hold | rfl
  · exact absurd hold (Nat.not_lt_zero _)
  · unfold opened
    rw [path_addPath_nextPath]
    exact ⟨rfl, Or.inr (Or.inl rfl)⟩

/-- A new path has its node where it says, if it is not a start. -/
theorem Offers.fresh {path : Path} (h : w.Offers path) : path.removed = false ∧
    (path.node = .null ∨ path.above = none ∨ (w.addPath path).InPlace w.nextPath) := by
  have hparent : ∀ q, path.above = some q → w.Knows q →
      (w.addPath path).parent w.nextPath = (w.path q).node := by
    intro q habove hq
    rw [parent_eq (by rw [path_addPath_nextPath]; exact habove), (w.keepsPaths_addPath path q hq).2]
  cases h with
  | start hp => exact ⟨rfl, Or.inr (Or.inl rfl)⟩
  | missing habove => exact ⟨rfl, Or.inl rfl⟩
  | field hp hattr =>
    refine ⟨rfl, Or.inr (Or.inr ?_)⟩
    unfold InPlace
    rw [hparent _ rfl hp, path_addPath_nextPath]
    exact hattr
  | entry hp hindex =>
    refine ⟨rfl, Or.inr (Or.inr ?_)⟩
    unfold InPlace
    rw [hparent _ rfl hp, path_addPath_nextPath]
    exact List.mem_of_getElem? hindex

theorem Step.fresh (h : w.Step (fun _ => False) w') (hclosed : w.Closed) (hw : w.Fresh) :
    w'.Fresh := by
  cases h with
  | note f =>
    intro p hp
    obtain ⟨hlive, hplace⟩ := hw p hp
    exact ⟨hlive, hplace.imp_right (Or.imp_right fun hin => hin.congr rfl rfl rfl)⟩
  | @take path hpath =>
    intro p hp
    rcases knows_of_addPath hp with hold | rfl
    · obtain ⟨hlive, hplace⟩ := hw p hold
      have hstep : w.Step (fun _ => False) (w.addPath path) := .take hpath
      have hsame := (w.keepsPaths_addPath path p hold).2
      have hparent : (w.addPath path).parent p = w.parent p :=
        Steps.parent_eq (.single hstep) hold (hclosed p hold)
      rw [hsame]
      exact ⟨hlive, hplace.imp_right (Or.imp_right fun hin => hin.congr hsame hparent rfl)⟩
    · rw [w.path_addPath_nextPath]
      exact hpath.fresh
  | remove hnode hrun => exact hnode.elim

theorem Steps.fresh (h : w.Steps (fun _ => False) w') (hclosed : w.Closed) (hw : w.Fresh) :
    w'.Fresh := by
  induction h with
  | refl => exact hw
  | tail hsteps hstep ih => exact hstep.fresh (Steps.closed hsteps hclosed) ih

/-! ### Removals, one after the other -/

/-- The nodes to which some paths lead. -/
def nodesOf (w : Workspace σ) (ps : List PathId) : List Atom :=
  ps.map fun p => (w.path p).node

theorem nodesOf_cons (w : Workspace σ) (p : PathId) (ps : List PathId) :
    w.nodesOf (p :: ps) = (w.path p).node :: w.nodesOf ps := rfl

theorem mem_nodesOf {ps : List PathId} (hp : p ∈ ps) : (w.path p).node ∈ w.nodesOf ps :=
  List.mem_map.mpr ⟨p, hp, rfl⟩

/-- The same paths in another order lead to the same nodes. -/
theorem nodesOf_perm {ps qs : List PathId} (h : ps.Perm qs) : (w.nodesOf ps).Perm (w.nodesOf qs) :=
  h.map _

/-- Objects that hold nothing but each other, none of them twice, with fresh paths into them. -/
structure Ready (objects : List Ref) (w : Workspace σ) : Prop where
  unshared : w.store.Unshared objects
  distinct : ∀ r ∈ objects, ∀ o, w.store.obj? r = some o → o.Distinct
  closed : w.Closed
  inside : w.Inside objects
  fresh : w.Fresh

/-- The paths of a tree in which no object hangs in two places are fresh when they have been
taken. -/
theorem ready_of_takings {t : Labelled} {s : Store} (hhas : s.Has t) (hrefs : t.refs.Nodup)
    (hdistinct : t.Distinct) {notes : σ} (hw : (opened s t.atom notes).Takings w) :
    w.Ready t.refs := by
  have hsteps := Takings.steps hw
  have hclosed := closed_opened s t.atom notes
  have hstore : w.store = s := Steps.store_eq hsteps
  refine ⟨?_, fun r hr o ho => ?_, Steps.closed hsteps hclosed, ?_, ?_⟩
  · rw [hstore]
    exact hhas.unshared hrefs
  · obtain ⟨b, hb, rfl⟩ := List.mem_map.mp hr
    rw [hstore, hhas b hb] at ho
    cases ho
    exact hdistinct b hb
  · exact Steps.inside hsteps (hhas.unshared hrefs) (inside_opened s t notes)
  · exact Steps.fresh hsteps hclosed (fresh_opened s t.atom notes)

/-- Some nodes have been removed, and nothing else has been done. -/
structure Removed (objects : List Ref) (w₀ : Workspace σ) (gone : List Atom) (w : Workspace σ) :
    Prop where
  steps : w₀.Steps anyValue w
  /-- The objects lack the removed nodes. -/
  lacking : ∀ r ∈ objects, w.store.obj? r = (w₀.store.obj? r).map (Obj.lacking gone)
  /-- The paths to the other nodes are as they were. -/
  others : ∀ p, w₀.Knows p → (w₀.path p).node ∉ gone → w.path p = w₀.path p

theorem Removed.refl (w : Workspace σ) : Removed objects w [] w where
  steps := .refl
  lacking r _ := by cases w.store.obj? r <;> simp
  others _ _ _ := rfl

/-- A node that is not removed is where it was, in the same list or field. -/
theorem Removed.inPlace (h : Removed objects w₀ gone w) (hw₀ : w₀.Ready objects)
    (hp : w₀.Knows p) (hin : w₀.InPlace p) (hleft : (w₀.path p).node ∉ gone) : w.InPlace p := by
  obtain ⟨owner, -, hparent, -⟩ := inPlace_iff.mp hin
  have howner := hw₀.inside.parent_mem hw₀.closed hp hparent
  have hparent' := (Steps.parent_eq h.steps hp (hw₀.closed p hp)).trans hparent
  unfold InPlace at hin ⊢
  rw [h.others p hp hleft, hparent']
  rw [hparent] at hin
  cases hslot : (w₀.path p).slot with
  | nowhere =>
    rw [hslot] at hin
    exact hin
  | field name =>
    rw [hslot] at hin
    dsimp only at hin ⊢
    rw [Store.attr?_lacking (h.lacking owner howner), hin]
    simp [Value.lacking, hleft]
  | entry list hint =>
    rw [hslot] at hin
    dsimp only at hin ⊢
    rw [Store.entries_lacking (h.lacking owner howner)]
    exact List.mem_filter.mpr ⟨hin, by simpa using hleft⟩

/-- The store after one more node has been taken out of the object that holds it. -/
theorem Removed.lacking_without (h : Removed objects w₀ gone w) (hw₀ : w₀.Ready objects)
    {owner q : Ref} {o : Obj} {place : Slot} (howner : owner ∈ objects)
    (ho : w.store.obj? owner = some o) (hat : o.HoldsAt place (.ref q)) :
    ∀ r ∈ objects, (w.store.without owner place).obj? r =
      (w₀.store.obj? r).map (Obj.lacking (.ref q :: gone)) := by
  intro r hr
  have hlacking := h.lacking owner howner
  rw [ho] at hlacking
  obtain ⟨whole, hwhole, rfl⟩ := Option.map_eq_some_iff.mp hlacking.symm
  -- the node hung in the owner, and in nothing else, before anything was removed
  obtain ⟨held, v, -, hv, hqv⟩ := hat.of_lacking
  have hunique : ∀ r ∈ objects, ∀ o, w₀.store.obj? r = some o → ∀ name u, o.attr? name = some u →
      q ∈ u.refs → r = owner ∧ name = held := fun r hr o ho name u hu hqu =>
    hw₀.unshared.unique r hr owner howner name held u v ((Store.attr?_ref ho name).trans hu)
      ((Store.attr?_ref hwhole held).trans hv) q hqu hqv
  by_cases hrow : r = owner
  · subst hrow
    rw [Store.obj?_without_self ho, hwhole, Option.map_some]
    refine congrArg some (Obj.without_lacking (hw₀.distinct r hr whole hwhole)
      (fun name u hu => hw₀.unshared.nodup r hr name u ((Store.attr?_ref hwhole name).trans hu))
      (fun name name' u u' hu hu' hqu hqu' => ?_) hat)
    exact (hunique r hr whole hwhole name u hu hqu).2.trans
      (hunique r hr whole hwhole name' u' hu' hqu').2.symm
  · rw [Store.obj?_without_of_ne hrow, h.lacking r hr]
    cases hobj : w₀.store.obj? r with
    | none => rfl
    | some other =>
      refine congrArg some (Obj.lacking_cons_of_not_mem (hw₀.distinct r hr other hobj)
        fun name u hu hqu => hrow (hunique r hr other hobj name u hu hqu).1).symm

/-- Whatever has been removed before, a node that has not been is removed through its path. -/
theorem Removed.remove (h : Removed objects w₀ gone w) (hw₀ : w₀.Ready objects) {q : Ref}
    (hnode : (w₀.path p).node = .ref q) (habove : (w₀.path p).above ≠ none)
    (hleft : .ref q ∉ gone) :
    ∃ w', (Edit.remove p).run w = .ok () w' ∧ Removed objects w₀ (.ref q :: gone) w' := by
  have hp : w₀.Knows p := knows_of_node_ne (by rw [hnode]; exact nofun)
  obtain ⟨hlive, hplace⟩ := hw₀.fresh p hp
  have hin : w₀.InPlace p := (hplace.resolve_left (by rw [hnode]; exact nofun)).resolve_left habove
  have hpath := h.others p hp (hnode ▸ hleft)
  obtain ⟨owner, place, hat, hrun⟩ := Edit.run_remove_of_inPlace (w := w) (p := p)
    (by rw [hpath]; exact hlive) (by rw [hpath, hnode]; exact nofun)
    (h.inPlace hw₀ hp hin (hnode ▸ hleft))
  have hstep : w.Step anyValue (w.removing p owner place) := .remove trivial hrun
  have howner : owner ∈ objects := hw₀.inside.parent_mem hw₀.closed hp
    ((Steps.parent_eq h.steps hp (hw₀.closed p hp)).symm.trans hat.parent)
  obtain ⟨o, ho, hholds⟩ := hat.holds
  rw [hpath, hnode] at hholds
  refine ⟨_, hrun, h.steps.tail hstep, h.lacking_without hw₀ howner ho hholds, ?_⟩
  intro p' hp' hstays
  have hne : p' ≠ p := by
    rintro rfl
    exact hstays (hnode ▸ List.mem_cons_self)
  rw [path_removing_of_ne hne]
  exact h.others p' hp' fun hgone => hstays (List.mem_cons_of_mem _ hgone)

end Workspace

namespace Edit

variable {w₀ w : Workspace σ} {objects : List Ref} {gone : List Atom} {ps : List PathId}

/-- Nodes are removed through their paths, one after the other. -/
def removeAll : List PathId → Edit σ Unit
  | [] => return
  | p :: ps => do
    remove p
    removeAll ps

/-- Nodes that have not been removed yet, and differ, are removed one after the other. -/
theorem exists_run_removeAll (hw₀ : w₀.Ready objects) (hw : w₀.Removed objects gone w)
    (hps : ∀ p ∈ ps, (w₀.path p).above ≠ none ∧ w₀.store.isNode (w₀.path p).node = true)
    (hnodes : (w₀.nodesOf ps).Nodup)
    (hleft : ∀ p ∈ ps, (w₀.path p).node ∉ gone) :
    ∃ w', (removeAll ps).run w = .ok () w' ∧
      w₀.Removed objects ((w₀.nodesOf ps).reverse ++ gone) w' := by
  induction ps generalizing gone w with
  | nil => exact ⟨w, rfl, hw⟩
  | cons p ps ih =>
    rw [List.forall_mem_cons] at hps hleft
    obtain ⟨hfirst, hrest⟩ := List.nodup_cons.mp hnodes
    obtain ⟨q, -, -, hq, -⟩ := Store.exists_record_of_isNode hps.1.2
    obtain ⟨w₁, hrun, hw₁⟩ := hw.remove hw₀ hq hps.1.1 (hq ▸ hleft.1)
    -- the other nodes are not the one that goes now
    have hothers : ∀ p' ∈ ps, (w₀.path p').node ∉ Atom.ref q :: gone := by
      intro p' hp' hmem
      rcases List.mem_cons.mp hmem with heq | hmem
      · have hmem := Workspace.mem_nodesOf (w := w₀) hp'
        rw [heq, ← hq] at hmem
        exact hfirst hmem
      · exact hleft.2 p' hp' hmem
    obtain ⟨w', hrun', hw'⟩ := ih hw₁ hps.2 hrest hothers
    refine ⟨w', ?_, ?_⟩
    · unfold removeAll
      rw [run_bind_ok hrun]
      exact hrun'
    · rw [Workspace.nodesOf_cons, List.reverse_cons, List.append_assoc, hq]
      exact hw'

/-- Paths are taken into a tree in which no object hangs in two places, nor has two attributes of one
name.  Then the nodes of some of them, which differ and are not starts, can be removed in any order:
every removal succeeds, and what is left is always the tree without these nodes, the lists that they
were entries of keeping their other entries in order and the fields that held them being null. -/
theorem removals_commute {t : Labelled} {s : Store} (hhas : s.Has t) (hrefs : t.refs.Nodup)
    (hdistinct : t.Distinct) {notes : σ} (hw : (Workspace.opened s t.atom notes).Takings w)
    (hps : ∀ p ∈ ps, (w.path p).above ≠ none ∧ w.store.isNode (w.path p).node = true)
    (hnodes : (w.nodesOf ps).Nodup) {order : List PathId}
    (horder : order.Perm ps) :
    ∃ w', (removeAll order).run w = .ok () w' ∧
      w'.store.tree t.atom = (t.lacking (w.nodesOf ps)).toTree := by
  have hready := Workspace.ready_of_takings hhas hrefs hdistinct hw
  have hstore : w.store = s := Workspace.Steps.store_eq (Workspace.Takings.steps hw)
  obtain ⟨w', hrun, hremoved⟩ := exists_run_removeAll hready (.refl w)
    (fun p hp => hps p (horder.mem_iff.mp hp))
    ((Workspace.nodesOf_perm horder).nodup_iff.mpr hnodes)
    (fun _ _ => List.not_mem_nil)
  refine ⟨w', hrun, ?_⟩
  have hlacks : ∀ r ∈ t.refs, w'.store.obj? r =
      (s.obj? r).map (Obj.lacking (w.nodesOf ps)) := by
    intro r hr
    rw [hremoved.lacking r hr, hstore]
    congr 1
    funext o
    refine Obj.lacking_congr (fun a => ?_) o
    rw [List.append_nil, List.mem_reverse]
    exact (Workspace.nodesOf_perm horder).mem_iff
  rw [← (hhas.lacking hlacks).tree_atom, Labelled.atom_lacking]

/-- An array pattern of `a`, a rest element for `b`, and `c`. -/
def mixedElements : Store :=
  let (s, a) := Store.empty.addModelled .identifier ⟨0, 0⟩ [("name", .atom (.str "a"))]
  let (s, b) := s.addModelled .identifier ⟨0, 0⟩ [("name", .atom (.str "b"))]
  let (s, rest) := s.addModelled .restElement ⟨0, 0⟩ [("argument", .atom (.ref b))]
  let (s, c) := s.addModelled .identifier ⟨0, 0⟩ [("name", .atom (.str "c"))]
  (s.addModelled .arrayPattern ⟨0, 0⟩ [("elements", .items [.ref a, .ref rest, .ref c])]).1

theorem refs_str (text : String) : (Atom.str text).refs = [] := rfl

/-- The same array pattern as a labelled tree. -/
def mixedElementsTree : Labelled :=
  let identifier (r : Ref) (name : String) : Labelled :=
    Pruner.labelled r .identifier [("name", .one (.value (.str name) (refs_str name)))]
  Pruner.labelled ⟨4⟩ .arrayPattern [("elements", .many [identifier ⟨0⟩ "a",
    Pruner.labelled ⟨2⟩ .restElement [("argument", .one (identifier ⟨1⟩ "b"))],
    identifier ⟨3⟩ "c"])]

/-- The paths of the three elements and of what the rest element is for have been taken. -/
def mixedTaken : Workspace Unit :=
  let w := Workspace.opened mixedElements (.ref ⟨4⟩) ()
  let w := endOf ((get ⟨0⟩ "elements").run w)
  endOf ((get ⟨2⟩ "argument").run w)

/-- The first element, the rest element and what it is for go, from the outside inwards or from the
inside outwards. -/
theorem removals_commute_mixedTaken :
    let left := Tree.modelled .arrayPattern ⟨0, 0⟩
      [.list [.modelled .identifier ⟨0, 0⟩ [.str "c"]]]
    (∃ w', (removeAll [⟨1⟩, ⟨2⟩, ⟨4⟩]).run mixedTaken = .ok () w' ∧
      w'.store.tree (.ref ⟨4⟩) = left) ∧
    ∃ w', (removeAll [⟨4⟩, ⟨2⟩, ⟨1⟩]).run mixedTaken = .ok () w' ∧
      w'.store.tree (.ref ⟨4⟩) = left := by
  intro left
  have htakings : (Workspace.opened mixedElements (.ref ⟨4⟩) ()).Takings mixedTaken :=
    .tail (.tail .refl
      (.get (Workspace.knows_of_node_ne (p := ⟨0⟩) (by decide +kernel)) "elements"))
      (.get (Workspace.knows_of_node_ne (p := ⟨2⟩) (by decide +kernel)) "argument")
  have hremoved := fun (order : List PathId) (horder : order.Perm [⟨1⟩, ⟨2⟩, ⟨4⟩]) =>
    removals_commute (t := mixedElementsTree) (by decide +kernel) (by decide +kernel)
      (by decide +kernel) htakings (by decide +kernel) (by decide +kernel) horder
  obtain ⟨w₁, hrun₁, htree₁⟩ := hremoved [⟨1⟩, ⟨2⟩, ⟨4⟩] (by decide)
  obtain ⟨w₂, hrun₂, htree₂⟩ := hremoved [⟨4⟩, ⟨2⟩, ⟨1⟩] (by decide)
  have hnodes : mixedTaken.nodesOf [⟨1⟩, ⟨2⟩, ⟨4⟩] = [.ref ⟨0⟩, .ref ⟨2⟩, .ref ⟨1⟩] := by
    decide +kernel
  rw [hnodes] at htree₁ htree₂
  exact ⟨⟨w₁, hrun₁, htree₁⟩, w₂, hrun₂, htree₂⟩

end Edit

end NamedExports
