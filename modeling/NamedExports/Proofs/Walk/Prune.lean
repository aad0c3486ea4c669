import NamedExports.Proofs.Walk.Place
import NamedExports.Proofs.Walk.Pruner
import NamedExports.Proofs.Walk.Running

/-!
# Walks that remove what they visit

A walk with a pruner changes the tree while it goes through it.  On a tree in which no object hangs
twice it nevertheless records and leaves what `Pruner.prune` says of the tree as it was given.  The
invariant of the walk is that the store has, at each moment, the tree of which a part has been
pruned already and the rest is as it was given; a visit of one part changes nothing but the objects
of the part and the place in which the part hangs (`Prunes`).
-/

namespace NamedExports

variable {ε : Type}

/-! ### Callbacks -/

/-- A workspace with more recorded. -/
def Workspace.record (w : Workspace (List (Event ε))) (events : List (Event ε)) :
    Workspace (List (Event ε)) :=
  { w with notes := w.notes ++ events }

namespace Pruner

variable {v : Pruner ε} {t now : Labelled} {phase : Phase} {p : PathId}
  {w : Workspace (List (Event ε))}

/-- What a callback that is there does at a path. -/
def hook (v : Pruner ε) (phase : Phase) (t : Labelled) :
    Option (PathId → Edit (List (Event ε)) Unit) :=
  (v.callback? phase t).map fun c => c.run phase

/-- What a walk does at a node is what the pruner says for its type. -/
theorem hooks_visitor (v : Pruner ε) (t : Labelled) :
    Walk.hooks v.visitor (t.toTree.get "type") =
      { enter := v.hook .enter t, exit := v.hook .exit t } := by
  unfold Walk.hooks hook callback?
  cases t.toTree.get "type" <;> rfl

/-- A callback that does not remove the node records the node. -/
theorem run_call_stays (hhas : w.store.Has now) (hp : (w.path p).node = now.atom)
    (h : v.removes phase t now = false) :
    (Walk.call (v.hook phase t) p).run w = .ok () (w.record (v.events phase t now)) := by
  unfold removes at h
  unfold hook events
  cases hc : v.callback? phase t with
  | none =>
    unfold Workspace.record
    simp [Walk.run_call_none]
  | some c =>
    rw [hc] at h
    have hstays : c.removes now.atom now.toTree = false := h
    rw [Option.map_some, Walk.run_call_some]
    unfold Callback.run
    simp only [EStateM.run_bind, Edit.run_path, Edit.run_store, Edit.run_note, hp, hhas.tree_atom,
      hstays, Bool.false_eq_true, if_false, EStateM.run_pure]
    rfl

/-- A callback that removes the node records the node and then empties its place. -/
theorem exists_run_call {w₀ : Workspace (List (Event ε))} {q : PathId} {owner : Ref} {o : Obj}
    {slot : Slot} (hkeeps : w₀.KeepsPaths w) (hnew : ¬ w₀.Knows p) (hknown : w.Knows p)
    (hp : w.path p = .ofPlace now.atom q slot) (hq : (w.path q).node = .ref owner)
    (ho : w.store.obj? owner = some o) (ha : now.atom ≠ .null) (hat : o.HoldsAt slot now.atom)
    (hhas : w.store.Has now) (h : v.removes phase t now = true) :
    ∃ w', (Walk.call (v.hook phase t) p).run w = .ok () w' ∧
      w'.store.obj? owner = some (o.without slot) ∧
      (∀ x, x ≠ owner → w'.store.obj? x = w.store.obj? x) ∧
      w'.notes = w.notes ++ v.events phase t now ∧ (w'.path p).removed = true ∧
      w₀.KeepsPaths w' := by
  unfold removes at h
  unfold hook events
  cases hc : v.callback? phase t with
  | none =>
    rw [hc] at h
    exact absurd h Bool.false_ne_true
  | some c =>
    rw [hc] at h
    have hgoes : c.removes now.atom now.toTree = true := h
    have hnode : (w.path p).node = now.atom := by
      rw [hp]
      rfl
    obtain ⟨w', hrun, howner, hother, hnotes, hremoved, hkeeps'⟩ := Edit.exists_run_remove
      (w := w.record [⟨phase, now.atom, c.content now.atom now.toTree⟩]) hkeeps hnew hknown hp hq ho
      ha hat
    refine ⟨w', ?_, howner, hother, hnotes, hremoved, hkeeps'⟩
    rw [Option.map_some, Walk.run_call_some, ← hrun]
    unfold Callback.run
    simp only [EStateM.run_bind, Edit.run_path, Edit.run_store, Edit.run_note, hnode,
      hhas.tree_atom, hgoes, if_true]
    rfl

end Pruner

namespace Pruner

variable {v : Pruner ε} {s s' : Store} {t : Labelled}

/-! ### One part of a tree -/

/-- How a store is left by a visit of one part of a tree: the part is left as it is to be left, and
nothing has changed outside of it but the place in which it hung. -/
structure Leaves (s s' : Store) (owner : Ref) (slot : Slot) (t : Labelled)
    (left : Option Labelled) : Prop where
  others : ∀ x, x ∉ t.refs → x ≠ owner → s'.obj? x = s.obj? x
  owner_eq : s'.obj? owner = (s.obj? owner).map fun o => if left.isSome then o else o.without slot
  has : ∀ t', left = some t' → s'.Has t'

/-- Where nothing is done, a part stays as it is. -/
theorem Leaves.refl {owner : Ref} {slot : Slot} (h : s.Has t) :
    Leaves s s owner slot t (some t) where
  others _ _ _ := rfl
  owner_eq := by cases s.obj? owner <;> rfl
  has _ heq := Option.some.inj heq ▸ h

/-- A visit that starts by changing the part only. -/
theorem Leaves.of_agree {s₁ : Store} {owner : Ref} {slot : Slot} {now : Labelled}
    {left : Option Labelled} (h : Leaves s₁ s' owner slot now left)
    (hsame : ∀ x, x ∉ t.refs → s₁.obj? x = s.obj? x) (howner : owner ∉ t.refs)
    (hrefs : now.refs ⊆ t.refs) : Leaves s s' owner slot t left where
  others x hx hne := (h.others x (fun hmem => hx (hrefs hmem)) hne).trans (hsame x hx)
  owner_eq := by rw [h.owner_eq, hsame owner howner]
  has := h.has

/-- What a callback leaves of a node that hangs in a place. -/
theorem exists_run_call_leaves {w₀ w : Workspace (List (Event ε))} {phase : Phase} {now : Labelled}
    {p q : PathId} {owner : Ref} {o : Obj} {slot : Slot} (hkeeps : w₀.KeepsPaths w)
    (hnew : ¬ w₀.Knows p) (hknown : w.Knows p) (hp : w.path p = .ofPlace now.atom q slot)
    (hq : (w.path q).node = .ref owner) (ho : w.store.obj? owner = some o)
    (ha : now.atom ≠ .null) (hat : o.HoldsAt slot now.atom) (hhas : w.store.Has now) :
    ∃ w', (Walk.call (v.hook phase t) p).run w = .ok () w' ∧
      w'.notes = w.notes ++ v.events phase t now ∧ w₀.KeepsPaths w' ∧
      Leaves w.store w'.store owner slot now
        (if v.removes phase t now then none else some now) := by
  cases hgoes : v.removes phase t now with
  | true =>
    obtain ⟨w', hrun, howner, hothers, hnotes, -, hkeeps'⟩ :=
      exists_run_call hkeeps hnew hknown hp hq ho ha hat hhas hgoes
    refine ⟨w', hrun, hnotes, hkeeps', fun x _ hne => hothers x hne, ?_, nofun⟩
    rw [howner, ho]
    rfl
  | false =>
    exact ⟨_, run_call_stays hhas (by rw [hp]; rfl) hgoes, rfl, hkeeps, .refl hhas⟩

/-- The parts that hang beside a part are there after a visit of the part. -/
theorem Leaves.has_parts {owner : Ref} {slot : Slot} {left : Option Labelled}
    {as bs : List Labelled} (h : Leaves s s' owner slot t left)
    (hnodup : (owner :: (as ++ t :: bs).flatMap Labelled.refs).Nodup)
    (hhas : ∀ u ∈ as ++ t :: bs, s.Has u) : ∀ u ∈ as ++ left.toList ++ bs, s'.Has u := by
  obtain ⟨-, howner, hapart⟩ := Labelled.nodup_parts hnodup
  -- a part that shares nothing with the visited one is as it was
  have hbeside : ∀ u ∈ as ++ bs, s'.Has u := by
    intro u hu
    have hmem : u ∈ as ++ t :: bs := by
      simp only [List.mem_append, List.mem_cons] at hu ⊢
      tauto
    refine (hhas u hmem).of_agree fun x hx => h.others x (hapart u hu x hx) ?_
    rintro rfl
    exact howner u hmem hx
  intro u hu
  rcases List.mem_append.mp hu with hu | hu
  · rcases List.mem_append.mp hu with hu | hu
    · exact hbeside u (List.mem_append_left _ hu)
    · exact h.has u (Option.mem_toList.mp hu)
  · exact hbeside u (List.mem_append_right _ hu)

/-- What a visit of a node has to do, wherever the node hangs: record what is to be recorded, and
leave the store as it is to be left. -/
def Prunes (v : Pruner ε) (visit : PathId → Edit (List (Event ε)) Unit) (t : Labelled) : Prop :=
  ∀ (w : Workspace (List (Event ε))) (above : PathId) (owner : Ref) (o : Obj) (slot : Slot),
    w.store.Has t → t.refs.Nodup → owner ∉ t.refs → (w.path above).node = .ref owner →
    w.store.obj? owner = some o → o.HoldsAt slot t.atom →
    ∃ w', (visit w.nextPath).run (w.addPath (.ofPlace t.atom above slot)) = .ok () w' ∧
      w'.notes = w.notes ++ (v.prune t).1 ∧ w.KeepsPaths w' ∧
      Leaves w.store w'.store owner slot t (v.prune t).2

/-- An edit that records some events and turns one tree that the store has into another one. -/
def Turns (m : Edit (List (Event ε)) Unit) (w : Workspace (List (Event ε)))
    (events : List (Event ε)) (t t' : Labelled) : Prop :=
  ∃ w', m.run w = .ok () w' ∧ w'.notes = w.notes ++ events ∧ w.KeepsPaths w' ∧
    (∀ x, x ∉ t.refs → w'.store.obj? x = w.store.obj? x) ∧ w'.store.Has t'

/-- An edit that goes on, after a first one, as another one does. -/
theorem Turns.of_run_eq {m m₁ : Edit (List (Event ε)) Unit} {w w₁ : Workspace (List (Event ε))}
    {es es₁ : List (Event ε)} {t t₁ t' : Labelled} (h : Turns m₁ w₁ es₁ t₁ t')
    (hrun : m.run w = m₁.run w₁) (hnotes : w₁.notes = w.notes ++ es) (hkeeps : w.KeepsPaths w₁)
    (hothers : ∀ x, x ∉ t.refs → w₁.store.obj? x = w.store.obj? x) (hrefs : t₁.refs ⊆ t.refs) :
    Turns m w (es ++ es₁) t t' := by
  obtain ⟨w', hrun₁, hnotes₁, hkeeps₁, hothers₁, hhas⟩ := h
  refine ⟨w', hrun.trans hrun₁, ?_, hkeeps.trans hkeeps₁, fun x hx => ?_, hhas⟩
  · rw [hnotes₁, hnotes, List.append_assoc]
  · rw [hothers₁ x fun hmem => hx (hrefs hmem), hothers x hx]

/-! ### Lists -/

section Loops

variable {visit : PathId → Edit (List (Event ε)) Unit} {above : PathId} {r : Ref} {shape : Shape}
  {before after : List (String × Held Labelled)} {name : String} {held held' : Held Labelled}
  {kept rest : List Labelled} {t : Labelled} {w : Workspace (List (Event ε))}

/-- What an object holds after a visit of one of its parts. -/
theorem Leaves.has_record {slot : Slot} {left : Option Labelled}
    (h : Leaves s s' r slot t left) (as bs : List Labelled)
    (hhas : s.Has (.record r shape (before ++ (name, held) :: after)))
    (hrefs : (Labelled.record r shape (before ++ (name, held) :: after)).refs.Nodup)
    (hheld : held.toList = as ++ t :: bs)
    (hheld' : ∀ u ∈ held'.toList, u ∈ as ++ left.toList ++ bs ∨ s'.Has u)
    (hobj : (if left.isSome then Labelled.toObj shape (before ++ (name, held) :: after)
      else (Labelled.toObj shape (before ++ (name, held) :: after)).without slot) =
        Labelled.toObj shape (before ++ (name, held') :: after)) :
    s'.Has (.record r shape (before ++ (name, held') :: after)) := by
  obtain ⟨ho, hparts⟩ := Store.has_record_iff.mp hhas
  rw [Labelled.refs_record_eq, Labelled.parts_around hheld] at hrefs
  rw [Labelled.parts_around hheld] at hparts
  have hleft := h.has_parts hrefs hparts
  refine Store.has_record_iff.mpr ⟨?_, fun u hu => ?_⟩
  · rw [h.owner_eq, ho, Option.map_some, hobj]
  · rw [Labelled.parts_split, List.append_assoc] at hu
    rcases List.mem_append.mp hu with hu | hu
    · exact hleft u (by simp [hu])
    · rcases List.mem_append.mp hu with hu | hu
      · rcases hheld' u hu with hu | hhas'
        · refine hleft u ?_
          simp only [List.mem_append] at hu ⊢
          tauto
        · exact hhas'
      · exact hleft u (by simp [hu])

/-- The entries of a list after a visit of one of them. -/
theorem Leaves.has_entries {left : Option Labelled}
    (h : Leaves s s' r (.entry name kept.length) t left)
    (hhas : s.Has (.record r shape (before ++ (name, .many (kept ++ t :: rest)) :: after)))
    (hrefs : (Labelled.record r shape
      (before ++ (name, .many (kept ++ t :: rest)) :: after)).refs.Nodup)
    (hnames : (before.map Prod.fst ++ name :: after.map Prod.fst).Nodup)
    (hatom : ∀ t', left = some t' → t'.atom = t.atom) :
    s'.Has (.record r shape (before ++ (name, .many (kept ++ left.toList ++ rest)) :: after)) := by
  refine h.has_record kept rest hhas hrefs rfl (fun u hu => Or.inl hu) ?_
  cases left with
  | none =>
    rw [Option.toList_none, List.append_nil]
    exact Labelled.without_entry hnames
  | some t' =>
    refine Labelled.toObj_congr ?_
    simp [Labelled.toValue, hatom t' rfl]

/-- A field after a visit of what it holds. -/
theorem Leaves.has_field {left : Option Labelled} (h : Leaves s s' r (.field name) t left)
    (hhas : s.Has (.record r shape (before ++ (name, .one t) :: after)))
    (hrefs : (Labelled.record r shape (before ++ (name, .one t) :: after)).refs.Nodup)
    (hnames : (before.map Prod.fst ++ name :: after.map Prod.fst).Nodup)
    (hatom : ∀ t', left = some t' → t'.atom = t.atom) :
    s'.Has (.record r shape (before ++ (name, .one (left.getD .null)) :: after)) := by
  cases left with
  | none =>
    refine h.has_record [] [] hhas hrefs rfl (fun u hu => Or.inr ?_) (Labelled.without_field hnames)
    rw [List.mem_singleton.mp hu]
    exact fun b hb => by simp [Labelled.null, Labelled.objects] at hb
  | some t' =>
    refine h.has_record [] [] hhas hrefs rfl (fun u hu => Or.inl ?_) (Labelled.toObj_congr ?_)
    · simpa [Held.toList] using hu
    · simp [Labelled.toValue, hatom t' rfl]

/-- The entries of a list attribute, as they are in a store. -/
theorem entries_eq {items : List Labelled}
    (hhas : s.Has (.record r shape (before ++ (name, .many items) :: after)))
    (hnames : (before.map Prod.fst ++ name :: after.map Prod.fst).Nodup) :
    s.entries (.ref r) name = items.map Labelled.atom := by
  unfold Store.entries
  rw [Store.attr?_ref hhas.obj?_record, Labelled.attr?_toObj hnames]
  rfl

/-- What a visit does of a node that hangs in an object in which no object hangs twice. -/
theorem Prunes.exists_run (h : v.Prunes visit t) (slot : Slot)
    (hhas : w.store.Has (.record r shape (before ++ (name, held) :: after)))
    (hrefs : (Labelled.record r shape (before ++ (name, held) :: after)).refs.Nodup)
    (hmem : t ∈ held.toList) (habove : (w.path above).node = .ref r)
    (hat : (Labelled.toObj shape (before ++ (name, held) :: after)).HoldsAt slot t.atom) :
    ∃ w', (visit w.nextPath).run (w.addPath (.ofPlace t.atom above slot)) = .ok () w' ∧
      w'.notes = w.notes ++ (v.prune t).1 ∧ w.KeepsPaths w' ∧
      Leaves w.store w'.store r slot t (v.prune t).2 := by
  obtain ⟨as, bs, hsplit⟩ := List.append_of_mem hmem
  obtain ⟨ho, hparts⟩ := Store.has_record_iff.mp hhas
  rw [Labelled.refs_record_eq, Labelled.parts_around hsplit] at hrefs
  obtain ⟨htrefs, howner, -⟩ := Labelled.nodup_parts hrefs
  exact h w above r _ slot (hparts t (Labelled.mem_parts hmem)) htrefs (howner t (by simp)) habove ho
    hat

/-- What stands behind a node in a list is another object. -/
theorem getElem?_ne_of_gone
    (hrefs : (Labelled.record r shape
      (before ++ (name, .many (kept ++ t :: rest)) :: after)).refs.Nodup)
    (hnode : t.isNode = true) :
    ((kept ++ rest).map Labelled.atom)[kept.length]? ≠ some t.atom := by
  rw [Labelled.refs_record_eq, Labelled.parts_around rfl] at hrefs
  obtain ⟨-, -, hapart⟩ := Labelled.nodup_parts hrefs
  obtain ⟨x, _, _, hrecord, -⟩ := Labelled.exists_record_of_isNode hnode
  have hx : t.atom = .ref x := by rw [hrecord, Labelled.atom]
  cases rest with
  | nil => simp
  | cons u rest =>
    intro hsame
    have heq : u.atom = t.atom := by simpa using hsame
    exact hapart u (by simp) x (Labelled.mem_refs_of_atom (heq.trans hx))
      (Labelled.mem_refs_of_atom hx)

/-- One entry of a list is visited if it is a node.  The entry after it then stands at the index
after what is left of it, and that index is looked at next. -/
theorem exists_run_entry (hvisit : t.isNode = true → v.Prunes visit t)
    (hhas : w.store.Has (.record r shape (before ++ (name, .many (kept ++ t :: rest)) :: after)))
    (hrefs : (Labelled.record r shape
      (before ++ (name, .many (kept ++ t :: rest)) :: after)).refs.Nodup)
    (hnames : (before.map Prod.fst ++ name :: after.map Prod.fst).Nodup)
    (habove : (w.path above).node = .ref r) (visits : ℕ) :
    ∃ w', (Walk.entries visit above (.ref r) name (visits + 1) kept.length).run w =
        (Walk.entries visit above (.ref r) name visits
          (kept ++ (v.prune t).2.toList).length).run w' ∧
      w'.notes = w.notes ++ (v.prune t).1 ∧ w.KeepsPaths w' ∧
      Leaves w.store w'.store r (.entry name kept.length) t (v.prune t).2 := by
  have hentry : (w.store.entries (.ref r) name)[kept.length]? = some t.atom := by
    rw [entries_eq hhas hnames]
    simp
  have hhast : w.store.Has t :=
    (Store.has_record_iff.mp hhas).2 t (Labelled.mem_parts (by simp [Held.toList]))
  cases hnode : t.isNode with
  | false =>
    rw [prune_of_not_isNode hnode]
    refine ⟨w, ?_, (List.append_nil _).symm, .refl w, .refl hhast⟩
    rw [Walk.run_entries_skip hentry (hhast.isNode_atom.trans hnode)]
    simp
  | true =>
    obtain ⟨w', hrun, hnotes, hkeeps, hleaves⟩ := (hvisit hnode).exists_run
      (.entry name kept.length) hhas hrefs (by simp [Held.toList]) habove
      ⟨_, Labelled.attr?_toObj hnames, by simp⟩
    have hentries := entries_eq (hleaves.has_entries hhas hrefs hnames fun _ => atom_of_prune)
      hnames
    refine ⟨w', ?_, hnotes, hkeeps, hleaves⟩
    cases hleft : (v.prune t).2 with
    | some t' =>
      rw [hleft] at hentries
      rw [Walk.run_entries_kept hentry (hhast.isNode_atom.trans hnode) hrun]
      · simp
      · rw [hentries]
        simp [atom_of_prune hleft]
    | none =>
      rw [hleft, Option.toList_none, List.append_nil] at hentries
      rw [Walk.run_entries_gone hentry (hhast.isNode_atom.trans hnode) hrun]
      · simp
      · rw [hentries]
        exact getElem?_ne_of_gone hrefs hnode

/-- What is left of the rest of a list is no more than the list was. -/
theorem sublist_entries : ((kept ++ (v.prune t).2.toList ++ rest).flatMap Labelled.refs).Sublist
    ((kept ++ t :: rest).flatMap Labelled.refs) := by
  rw [List.append_assoc, List.flatMap_append, List.flatMap_append, List.flatMap_append,
    List.flatMap_cons]
  refine (List.Sublist.refl _).append (List.Sublist.append ?_ (.refl _))
  cases hleft : (v.prune t).2 with
  | none => exact List.nil_sublist _
  | some t' => simpa using v.shrinks t t' hleft

/-- A visit of a part concerns nothing outside of the object that the part hangs in. -/
theorem Leaves.others_record {slot : Slot} {left : Option Labelled}
    {attributes : List (String × Held Labelled)} (h : Leaves s s' r slot t left)
    (ht : t ∈ Labelled.parts attributes) :
    ∀ x, x ∉ (Labelled.record r shape attributes).refs → s'.obj? x = s.obj? x := by
  intro x hx
  refine h.others x (fun hxt => hx (Labelled.refs_subset_of_mem_parts ht hxt)) ?_
  rintro rfl
  exact hx (Labelled.mem_refs_of_atom rfl)

/-- The entries of a list that have not been looked at yet are pruned one after the other. -/
theorem turns_entries (rest kept : List Labelled)
    {w : Workspace (List (Event ε))} (hvisit : ∀ t ∈ rest, t.isNode = true → v.Prunes visit t)
    (hhas : w.store.Has (.record r shape (before ++ (name, .many (kept ++ rest)) :: after)))
    (hrefs : (Labelled.record r shape
      (before ++ (name, .many (kept ++ rest)) :: after)).refs.Nodup)
    (hnames : (before.map Prod.fst ++ name :: after.map Prod.fst).Nodup)
    (habove : (w.path above).node = .ref r) :
    Turns (Walk.entries visit above (.ref r) name rest.length kept.length) w (v.pruneItems rest).1
      (.record r shape (before ++ (name, .many (kept ++ rest)) :: after))
      (.record r shape (before ++ (name, .many (kept ++ (v.pruneItems rest).2)) :: after)) := by
  induction rest generalizing kept w with
  | nil =>
    refine ⟨w, Walk.run_entries_end ?_, (List.append_nil _).symm, .refl w, fun _ _ => rfl, hhas⟩
    rw [entries_eq hhas hnames]
    simp
  | cons t rest ih =>
    obtain ⟨w₁, hrun, hnotes, hkeeps, hleaves⟩ := exists_run_entry
      (hvisit t List.mem_cons_self) hhas hrefs hnames habove rest.length
    have hsub : (Labelled.record r shape (before ++
        (name, .many (kept ++ (v.prune t).2.toList ++ rest)) :: after)).refs.Sublist
        (Labelled.record r shape (before ++ (name, .many (kept ++ t :: rest)) :: after)).refs :=
      Labelled.sublist_refs sublist_entries
    have hgo := ih _ (fun u hu => hvisit u (List.mem_cons_of_mem _ hu))
      (hleaves.has_entries hhas hrefs hnames fun _ => atom_of_prune) (hrefs.sublist hsub)
      (hkeeps.node_eq habove nofun)
    rw [List.append_assoc kept _ (v.pruneItems rest).2] at hgo
    exact hgo.of_run_eq hrun hnotes hkeeps
      (hleaves.others_record (Labelled.mem_parts (by simp [Held.toList]))) hsub.subset

/-! ### Fields -/

/-- A field is pruned, whatever it holds. -/
theorem turns_field (held : Held Labelled)
    (hvisit : ∀ t ∈ held.toList, t.isNode = true → v.Prunes visit t)
    (hhas : w.store.Has (.record r shape (before ++ (name, held) :: after)))
    (hrefs : (Labelled.record r shape (before ++ (name, held) :: after)).refs.Nodup)
    (hnames : (before.map Prod.fst ++ name :: after.map Prod.fst).Nodup)
    (habove : (w.path above).node = .ref r) :
    Turns (Walk.field visit above (.ref r) name) w (v.pruneHeld held).1
      (.record r shape (before ++ (name, held) :: after))
      (.record r shape (before ++ (name, (v.pruneHeld held).2) :: after)) := by
  obtain ⟨ho, hparts⟩ := Store.has_record_iff.mp hhas
  have hattr : w.store.attr? (.ref r) name = some (Labelled.toValue held) := by
    rw [Store.attr?_ref ho, Labelled.attr?_toObj hnames]
  cases held with
  | many ts =>
    obtain ⟨w', hrun, hrest⟩ := turns_entries ts [] hvisit hhas hrefs hnames habove
    refine ⟨w', ?_, hrest⟩
    rw [Walk.run_field_items hattr, List.length_map]
    exact hrun
  | one t =>
    have hmem : t ∈ Labelled.parts (before ++ (name, .one t) :: after) :=
      Labelled.mem_parts (List.mem_singleton_self t)
    have hhast : w.store.Has t := hparts t hmem
    cases hnode : t.isNode with
    | false =>
      refine ⟨w, Walk.run_field_skip hattr (hhast.isNode_atom.trans hnode), ?_, .refl w,
        fun _ _ => rfl, ?_⟩
      · simp [pruneHeld, prune_of_not_isNode hnode]
      · rw [pruneHeld, prune_of_not_isNode hnode]
        exact hhas
    | true =>
      obtain ⟨w', hrun, hnotes, hkeeps, hleaves⟩ := (hvisit t (List.mem_singleton_self t)
        hnode).exists_run (.field name) hhas hrefs (List.mem_singleton_self t) habove
          (Labelled.attr?_toObj hnames)
      refine ⟨w', ?_, hnotes, hkeeps, hleaves.others_record hmem,
        hleaves.has_field hhas hrefs hnames fun _ => atom_of_prune⟩
      rw [Walk.run_field_node hattr (hhast.isNode_atom.trans hnode)]
      exact hrun

/-- The fields that have not been looked at yet are pruned one after the other. -/
theorem turns_fields (fields : List String) (todo : List (String × Held Labelled))
    {before : List (String × Held Labelled)} {w : Workspace (List (Event ε))}
    (hfields : ∀ a ∈ todo, a.1 ∈ fields)
    (hvisit : ∀ a ∈ todo, ∀ t ∈ a.2.toList, t.isNode = true → v.Prunes visit t)
    (hhas : w.store.Has (.record r shape (before ++ todo)))
    (hrefs : (Labelled.record r shape (before ++ todo)).refs.Nodup)
    (hnames : (before.map Prod.fst ++ todo.map Prod.fst).Nodup)
    (habove : (w.path above).node = .ref r) :
    Turns (Walk.fields visit above (.ref r) (todo.map Prod.fst)) w
      (v.pruneAttributes fields todo).1 (.record r shape (before ++ todo))
      (.record r shape (before ++ (v.pruneAttributes fields todo).2)) := by
  -- a pruned field becomes one of those before, so the object stays complete in the statement
  induction todo generalizing before w with
  | nil => exact ⟨w, rfl, (List.append_nil _).symm, .refl w, fun _ _ => rfl, hhas⟩
  | cons a todo ih =>
    obtain ⟨name, held⟩ := a
    obtain ⟨w₁, hrun, hnotes, hkeeps, hothers, hhas₁⟩ := turns_field held
      (hvisit _ List.mem_cons_self) hhas hrefs hnames habove
    have hsub : (Labelled.record r shape (before ++ (name, (v.pruneHeld held).2) :: todo)).refs.Sublist
        (Labelled.record r shape (before ++ (name, held) :: todo)).refs :=
      Labelled.sublist_refs (sublist_pruneHeld fun u _ => v.shrinks u)
    rw [List.append_cons] at hhas₁ hsub
    have hgo := ih (fun b hb => hfields b (List.mem_cons_of_mem _ hb))
      (fun b hb => hvisit b (List.mem_cons_of_mem _ hb)) hhas₁ (hrefs.sublist hsub)
      (by simpa using hnames) (hkeeps.node_eq habove nofun)
    rw [pruneAttributes_cons, if_pos (hfields _ List.mem_cons_self)]
    dsimp only
    rw [List.append_cons before (name, (v.pruneHeld held).2)]
    exact hgo.of_run_eq (Walk.run_fields_cons hrun) hnotes hkeeps hothers hsub.subset

/-- What hangs below a node is pruned. -/
theorem turns_children {attributes : List (String × Held Labelled)} {p : PathId}
    (hvisit : ∀ t ∈ Labelled.parts attributes, t.isNode = true → v.Prunes visit t)
    (hadmits : shape.Admits (attributes.map Prod.fst)) (hnode : shape.isNode = true)
    (hhas : w.store.Has (.record r shape attributes))
    (hrefs : (Labelled.record r shape attributes).refs.Nodup) (hp : (w.path p).node = .ref r) :
    Turns (Walk.children visit p) w (v.pruneBelow (.record r shape attributes)).1
      (.record r shape attributes) (v.pruneBelow (.record r shape attributes)).2 := by
  obtain ⟨fields, hfields⟩ := Shape.exists_fields_of_isNode hnode
  have hnames := hadmits.nodup hnode
  obtain ⟨header, todo, rfl, hheader, htodo⟩ :=
    List.map_eq_append_iff.mp (hadmits.eq_append hfields)
  have hpassed : ∀ a ∈ header, a.1 ∉ fields := fun a ha =>
    Shape.headerNames_disjoint hfields a.1 (hheader ▸ List.mem_map_of_mem ha)
  have hlooked : ∀ a ∈ todo, a.1 ∈ fields := fun a ha => htodo ▸ List.mem_map_of_mem ha
  rw [pruneBelow_record, hfields, Option.getD_some, pruneAttributes_append hpassed]
  obtain ⟨w', hrun, hrest⟩ := turns_fields fields todo hlooked
    (fun a ha t ht => hvisit t (List.mem_flatMap.mpr ⟨a, List.mem_append_right _ ha, ht⟩)) hhas
    hrefs (by rwa [List.map_append] at hnames) hp
  refine ⟨w', ?_, hrest⟩
  rw [Walk.run_children (by rw [hp]; exact Store.shape?_ref hhas.obj?_record) hfields, hp, ← htodo]
  exact hrun

end Loops

end Pruner

end NamedExports
