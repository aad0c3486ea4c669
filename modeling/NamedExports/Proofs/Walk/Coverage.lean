import NamedExports.Proofs.Walk.Order

/-!
# What a walk does not skip

A list that loses entries while it is walked may lose the one that would be looked at next: the
index moves on, or stays, by the entry that has just been visited alone.  This goes wrong if the
visit of an entry takes out more than one entry among the visited one and those before it, and only
then (`Walk.mem_drop_nextIndex`).  So if every turn of a walk is mild in this sense, each node that
still hangs in the tree at the end has been entered (`Walk.Runs.covers`).  The nodes that still hang
there are those that have not been removed and are not below a removed one
(`Workspace.below_of_spares`), and each of them has been entered exactly once
(`Walk.walks_skip_nothing`).
-/

namespace NamedExports

variable {σ : Type}

/-- A value is an object. -/
def Atom.IsObject (a : Atom) : Prop :=
  ∃ q, a = .ref q

/-! ### Lists that lose objects -/

/-- What is left of a list is what a list is without some of its members. -/
def Thinned (values left : List Atom) : Prop :=
  left = values.filter (· ∈ left)

namespace Thinned

theorem refl (values : List Atom) : Thinned values values :=
  (List.filter_eq_self.mpr fun _ ha => decide_eq_true ha).symm

theorem trans {values left rest : List Atom} (h : Thinned values left) (h' : Thinned left rest) :
    Thinned values rest := by
  have hsub : ∀ a ∈ rest, a ∈ left := by
    intro a ha
    rw [h'] at ha
    exact (List.mem_filter.mp ha).1
  have hboth : (values.filter (· ∈ left)).filter (· ∈ rest) = values.filter (· ∈ rest) := by
    rw [List.filter_filter]
    refine List.filter_congr fun a _ => ?_
    by_cases ha : a ∈ rest
    · simp [ha, hsub a ha]
    · simp [ha]
  calc
    rest = left.filter (· ∈ rest) := h'
    _ = (values.filter (· ∈ left)).filter (· ∈ rest) := congrArg (List.filter (· ∈ rest)) h
    _ = values.filter (· ∈ rest) := hboth

/-- Where no object is an entry twice, taking one out takes out just this one. -/
theorem eraseIdx {values : List Atom} {q : Ref} {index : ℕ}
    (hnodup : (values.flatMap Atom.refs).Nodup) (hindex : values[index]? = some (.ref q)) :
    Thinned values (values.eraseIdx index) := by
  have hgone : Atom.ref q ∉ values.eraseIdx index := fun hmem =>
    Store.not_mem_refs_eraseIdx hnodup hindex (List.mem_flatMap.mpr ⟨_, hmem, Atom.mem_refs.mpr rfl⟩)
  obtain ⟨hlt, hget⟩ := List.getElem?_eq_some_iff.mp hindex
  have hsplit : values = values.take index ++ .ref q :: values.drop (index + 1) := by
    rw [← hget, List.getElem_cons_drop, List.take_append_drop]
  have herase := List.eraseIdx_eq_take_drop_succ values index
  have hfilter : values.filter (· ∈ values.eraseIdx index) =
      (values.take index ++ .ref q :: values.drop (index + 1)).filter
        (· ∈ values.eraseIdx index) := congrArg (List.filter _) hsplit
  unfold Thinned
  rw [hfilter, List.filter_append, List.filter_cons, if_neg (by simpa using hgone), herase,
    List.filter_eq_self.mpr fun a ha => decide_eq_true (List.mem_append_left _ ha),
    List.filter_eq_self.mpr fun a ha => decide_eq_true (List.mem_append_right _ ha)]

end Thinned

namespace Store

variable {s : Store} {objects : List Ref} {owner r q : Ref} {o : Obj} {place : Slot}

/-- Emptying the place of an object thins the lists. -/
theorem thinned_without (h : s.Unshared objects) (hr : r ∈ objects) (ho : s.obj? owner = some o)
    (hat : o.HoldsAt place (.ref q)) (list : String) :
    Thinned (s.entries (.ref r) list) ((s.without owner place).entries (.ref r) list) := by
  -- only the list that the place names can have changed
  by_cases hplace : Atom.ref r ≠ .ref owner ∨ place.attribute? ≠ some list
  · have hsame : (s.without owner place).entries (.ref r) list = s.entries (.ref r) list := by
      unfold entries
      rw [attr?_without_of_ne ho hplace]
    rw [hsame]
    exact .refl _
  · push Not at hplace
    obtain ⟨howner, hlist⟩ := hplace
    obtain rfl : r = owner := Atom.ref.inj howner
    have hattr : (s.without r place).attr? (.ref r) list =
        (o.attr? list).map (Obj.emptied place) := by
      rw [attr?_ref (obj?_without_self ho), Obj.attr?_without_self hlist]
    cases place with
    | nowhere => cases hlist
    | field name =>
      obtain rfl : name = list := Option.some.inj hlist
      unfold entries
      rw [hattr, attr?_ref ho, show o.attr? name = some (.atom (.ref q)) from hat]
      exact .refl _
    | entry other index =>
      obtain rfl : other = list := Option.some.inj hlist
      obtain ⟨values, hvalues, hindex⟩ := hat
      have hentries : s.entries (.ref r) other = values :=
        entries_of_attr? ((attr?_ref ho other).trans hvalues)
      have hleft : (s.without r (.entry other index)).entries (.ref r) other =
          values.eraseIdx index := by
        refine entries_of_attr? ?_
        rw [hattr, hvalues]
        rfl
      have hnodup := h.nodup_entries hr other
      rw [hentries] at hnodup ⊢
      rw [hleft]
      exact .eraseIdx hnodup hindex

end Store

/-- Steps in which objects are removed thin the lists. -/
theorem Workspace.Steps.thinned {w w' : Workspace σ} {objects : List Ref} {r : Ref}
    (h : w.Steps Atom.IsObject w') (hunshared : w.store.Unshared objects) (hr : r ∈ objects)
    (list : String) :
    Thinned (w.store.entries (.ref r) list) (w'.store.entries (.ref r) list) := by
  induction h with
  | refl => exact .refl _
  | tail hsteps hstep ih =>
    refine ih.trans ?_
    cases hstep with
    | note f => exact .refl _
    | take hpath => exact .refl _
    | remove hnode hrun =>
      obtain ⟨-, -, owner, place, ⟨-, -, o, ho, hat⟩, rfl⟩ := Edit.of_run_remove_ok hrun
      obtain ⟨q, hq⟩ := hnode
      rw [hq] at hat
      exact Store.thinned_without (hunshared.shrink (Steps.shrinks hsteps)) hr ho hat list

namespace Walk

/-! ### Mild turns -/

/-- The visit of an entry takes one entry out of the list at most, of the visited one and those
before it.  Any number of later entries may go. -/
def Turn.Mild (turn : Turn) : Prop :=
  ((turn.before.entries turn.owner turn.list).take (turn.index + 1)).countP
    (· ∉ turn.after.entries turn.owner turn.list) ≤ 1

instance (turn : Turn) : Decidable turn.Mild :=
  inferInstanceAs (Decidable (_ ≤ _))

/-- After a mild turn all later entries that are left are still ahead. -/
theorem mem_drop_nextIndex {s s' : Store} {owner : Atom} {list : String} {index : ℕ} {q : Ref}
    {a : Atom} (hthinned : Thinned (s.entries owner list) (s'.entries owner list))
    (hnodup : ((s.entries owner list).flatMap Atom.refs).Nodup)
    (hindex : (s.entries owner list)[index]? = some (.ref q))
    (hmild : Turn.Mild ⟨owner, list, index, s, s'⟩)
    (ha : a ∈ (s.entries owner list).drop (index + 1)) (hleft : a ∈ s'.entries owner list) :
    a ∈ (s'.entries owner list).drop (nextIndex s' owner list index (.ref q)) := by
  unfold Turn.Mild at hmild
  unfold nextIndex
  dsimp only at hmild
  revert hthinned hnodup hindex hmild ha hleft
  generalize s.entries owner list = values
  generalize s'.entries owner list = left
  intro hthinned hnodup hindex hmild ha hleft
  obtain ⟨hlt, hget⟩ := List.getElem?_eq_some_iff.mp hindex
  -- what is left of the entries up to the visited one, and of those after it
  set front := (values.take (index + 1)).filter (· ∈ left) with hfront
  set back := (values.drop (index + 1)).filter (· ∈ left) with hback
  have hsplit : left = front ++ back := by
    rw [hfront, hback, ← List.filter_append, List.take_append_drop]
    exact hthinned
  have hmem : a ∈ back := List.mem_filter.mpr ⟨ha, decide_eq_true hleft⟩
  have hlength : (values.take (index + 1)).length = index + 1 := by
    rw [List.length_take]
    omega
  have hcount : front.length + (values.take (index + 1)).countP (· ∉ left) = index + 1 := by
    have htotal := List.length_eq_countP_add_countP (· ∈ left) (l := values.take (index + 1))
    simp only [decide_eq_true_eq] at htotal
    rw [hfront, ← List.countP_eq_length_filter, ← htotal, hlength]
  have hbound : (if left[index]? = some (.ref q) then index + 1 else index) ≤ front.length := by
    split
    · rename_i hkept
      by_contra hshort
      -- otherwise the visited entry would also stand among those after it
      have hlate : Atom.ref q ∈ back := by
        rw [hsplit, List.getElem?_append_right (by omega)] at hkept
        exact List.mem_of_getElem? hkept
      have hearly : Atom.ref q ∈ values.take (index + 1) := by
        refine List.mem_of_getElem? (i := index) ?_
        rw [List.getElem?_take_of_lt (by omega), hindex]
      rw [← List.take_append_drop (index + 1) values, List.flatMap_append] at hnodup
      exact (List.nodup_append.mp hnodup).2.2 q
        (List.mem_flatMap.mpr ⟨_, hearly, Atom.mem_refs.mpr rfl⟩) q
        (List.mem_flatMap.mpr ⟨_, (List.mem_filter.mp hlate).1, Atom.mem_refs.mpr rfl⟩) rfl
    · omega
  rw [hsplit, List.drop_append_of_le_length (hsplit ▸ hbound)]
  exact List.mem_append_right _ hmem

end Walk

/-! ### Nodes that are left -/

/-- A node hangs in a field of another one. -/
def Store.HasChild (s : Store) (a c : Atom) : Prop :=
  ∃ shape names name v, s.shape? a = some shape ∧ shape.fields? = some names ∧ name ∈ names ∧
    s.attr? a name = some v ∧ c ∈ v.atoms ∧ s.isNode c = true

/-- A node hangs in the tree of another one, or is it. -/
abbrev Store.Below (s : Store) : Atom → Atom → Prop :=
  Relation.ReflTransGen s.HasChild

/-- A node that hangs in a field still hangs there when something else has been taken out. -/
theorem Store.HasChild.without {s : Store} {owner q : Ref} {o : Obj} {place : Slot} {a c : Atom}
    (h : s.HasChild a c) (ho : s.obj? owner = some o) (hat : o.HoldsAt place (.ref q))
    (hne : c ≠ .ref q) : (s.without owner place).HasChild a c := by
  obtain ⟨shape, names, name, v, hshape, hnames, hname, hattr, hc, hnode⟩ := h
  have hshrinks := Store.shrinksTo_without ho hat
  have hshape' := hshrinks.shape?_eq a ▸ hshape
  have hnode' := (hshrinks.isNode_eq c).trans hnode
  -- unless the place is in the same field, nothing has changed there
  by_cases hplace : a ≠ .ref owner ∨ place.attribute? ≠ some name
  · exact ⟨shape, names, name, v, hshape', hnames, hname,
      (Store.attr?_without_of_ne ho hplace).trans hattr, hc, hnode'⟩
  · push Not at hplace
    obtain ⟨rfl, hlist⟩ := hplace
    have hholds : o.attr? name = some v := (Store.attr?_ref ho name).symm.trans hattr
    refine ⟨shape, names, name, Obj.emptied place v, hshape', hnames, hname, ?_, ?_, hnode'⟩
    · rw [Store.attr?_ref (Store.obj?_without_self ho), Obj.attr?_without_self hlist, hholds,
        Option.map_some]
    · cases place with
      | nowhere => cases hlist
      | field other =>
        obtain rfl : other = name := Option.some.inj hlist
        rw [show o.attr? other = some (.atom (.ref q)) from hat, Option.some.injEq] at hholds
        subst hholds
        exact absurd (List.mem_singleton.mp hc) hne
      | entry other index =>
        obtain rfl : other = name := Option.some.inj hlist
        obtain ⟨values, hvalues, hindex⟩ := hat
        rw [hvalues, Option.some.injEq] at hholds
        subst hholds
        refine List.mem_eraseIdx_iff_getElem?.mpr ?_
        obtain ⟨k, hk⟩ := List.getElem?_of_mem (show c ∈ values from hc)
        refine ⟨k, ?_, hk⟩
        rintro rfl
        exact hne (Option.some.inj (hk.symm.trans hindex))

/-- From one workspace to the other objects are removed, but not this one. -/
def Workspace.Spares (w w' : Workspace σ) (a : Atom) : Prop :=
  w.Steps (fun b => b.IsObject ∧ b ≠ a) w'

/-- A node that is not removed stays where it hangs. -/
theorem Workspace.Spares.hasChild {w w' : Workspace σ} {a c : Atom} (h : w.Spares w' c)
    (hchild : w.store.HasChild a c) : w'.store.HasChild a c := by
  induction h with
  | refl => exact hchild
  | tail hsteps hstep ih =>
    cases hstep with
    | note f => exact ih
    | take hpath => exact ih
    | remove hnode hrun =>
      obtain ⟨-, -, owner, place, ⟨-, -, o, ho, hat⟩, rfl⟩ := Edit.of_run_remove_ok hrun
      obtain ⟨⟨q, hq⟩, hne⟩ := hnode
      rw [hq] at hat hne
      exact ih.without ho hat hne.symm

/-- A node stays in a tree if neither it nor a node above it is removed. -/
theorem Workspace.below_of_spares {w w' : Workspace σ} {a b : Atom} (h : w.store.Below a b)
    (hspares : ∀ u, Relation.TransGen w.store.HasChild a u → w.store.Below u b → w.Spares w' u) :
    w'.store.Below a b := by
  have hfrom : ∀ u, w.store.Below a u → w.store.Below u b → w'.store.Below a u := by
    intro u hu
    induction hu with
    | refl => exact fun _ => .refl
    | tail hx hchild ih =>
      intro hb
      exact (ih (.head hchild hb)).tail ((hspares _ (.tail' hx hchild) hb).hasChild hchild)
  exact hfrom b h .refl

/-- A node hangs in the tree of what a field holds. -/
def Store.BelowField (s : Store) (a : Atom) (name : String) (b : Atom) : Prop :=
  ∃ v c, s.attr? a name = some v ∧ c ∈ v.atoms ∧ s.isNode c = true ∧ s.Below c b

namespace Walk

/-- A node that is left in the end is one of those that a task has ahead of it. -/
def Task.Faces (final : Store) (w : Workspace σ) (b : Atom) : Task → Prop
  | .visit p => final.Below (w.path p).node b
  | .children p => ∃ c, final.HasChild (w.path p).node c ∧ final.Below c b
  | .fields _ owner names => ∃ name ∈ names, final.BelowField owner name b
  | .field _ owner name => final.BelowField owner name b
  | .entries _ owner list index => ∃ c ∈ (w.store.entries owner list).drop index,
      c ∈ final.entries owner list ∧ final.isNode c = true ∧ final.Below c b

/-- What a task is about belongs to some objects. -/
def Task.Within (objects : List Ref) (w : Workspace σ) : Task → Prop
  | .visit p => (w.path p).node.refs ⊆ objects
  | .children p => (w.path p).node.refs ⊆ objects
  | .fields _ owner _ => owner.refs ⊆ objects
  | .field _ owner _ => owner.refs ⊆ objects
  | .entries _ owner _ _ => owner.refs ⊆ objects

/-- The path of a visit has not removed its node. -/
def Task.Live (w : Workspace σ) : Task → Prop
  | .visit p => (w.path p).removed = false
  | _ => True

section Covers

variable {v : Visitor σ} {start w w' : Workspace σ} {objects : List Ref} {p above : PathId}
  {owner value : Atom} {name list : String} {index : ℕ} {task : Task} {calls : List (Call σ)}
  {turns : List Turn} {r : Outcome σ} {final : Store} {b : Atom}

theorem exists_ref_of_isNode {s : Store} {a : Atom} (h : s.isNode a = true) : ∃ q, a = .ref q := by
  obtain ⟨q, -, -, hq, -⟩ := Store.exists_record_of_isNode h
  exact ⟨q, hq⟩

/-- A node that a field holds in the end is what the field held. -/
theorem eq_of_mem_atoms {s : Store} {c : Atom} {u : Value} (h : s.ShrinksTo final)
    (hattr : s.attr? owner name = some (.atom value)) (hu : final.attr? owner name = some u)
    (hc : c ∈ u.atoms) (hnode : final.isNode c = true) : c = value := by
  rcases h.attr?_atom hattr with hsame | hnull
  · rw [hsame] at hu
    cases hu
    exact List.mem_singleton.mp hc
  · rw [hnull] at hu
    cases hu
    rw [List.mem_singleton.mp hc] at hnode
    cases hnode

/-- What a visit of a new path is about is what the path leads to. -/
theorem within_addPath (path : Path) :
    (Task.visit w.nextPath).Within objects (w.addPath path) ↔ path.node.refs ⊆ objects := by
  show ((w.addPath path).path w.nextPath).node.refs ⊆ objects ↔ _
  rw [w.path_addPath_nextPath]

theorem faces_addPath (path : Path) :
    (Task.visit w.nextPath).Faces final (w.addPath path) b ↔ final.Below path.node b := by
  show final.Below ((w.addPath path).path w.nextPath).node b ↔ _
  rw [w.path_addPath_nextPath]

/-- A path that is taken to what an object holds, and removes it later on, leaves it nowhere. -/
theorem gone_of_taken {path : Path} {q r : Ref} (hunshared : w.store.Unshared objects)
    (hpath : path.node = .ref q) (habove : path.above = some above) (hlive : path.removed = false)
    (hknown : w.Knows above) (howner : (w.path above).node = .ref r) (hr : r ∈ objects)
    (hsteps : (w.addPath path).Steps Atom.IsObject w')
    (hremoved : (w'.path w.nextPath).removed = true) : w'.store.Gone objects q := by
  obtain ⟨hknown', hsame⟩ := w.keepsPaths_addPath path above hknown
  have hnew := w.path_addPath_nextPath path
  refine hsteps.gone_of_removed hunshared (w.knows_addPath_nextPath path)
    (by rw [hnew, hpath]) (fun x hx => ?_) ?_ hr (by rw [hnew, hlive]) hremoved
  · rw [hnew, habove] at hx
    exact Option.some.inj hx ▸ hknown'
  · rw [Workspace.parent_eq (by rw [hnew, habove]), hsame, howner]

/-- A walk of a task, if it ends without a fault and its turns are mild, enters every node that is left
in the end of those that the task has ahead of it. -/
def Covers (objects : List Ref) (task : Task) (w : Workspace σ) (calls : List (Call σ))
    (turns : List Turn) (r : Outcome σ) : Prop :=
  task.Within objects w → ∀ {w' : Workspace σ} {final : Store} {b : Atom}, r = .ok () w' →
    task.Live w' → (∀ turn ∈ turns, turn.Mild) → w'.store.ShrinksTo final → task.Faces final w b →
    ∃ c ∈ calls, c.phase = .enter ∧ c.node = b

/-- A visit of what an object holds, and still holds in the end, enters what is left below it. -/
theorem Covers.below_held {path : Path} {q o : Ref}
    (h : Covers objects (.visit w.nextPath) (w.addPath path) calls turns (.ok () w'))
    (hpath : path.node = .ref q) (habove : path.above = some above) (hlive : path.removed = false)
    (hheld : w.Knows above ∧ (w.path above).node = .ref o) (ho : o ∈ objects) (hq : q ∈ objects)
    (hunshared : w.store.Unshared objects) (hsteps : (w.addPath path).Steps Atom.IsObject w')
    (hmild : ∀ turn ∈ turns, turn.Mild) (hfinal : w'.store.ShrinksTo final)
    (hkept : ¬ final.Gone objects q) (hb : final.Below (.ref q) b) :
    ∃ c ∈ calls, c.phase = .enter ∧ c.node = b := by
  refine h ((within_addPath path).mpr ?_) rfl ?_ hmild hfinal
    ((faces_addPath path).mpr (hpath ▸ hb))
  · rw [hpath]
    exact fun x hx => Atom.ref.inj (Atom.mem_refs.mp hx) ▸ hq
  · -- the path of the visit would have left the node nowhere
    by_contra hremoved
    exact hkept ((gone_of_taken hunshared hpath habove hlive hheld.1 hheld.2 ho hsteps
      (Bool.eq_true_of_not_eq_false hremoved)).shrink hfinal)

/-- A visit that is carried through enters the node itself and what is left below it. -/
theorem Covers.visit {w₁ w₂ : Workspace σ} {type : Tree}
    (hv : v.OnlyRemoves Atom.IsObject start) (hw : start.Steps Atom.IsObject w)
    (hheld : (Task.visit p).Held w) (henter : Call.outcome v ⟨.enter, p, type, w⟩ = .ok () w₁)
    (hbelow : w₁.Steps Atom.IsObject w₂)
    (h : Covers objects (.children p) w₁ calls turns (.ok () w₂)) :
    Covers objects (.visit p) w (⟨.enter, p, type, w⟩ :: (calls ++ [⟨.exit, p, type, w₂⟩])) turns
      (Call.outcome v ⟨.exit, p, type, w₂⟩) := by
  intro hwithin w' final b hr _ hmild hfinal hb
  rcases Relation.ReflTransGen.cases_head hb with hself | ⟨c, hchild, hc⟩
  · exact ⟨_, List.mem_cons_self, rfl, hself⟩
  · have hcall := steps_of_call_ok hv hw hheld henter
    have hnode := Workspace.Steps.node_eq hcall hheld.1
    have hsteps := hcall.trans hbelow
    have hexit := steps_of_call_ok hv (hw.trans hsteps) (held_visit hsteps hheld) hr
    obtain ⟨e, he, hfound⟩ := h (show (w₁.path p).node.refs ⊆ objects by rw [hnode]; exact hwithin)
      rfl trivial hmild ((Workspace.Steps.shrinks hexit).trans hfinal) ⟨c, by rwa [hnode], hc⟩
    exact ⟨e, List.mem_cons_of_mem _ (List.mem_append_left _ he), hfound⟩

/-- What a field holds that is no list is covered by a visit of it. -/
theorem Covers.field_node (hw : start.Steps Atom.IsObject w)
    (hunshared : start.store.Unshared objects) (hheld : (Task.field above owner name).Held w)
    (hattr : w.store.attr? owner name = some (.atom value)) (hnode : w.store.isNode value = true)
    (hsteps : (w.addPath (.ofField value above name)).Steps Atom.IsObject (Edit.endOf r))
    (h : Covers objects (.visit w.nextPath) (w.addPath (.ofField value above name)) calls turns r) :
    Covers objects (.field above owner name) w calls turns r := by
  rintro hwithin w' final b rfl - hmild hfinal ⟨u, c, hu, hc, hisNode, hbelow⟩
  have htake := step_field Atom.IsObject hattr hheld
  have hshrinks := (htake.shrinks.trans (Workspace.Steps.shrinks hsteps)).trans hfinal
  obtain rfl := eq_of_mem_atoms hshrinks hattr hu hc hisNode
  obtain ⟨q, rfl⟩ := exists_ref_of_isNode hnode
  obtain ⟨o, -, rfl, -⟩ := Store.exists_obj_of_attr? hattr
  have ho : o ∈ objects := hwithin (Atom.mem_refs.mpr rfl)
  have hunshared' := hunshared.shrink (Workspace.Steps.shrinks hw)
  have hq : q ∈ objects := hunshared'.closed o ho name _ hattr (Atom.mem_refs.mpr rfl)
  refine h.below_held rfl rfl rfl hheld ho hq hunshared' hsteps hmild hfinal (fun hgone => ?_) hbelow
  refine hgone o ho name u hu ?_
  rw [Value.refs_eq]
  exact List.mem_flatMap.mpr ⟨_, hc, Atom.mem_refs.mpr rfl⟩

/-- The entries of a list from an index on are covered by a visit of the first of them, whose turn is
mild, and by what comes after it. -/
theorem Covers.entries_next {w₁ : Workspace σ} {calls' : List (Call σ)} {turns' : List Turn}
    (hw : start.Steps Atom.IsObject w) (hunshared : start.store.Unshared objects)
    (hheld : (Task.entries above owner list index).Held w)
    (hindex : (w.store.entries owner list)[index]? = some value)
    (hnode : w.store.isNode value = true)
    (hvisited : (w.addPath (.ofEntry value above list index)).Steps Atom.IsObject w₁)
    (hrested : w₁.Steps Atom.IsObject (Edit.endOf r))
    (h : Covers objects (.visit w.nextPath) (w.addPath (.ofEntry value above list index)) calls turns
      (.ok () w₁))
    (hrest : Covers objects
      (.entries above owner list (nextIndex w₁.store owner list index value)) w₁ calls' turns' r) :
    Covers objects (.entries above owner list index) w (calls ++ calls')
      (turns ++ ⟨owner, list, index, w.store, w₁.store⟩ :: turns') r := by
  rintro hwithin w' final b rfl - hmild hfinal ⟨c, hc, hleft, hisNode, hbelow⟩
  have hsteps := Relation.ReflTransGen.head (step_entry Atom.IsObject hindex hheld) hvisited
  have hfinal' : w₁.store.ShrinksTo final := (Workspace.Steps.shrinks hrested).trans hfinal
  obtain ⟨o, rfl, hattr⟩ := Store.exists_items_of_entries hindex
  have ho : o ∈ objects := hwithin (Atom.mem_refs.mpr rfl)
  have hunshared' := hunshared.shrink (Workspace.Steps.shrinks hw)
  obtain ⟨q, rfl⟩ := exists_ref_of_isNode hnode
  rw [drop_eq_cons hindex] at hc
  rcases List.mem_cons.mp hc with rfl | hc
  · -- the visited entry itself
    have hq : q ∈ objects := hunshared'.closed o ho list _ hattr
      (List.mem_flatMap.mpr ⟨_, List.mem_of_getElem? hindex, Atom.mem_refs.mpr rfl⟩)
    obtain ⟨e, he, hfound⟩ := h.below_held rfl rfl rfl hheld ho hq hunshared' hvisited
      (fun turn ht => hmild turn (List.mem_append_left _ ht)) hfinal'
      (fun hgone => hgone.not_mem_entries ho list hleft) hbelow
    exact ⟨e, List.mem_append_left _ he, hfound⟩
  · -- an entry after it: the next index is not beyond it, as the turn was mild
    have hahead := mem_drop_nextIndex (Workspace.Steps.thinned hsteps hunshared' ho list)
      (hunshared'.nodup_entries ho list) hindex
      (hmild _ (List.mem_append_right _ List.mem_cons_self)) hc
      ((hfinal'.entries_sublist _ list).subset hleft)
    obtain ⟨e, he, hfound⟩ := hrest hwithin rfl trivial
      (fun turn ht => hmild turn (List.mem_append_right _ (List.mem_cons_of_mem _ ht))) hfinal
      ⟨c, hahead, hleft, hisNode, hbelow⟩
    exact ⟨e, List.mem_append_right _ he, hfound⟩

/-- Walks whose hooks remove objects only cover their tasks. -/
theorem Runs.covers (hv : v.OnlyRemoves Atom.IsObject start) (h : Runs v task w calls turns r)
    (hunshared : start.store.Unshared objects) (hw : start.Steps Atom.IsObject w)
    (hheld : task.Held w) : Covers objects task w calls turns r := by
  -- a part of a walk that ends with a fault, or without its node, owes nothing; where the walk has
  -- two parts, each node ahead of it is ahead of one of them
  induction h with
  | untyped htype => exact fun _ _ _ _ hr => by cases hr
  | entered htype henter hhalts =>
    rintro - w' final b rfl hlive - - -
    exact absurd (hlive.symm.trans hhalts) nofun
  | halted htype henter hlive' hbelow hhalts ih =>
    rintro - w' final b rfl hlive - - -
    exact absurd (hlive.symm.trans hhalts) nofun
  | left htype henter hlive' hbelow hleft ih =>
    have hcall := steps_of_call_ok hv hw hheld henter
    have hknown := Workspace.Steps.knows hcall hheld.1
    exact .visit hv hw hheld henter (hbelow.steps hv (hw.trans hcall) hknown)
      (ih (hw.trans hcall) hknown)
  | no_node hnode => exact fun _ _ _ _ hr => by cases hr
  | @children p w shape names calls turns r hshape hnames hfields ih =>
    have hheld' : w.Knows p ∧ (w.path p).node = (w.path p).node := ⟨hheld, rfl⟩
    have hsteps := hfields.steps hv hw hheld'
    rintro hwithin w' final b rfl hlive hmild hfinal ⟨c, hchild, hbelow⟩
    obtain ⟨shape', names', name, u, hshape', hnames', hname, hattr, hc, hnode⟩ := hchild
    rw [((Workspace.Steps.shrinks hsteps).trans hfinal).shape?_eq, hshape] at hshape'
    cases hshape'
    rw [hnames] at hnames'
    cases hnames'
    exact ih hw hheld' hwithin rfl trivial hmild hfinal ⟨name, hname, u, c, hattr, hc, hnode, hbelow⟩
  | fields_nil =>
    rintro - w' final b - - - - ⟨name, hname, -⟩
    exact absurd hname List.not_mem_nil
  | fields_stop hfield ih => exact fun _ _ _ _ hr => by cases hr
  | fields_cons hfield hrest ih ihrest =>
    have hsteps := hfield.steps hv hw hheld
    have hheld' := held_above hsteps hheld
    have hsteps' := hrest.steps hv (hw.trans hsteps) hheld'
    rintro hwithin w' final b rfl - hmild hfinal ⟨name, hname, hb⟩
    rcases List.mem_cons.mp hname with rfl | hname
    · obtain ⟨e, he, hfound⟩ := ih hw hheld hwithin rfl trivial
        (fun turn ht => hmild turn (List.mem_append_left _ ht))
        ((Workspace.Steps.shrinks hsteps').trans hfinal) hb
      exact ⟨e, List.mem_append_left _ he, hfound⟩
    · obtain ⟨e, he, hfound⟩ := ihrest (hw.trans hsteps) hheld' hwithin rfl trivial
        (fun turn ht => hmild turn (List.mem_append_right _ ht)) hfinal ⟨name, hname, hb⟩
      exact ⟨e, List.mem_append_right _ he, hfound⟩
  | field_absent hattr =>
    rintro - w' final b hr - - hfinal ⟨u, c, hu, -⟩
    cases hr
    rw [hfinal.attr?_none _ _ hattr] at hu
    cases hu
  | field_skip hattr hnode =>
    rintro - w' final b hr - - hfinal ⟨u, c, hu, hc, hisNode, -⟩
    cases hr
    rw [eq_of_mem_atoms hfinal hattr hu hc hisNode, hfinal.isNode_eq, hnode] at hisNode
    cases hisNode
  | field_node hattr hnode hvisit ih =>
    have hw' := hw.tail (step_field Atom.IsObject hattr hheld)
    have hsteps := hvisit.steps hv hw' (held_nextPath hnode)
    exact .field_node hw hunshared hheld hattr hnode hsteps (ih hw' (held_nextPath hnode))
  | field_items hattr hentries ih =>
    have hsteps := hentries.steps hv hw hheld
    rintro hwithin w' final b rfl - hmild hfinal ⟨u, c, hu, hc, hisNode, hbelow⟩
    obtain ⟨left, hleft, hsub⟩ :=
      ((Workspace.Steps.shrinks hsteps).trans hfinal).exists_items hattr
    rw [hu] at hleft
    cases hleft
    refine ih hw hheld hwithin rfl trivial hmild hfinal ⟨c, ?_, ?_, hisNode, hbelow⟩
    · rw [Store.entries_of_attr? hattr, List.drop_zero]
      exact hsub.subset hc
    · rw [Store.entries_of_attr? hu]
      exact hc
  | entries_end hindex =>
    rintro - w' final b - - - - ⟨c, hc, -⟩
    rw [List.drop_eq_nil_of_le (List.getElem?_eq_none_iff.mp hindex)] at hc
    exact absurd hc List.not_mem_nil
  | entries_skip hindex hnode hrest ih =>
    have hsteps := hrest.steps hv hw hheld
    rintro hwithin w' final b rfl - hmild hfinal ⟨c, hc, hleft, hisNode, hbelow⟩
    rw [drop_eq_cons hindex] at hc
    rcases List.mem_cons.mp hc with rfl | hc
    · rw [((Workspace.Steps.shrinks hsteps).trans hfinal).isNode_eq, hnode] at hisNode
      cases hisNode
    · exact ih hw hheld hwithin rfl trivial hmild hfinal ⟨c, hc, hleft, hisNode, hbelow⟩
  | entries_stop hindex hnode hvisit ih => exact fun _ _ _ _ hr => by cases hr
  | entries_next hindex hnode hvisit hrest ih ihrest =>
    have htake := step_entry Atom.IsObject hindex hheld
    have hvisited := hvisit.steps hv (hw.tail htake) (held_nextPath hnode)
    have hsteps := Relation.ReflTransGen.head htake hvisited
    have hheld' := held_above hsteps hheld
    exact .entries_next hw hunshared hheld hindex hnode hvisited
      (hrest.steps hv (hw.trans hsteps) hheld') (ih (hw.tail htake) (held_nextPath hnode))
      (ihrest (hw.trans hsteps) hheld')

end Covers

/-- A path without a path above it never removes its node. -/
theorem live_of_steps {removable : Atom → Prop} {w w' : Workspace σ} {p : PathId}
    (h : w.Steps removable w') (hp : w.Knows p) (habove : (w.path p).above = none)
    (hlive : (w.path p).removed = false) : (w'.path p).removed = false := by
  induction h with
  | refl => exact hlive
  | @tail w₁ w₂ hsteps hstep ih =>
    have hknown := Workspace.Steps.knows hsteps hp
    cases hstep with
    | note f => exact ih
    | take hpath => rw [(w₁.keepsPaths_addPath _ p hknown).2, ih]
    | @remove _ other hnode hrun =>
      obtain ⟨-, -, owner, place, hat, rfl⟩ := Edit.of_run_remove_ok hrun
      by_cases hother : p = other
      · have hparent := hat.parent
        rw [← hother] at hparent
        unfold Workspace.parent at hparent
        rw [(Workspace.Steps.ages hsteps hp).above, habove] at hparent
        cases hparent
      · rw [Workspace.path_removing_of_ne hother, ih]

/-- A moment that comes, and does not come twice, comes once. -/
theorem Orderly.count_enter {ts : List Labelled} {calls : List (Call σ)} {b : Atom}
    (h : Orderly ts calls) (hb : ∃ c ∈ calls, c.phase = .enter ∧ c.node = b) :
    (calls.map Call.moment).count (.enter, b) = 1 := by
  obtain ⟨c, hc, hphase, rfl⟩ := hb
  refine List.count_eq_one_of_mem h.once (List.mem_map.mpr ⟨c, hc, ?_⟩)
  rw [← hphase]
  rfl

/-- If a walk of a node, or a walk below a held path, ends without a fault, the hooks have removed
nodes only, and each turn through a list was mild, then every node of the tree has been entered
exactly once that has not been removed and does not hang in a removed node. -/
theorem walks_skip_nothing {t : Labelled} (hrefs : t.refs.Nodup) (hcomplete : t.Complete)
    (hnode : t.isNode = true) {w : Workspace σ} (hhas : w.store.Has t) (v : Visitor σ) :
    (v.OnlyRemoves Atom.IsObject (w.addPath (.start t.atom)) →
      ∃ calls turns, Runs v (.visit w.nextPath) (w.addPath (.start t.atom)) calls turns
          ((Edit.walk v t.atom).run w) ∧
        ∀ w', (Edit.walk v t.atom).run w = .ok () w' → (∀ turn ∈ turns, turn.Mild) →
          ∀ b, w.store.Below t.atom b →
            (∀ u, Relation.TransGen w.store.HasChild t.atom u → w.store.Below u b →
              (w.addPath (.start t.atom)).Spares w' u) →
            (calls.map Call.moment).count (.enter, b) = 1) ∧
    ∀ p, (w.path p).node = t.atom → (w.path p).removed = false →
      v.OnlyRemoves Atom.IsObject w →
      ∃ calls turns, Runs v (.children p) w calls turns ((Edit.walkBelow v p).run w) ∧
        ∀ w', (Edit.walkBelow v p).run w = .ok () w' → (∀ turn ∈ turns, turn.Mild) →
          ∀ b, Relation.TransGen w.store.HasChild t.atom b →
            (∀ u, Relation.TransGen w.store.HasChild t.atom u → w.store.Below u b →
              w.Spares w' u) →
            (calls.map Call.moment).count (.enter, b) = 1 := by
  have hunshared := hhas.unshared hrefs
  have hwithin : t.atom.refs ⊆ t.refs := fun r hr =>
    Labelled.mem_refs_of_atom (Atom.mem_refs.mp hr)
  obtain ⟨hwalk, hbelow⟩ := walks_in_order hrefs hcomplete hnode hhas v Atom.IsObject
  constructor
  · intro hv
    obtain ⟨calls, turns, hruns, horderly, -⟩ := hwalk hv
    refine ⟨calls, turns, hruns, fun w' hok hmild b hb hspares => horderly.count_enter ?_⟩
    have hheld : (Task.visit w.nextPath).Held (w.addPath (.start t.atom)) :=
      held_nextPath (hhas.isNode_atom.trans hnode)
    have hpath := w.path_addPath_nextPath (.start t.atom)
    have hsteps := hruns.steps hv .refl hheld
    rw [hok] at hsteps
    refine hruns.covers hv hunshared .refl hheld ?_ hok ?_ hmild (.refl _) ?_
    · show ((w.addPath _).path w.nextPath).node.refs ⊆ t.refs
      rw [hpath]
      exact hwithin
    · exact live_of_steps hsteps hheld.1 (by rw [hpath]; rfl) (by rw [hpath]; rfl)
    · show w'.store.Below ((w.addPath _).path w.nextPath).node b
      rw [hpath]
      exact Workspace.below_of_spares (w := w.addPath (.start t.atom)) hb hspares
  · intro p hp hlive hv
    obtain ⟨calls, turns, hruns, horderly, -⟩ := hbelow p hp hlive hv
    refine ⟨calls, turns, hruns, fun w' hok hmild b hb hspares => horderly.count_enter ?_⟩
    obtain ⟨-, hheld⟩ := held_children hhas hnode hp
    refine hruns.covers hv hunshared .refl hheld ?_ hok trivial hmild (.refl _) ?_
    · show (w.path p).node.refs ⊆ t.refs
      rw [hp]
      exact hwithin
    · obtain ⟨c, hchild, hcb⟩ := Relation.TransGen.head'_iff.mp hb
      show ∃ c, w'.store.HasChild (w.path p).node c ∧ w'.store.Below c b
      rw [hp]
      refine ⟨c, (hspares c (.single hchild) hcb).hasChild hchild, ?_⟩
      exact Workspace.below_of_spares hcb fun u hu hub =>
        hspares u (.trans (.single hchild) hu) hub

/-- When `node` is entered, the first element of the array pattern that holds it is removed, if this
is `first`. -/
def ousting (node first : Ref) : Visitor σ := fun _ => .onEnter fun p => do
  let path ← Edit.path p
  match path.above with
  | none => return
  | some above =>
    match ((← Edit.store).entries (← Edit.path above).node "elements")[0]? with
    | none => return
    | some value =>
      let q ← Edit.newPath (.ofEntry value above "elements" 0)
      if path.node = .ref node ∧ value = .ref first then Edit.remove q

theorem ousting_onlyRemoves {removable : Atom → Prop} (node : Ref) {first : Ref}
    {start : Workspace σ} (hclosed : start.Closed) (hfirst : removable (.ref first)) :
    (ousting node first).OnlyRemoves removable start := by
  intro w hw p hp _ type phase f hf
  refine (show Edit.BySteps _ (f p) w fun _ _ => True from ?_).1
  cases phase with
  | exit => cases hf
  | enter =>
    cases hf
    refine Edit.bySteps_bind_read (Edit.run_path w p) ?_
    cases habove : (w.path p).above with
    | none => exact Edit.bySteps_pure trivial
    | some above =>
      have hknown := Workspace.Steps.closed hw hclosed p hp above habove
      refine Edit.bySteps_bind_read (Edit.run_store w)
        (Edit.bySteps_bind_read (Edit.run_path w above) ?_)
      cases hvalue : (w.store.entries (w.path above).node "elements")[0]? with
      | none => exact Edit.bySteps_pure trivial
      | some value =>
        refine (Edit.bySteps_newPath (.entry hknown hvalue)).bind fun q w' _ hq => ?_
        split
        · rename_i hwanted
          exact Edit.bySteps_remove fun _ => by
            rw [hq.2, show (Path.ofEntry value above "elements" 0).node = .ref first from hwanted.2]
            exact hfirst
        · exact Edit.bySteps_pure trivial

set_option maxRecDepth 100000 in
/-- When `a` is taken out during the visit of the object pattern, the entry `c` that comes next is not
skipped. -/
theorem walks_skip_nothing_fourElements :
    let w : Workspace Unit := .ofStore Pruner.fourElements ()
    ∃ calls turns, Runs (ousting ⟨2⟩ ⟨0⟩) (.visit ⟨0⟩) (w.addPath (.start (.ref ⟨4⟩))) calls turns
        ((Edit.walk (ousting ⟨2⟩ ⟨0⟩) (.ref ⟨4⟩)).run w) ∧
      (calls.map Call.moment).count (.enter, .ref ⟨2⟩) = 1 ∧
      (calls.map Call.moment).count (.enter, .ref ⟨3⟩) = 1 := by
  intro w
  have hclosed : (w.addPath (.start (.ref ⟨4⟩))).Closed :=
    (Workspace.closed_ofStore _ _).addPath fun q hq => by cases hq
  obtain ⟨hwalk, -⟩ := walks_skip_nothing (t := Pruner.fourElementsTree) (w := w)
    (by decide +kernel) (by decide +kernel) rfl (by decide +kernel) (ousting ⟨2⟩ ⟨0⟩)
  obtain ⟨calls, turns, hruns, honce⟩ := hwalk (ousting_onlyRemoves ⟨2⟩ hclosed ⟨⟨0⟩, rfl⟩)
  -- the walk by its rules, with its turns
  have hrule : ∃ calls turns w', Runs (ousting ⟨2⟩ ⟨0⟩) (.visit ⟨0⟩)
      (w.addPath (.start (.ref ⟨4⟩))) calls turns (.ok () w') ∧
      ∀ turn ∈ turns, turn.Mild := by
    refine ⟨_, _, _, .left (Edit.run_typeOf_kind .arrayPattern rfl) rfl rfl
      (.children rfl rfl (.fields_cons (.field_items rfl
        (.entries_next rfl rfl (.left (Edit.run_typeOf_kind .identifier rfl) rfl rfl
          (.children rfl rfl (.fields_cons (.field_skip rfl rfl) .fields_nil)) rfl)
        (.entries_skip rfl rfl
        (.entries_next rfl rfl (.left (Edit.run_typeOf_kind .objectPattern rfl) rfl rfl
          (.children rfl rfl (.fields_cons (.field_items rfl
            (.entries_next rfl rfl (.left (Edit.run_typeOf_kind .identifier rfl) rfl rfl
              (.children rfl rfl (.fields_cons (.field_skip rfl rfl) .fields_nil)) rfl)
            (.entries_end rfl))) .fields_nil)) rfl)
        (.entries_next rfl rfl (.left (Edit.run_typeOf_kind .identifier rfl) rfl rfl
          (.children rfl rfl (.fields_cons (.field_skip rfl rfl) .fields_nil)) rfl)
        (.entries_end rfl)))))) .fields_nil)) rfl, ?_⟩
    decide +kernel
  obtain ⟨calls', turns', w', hruns', hmild⟩ := hrule
  obtain ⟨-, rfl, hok⟩ := hruns.unique hruns'
  -- nothing but `a` is removed
  have hv : (ousting ⟨2⟩ ⟨0⟩).OnlyRemoves (· = .ref ⟨0⟩) (w.addPath (.start (.ref ⟨4⟩))) :=
    ousting_onlyRemoves ⟨2⟩ hclosed rfl
  have hsteps := hruns'.steps hv .refl (held_nextPath rfl)
  have hspares : ∀ u, u ≠ .ref ⟨0⟩ → (w.addPath (.start (.ref ⟨4⟩))).Spares w' u := fun u hu =>
    Workspace.Steps.mono (fun a ha => ⟨⟨⟨0⟩, ha⟩, fun h => hu (h ▸ ha)⟩) hsteps
  have hchild : ∀ index, index = 2 ∨ index = 3 →
      Pruner.fourElements.HasChild (.ref ⟨4⟩) (.ref ⟨index⟩) := by
    rintro index (rfl | rfl) <;>
    exact ⟨.modelled .arrayPattern, _, "elements",
      .items [.ref ⟨0⟩, .null, .ref ⟨2⟩, .ref ⟨3⟩], rfl, rfl, by decide, rfl, by decide, rfl⟩
  have hleaf : ∀ c, ¬ Pruner.fourElements.HasChild (.ref ⟨0⟩) c := by
    rintro c ⟨shape, names, name, v, hshape, hnames, hname, hattr, hc, hnode⟩
    cases (show some (.modelled .identifier) = some shape from hshape)
    cases (show some ["name"] = some names from hnames)
    cases List.mem_singleton.mp hname
    cases (show some (Value.atom (.str "a")) = some v from hattr)
    cases List.mem_singleton.mp hc
    cases hnode
  have hleft : ∀ index, index = 2 ∨ index = 3 →
      (calls.map Call.moment).count (.enter, .ref ⟨index⟩) = 1 := by
    intro index hindex
    refine honce w' hok hmild _ (.single (hchild index hindex)) fun u _ hu => hspares u ?_
    rintro rfl
    rcases Relation.ReflTransGen.cases_head hu with hsame | ⟨c, hc, -⟩
    · rcases hindex with rfl | rfl <;> cases hsame
    · exact hleaf c hc
  exact ⟨calls, turns, hruns, hleft 2 (.inl rfl), hleft 3 (.inr rfl)⟩

end Walk

end NamedExports
