import NamedExports.Proofs.Path.Address
import NamedExports.Proofs.Walk.Trace

/-!
# Places that a walk enters

A walk that removes nothing goes through the tree as it stands.  It enters every place that can be
reached through fields and entries from node to node, and it enters each of them once, unless it ends
with a fault before (`Runs.enters`).  What is counted here are places and not objects: the same object
is entered as often as there are ways to it.

The reason is that the places below different fields of a node, or below different entries of a list,
are different, and that a walk has each field and each entry ahead of it once.

A walk that removes nodes does not enter all of these places.  But what it enters stands in its place at
that moment (`Runs.stands`).
-/

namespace NamedExports

variable {σ : Type}

namespace Walk

/-! ### Places below a node -/

/-- The places that are reached from a node, which stands itself in the given places. -/
def PlaceFrom (s : Store) (places : List Slot) (a : Atom) (slots : List Slot) : Prop :=
  ∃ rest b, slots = places ++ rest ∧ s.Leads a rest b

/-- The places that are reached from a node by way of a place of some kind. -/
def PlaceUnder (s : Store) (places : List Slot) (owner : Atom) (kind : Slot → Prop)
    (slots : List Slot) : Prop :=
  ∃ slot rest c b, slots = places ++ slot :: rest ∧ kind slot ∧ s.ChildAt owner slot c ∧
    s.Leads c rest b

/-- The places in the fields of some names. -/
def InFields (names : List String) (slot : Slot) : Prop :=
  ∃ name ∈ names, slot.attribute? = some name

/-- The places of a list from an index on. -/
def InEntries (list : String) (index : ℕ) (slot : Slot) : Prop :=
  ∃ i, slot = .entry list i ∧ index ≤ i

section Places

variable {s : Store} {places slots : List Slot} {owner a value : Atom} {name list : String}
  {names : List String} {kind kind' : Slot → Prop} {slot : Slot} {index : ℕ}

theorem not_placeUnder_self : ¬ PlaceUnder s places owner kind places := by
  rintro ⟨slot, rest, c, b, heq, -⟩
  simp at heq

theorem PlaceUnder.mono (h : PlaceUnder s places owner kind slots)
    (hkind : ∀ slot c, s.ChildAt owner slot c → kind slot → kind' slot) :
    PlaceUnder s places owner kind' slots := by
  obtain ⟨slot, rest, c, b, heq, hslot, hc, hleads⟩ := h
  exact ⟨slot, rest, c, b, heq, hkind slot c hc hslot, hc, hleads⟩

theorem placeUnder_congr (hkind : ∀ slot c, s.ChildAt owner slot c → (kind slot ↔ kind' slot)) :
    PlaceUnder s places owner kind slots ↔ PlaceUnder s places owner kind' slots :=
  ⟨fun h => h.mono fun slot c hc => (hkind slot c hc).mp,
    fun h => h.mono fun slot c hc => (hkind slot c hc).mpr⟩

/-- There is nothing below places that no node stands in. -/
theorem not_placeUnder (hkind : ∀ slot c, s.ChildAt owner slot c → ¬ kind slot) :
    ¬ PlaceUnder s places owner kind slots := by
  rintro ⟨slot, rest, c, b, -, hslot, hc, -⟩
  exact hkind slot c hc hslot

theorem placeUnder_or : PlaceUnder s places owner (fun slot => kind slot ∨ kind' slot) slots ↔
    PlaceUnder s places owner kind slots ∨ PlaceUnder s places owner kind' slots := by
  constructor
  · rintro ⟨slot, rest, c, b, heq, hslot | hslot, hc⟩
    · exact Or.inl ⟨slot, rest, c, b, heq, hslot, hc⟩
    · exact Or.inr ⟨slot, rest, c, b, heq, hslot, hc⟩
  · rintro (h | h)
    · exact h.mono fun _ _ _ => Or.inl
    · exact h.mono fun _ _ _ => Or.inr

/-- Below places of different kinds are different places. -/
theorem PlaceUnder.disjoint (h : PlaceUnder s places owner kind slots)
    (hkind : ∀ slot, kind slot → ¬ kind' slot) : ¬ PlaceUnder s places owner kind' slots := by
  obtain ⟨slot, rest, c, b, rfl, hslot, -⟩ := h
  rintro ⟨slot', rest', c', b', heq, hslot', -⟩
  cases List.append_cancel_left heq
  exact hkind slot hslot hslot'

theorem placeFrom_iff : PlaceFrom s places a slots ↔
    slots = places ∨ PlaceUnder s places a (fun _ => True) slots := by
  constructor
  · rintro ⟨rest, b, rfl, hleads⟩
    cases rest with
    | nil => exact Or.inl (List.append_nil _)
    | cons slot rest =>
      obtain ⟨c, hc, hleads⟩ := hleads
      exact Or.inr ⟨slot, rest, c, b, rfl, trivial, hc, hleads⟩
  · rintro (rfl | ⟨slot, rest, c, b, rfl, -, hc, hleads⟩)
    · exact ⟨[], a, (List.append_nil _).symm, rfl⟩
    · exact ⟨slot :: rest, b, rfl, c, hc, hleads⟩

/-- Below a single place is what is reached from the node in it. -/
theorem placeFrom_iff_placeUnder (hat : s.ChildAt owner slot a) :
    PlaceFrom s (places ++ [slot]) a slots ↔ PlaceUnder s places owner (· = slot) slots := by
  constructor
  · rintro ⟨rest, b, rfl, hleads⟩
    exact ⟨slot, rest, a, b, by simp, rfl, hat, hleads⟩
  · rintro ⟨_, rest, c, b, rfl, rfl, hc, hleads⟩
    cases hat.unique hc
    exact ⟨rest, b, by simp, hleads⟩

/-- Every place of a node is in one of its fields. -/
theorem inFields_of_childAt (hc : s.ChildAt owner slot a) : InFields (s.fieldNames owner) slot := by
  cases hc with
  | field hname hattr hnode => exact ⟨_, hname, rfl⟩
  | entry hname hindex hnode => exact ⟨_, hname, rfl⟩

theorem inFields_cons : InFields (name :: names) slot ↔ InFields [name] slot ∨ InFields names slot := by
  simp [InFields]

/-- What is in one field is in no other. -/
theorem not_inFields_of_inFields_singleton (hname : name ∉ names) (h : InFields [name] slot) :
    ¬ InFields names slot := by
  obtain ⟨_, hsingle, hslot⟩ := h
  obtain rfl := List.mem_singleton.mp hsingle
  rintro ⟨other, hother, hslot'⟩
  rw [hslot] at hslot'
  exact hname (Option.some.inj hslot' ▸ hother)

/-- A node in a field that is no list is what the field holds. -/
theorem inFields_iff_of_atom (hattr : s.attr? owner name = some (.atom value))
    (hc : s.ChildAt owner slot a) : InFields [name] slot ↔ slot = .field name ∧ a = value := by
  constructor
  · rintro ⟨_, hname, hslot⟩
    obtain rfl := List.mem_singleton.mp hname
    cases hc with
    | field _ hattr' _ =>
      cases hslot
      cases hattr.symm.trans hattr'
      exact ⟨rfl, rfl⟩
    | entry _ hindex _ =>
      cases hslot
      exact absurd rfl (Store.ne_of_attr?_of_entries hattr hindex)
  · rintro ⟨rfl, -⟩
    exact ⟨name, List.mem_singleton_self name, rfl⟩

/-- A field in which a node stands has no other place for one. -/
theorem inFields_iff_of_field (hat : s.ChildAt owner (.field name) value)
    (hc : s.ChildAt owner slot a) : InFields [name] slot ↔ slot = .field name := by
  cases hat with
  | field _ hattr _ =>
    rw [inFields_iff_of_atom hattr hc]
    refine ⟨And.left, fun hslot => ⟨hslot, ?_⟩⟩
    subst hslot
    cases hc with
    | field _ hattr' _ => exact Value.atom.inj (Option.some.inj (hattr'.symm.trans hattr))

/-- A node in a field that is a list is one of its entries. -/
theorem inFields_iff_of_items {values : List Atom} (hattr : s.attr? owner name = some (.items values))
    (hc : s.ChildAt owner slot a) : InFields [name] slot ↔ InEntries name 0 slot := by
  constructor
  · rintro ⟨_, hname, hslot⟩
    obtain rfl := List.mem_singleton.mp hname
    cases hc with
    | field _ hattr' _ =>
      cases hslot
      cases hattr.symm.trans hattr'
    | entry _ _ _ =>
      cases hslot
      exact ⟨_, rfl, Nat.zero_le _⟩
  · rintro ⟨i, rfl, -⟩
    exact ⟨name, List.mem_singleton_self name, rfl⟩

/-- A field that is not there holds no node. -/
theorem not_inFields_of_attr? (hattr : s.attr? owner name = none) (hc : s.ChildAt owner slot a) :
    ¬ InFields [name] slot := by
  rintro ⟨_, hname, hslot⟩
  obtain rfl := List.mem_singleton.mp hname
  cases hc with
  | field _ hattr' _ =>
    cases hslot
    cases hattr.symm.trans hattr'
  | entry _ hindex _ =>
    cases hslot
    obtain ⟨-, -, hitems⟩ := Store.exists_items_of_entries hindex
    cases hattr.symm.trans hitems

theorem inEntries_iff : InEntries list index slot ↔
    slot = .entry list index ∨ InEntries list (index + 1) slot := by
  constructor
  · rintro ⟨i, rfl, hi⟩
    rcases Nat.eq_or_lt_of_le hi with rfl | hlt
    · exact Or.inl rfl
    · exact Or.inr ⟨i, rfl, hlt⟩
  · rintro (rfl | ⟨i, rfl, hi⟩)
    · exact ⟨index, rfl, Nat.le_refl _⟩
    · exact ⟨i, rfl, Nat.le_of_succ_le hi⟩

/-- An entry that is no node is passed over. -/
theorem inEntries_iff_succ (hindex : (s.entries owner list)[index]? = some value)
    (hnode : s.isNode value = false) (hc : s.ChildAt owner slot a) :
    InEntries list index slot ↔ InEntries list (index + 1) slot := by
  rw [inEntries_iff]
  refine or_iff_right ?_
  rintro rfl
  cases hc with
  | entry _ hentry hisNode =>
    cases hindex.symm.trans hentry
    rw [hisNode] at hnode
    cases hnode

/-- After the end of a list there are no nodes. -/
theorem not_inEntries_of_entries (hindex : (s.entries owner list)[index]? = none)
    (hc : s.ChildAt owner slot a) : ¬ InEntries list index slot := by
  rintro ⟨i, rfl, hi⟩
  cases hc with
  | entry hname hentry hnode =>
    have hlt := (List.getElem?_eq_some_iff.mp hentry).1
    have hle := List.getElem?_eq_none_iff.mp hindex
    omega

end Places

/-! ### Entered places -/

/-- The places of the path of a call below a root. -/
def Call.places (root : PathId) (c : Call σ) : List Slot :=
  c.before.places root c.path

/-- The calls with which nodes are entered. -/
def entered (calls : List (Call σ)) : List (Call σ) :=
  calls.filter fun c => c.phase = .enter

/-- Without a removal since the start nodes are entered where they stand, in different places of some
scope, and in all of these unless there is a fault. -/
structure Enters (start : Workspace σ) (root : PathId) (scope : List Slot → Prop)
    (calls : List (Call σ)) (r : Outcome σ) : Prop where
  steps : ∀ c ∈ entered calls, start.Steps (fun _ => False) c.before
  descends : ∀ c ∈ entered calls, c.before.Descends root c.path (c.places root)
  within : ∀ c ∈ entered calls, scope (c.places root)
  nodup : ((entered calls).map (Call.places root)).Nodup
  all : ∀ w, r = .ok () w → ∀ slots, scope slots → ∃ c ∈ entered calls, c.places root = slots

namespace Enters

variable {start w : Workspace σ} {root : PathId} {scope scope' scope'' : List Slot → Prop}
  {calls calls' : List (Call σ)} {c : Call σ} {r r' : Outcome σ} {slots : List Slot}

theorem nil (h : ∀ w, r = .ok () w → ∀ slots, ¬ scope slots) : Enters start root scope [] r where
  steps _ hc := absurd hc List.not_mem_nil
  descends _ hc := absurd hc List.not_mem_nil
  within _ hc := absurd hc List.not_mem_nil
  nodup := List.nodup_nil
  all w hr slots hslots := absurd hslots (h w hr slots)

theorem singleton (hphase : c.phase = .enter) (hsteps : start.Steps (fun _ => False) c.before)
    (hdesc : c.before.Descends root c.path slots) (r : Outcome σ) :
    Enters start root (· = slots) [c] r := by
  have hentered : entered [c] = [c] := by simp [entered, hphase]
  have hplaces : c.places root = slots := hdesc.places_eq
  refine ⟨?_, ?_, ?_, ?_, ?_⟩ <;> simp [hentered, hplaces, hsteps, hdesc]

/-- The scope can be a wider one if the walk has ended with a fault. -/
theorem mono (h : Enters start root scope calls r) (hsub : ∀ slots, scope slots → scope' slots)
    (hall : ∀ w, r = .ok () w → ∀ slots, scope' slots → scope slots) :
    Enters start root scope' calls r where
  steps := h.steps
  descends := h.descends
  within c hc := hsub _ (h.within c hc)
  nodup := h.nodup
  all w hr slots hslots := h.all w hr slots (hall w hr slots hslots)

theorem congr (h : Enters start root scope calls r) (hiff : ∀ slots, scope slots ↔ scope' slots) :
    Enters start root scope' calls r :=
  h.mono (fun slots => (hiff slots).mp) fun _ _ slots => (hiff slots).mpr

/-- One part of a walk after the other. -/
theorem append (h : Enters start root scope calls (.ok () w)) (h' : Enters start root scope' calls' r)
    (hdisjoint : ∀ slots, scope slots → ¬ scope' slots)
    (hscope : ∀ slots, scope'' slots ↔ scope slots ∨ scope' slots) :
    Enters start root scope'' (calls ++ calls') r := by
  have hsplit : entered (calls ++ calls') = entered calls ++ entered calls' := List.filter_append ..
  constructor
  · rw [hsplit]
    exact List.forall_mem_append.mpr ⟨h.steps, h'.steps⟩
  · rw [hsplit]
    exact List.forall_mem_append.mpr ⟨h.descends, h'.descends⟩
  · rw [hsplit]
    exact List.forall_mem_append.mpr ⟨fun c hc => (hscope _).mpr (Or.inl (h.within c hc)),
      fun c hc => (hscope _).mpr (Or.inr (h'.within c hc))⟩
  · rw [hsplit, List.map_append]
    refine List.nodup_append.mpr ⟨h.nodup, h'.nodup, ?_⟩
    intro slots hslots slots' hslots' heq
    obtain ⟨c, hc, rfl⟩ := List.mem_map.mp hslots
    obtain ⟨c', hc', rfl⟩ := List.mem_map.mp hslots'
    exact hdisjoint _ (h.within c hc) (heq ▸ h'.within c' hc')
  · intro w' hr slots hslots
    rw [hsplit]
    rcases (hscope slots).mp hslots with hfirst | hsecond
    · obtain ⟨c, hc, hplaces⟩ := h.all w rfl slots hfirst
      exact ⟨c, List.mem_append_left _ hc, hplaces⟩
    · obtain ⟨c, hc, hplaces⟩ := h'.all w' hr slots hsecond
      exact ⟨c, List.mem_append_right _ hc, hplaces⟩

/-- Leaving a node enters nothing. -/
theorem exit (h : Enters start root scope calls (.ok () w)) (hphase : c.phase = .exit)
    (r : Outcome σ) : Enters start root scope (calls ++ [c]) r := by
  have hentered : entered (calls ++ [c]) = entered calls := by simp [entered, hphase]
  constructor
  · exact hentered ▸ h.steps
  · exact hentered ▸ h.descends
  · exact hentered ▸ h.within
  · exact hentered ▸ h.nodup
  · intro _ _ slots hslots
    rw [hentered]
    exact h.all w rfl slots hslots

end Enters

/-! ### What a walk enters -/

/-- The path that a task is about. -/
def Task.top : Task → PathId
  | .visit p => p
  | .children p => p
  | .fields above _ _ => above
  | .field above _ _ => above
  | .entries above _ _ _ => above

/-- A task is about fields of its node, in which it looks once, and a visit begins with a path that
has not removed its node. -/
def Task.Lawful (w : Workspace σ) : Task → Prop
  | .visit p => (w.path p).removed = false
  | .children _ => True
  | .fields _ owner names => names.Nodup ∧ names ⊆ w.store.fieldNames owner
  | .field _ owner name => name ∈ w.store.fieldNames owner
  | .entries _ owner list _ => list ∈ w.store.fieldNames owner

section Lawful

variable {w w' : Workspace σ} {p above : PathId} {owner : Atom} {name list : String}
  {names : List String} {index index' : ℕ}

theorem lawful_nextPath {path : Path} (hlive : path.removed = false) :
    (Task.visit w.nextPath).Lawful (w.addPath path) := by
  show ((w.addPath path).path w.nextPath).removed = false
  rw [w.path_addPath_nextPath, hlive]

theorem lawful_fields {shape : Shape} (hshape : w.store.shape? (w.path p).node = some shape)
    (hnames : shape.fields? = some names) :
    (Task.fields p (w.path p).node names).Lawful w := by
  have hfieldNames := Store.fieldNames_eq hshape hnames
  have hnodup := w.store.nodup_fieldNames (w.path p).node
  rw [hfieldNames] at hnodup
  exact ⟨hnodup, hfieldNames ▸ List.Subset.refl _⟩

theorem Task.Lawful.head (h : (Task.fields above owner (name :: names)).Lawful w) :
    (Task.field above owner name).Lawful w :=
  h.2 List.mem_cons_self

/-- The fields of a node stay when nodes are removed. -/
theorem Task.Lawful.tail (h : (Task.fields above owner (name :: names)).Lawful w)
    (hshrinks : w.store.ShrinksTo w'.store) : (Task.fields above owner names).Lawful w' := by
  obtain ⟨hnodup, hsub⟩ := h
  refine ⟨(List.nodup_cons.mp hnodup).2, ?_⟩
  rw [hshrinks.fieldNames_eq]
  exact fun other hother => hsub (List.mem_cons_of_mem _ hother)

theorem Task.Lawful.rest (h : (Task.entries above owner list index).Lawful w)
    (hshrinks : w.store.ShrinksTo w'.store) :
    (Task.entries above owner list index').Lawful w' := by
  show list ∈ w'.store.fieldNames owner
  rw [hshrinks.fieldNames_eq]
  exact h

end Lawful

/-- The places that are below a task. -/
def Task.Scope (s : Store) (w : Workspace σ) (places : List Slot) : Task → List Slot → Prop
  | .visit p => PlaceFrom s places (w.path p).node
  | .children p => PlaceUnder s places (w.path p).node fun _ => True
  | .fields _ owner names => PlaceUnder s places owner (InFields names)
  | .field _ owner name => PlaceUnder s places owner (InFields [name])
  | .entries _ owner list index => PlaceUnder s places owner (InEntries list index)

section Enters

variable {v : Visitor σ} {start w w₁ : Workspace σ} {root p above : PathId} {owner value : Atom}
  {slot : Slot} {task : Task} {calls : List (Call σ)} {turns : List Turn} {r : Outcome σ}
  {places : List Slot} {type : Tree}

/-- A visit that goes on below its node enters the node first. -/
theorem enters_visit (hw : start.Steps (fun _ => False) w) (hp : w.Knows p)
    (hdesc : w.Descends root p places) (hcall : w.Steps (fun _ => False) w₁)
    (hbelow : w₁.Knows p → w₁.Descends root p places →
      Enters start root ((Task.children p).Scope start.store w₁ places) calls r) :
    Enters start root ((Task.visit p).Scope start.store w places) (⟨.enter, p, type, w⟩ :: calls)
      r := by
  have hkeeps := Workspace.Steps.keepsPaths hcall
  have hchildren := hbelow (hkeeps p hp).1
    (hdesc.of_keepsPaths hp hkeeps (Workspace.Steps.store_eq hcall))
  refine (Enters.singleton rfl hw hdesc (.ok () w₁)).append hchildren ?_ fun slots => ?_
  · rintro slots rfl
    exact not_placeUnder_self
  · simp only [Task.Scope]
    rw [Workspace.Steps.node_eq hcall hp, placeFrom_iff]

/-- What is entered in a visit of the node in a place is what is entered below the place. -/
theorem enters_place (hw : start.Steps (fun _ => False) w)
    (habove : w.Knows above ∧ (w.path above).node = owner) (hdesc : w.Descends root above places)
    (hat : w.store.ChildAt owner slot value)
    (hvisit : (w.addPath (.ofPlace value above slot)).Descends root w.nextPath (places ++ [slot]) →
      Enters start root ((Task.visit w.nextPath).Scope start.store
        (w.addPath (.ofPlace value above slot)) (places ++ [slot])) calls r) :
    Enters start root (PlaceUnder start.store places owner (· = slot)) calls r := by
  have hplace := hvisit (hdesc.take habove.1 (habove.2.symm ▸ hat))
  rw [Workspace.Steps.store_eq hw] at hat
  simp only [Task.Scope, w.path_addPath_nextPath] at hplace
  exact hplace.congr fun slots => placeFrom_iff_placeUnder hat

/-- The places of one kind under a node are entered after those of another. -/
theorem enters_places {s : Store} {kind kind' both : Slot → Prop} {calls' : List (Call σ)}
    (h : Enters start root (PlaceUnder s places owner kind) calls (.ok () w))
    (h' : Enters start root (PlaceUnder s places owner kind') calls' r)
    (hdisjoint : ∀ slot, kind slot → ¬ kind' slot)
    (hboth : ∀ slot, both slot ↔ kind slot ∨ kind' slot) :
    Enters start root (PlaceUnder s places owner both) (calls ++ calls') r := by
  refine h.append h' (fun slots hslots => hslots.disjoint hdisjoint) fun slots => ?_
  exact (placeUnder_congr fun slot _ _ => hboth slot).trans placeUnder_or

/-- A walk without removals enters every place below it, unless it ends with a fault. -/
theorem Runs.enters (hv : v.OnlyRemoves (fun _ => False) start) (h : Runs v task w calls turns r)
    (hw : start.Steps (fun _ => False) w) (hheld : task.Held w) (hlawful : task.Lawful w)
    (hdesc : w.Descends root task.top places) :
    Enters start root (task.Scope start.store w places) calls r := by
  have hstore := Workspace.Steps.store_eq hw
  induction h generalizing places with
  | untyped htype => exact .nil nofun
  | @entered p w type r htype henter hhalts =>
    refine (Enters.singleton rfl hw hdesc r).mono ?_ ?_
    · rintro slots rfl
      exact placeFrom_iff.mpr (Or.inl rfl)
    · rintro w₁ rfl
      have hcall := steps_of_call_ok hv hw hheld henter
      have hremoved : (w₁.path p).removed = true := hhalts
      rw [(Workspace.Steps.keepsPaths hcall p hheld.1).2, hlawful] at hremoved
      cases hremoved
  | @halted p w w₁ type calls turns r htype henter hlive hbelow hhalts ih =>
    have hcall := steps_of_call_ok hv hw hheld henter
    exact enters_visit hw hheld.1 hdesc hcall fun hknown hdesc' =>
      ih (hw.trans hcall) hknown trivial hdesc' (Workspace.Steps.store_eq (hw.trans hcall))
  | @left p w w₁ w₂ type calls turns htype henter hlive hbelow hleft ih =>
    have hcall := steps_of_call_ok hv hw hheld henter
    exact (enters_visit hw hheld.1 hdesc hcall fun hknown hdesc' =>
      ih (hw.trans hcall) hknown trivial hdesc' (Workspace.Steps.store_eq (hw.trans hcall))).exit rfl _
  | no_node hnode => exact .nil nofun
  | @children p w shape names calls turns r hshape hnames hfields ih =>
    refine (ih hw ⟨hheld, rfl⟩ (lawful_fields hshape hnames) hdesc hstore).congr fun slots => ?_
    refine placeUnder_congr fun slot c hc => ⟨fun _ => trivial, fun _ => ?_⟩
    rw [← hstore] at hc
    exact Store.fieldNames_eq hshape hnames ▸ inFields_of_childAt hc
  | fields_nil =>
    refine .nil fun _ _ slots => not_placeUnder ?_
    rintro slot c - ⟨name, hname, -⟩
    exact absurd hname List.not_mem_nil
  | fields_stop hfield ih =>
    refine (ih hw hheld hlawful.head hdesc hstore).mono ?_ nofun
    exact fun slots hslots => hslots.mono fun slot _ _ hslot => inFields_cons.mpr (Or.inl hslot)
  | @fields_cons above owner name names w w' calls calls' turns turns' r hfield hrest ih ihrest =>
    have hsteps : w.Steps (fun _ => False) w' := hfield.steps hv hw hheld
    have hsame := Workspace.Steps.store_eq hsteps
    have hfirst := ih hw hheld hlawful.head hdesc hstore
    have hothers := ihrest (hw.trans hsteps) (held_above hsteps hheld)
      (hlawful.tail (Workspace.Steps.shrinks hsteps))
      (hdesc.of_keepsPaths hheld.1 (Workspace.Steps.keepsPaths hsteps) hsame)
      (hsame.trans hstore)
    have hname : name ∉ names := (List.nodup_cons.mp hlawful.1).1
    exact enters_places hfirst hothers (fun _ => not_inFields_of_inFields_singleton hname)
      fun _ => inFields_cons
  | field_absent hattr =>
    rw [hstore] at hattr
    exact .nil fun _ _ slots => not_placeUnder fun slot c hc => not_inFields_of_attr? hattr hc
  | field_skip hattr hnode =>
    rw [hstore] at hattr hnode
    refine .nil fun _ _ slots => not_placeUnder fun slot c hc hslot => ?_
    obtain ⟨-, rfl⟩ := (inFields_iff_of_atom hattr hc).mp hslot
    rw [hc.isNode] at hnode
    cases hnode
  | @field_node above owner name w value calls turns r hattr hnode hvisited ih =>
    have hat : w.store.ChildAt owner (.field name) value := .field hlawful hattr hnode
    have hplace := enters_place hw hheld hdesc hat fun hdesc' =>
      ih (hw.tail (step_field _ hattr hheld)) (held_nextPath hnode) (lawful_nextPath rfl) hdesc'
        hstore
    rw [hstore] at hat
    exact hplace.congr fun slots => placeUnder_congr fun slot c hc =>
      (inFields_iff_of_field hat hc).symm
  | field_items hattr hentries ih =>
    have hfield := ih hw hheld hlawful hdesc hstore
    rw [hstore] at hattr
    exact hfield.congr fun slots => placeUnder_congr fun slot c hc =>
      (inFields_iff_of_items hattr hc).symm
  | entries_end hindex =>
    rw [hstore] at hindex
    exact .nil fun _ _ slots => not_placeUnder fun slot c hc => not_inEntries_of_entries hindex hc
  | entries_skip hindex hnode hrest ih =>
    have hothers := ih hw hheld hlawful hdesc hstore
    rw [hstore] at hindex hnode
    exact hothers.congr fun slots => placeUnder_congr fun slot c hc =>
      (inEntries_iff_succ hindex hnode hc).symm
  | @entries_stop above owner list index w w' value calls turns fault hindex hnode hvisited ih =>
    have hplace := enters_place hw hheld hdesc (.entry hlawful hindex hnode) fun hdesc' =>
      ih (hw.tail (step_entry _ hindex hheld)) (held_nextPath hnode) (lawful_nextPath rfl) hdesc'
        hstore
    refine hplace.mono ?_ nofun
    exact fun slots hslots => hslots.mono fun slot _ _ hslot => inEntries_iff.mpr (Or.inl hslot)
  | @entries_next above owner list index w w' value calls calls' turns turns' r hindex hnode
      hvisited hrest ih ihrest =>
    have htake := step_entry (fun _ => False) hindex hheld
    have hplace := enters_place hw hheld hdesc (.entry hlawful hindex hnode) fun hdesc' =>
      ih (hw.tail htake) (held_nextPath hnode) (lawful_nextPath rfl) hdesc' hstore
    have hsteps : w.Steps (fun _ => False) w' := hvisited.steps_entry hv hw hheld hindex hnode
    have hsame := Workspace.Steps.store_eq hsteps
    -- the entry has stayed where it was
    have hnext : nextIndex w'.store owner list index value = index + 1 := by
      unfold nextIndex
      rw [hsame, if_pos hindex]
    have hothers := ihrest (hw.trans hsteps) (held_above hsteps hheld)
      (hlawful.rest (Workspace.Steps.shrinks hsteps))
      (hdesc.of_keepsPaths hheld.1 (Workspace.Steps.keepsPaths hsteps) hsame)
      (hsame.trans hstore)
    rw [hnext] at hothers
    refine enters_places hplace hothers ?_ fun _ => inEntries_iff
    rintro slot rfl ⟨i, heq, hi⟩
    cases heq
    omega

end Enters

/-! ### Nodes that are entered where they stand -/

/-- A call is the one with which a visit begins. -/
def Task.Begins (w : Workspace σ) (c : Call σ) : Task → Prop
  | .visit p => c.path = p ∧ c.before = w
  | _ => False

/-- A node is entered by way of a path to the place in which it stands at the moment, below a node of
some kind. -/
def Call.Stands (start : Workspace σ) (removable kind : Atom → Prop) (c : Call σ) : Prop :=
  start.Steps removable c.before ∧ ∃ above slot,
    c.before.path c.path = .ofPlace c.node above slot ∧
    c.before.store.ChildAt (c.before.path above).node slot c.node ∧
    kind (c.before.path above).node

section Stands

variable {v : Visitor σ} {removable kind : Atom → Prop} {start w : Workspace σ} {above : PathId}
  {owner value : Atom} {slot : Slot} {task : Task} {calls : List (Call σ)} {turns : List Turn}
  {r : Outcome σ}

/-- If a kind of nodes is handed down from a node to what stands in its places, then a visit of what
stands in a place of such a node is a visit of such a node, and begins with a call at it where it
stands. -/
theorem stands_of_visit {path : Path} (hpath : path = .ofPlace value above slot)
    (hkind : ∀ w, start.Steps removable w → ∀ a slot b, kind a → w.store.ChildAt a slot b → kind b)
    (hw : start.Steps removable w) (hstep : w.Step removable (w.addPath path))
    (habove : w.Knows above ∧ (w.path above).node = owner) (howner : kind (w.path above).node)
    (hat : w.store.ChildAt owner slot value)
    (hvisit : kind ((w.addPath path).path w.nextPath).node → ∀ c ∈ calls, c.phase = .enter →
      c.Stands start removable kind ∨ (Task.visit w.nextPath).Begins (w.addPath path) c) :
    ∀ c ∈ calls, c.phase = .enter → c.Stands start removable kind := by
  subst hpath
  obtain ⟨hknown, rfl⟩ := habove
  have hsame := (w.keepsPaths_addPath (.ofPlace value above slot) above hknown).2
  have hnode := w.path_addPath_nextPath (.ofPlace value above slot)
  have hvalue : kind ((w.addPath (.ofPlace value above slot)).path w.nextPath).node := by
    rw [hnode]
    exact hkind w hw _ slot value howner hat
  intro c hc hphase
  rcases hvisit hvalue c hc hphase with hstands | hbegins
  · exact hstands
  · obtain ⟨phase, p, type, before⟩ := c
    obtain ⟨rfl, rfl⟩ := hbegins
    refine ⟨hw.tail hstep, above, slot, ?_, ?_, ?_⟩
    · simp only [Call.node, hnode]
      rfl
    · simp only [Call.node, hnode, hsame]
      exact hat
    · rw [hsame]
      exact howner

/-- Every node that a walk enters stands where the walk enters it, the first one aside, whatever has
been removed before. -/
theorem Runs.stands (hv : v.OnlyRemoves removable start) (h : Runs v task w calls turns r)
    (hkind : ∀ w, start.Steps removable w → ∀ a slot b, kind a → w.store.ChildAt a slot b → kind b)
    (hw : start.Steps removable w) (hheld : task.Held w) (hlawful : task.Lawful w)
    (htop : kind (w.path task.top).node) :
    ∀ c ∈ calls, c.phase = .enter → c.Stands start removable kind ∨ task.Begins w c := by
  -- a visit begins with a call at its node, and the task that takes the path knows its place
  induction h with
  | untyped htype => exact fun c hc => absurd hc List.not_mem_nil
  | entered htype henter hhalts =>
    intro c hc _
    cases List.mem_singleton.mp hc
    exact Or.inr ⟨rfl, rfl⟩
  | @halted p w w₁ type calls turns r htype henter hlive hbelow hhalts ih =>
    have hcall := steps_of_call_ok hv hw hheld henter
    have htop' : kind (w₁.path p).node := (Workspace.Steps.node_eq hcall hheld.1).symm ▸ htop
    intro c hc hphase
    rcases List.mem_cons.mp hc with rfl | hc
    · exact Or.inr ⟨rfl, rfl⟩
    · have hknown := Workspace.Steps.knows hcall hheld.1
      exact Or.inl ((ih (hw.trans hcall) hknown trivial htop' c hc hphase).resolve_right id)
  | @left p w w₁ w₂ type calls turns htype henter hlive hbelow hleft ih =>
    have hcall := steps_of_call_ok hv hw hheld henter
    have htop' : kind (w₁.path p).node := (Workspace.Steps.node_eq hcall hheld.1).symm ▸ htop
    intro c hc hphase
    rcases List.mem_cons.mp hc with rfl | hc
    · exact Or.inr ⟨rfl, rfl⟩
    rcases List.mem_append.mp hc with hc | hc
    · have hknown := Workspace.Steps.knows hcall hheld.1
      exact Or.inl ((ih (hw.trans hcall) hknown trivial htop' c hc hphase).resolve_right id)
    · cases List.mem_singleton.mp hc
      cases hphase
  | no_node hnode => exact fun c hc => absurd hc List.not_mem_nil
  | children hshape hnames hfields ih =>
    exact ih hw ⟨hheld, rfl⟩ (lawful_fields hshape hnames) htop
  | fields_nil => exact fun c hc => absurd hc List.not_mem_nil
  | fields_stop hfield ih => exact ih hw hheld hlawful.head htop
  | @fields_cons above owner name names w w' calls calls' turns turns' r hfield hrest ih ihrest =>
    have hsteps : w.Steps removable w' := hfield.steps hv hw hheld
    exact List.forall_mem_append.mpr ⟨ih hw hheld hlawful.head htop,
      ihrest (hw.trans hsteps) (held_above hsteps hheld)
        (hlawful.tail (Workspace.Steps.shrinks hsteps))
        ((Workspace.Steps.node_eq hsteps hheld.1).symm ▸ htop)⟩
  | field_absent hattr => exact fun c hc => absurd hc List.not_mem_nil
  | field_skip hattr hnode => exact fun c hc => absurd hc List.not_mem_nil
  | field_node hattr hnode hvisit ih =>
    have htake := step_field removable hattr hheld
    intro c hc hphase
    exact Or.inl (stands_of_visit rfl hkind hw htake hheld htop (.field hlawful hattr hnode)
      (ih (hw.tail htake) (held_nextPath hnode) (lawful_nextPath rfl)) c hc hphase)
  | field_items hattr hentries ih => exact ih hw hheld hlawful htop
  | entries_end hindex => exact fun c hc => absurd hc List.not_mem_nil
  | entries_skip hindex hnode hrest ih => exact ih hw hheld hlawful htop
  | entries_stop hindex hnode hvisit ih =>
    have htake := step_entry removable hindex hheld
    intro c hc hphase
    exact Or.inl (stands_of_visit rfl hkind hw htake hheld htop (.entry hlawful hindex hnode)
      (ih (hw.tail htake) (held_nextPath hnode) (lawful_nextPath rfl)) c hc hphase)
  | @entries_next above owner list index w w' value calls calls' turns turns' r hindex hnode hvisit
      hrest ih ihrest =>
    have htake := step_entry removable hindex hheld
    have hsteps : w.Steps removable w' := hvisit.steps_entry hv hw hheld hindex hnode
    refine List.forall_mem_append.mpr ⟨fun c hc hphase => Or.inl ?_,
      ihrest (hw.trans hsteps) (held_above hsteps hheld)
        (hlawful.rest (Workspace.Steps.shrinks hsteps))
        ((Workspace.Steps.node_eq hsteps hheld.1).symm ▸ htop)⟩
    exact stands_of_visit rfl hkind hw htake hheld htop (.entry hlawful hindex hnode)
      (ih (hw.tail htake) (held_nextPath hnode) (lawful_nextPath rfl)) c hc hphase

end Stands

end Walk

end NamedExports
