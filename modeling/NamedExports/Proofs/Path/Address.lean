import NamedExports.Proofs.Path.Compose
import NamedExports.Proofs.Walk.Place

/-!
# Addresses

The address of a path below a root is the dotted path through the places on the way down to it, as
they can be read off the paths above it (`Workspace.address`).  If the node of every path on the way
still stands in its place (`Workspace.Descends`), then the address leads from the root to where the
path leads: to the same value in the same place of the same object (`Edit.run_get_address`).

Through different places there are different addresses (`Store.Leads.eq_of_address`): the name of a
field has no dot, an index is a part of its own, and an attribute is either a list or not.

Indices are read only up to so many digits, so it is required that no list has more entries than can
be numbered (`Store.Numbered`), as no list that can be held has.
-/

namespace NamedExports

variable {σ : Type}

/-! ### Places as dotted paths -/

namespace Slot

/-- A place as a dotted path from its object. -/
def dotted : Slot → String
  | nowhere => ""
  | field name => name
  | entry list index => list ++ "." ++ toString index

/-- The dotted path through some places, one after the other. -/
def address (slots : List Slot) : String :=
  ".".intercalate (slots.map dotted)

/-- The parts of the dotted path of a place. -/
def parts : Slot → List String
  | nowhere => [""]
  | field name => [name]
  | entry list index => [list, toString index]

theorem address_singleton (slot : Slot) : address [slot] = slot.dotted :=
  String.intercalate_singleton

theorem address_append {slots slots' : List Slot} (hne : slots ≠ []) (hne' : slots' ≠ []) :
    address (slots ++ slots') = address slots ++ "." ++ address slots' := by
  unfold address
  rw [List.map_append, String.intercalate_append_of_ne_nil] <;> simpa

end Slot

/-! ### Lists that can be numbered -/

/-- No list of an object has more entries than can be numbered. -/
def Obj.Numbered : Obj → Prop
  | record _ attributes => ∀ a ∈ attributes, a.2.atoms.length ≤ 10 ^ Text.maxDigits
  | sequence _ => True

instance (o : Obj) : Decidable o.Numbered :=
  match o with
  | .record _ attributes =>
    inferInstanceAs (Decidable (∀ a ∈ attributes, a.2.atoms.length ≤ 10 ^ Text.maxDigits))
  | .sequence _ => inferInstanceAs (Decidable True)

/-- No list of a store has more entries than can be numbered. -/
def Store.Numbered (s : Store) : Prop :=
  ∀ o ∈ s.objects.toList, o.Numbered

instance (s : Store) : Decidable s.Numbered :=
  inferInstanceAs (Decidable (∀ o ∈ s.objects.toList, o.Numbered))

/-- The index of an entry can be written and read, also after entries have been taken out. -/
theorem Store.Numbered.index_lt {s s' : Store} (h : s.Numbered) (hshrinks : s.ShrinksTo s')
    {a b : Atom} {list : String} {index : ℕ} (hindex : (s'.entries a list)[index]? = some b) :
    index < 10 ^ Text.maxDigits := by
  obtain ⟨hlt, -⟩ := List.getElem?_eq_some_iff.mp hindex
  have hlength := (hshrinks.entries_sublist a list).length_le
  have hentry : (s.entries a list)[index]? = some (s.entries a list)[index] :=
    List.getElem?_eq_getElem (hlt.trans_le hlength)
  obtain ⟨r, rfl, hattr⟩ := exists_items_of_entries hentry
  obtain ⟨_, o, hr, ho, hattr⟩ := exists_obj_of_attr? hattr
  cases hr
  have hbound : (s.entries (.ref r) list).length ≤ 10 ^ Text.maxDigits := by
    cases o with
    | sequence values => cases hattr
    | record shape attributes =>
      exact h _ (mem_objects_iff.mpr ⟨r, ho⟩) (list, _) (mem_of_lookup hattr)
  omega

/-! ### Ways through the places of nodes -/

/-- The names of a field have no dots and do not begin with an underscore. -/
theorem Kind.legal_fields (kind : Kind) :
    ∀ name ∈ kind.fields, '.' ∉ name.toList ∧ name.startsWith "_" = false := by
  cases kind <;> decide +kernel

theorem Kind.nodup_fields (kind : Kind) : kind.fields.Nodup := by
  cases kind <;> decide

namespace Store

variable {s : Store} {a b c : Atom} {name list : String} {slot : Slot} {slots slots' : List Slot}

/-- The names of the fields of a value that are visited, if it is a node. -/
def fieldNames (s : Store) (a : Atom) : List String :=
  ((s.shape? a).bind Shape.fields?).getD []

theorem fieldNames_eq {shape : Shape} {names : List String} (hshape : s.shape? a = some shape)
    (hnames : shape.fields? = some names) : s.fieldNames a = names := by
  unfold fieldNames
  rw [hshape, Option.bind_some, hnames, Option.getD_some]

theorem fieldNames_eq_nil_or (s : Store) (a : Atom) :
    s.fieldNames a = [] ∨ ∃ kind : Kind, s.fieldNames a = kind.fields := by
  unfold fieldNames
  cases s.shape? a with
  | none => exact Or.inl rfl
  | some shape =>
    cases shape with
    | modelled kind => exact Or.inr ⟨kind, rfl⟩
    | plain => exact Or.inl rfl
    | loose => exact Or.inl rfl

theorem legal_fieldNames (h : name ∈ s.fieldNames a) :
    '.' ∉ name.toList ∧ name.startsWith "_" = false := by
  rcases s.fieldNames_eq_nil_or a with hnil | ⟨kind, hfields⟩
  · rw [hnil] at h
    exact absurd h List.not_mem_nil
  · exact kind.legal_fields name (hfields ▸ h)

theorem ShrinksTo.fieldNames_eq {s' : Store} (h : s.ShrinksTo s') (a : Atom) :
    s'.fieldNames a = s.fieldNames a := by
  unfold fieldNames
  rw [h.shape?_eq]

theorem nodup_fieldNames (s : Store) (a : Atom) : (s.fieldNames a).Nodup := by
  rcases s.fieldNames_eq_nil_or a with hnil | ⟨kind, hfields⟩
  · rw [hnil]
    exact List.nodup_nil
  · rw [hfields]
    exact kind.nodup_fields

/-- A node stands in a place of a node. -/
inductive ChildAt (s : Store) (a : Atom) : Slot → Atom → Prop
  | field {name : String} {b : Atom} (hname : name ∈ s.fieldNames a)
      (hattr : s.attr? a name = some (.atom b)) (hnode : s.isNode b = true) :
      ChildAt s a (.field name) b
  | entry {list : String} {index : ℕ} {b : Atom} (hname : list ∈ s.fieldNames a)
      (hindex : (s.entries a list)[index]? = some b) (hnode : s.isNode b = true) :
      ChildAt s a (.entry list index) b

/-- From a node a node is reached through some places, each of the node reached before. -/
def Leads (s : Store) (a : Atom) : List Slot → Atom → Prop
  | [], b => a = b
  | slot :: slots, b => ∃ c, s.ChildAt a slot c ∧ s.Leads c slots b

theorem ChildAt.isNode (h : s.ChildAt a slot b) : s.isNode b = true := by
  cases h with
  | field hname hattr hnode => exact hnode
  | entry hname hindex hnode => exact hnode

/-- There is one node at most in a place. -/
theorem ChildAt.unique (h : s.ChildAt a slot b) (h' : s.ChildAt a slot c) : b = c := by
  cases h with
  | field hname hattr hnode =>
    cases h' with
    | field hname' hattr' hnode' => simpa using hattr.symm.trans hattr'
  | entry hname hindex hnode =>
    cases h' with
    | entry hname' hindex' hnode' => exact Option.some.inj (hindex.symm.trans hindex')

/-- An attribute is a list or not. -/
theorem ne_of_attr?_of_entries {index : ℕ} (hattr : s.attr? a name = some (.atom b))
    (hindex : (s.entries a list)[index]? = some c) : name ≠ list := by
  rintro rfl
  obtain ⟨-, -, hitems⟩ := exists_items_of_entries hindex
  cases hattr.symm.trans hitems

theorem Leads.append (h : s.Leads a slots b) (h' : s.Leads b slots' c) :
    s.Leads a (slots ++ slots') c := by
  induction slots generalizing a with
  | nil =>
    cases h
    exact h'
  | cons slot slots ih =>
    obtain ⟨d, hd, h⟩ := h
    exact ⟨d, hd, ih h⟩

/-- Some places lead to one node at most. -/
theorem Leads.unique (h : s.Leads a slots b) (h' : s.Leads a slots c) : b = c := by
  induction slots generalizing a with
  | nil => exact h.symm.trans h'
  | cons slot slots ih =>
    obtain ⟨d, hd, h⟩ := h
    obtain ⟨d', hd', h'⟩ := h'
    obtain rfl := hd.unique hd'
    exact ih h h'

/-- The names of lists have no dots, so the dotted path of a place has its parts. -/
theorem ChildAt.dotted_eq (h : s.ChildAt a slot b) : Text.dotted slot.dotted = slot.parts := by
  cases h with
  | field hname hattr hnode => exact Text.dotted_of_no_dot (legal_fieldNames hname).1
  | entry hname hindex hnode => exact Text.dotted_entry (legal_fieldNames hname).1 _

/-- Places of a node with the same parts are the same, and the same parts are left. -/
theorem ChildAt.eq_of_parts {slot' : Slot} {rest rest' : List String} (h : s.ChildAt a slot b)
    (h' : s.ChildAt a slot' c) (heq : slot.parts ++ rest = slot'.parts ++ rest') :
    slot = slot' ∧ rest = rest' := by
  cases h with
  | field hname hattr hnode =>
    cases h' with
    | field hname' hattr' hnode' =>
      obtain ⟨rfl, hrest⟩ := List.cons.inj heq
      exact ⟨rfl, hrest⟩
    | entry hname' hindex' hnode' =>
      exact absurd (List.cons.inj heq).1 (ne_of_attr?_of_entries hattr hindex')
  | entry hname hindex hnode =>
    cases h' with
    | field hname' hattr' hnode' =>
      exact absurd (List.cons.inj heq).1.symm (ne_of_attr?_of_entries hattr' hindex)
    | entry hname' hindex' hnode' =>
      obtain ⟨rfl, htail⟩ := List.cons.inj heq
      obtain ⟨hindices, hrest⟩ := List.cons.inj htail
      rw [Text.eq_of_toString_eq hindices]
      exact ⟨rfl, hrest⟩

theorem Leads.dotted_address (h : s.Leads a slots b) (hne : slots ≠ []) :
    Text.dotted (Slot.address slots) = slots.flatMap Slot.parts := by
  induction slots generalizing a with
  | nil => exact absurd rfl hne
  | cons slot slots ih =>
    obtain ⟨c, hc, h⟩ := h
    rw [List.flatMap_cons, ← hc.dotted_eq]
    by_cases hslots : slots = []
    · rw [hslots, Slot.address_singleton, List.flatMap_nil, List.append_nil]
    · rw [← List.singleton_append, Slot.address_append (List.cons_ne_nil _ _) hslots,
        Text.dotted_append, ih h hslots, Slot.address_singleton]

/-- Ways with the same parts go through the same places. -/
theorem Leads.eq_of_parts (h : s.Leads a slots b) (h' : s.Leads a slots' c)
    (heq : slots.flatMap Slot.parts = slots'.flatMap Slot.parts) : slots = slots' := by
  have hnonempty : ∀ slot : Slot, slot.parts ≠ [] := by
    intro slot
    cases slot <;> exact List.cons_ne_nil _ _
  induction slots generalizing a slots' with
  | nil =>
    cases slots' with
    | nil => rfl
    | cons slot' slots' => simp [hnonempty] at heq
  | cons slot slots ih =>
    cases slots' with
    | nil => simp [hnonempty] at heq
    | cons slot' slots' =>
      obtain ⟨d, hd, h⟩ := h
      obtain ⟨d', hd', h'⟩ := h'
      obtain ⟨rfl, hrest⟩ := hd.eq_of_parts hd' heq
      obtain rfl := hd.unique hd'
      rw [ih h h' hrest]

/-- Ways with the same address go through the same places. -/
theorem Leads.eq_of_address (h : s.Leads a slots b) (h' : s.Leads a slots' c) (hne : slots ≠ [])
    (hne' : slots' ≠ []) (heq : Slot.address slots = Slot.address slots') : slots = slots' := by
  refine h.eq_of_parts h' ?_
  rw [← h.dotted_address hne, ← h'.dotted_address hne', heq]

end Store

/-! ### Places that are read off paths -/

namespace Workspace

variable {w w' w₂ : Workspace σ} {root above p : PathId} {slot : Slot} {slots : List Slot} {b : Atom}

/-- The places on the way down from a root to a path, as they can be read off the path and the paths
above it.  Paths are taken after the paths above them. -/
def places (w : Workspace σ) (root p : PathId) : List Slot :=
  if p = root then []
  else match (w.path p).above with
    | none => []
    | some above =>
      if above.index < p.index then w.places root above ++ [(w.path p).slot] else []
termination_by p.index

/-- The address of a path below a root. -/
def address (w : Workspace σ) (root p : PathId) : String :=
  Slot.address (w.places root p)

/-- A path has been taken below a root: every node on the way down stands in its place. -/
inductive Descends (w : Workspace σ) (root : PathId) : PathId → List Slot → Prop
  | here : Descends w root root []
  | down {above p : PathId} {slot : Slot} {slots : List Slot} {b : Atom}
      (h : Descends w root above slots) (hp : w.path p = .ofPlace b above slot)
      (hlt : above.index < p.index) (hat : w.store.ChildAt (w.path above).node slot b) :
      Descends w root p (slots ++ [slot])

namespace Descends

theorem le (h : w.Descends root p slots) : root.index ≤ p.index := by
  induction h with
  | here => exact Nat.le_refl _
  | down _ _ hlt _ ih => omega

theorem eq_root (h : w.Descends root p slots) (hnil : slots = []) : p = root := by
  cases h with
  | here => rfl
  | down => simp at hnil

theorem places_eq (h : w.Descends root p slots) : w.places root p = slots := by
  induction h with
  | here =>
    unfold places
    rw [if_pos rfl]
  | @down above p slot slots b h hp hlt hat ih =>
    have hne : p ≠ root := by
      rintro rfl
      have hle := h.le
      omega
    unfold places
    rw [if_neg hne, hp]
    simp only [Path.ofPlace, hlt, if_true, ih]

theorem leads (h : w.Descends root p slots) :
    w.store.Leads (w.path root).node slots (w.path p).node := by
  induction h with
  | here => exact rfl
  | down _ hp _ hat ih =>
    refine ih.append ⟨_, hat, ?_⟩
    rw [hp]
    rfl

/-- It stays so as long as the paths and the tree stay. -/
theorem of_keepsPaths (h : w.Descends root p slots) (hp : w.Knows p) (hkeeps : w.KeepsPaths w')
    (hstore : w'.store = w.store) : w'.Descends root p slots := by
  induction h with
  | here => exact .here
  | @down above p slot slots b h hpath hlt hat ih =>
    have habove : w.Knows above := lt_trans hlt hp
    refine .down (ih habove) ((hkeeps p hp).2.trans hpath) hlt ?_
    rw [hstore, (hkeeps above habove).2]
    exact hat

/-- A path that is taken to what stands in a place of a node below the root. -/
theorem take (h : w.Descends root above slots) (habove : w.Knows above)
    (hat : w.store.ChildAt (w.path above).node slot b) :
    (w.addPath (.ofPlace b above slot)).Descends root w.nextPath (slots ++ [slot]) := by
  have hkeeps := w.keepsPaths_addPath (.ofPlace b above slot)
  refine .down (h.of_keepsPaths habove hkeeps rfl) (w.path_addPath_nextPath _) habove ?_
  rw [(hkeeps above habove).2]
  exact hat

end Descends

end Workspace

namespace Edit

open Workspace

variable {w w₂ : Workspace σ} {root p : PathId} {slot : Slot} {slots : List Slot} {b : Atom}

/-- The dotted path of a place leads to what stands in it, also after nodes have been removed. -/
theorem run_get_place {s : Store} (hnumbered : s.Numbered) (hshrinks : s.ShrinksTo w.store)
    (hat : w.store.ChildAt (w.path p).node slot b) :
    ∃ q w', (get p slot.dotted).run w = .ok (.one q) w' ∧ w.KeepsPaths w' ∧
      w'.path q = .ofPlace b p slot := by
  cases hat with
  | field hname hattr hnode =>
    obtain ⟨hdot, hlegal⟩ := Store.legal_fieldNames hname
    exact ⟨_, _, run_get_field hlegal hdot hattr, w.keepsPaths_addPath _,
      w.path_addPath_nextPath _⟩
  | entry hname hindex hnode =>
    obtain ⟨hdot, hlegal⟩ := Store.legal_fieldNames hname
    obtain ⟨r, -, hattr⟩ := Store.exists_items_of_entries hindex
    obtain ⟨q, w', hrun, -, -, hkeeps, hpath, -, -⟩ := run_get_entry hlegal hdot hattr hindex
      (hnumbered.index_lt hshrinks hindex)
    exact ⟨q, w', hrun, hkeeps, hpath⟩

/-- The address of a path leads to where the path leads. -/
theorem run_get_address (h : w.Descends root p slots) (hne : slots ≠ [])
    (hnumbered : w.store.Numbered) (hclosed : w₂.Closed) (hroot : w₂.Knows root)
    (hstore : w₂.store = w.store) (htrail : w₂.trail root = w.trail root) :
    ∃ q w', (get root (Slot.address slots)).run w₂ = .ok (.one q) w' ∧
      (w'.path q).above ≠ none ∧ w'.trail q = w.trail p := by
  induction h with
  | here => exact absurd rfl hne
  | @down above p slot slots b h hp hlt hat ih =>
    -- the way to the path above
    obtain ⟨q, w₁, hrest, hknown, hclosed₁, hstore₁, habove⟩ : ∃ q w₁,
        (get root (Slot.address (slots ++ [slot]))).run w₂ = (get q slot.dotted).run w₁ ∧
        w₁.Knows q ∧ w₁.Closed ∧ w₁.store = w.store ∧ w₁.trail q = w.trail above := by
      by_cases hslots : slots = []
      · obtain rfl := h.eq_root hslots
        refine ⟨_, w₂, ?_, hroot, hclosed, hstore, htrail⟩
        rw [hslots, List.nil_append, Slot.address_singleton]
      · obtain ⟨q, w₁, hrun, hhangs, hsame⟩ := ih hslots
        have hget : w₂.Steps (fun _ => False) w₁ ∧ w₁.Knows q :=
          (bySteps_get hroot _).of_run_ok hrun
        obtain ⟨hsteps, hknown⟩ := hget
        refine ⟨q, w₁, ?_, hknown, Steps.closed hsteps hclosed,
          (Steps.store_eq hsteps).trans hstore, hsame⟩
        rw [Slot.address_append hslots (List.cons_ne_nil _ _), Slot.address_singleton,
          run_get_append_of_hangs hrun hhangs]
        rfl
    have hat₁ : w₁.store.ChildAt (w₁.path q).node slot b := by
      rwa [hstore₁, node_eq_of_trail_eq habove]
    obtain ⟨q', w', hrun, hkeeps, hpath⟩ := run_get_place hnumbered (by rw [hstore₁]; exact .refl _) hat₁
    refine ⟨q', w', hrest.trans hrun, by rw [hpath]; exact nofun, ?_⟩
    rw [hkeeps.trail_below hclosed₁ hknown hpath rfl, habove, w.trail_eq_below p, hp]
    rfl

end Edit

end NamedExports
