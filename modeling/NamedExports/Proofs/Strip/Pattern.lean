import NamedExports.Export.Strip
import NamedExports.Proofs.Path.Entry
import NamedExports.Proofs.Strip.Filter

/-!
# Stripping one object pattern

The entries of a pattern are looked at by index while entries are taken out of the very list that
is looked at.  The invariant of the loop is that the list consists of the entries that were looked
at and kept, followed by those not yet looked at, and that the index is the number of the former
(`run_properties`).  The outcome is the filtered list (`run_pattern`).

The loop stops with a fault at the first entry whose name cannot be compared, and it does not begin
if the entries are no list, unless they are a text, in which nothing is found.  So an object can be
stripped without a fault exactly if it can be read in this sense (`Store.Legible`).
-/

namespace NamedExports

variable {σ : Type}

/-- An edit succeeds under a condition, and then with an outcome of the given kind; otherwise it ends
with a fault. -/
structure Edit.SucceedsIff (m : Edit σ Unit) (w : Workspace σ) (condition : Prop)
    (outcome : Workspace σ → Prop) : Prop where
  success : condition → ∃ w', m.run w = .ok () w' ∧ outcome w'
  failure : ¬ condition → ∃ fault w', m.run w = .error fault w'

namespace Edit.SucceedsIff

variable {m m₁ m₂ : Edit σ Unit} {w w₁ : Workspace σ} {condition condition' : Prop}
  {outcome outcome' : Workspace σ → Prop}

/-- An edit that goes on as another one does from a later workspace. -/
theorem of_run_eq (h : m₁.SucceedsIff w₁ condition outcome) (hrun : m.run w = m₁.run w₁)
    (himp : ∀ w', outcome w' → outcome' w') : m.SucceedsIff w condition outcome' := by
  refine ⟨?_, ?_⟩
  · intro hcondition
    obtain ⟨w', hrun', houtcome⟩ := h.success hcondition
    exact ⟨w', hrun.trans hrun', himp w' houtcome⟩
  · intro hcondition
    obtain ⟨fault, w', hrun'⟩ := h.failure hcondition
    exact ⟨fault, w', hrun.trans hrun'⟩

/-- An edit that begins as another one does, stops if that one stops, and goes on from each of its
outcomes. -/
theorem seq (h : m₁.SucceedsIff w₁ condition outcome)
    (hstop : ∀ fault w', m₁.run w₁ = .error fault w' → m.run w = .error fault w')
    (hgo : ∀ w', m₁.run w₁ = .ok () w' → outcome w' →
      ∃ m₂ : Edit σ Unit, m.run w = m₂.run w' ∧ m₂.SucceedsIff w' condition' outcome') :
    m.SucceedsIff w (condition ∧ condition') outcome' := by
  by_cases hcondition : condition
  · obtain ⟨w', hrun, houtcome⟩ := h.success hcondition
    obtain ⟨m₂, hrest, h₂⟩ := hgo w' hrun houtcome
    refine ⟨?_, ?_⟩
    · rintro ⟨-, hcondition'⟩
      obtain ⟨w'', hrun', houtcome'⟩ := h₂.success hcondition'
      exact ⟨w'', hrest.trans hrun', houtcome'⟩
    · intro hnot
      obtain ⟨fault, w'', hrun'⟩ := h₂.failure fun hcondition' => hnot ⟨hcondition, hcondition'⟩
      exact ⟨fault, w'', hrest.trans hrun'⟩
  · obtain ⟨fault, w', hrun⟩ := h.failure hcondition
    exact ⟨fun hboth => absurd hboth.1 hcondition, fun _ => ⟨fault, w', hstop fault w' hrun⟩⟩

/-- Whenever the edit succeeds, the condition was met and the outcome is of the given kind. -/
theorem of_ok {w' : Workspace σ} (h : m.SucceedsIff w condition outcome)
    (hrun : m.run w = .ok () w') : condition ∧ outcome w' := by
  by_cases hcondition : condition
  · obtain ⟨w'', hrun', houtcome⟩ := h.success hcondition
    cases hrun.symm.trans hrun'
    exact ⟨hcondition, houtcome⟩
  · obtain ⟨fault, w'', hrun'⟩ := h.failure hcondition
    cases hrun.symm.trans hrun'

end Edit.SucceedsIff

/-- Two changes of one attribute are one change. -/
theorem Obj.mapAttr_mapAttr (o : Obj) (name : String) (f g : Value → Value) :
    (o.mapAttr name f).mapAttr name g = o.mapAttr name fun v => g (f v) := by
  cases o with
  | sequence values => rfl
  | record shape attributes =>
    unfold mapAttr
    dsimp only
    rw [List.map_map]
    refine congrArg (record shape) (List.map_congr_left fun a _ => ?_)
    by_cases h : a.1 = name <;> simp [h]

/-- Changes of an attribute that agree on what it holds are the same, provided that the names of the
attributes differ. -/
theorem Obj.mapAttr_congr {o : Obj} {shape : Shape} {attributes : List (String × Value)}
    {name : String} {v : Value} {f g : Value → Value} (ho : o = record shape attributes)
    (hnodup : (attributes.map Prod.fst).Nodup) (hv : o.attr? name = some v) (hfg : f v = g v) :
    o.mapAttr name f = o.mapAttr name g := by
  subst ho
  unfold mapAttr
  dsimp only
  refine congrArg (record shape) (List.map_congr_left fun a ha => ?_)
  by_cases h : a.1 = name
  · have hlookup : attributes.lookup a.1 = some a.2 := lookup_of_mem hnodup ha
    have hvalue : a.2 = v := by
      rw [h] at hlookup
      exact Option.some.inj (hlookup.symm.trans hv)
    rw [if_pos h, if_pos h, hvalue, hfg]
  · rw [if_neg h, if_neg h]

/-- An object whose attribute is set to what it holds is unchanged. -/
theorem Obj.mapAttr_self {o : Obj} {shape : Shape} {attributes : List (String × Value)}
    {name : String} {v : Value} (ho : o = record shape attributes)
    (hnodup : (attributes.map Prod.fst).Nodup) (hv : o.attr? name = some v) :
    (o.mapAttr name fun _ => v) = o := by
  have hid : (o.mapAttr name fun v => v) = o := by
    subst ho
    simp [mapAttr]
  rw [mapAttr_congr ho hnodup hv (g := fun v => v) rfl, hid]

namespace Store

variable {s s' : Store} {names : List String}

/-- The name that stripping compares for an entry, if it compares one, is a text or null. -/
def Searchable (s : Store) (entry : Atom) : Prop :=
  ∀ value name, s.attr? entry "type" = some (.atom (.str "ObjectProperty")) →
    s.attr? entry "value" = some (.atom value) →
    s.attr? value "type" = some (.atom (.str "Identifier")) →
    s.attr? value "name" = some name → name = .atom .null ∨ ∃ text, name = .atom (.str text)

/-- An object can be stripped: if it is an object pattern, its entries are a list, and the names
that are compared are texts or null. -/
def Strippable (s : Store) (r : Ref) : Prop :=
  ∀ o, s.obj? r = some o → o.isPattern = true →
    ∃ values, o.attr? "properties" = some (.items values) ∧ ∀ entry ∈ values, s.Searchable entry

/-- The name that stripping compares for an entry, if it compares one, is a single value that is no
object. -/
def Comparable (s : Store) (entry : Atom) : Prop :=
  ∀ value name, s.attr? entry "type" = some (.atom (.str "ObjectProperty")) →
    s.attr? entry "value" = some (.atom value) →
    s.attr? value "type" = some (.atom (.str "Identifier")) →
    s.attr? value "name" = some name → ∃ a, name = .atom a ∧ a.refs = []

theorem Searchable.comparable {entry : Atom} (h : s.Searchable entry) : s.Comparable entry := by
  intro value name htype hvalue hid hname
  rcases h value name htype hvalue hid hname with rfl | ⟨text, rfl⟩
  · exact ⟨.null, rfl, rfl⟩
  · exact ⟨.str text, rfl, rfl⟩

/-- An object can be read by stripping: if it is an object pattern, its entries are a text or a list,
and the names that are compared can be. -/
def Legible (s : Store) (r : Ref) : Prop :=
  ∀ o, s.obj? r = some o → o.isPattern = true →
    (∃ text, o.attr? "properties" = some (.atom (.str text))) ∨
    ∃ values, o.attr? "properties" = some (.items values) ∧ ∀ entry ∈ values, s.Comparable entry

theorem Strippable.legible {r : Ref} (h : s.Strippable r) : s.Legible r := by
  intro o ho hpattern
  obtain ⟨values, hvalues, hentries⟩ := h o ho hpattern
  exact Or.inr ⟨values, hvalues, fun entry hentry => (hentries entry hentry).comparable⟩

theorem legible_iff {r : Ref} {o : Obj} (ho : s.obj? r = some o) (hpattern : o.isPattern = true) :
    s.Legible r ↔ (∃ text, o.attr? "properties" = some (.atom (.str text))) ∨
      ∃ values, o.attr? "properties" = some (.items values) ∧
        ∀ entry ∈ values, s.Comparable entry := by
  constructor
  · intro h
    exact h o ho hpattern
  · intro h o' ho' _
    cases ho.symm.trans ho'
    exact h

theorem legible_of_not_isPattern {r : Ref} {o : Obj} (ho : s.obj? r = some o)
    (hpattern : o.isPattern = false) : s.Legible r := by
  intro o' ho' hpattern'
  cases ho.symm.trans ho'
  rw [hpattern] at hpattern'
  cases hpattern'

/-- The entries of an object pattern that can be stripped are written out as a list. -/
theorem Strippable.exists_entries {r : Ref} (h : s.Strippable r)
    (htype : (s.tree (.ref r)).hasType "ObjectPattern" = true) :
    ∃ entries, (s.tree (.ref r)).attr? "properties" = some (.list entries) := by
  rw [hasType_tree] at htype
  rw [attr?_tree]
  cases ho : s.obj? r with
  | none => simp [attr?, ho] at htype
  | some o =>
    rw [attr?_ref ho] at htype ⊢
    obtain ⟨values, hvalues, -⟩ := h o ho htype
    exact ⟨values.map s.tree, by rw [hvalues]; rfl⟩

/-- Two stores differ in the entries of object patterns at most. -/
def AlikeButEntries (s s' : Store) : Prop :=
  ∀ a name, name ≠ "properties" → s'.attr? a name = s.attr? a name

theorem AlikeButEntries.binds_eq (h : s.AlikeButEntries s') (entry : Atom) :
    s'.binds names entry = s.binds names entry := by
  unfold binds
  rw [h entry "type" (by decide), h entry "value" (by decide)]
  cases s.attr? entry "value" with
  | none => rfl
  | some v =>
    cases v with
    | items values => rfl
    | atom value =>
      dsimp only
      rw [h value "type" (by decide), h value "name" (by decide)]

theorem AlikeButEntries.searchable (h : s.AlikeButEntries s') {entry : Atom}
    (hs : s.Searchable entry) : s'.Searchable entry := by
  intro value name htype hvalue hid hname
  rw [h _ _ (by decide)] at htype hvalue hid hname
  exact hs value name htype hvalue hid hname

theorem AlikeButEntries.comparable_iff (h : s.AlikeButEntries s') (entry : Atom) :
    s'.Comparable entry ↔ s.Comparable entry := by
  unfold Comparable
  refine forall_congr' fun value => forall_congr' fun name => ?_
  rw [h entry "type" (by decide), h entry "value" (by decide), h value "type" (by decide),
    h value "name" (by decide)]

theorem AlikeButEntries.stripObj_eq (h : s.AlikeButEntries s') (o : Obj) :
    s'.stripObj names o = s.stripObj names o := by
  unfold stripObj
  simp only [h.binds_eq]

/-- Changing the entries of one object leaves the rest alike. -/
theorem alikeButEntries_of_mapAttr {r : Ref} {o : Obj} {f : Value → Value}
    (ho : s.obj? r = some o) (hr : s'.obj? r = some (o.mapAttr "properties" f))
    (hother : ∀ q, q ≠ r → s'.obj? q = s.obj? q) : s.AlikeButEntries s' := by
  intro a name hname
  cases a with
  | ref q =>
    by_cases hq : q = r
    · subst hq
      rw [attr?_ref hr, attr?_ref ho]
      exact o.attr?_mapAttr_of_ne f hname
    · unfold attr?
      dsimp only
      rw [hother q hq]
  | _ => rfl

/-- Stripping some objects leaves the rest alike. -/
theorem alikeButEntries_stripIn (X : Set Ref) : s.AlikeButEntries (s.stripIn names X) :=
  fun a _ hname => attr?_stripIn_of_ne X a hname

/-- The test of an entry that is no property with an identifier comes to nothing. -/
theorem binds_tree_of_not_identifier (names : List String) {entry : Atom}
    (h : s.attr? entry "type" ≠ some (.atom (.str "ObjectProperty")) ∨
      ∀ value, s.attr? entry "value" = some (.atom value) →
        s.attr? value "type" ≠ some (.atom (.str "Identifier"))) :
    Strip.binds names (s.tree entry) = .ok false ∧ s.binds names entry = false := by
  have hbinds : ((s.tree entry).hasType "ObjectProperty" &&
      ((s.tree entry).get "value").hasType "Identifier") = false := by
    rw [hasType_tree]
    rcases h with htype | hvalue
    · rw [beq_false_of_ne htype, Bool.false_and]
    · unfold Tree.get
      rw [attr?_tree]
      cases hv : s.attr? entry "value" with
      | none => exact Bool.and_false _
      | some v =>
        cases v with
        | items values => exact Bool.and_false _
        | atom value =>
          rw [Option.map_some, Option.getD_some, Value.toTree, hasType_tree,
            beq_false_of_ne (hvalue value hv), Bool.and_false]
  refine ⟨?_, ?_⟩
  · unfold Strip.binds
    dsimp only
    rw [hbinds]
    rfl
  · rw [← bindsAny_tree]
    unfold Tree.bindsAny Tree.isIdentifierNamed
    rw [Bool.and_eq_false_iff] at hbinds
    rcases hbinds with htype | hid
    · rw [htype, Bool.false_and]
    · simp [hid]

/-- The test of a property with an identifier asks for the name of the identifier. -/
theorem binds_tree_of_identifier (names : List String) {entry value : Atom}
    (htype : s.attr? entry "type" = some (.atom (.str "ObjectProperty")))
    (hvalue : s.attr? entry "value" = some (.atom value))
    (hid : s.attr? value "type" = some (.atom (.str "Identifier"))) :
    Strip.binds names (s.tree entry) = Strip.isAmong names ((s.tree value).get "name") ∧
      s.binds names entry = names.any fun name =>
        s.attr? value "name" == some (.atom (.str name)) := by
  have hget : (s.tree entry).get "value" = s.tree value := by
    unfold Tree.get
    rw [attr?_tree, hvalue]
    rfl
  refine ⟨?_, ?_⟩
  · unfold Strip.binds
    dsimp only
    rw [hget, hasType_tree, hasType_tree, htype, hid]
    rfl
  · unfold binds
    rw [htype, hvalue]
    dsimp only
    rw [hid, beq_self_eq_true, beq_self_eq_true, Bool.true_and, Bool.true_and]

/-- The test of an entry comes to an answer if the name can be compared, and the answer is whether the
entry binds one of the names. -/
theorem Comparable.binds_tree {entry : Atom} (h : s.Comparable entry) :
    Strip.binds names (s.tree entry) = .ok (s.binds names entry) := by
  by_cases hidentifier : s.attr? entry "type" = some (.atom (.str "ObjectProperty")) ∧
      ∃ value, s.attr? entry "value" = some (.atom value) ∧
        s.attr? value "type" = some (.atom (.str "Identifier"))
  · obtain ⟨htype, value, hvalue, hid⟩ := hidentifier
    obtain ⟨htest, hbinds⟩ := binds_tree_of_identifier names htype hvalue hid
    rw [htest, hbinds]
    unfold Tree.get
    rw [attr?_tree]
    cases hname : s.attr? value "name" with
    | none => simp [Strip.isAmong]
    | some name =>
      obtain ⟨a, rfl, hrefs⟩ := h value name htype hvalue hid hname
      cases a with
      | ref r => cases hrefs
      | str text =>
        simp only [Option.map_some, Option.getD_some, Value.toTree, tree_str, Strip.isAmong,
          List.contains_eq_any_beq]
        congr 2
        funext name
        rw [Bool.eq_iff_iff, beq_iff_eq, beq_iff_eq, Option.some.injEq, Value.atom.injEq,
          Atom.str.injEq]
      | _ => simp [Strip.isAmong, Value.toTree]
  · have hnot : s.attr? entry "type" ≠ some (.atom (.str "ObjectProperty")) ∨
        ∀ value, s.attr? entry "value" = some (.atom value) →
          s.attr? value "type" ≠ some (.atom (.str "Identifier")) := by
      by_contra hcontra
      push Not at hcontra
      exact hidentifier hcontra
    obtain ⟨htest, hbinds⟩ := binds_tree_of_not_identifier names hnot
    rw [htest, hbinds]

/-- What an attribute refers to is there. -/
theorem exists_obj_of_attr?_ref {a : Atom} {name : String} {r : Ref}
    (h : s.attr? a name = some (.atom (.ref r))) : ∃ o, s.obj? r = some o := by
  obtain ⟨q, o, rfl, ho, hattr⟩ := exists_obj_of_attr? h
  have hr : r ∈ o.refs :=
    Obj.mem_refs.mpr (Obj.atoms_subset_of_attr? hattr (List.mem_singleton_self _))
  have hlt : r.index < s.size := (refs_index_lt ho hr).trans (index_lt_size ho)
  exact ⟨_, Array.getElem?_eq_getElem hlt⟩

/-- If the name cannot be compared, the test of an entry is a fault, and the entry binds nothing. -/
theorem exists_fault_of_not_comparable (names : List String) {entry : Atom}
    (h : ¬ s.Comparable entry) :
    (∃ fault, Strip.binds names (s.tree entry) = .error fault) ∧ s.binds names entry = false := by
  unfold Comparable at h
  push Not at h
  obtain ⟨value, name, htype, hvalue, hid, hname, hnot⟩ := h
  obtain ⟨htest, hbinds⟩ := binds_tree_of_identifier names htype hvalue hid
  have hget : (s.tree value).get "name" = name.toTree s.tree := by
    unfold Tree.get
    rw [attr?_tree, hname]
    rfl
  rw [htest, hbinds, hget, hname]
  cases name with
  | items values => exact ⟨⟨_, rfl⟩, by simp⟩
  | atom a =>
    cases a with
    | ref r =>
      obtain ⟨o, ho⟩ := exists_obj_of_attr?_ref hname
      refine ⟨?_, by simp⟩
      rw [Value.toTree, tree_ref ho]
      cases o with
      | sequence values => exact ⟨_, rfl⟩
      | record shape attributes => exact ⟨_, rfl⟩
    | _ => exact absurd rfl (hnot _ rfl)

/-- What binds a name is an object. -/
theorem ne_null_of_binds {entry : Atom} (h : s.binds names entry = true) : entry ≠ .null := by
  rintro rfl
  simp [binds, attr?] at h

/-- An object without a list of entries is stripped of nothing. -/
theorem stripObj_of_no_list (hs : s.WellFormed) {r : Ref} {o : Obj} (ho : s.obj? r = some o)
    (hnode : s.isNode (.ref r) = true)
    (hlist : ∀ values, o.attr? "properties" ≠ some (.items values)) : s.stripObj names o = o := by
  obtain ⟨shape, attributes, rfl, hnodup⟩ := hs.exists_attributes ho hnode
  unfold stripObj
  split
  · cases hv : (Obj.record shape attributes).attr? "properties" with
    | none =>
      refine congrArg (Obj.record shape) ((List.map_congr_left fun a ha => ?_).trans (List.map_id _))
      have hname : a.1 ≠ "properties" := by
        rintro hname
        have hlookup : attributes.lookup a.1 = some a.2 := lookup_of_mem hnodup ha
        rw [hname] at hlookup
        exact absurd (hv.symm.trans hlookup) nofun
      simp [hname]
    | some v =>
      cases v with
      | items values => exact absurd hv (hlist values)
      | atom a =>
        rw [Obj.mapAttr_congr (g := fun _ => .atom a) rfl hnodup hv rfl]
        exact Obj.mapAttr_self rfl hnodup hv
  · rfl

end Store

namespace Strip

variable {names : List String} {p : PathId} {r : Ref} {o : Obj} {s : Store}

/-- The loop has come to some place in the entries of an object: the entries before it are those that
were kept, the entries from it on are the rest of the list, and all other objects are as they were. -/
structure At (s : Store) (p : PathId) (r : Ref) (o : Obj) (kept rest : List Atom)
    (w : Workspace σ) : Prop where
  object : s.obj? r = some o
  isSome : (o.attr? "properties").isSome = true
  node : (w.path p).node = .ref r
  other : ∀ q, q ≠ r → w.store.obj? q = s.obj? q
  entries : w.store.obj? r = some (o.mapAttr "properties" fun _ => .items (kept ++ rest))

section Loop

variable {kept rest : List Atom} {entry : Atom} {steps : ℕ} {w : Workspace σ}

theorem At.attr? (h : At s p r o kept rest w) :
    w.store.attr? (w.path p).node "properties" = some (.items (kept ++ rest)) := by
  obtain ⟨v, hv⟩ := Option.isSome_iff_exists.mp h.isSome
  rw [h.node, Store.attr?_ref h.entries, Obj.attr?_mapAttr_self, hv, Option.map_some]

theorem At.alike (h : At s p r o kept rest w) : s.AlikeButEntries w.store :=
  Store.alikeButEntries_of_mapAttr h.object h.entries h.other

theorem At.binds_tree (h : At s p r o kept rest w) (hentry : s.Comparable entry) :
    binds names (w.store.tree entry) = .ok (s.binds names entry) := by
  rw [((h.alike.comparable_iff entry).mpr hentry).binds_tree, h.alike.binds_eq]

/-- At the end of the list the loop is done. -/
theorem run_properties_end (steps : ℕ) (h : At s p r o kept [] w) :
    (properties names p steps kept.length).run w = .ok () w := by
  cases steps with
  | zero => rfl
  | succ steps =>
    have hattr : w.store.attr? (w.path p).node "properties" = some (.items kept) := by
      rw [h.attr?, List.append_nil]
    have hend : kept[kept.length]? = none := List.getElem?_eq_none le_rfl
    unfold properties
    simp only [EStateM.run_bind, Edit.run_path, Edit.run_store, Store.entries_of_attr? hattr,
      hend, EStateM.run_pure]

/-- An entry that binds none of the names joins the kept ones, and the loop goes on after it. -/
theorem run_properties_keep (steps : ℕ) (h : At s p r o kept (entry :: rest) w)
    (hentry : s.Comparable entry) (hbinds : s.binds names entry = false) :
    (properties names p (steps + 1) kept.length).run w =
        (properties names p steps (kept ++ [entry]).length).run w ∧
      At s p r o (kept ++ [entry]) rest w := by
  have hat : (kept ++ entry :: rest)[kept.length]? = some entry := by simp
  have htree : binds names (w.store.tree entry) = .ok (s.binds names entry) :=
    h.binds_tree hentry
  refine ⟨?_, h.object, h.isSome, h.node, h.other, ?_⟩
  · conv_lhs => unfold properties
    simp only [EStateM.run_bind, Edit.run_path, Edit.run_store, Store.entries_of_attr? h.attr?, hat,
      htree, hbinds, Edit.run_ofExcept_ok, Bool.false_eq_true, if_false, List.length_append,
      List.length_singleton]
  · rw [h.entries, List.append_assoc, List.singleton_append]

/-- An entry that binds one of the names is taken out, and the next one has moved to its index. -/
theorem run_properties_drop (steps : ℕ) (h : At s p r o kept (entry :: rest) w)
    (hentry : s.Comparable entry) (hbinds : s.binds names entry = true)
    (hbound : kept.length < 10 ^ Text.maxDigits) :
    ∃ w', (properties names p (steps + 1) kept.length).run w =
        (properties names p steps kept.length).run w' ∧
      At s p r o kept rest w' ∧ w.KeepsPaths w' ∧ w'.notes = w.notes := by
  have hat : (kept ++ entry :: rest)[kept.length]? = some entry := by simp
  have htree : binds names (w.store.tree entry) = .ok (s.binds names entry) :=
    h.binds_tree hentry
  obtain ⟨q, w₁, hget, hstore, hnotes, hkeeps, hq, -, hnew⟩ :=
    Edit.run_get_entry (w := w) (p := p) (by decide +kernel) (by decide) h.attr? hat hbound
  have hp : w.Knows p := Workspace.knows_of_node_ne (by rw [h.node]; simp)
  have hnode : (w₁.path p).node = .ref r := by rw [(hkeeps p hp).2, h.node]
  have hat₁ : (w₁.store.entries (.ref r) "properties")[kept.length]? = some entry := by
    rw [hstore, ← h.node, Store.entries_of_attr? h.attr?]
    exact hat
  have hremove := Edit.run_remove_entry hq hnode (Store.ne_null_of_binds hbinds) hat₁
  set w' := (w₁.setStore (w₁.store.eraseEntry r "properties" kept.length)).setPath q
    { Path.ofEntry entry p "properties" kept.length with removed := true } with hw'
  have hkeeps' : w.KeepsPaths w' := (hkeeps.trans (w₁.keepsPaths_setStore _)).setPath hnew _
  have hstore' : w'.store = w.store.eraseEntry r "properties" kept.length := by
    rw [hw', Workspace.store_setPath, Workspace.store_setStore, hstore]
  -- the list closes up, and the index that was that of the entry is that of the next one
  have hat' : At s p r o kept rest w' :=
    { object := h.object
      isSome := h.isSome
      node := by rw [(hkeeps' p hp).2, h.node]
      other := fun t ht => by
        rw [hstore', Store.eraseEntry, Store.obj?_modify_of_ne ht, h.other t ht]
      entries := by
        rw [hstore', Store.eraseEntry, Store.obj?_modify_self, h.entries, Option.map_some,
          Obj.eraseEntry, Obj.mapAttr_mapAttr]
        simp [Value.eraseIdx, List.eraseIdx_append_of_length_le] }
  refine ⟨w', ?_, hat', hkeeps', ?_⟩
  · conv_lhs => unfold properties
    simp only [EStateM.run_bind, Edit.run_path, Edit.run_store, Store.entries_of_attr? h.attr?, hat,
      htree, hbinds, Edit.run_ofExcept_ok, if_true, Text.properties_entry, hget, hremove]
  · rw [hw', Workspace.notes_setPath, Workspace.notes_setStore, hnotes]

/-- At an entry whose name cannot be compared the loop stops. -/
theorem run_properties_stop (names : List String) (steps : ℕ)
    (h : At s p r o kept (entry :: rest) w) (hentry : ¬ s.Comparable entry) :
    ∃ fault, (properties names p (steps + 1) kept.length).run w = .error fault w := by
  have hat : (kept ++ entry :: rest)[kept.length]? = some entry := by simp
  obtain ⟨⟨fault, htree⟩, -⟩ := Store.exists_fault_of_not_comparable names
    fun hcomparable => hentry ((h.alike.comparable_iff entry).mp hcomparable)
  refine ⟨fault, ?_⟩
  unfold properties
  simp only [EStateM.run_bind, Edit.run_path, Edit.run_store, Store.entries_of_attr? h.attr?, hat,
    htree, Edit.run_ofExcept_error]

/-- From the number of kept entries on, the loop drops what binds one of the names from the rest of
the list and changes nothing else, provided that all names can be compared. -/
theorem run_properties (names : List String) (h : At s p r o kept rest w)
    (hsteps : rest.length ≤ steps) (hshort : (kept ++ rest).length ≤ 10 ^ Text.maxDigits) :
    (properties names p steps kept.length).SucceedsIff w (∀ entry ∈ rest, s.Comparable entry)
      fun w' => At s p r o (kept ++ rest.filter fun entry => !s.binds names entry) [] w' ∧
        w.KeepsPaths w' ∧ w'.notes = w.notes := by
  -- the index is the number of entries that were kept, so it stands at the head of the rest
  induction rest generalizing kept steps w with
  | nil =>
    refine ⟨fun _ => ⟨w, run_properties_end steps h, by simpa using h, .refl w, rfl⟩, ?_⟩
    intro hnot
    exact absurd (by simp) hnot
  | cons entry rest ih =>
    obtain ⟨steps, rfl⟩ : ∃ n, steps = n + 1 :=
      Nat.exists_eq_succ_of_ne_zero (by simp at hsteps; omega)
    have hrest : rest.length ≤ steps := by simpa using hsteps
    have hlength : (kept ++ entry :: rest).length = kept.length + rest.length + 1 := by
      simp [Nat.add_assoc]
    rw [List.forall_mem_cons]
    by_cases hentry : s.Comparable entry
    · rw [and_iff_right hentry]
      cases hbinds : s.binds names entry with
      | false =>
        obtain ⟨hstep, hat⟩ := run_properties_keep steps h hentry hbinds
        rw [List.filter_cons_of_pos (by simp [hbinds])]
        refine (ih hat hrest (by simpa using hshort)).of_run_eq hstep ?_
        rintro w' ⟨hat', hkeeps, hnotes⟩
        exact ⟨by simpa using hat', hkeeps, hnotes⟩
      | true =>
        obtain ⟨w₁, hstep, hat, hkeeps₁, hnotes₁⟩ :=
          run_properties_drop steps h hentry hbinds (by omega)
        rw [List.filter_cons_of_neg (by simp [hbinds])]
        refine (ih hat hrest (by rw [List.length_append]; omega)).of_run_eq hstep ?_
        rintro w' ⟨hat', hkeeps, hnotes⟩
        exact ⟨hat', hkeeps₁.trans hkeeps, hnotes.trans hnotes₁⟩
    · obtain ⟨fault, hstop⟩ := run_properties_stop names steps h hentry
      exact ⟨fun hboth => absurd hboth.1 hentry, fun _ => ⟨fault, w, hstop⟩⟩

end Loop

/-- A single value that is no text has no length. -/
theorem exists_fault_length {a : Atom} (hlist : s.isSequence a = false)
    (htext : ∀ text, a ≠ .str text) : ∃ fault, (s.tree a).length = .error fault := by
  cases ht : s.tree a with
  | list ts => exact absurd ht (Store.tree_ne_list hlist ts)
  | str text => exact absurd (Store.eq_str_of_tree ht) (htext text)
  | _ => exact ⟨_, rfl⟩

/-- The number of entries of an object. -/
theorem read_properties_length {w : Workspace σ} (ho : w.store.obj? r = some o) :
    ((w.store.tree (.ref r)).read "properties" >>= Tree.length) =
      match o.attr? "properties" with
      | some v => (v.toTree w.store.tree).length
      | none => .error (.noAttribute (w.store.tree (.ref r)).owner "properties") := by
  unfold Tree.read
  rw [Store.attr?_tree, Store.attr?_ref ho]
  cases o.attr? "properties" <;> rfl

section Hook

variable {w : Workspace σ}

/-- The hook is the loop over as many entries as there are. -/
theorem run_pattern_go (hnode : (w.path p).node = .ref r) {count : ℕ}
    (hcount : ((w.store.tree (.ref r)).read "properties" >>= Tree.length) = .ok count) :
    (pattern names p).run w = (properties names p count 0).run w := by
  unfold pattern
  simp only [EStateM.run_bind, Edit.run_store, Edit.run_path, hnode, hcount, Edit.run_ofExcept_ok]

/-- The hook stops if there is no number of entries. -/
theorem run_pattern_stop (hnode : (w.path p).node = .ref r) {fault : Fault}
    (hfault : ((w.store.tree (.ref r)).read "properties" >>= Tree.length) = .error fault) :
    (pattern names p).run w = .error fault w := by
  unfold pattern
  simp only [EStateM.run_bind, Edit.run_store, Edit.run_path, hnode, hfault,
    Edit.run_ofExcept_error]

/-- In a single value there are no entries to look at. -/
theorem run_properties_atom (names : List String) {a : Atom} (count : ℕ)
    (hattr : w.store.attr? (w.path p).node "properties" = some (.atom a)) :
    (properties names p count 0).run w = .ok () w := by
  have hnone : w.store.entries (w.path p).node "properties" = [] := by
    unfold Store.entries
    rw [hattr]
  cases count with
  | zero => rfl
  | succ steps =>
    unfold properties
    simp only [EStateM.run_bind, Edit.run_path, Edit.run_store, hnone, List.getElem?_nil,
      EStateM.run_pure]

/-- The entries of one object have been filtered, and nothing else has changed. -/
def Filtered (names : List String) (w : Workspace σ) (r : Ref) (o : Obj) (w' : Workspace σ) : Prop :=
  (∀ q, q ≠ r → w'.store.obj? q = w.store.obj? q) ∧
    w'.store.obj? r = some (w.store.stripObj names o) ∧ w.KeepsPaths w' ∧ w'.notes = w.notes

/-- A pattern without entries cannot be read, and the hook stops at it. -/
theorem run_pattern_missing (names : List String) (hnode : (w.path p).node = .ref r)
    (ho : w.store.obj? r = some o) (hpattern : o.isPattern = true)
    (hv : o.attr? "properties" = none) :
    (pattern names p).SucceedsIff w (w.store.Legible r) (Filtered names w r o) := by
  have hread := read_properties_length ho
  rw [hv] at hread
  refine ⟨fun h => ?_, fun _ => ⟨_, w, run_pattern_stop hnode hread⟩⟩
  rcases (Store.legible_iff ho hpattern).mp h with ⟨text, htext⟩ | ⟨values, hvalues, -⟩
  · cases hv.symm.trans htext
  · cases hv.symm.trans hvalues

/-- Over a list of entries the hook runs its loop. -/
theorem run_pattern_items (names : List String) (hwf : w.store.WellFormed)
    (hnode : (w.path p).node = .ref r) (hlive : w.store.isNode (.ref r) = true)
    (ho : w.store.obj? r = some o) (hpattern : o.isPattern = true) {values : List Atom}
    (hv : o.attr? "properties" = some (.items values)) :
    (pattern names p).SucceedsIff w (w.store.Legible r) (Filtered names w r o) := by
  obtain ⟨shape, attributes, hrecord, hnodup⟩ := hwf.exists_attributes ho hlive
  have hread := read_properties_length ho
  rw [hv] at hread
  have hcount : ((w.store.tree (.ref r)).read "properties" >>= Tree.length) = .ok values.length := by
    rw [hread]
    simp [Value.toTree, Tree.length]
  have hcondition : w.store.Legible r ↔ ∀ entry ∈ values, w.store.Comparable entry := by
    rw [Store.legible_iff ho hpattern, hv]
    simp
  have hstart : At w.store p r o [] values w :=
    { object := ho
      isSome := by rw [hv]; rfl
      node := hnode
      other := fun _ _ => rfl
      entries := by rw [List.nil_append, Obj.mapAttr_self hrecord hnodup hv, ho] }
  rw [hcondition]
  refine (run_properties names hstart le_rfl
    (hwf.length_le ((Store.attr?_ref ho _).trans hv))).of_run_eq (run_pattern_go hnode hcount) ?_
  rintro w' ⟨hend, hkeeps, hnotes⟩
  refine ⟨hend.other, ?_, hkeeps, hnotes⟩
  have hstripObj : w.store.stripObj names o =
      o.mapAttr "properties" (·.filter fun entry => !w.store.binds names entry) := if_pos hpattern
  rw [hend.entries, hstripObj, List.nil_append, List.append_nil]
  exact congrArg some (Obj.mapAttr_congr hrecord hnodup hv rfl)

/-- In a text there is nothing to filter, and no other single value has a length. -/
theorem run_pattern_atom (names : List String) (hwf : w.store.WellFormed)
    (hnode : (w.path p).node = .ref r) (hlive : w.store.isNode (.ref r) = true)
    (ho : w.store.obj? r = some o) (hpattern : o.isPattern = true) {a : Atom}
    (hv : o.attr? "properties" = some (.atom a)) :
    (pattern names p).SucceedsIff w (w.store.Legible r) (Filtered names w r o) := by
  have hread := read_properties_length ho
  rw [hv] at hread
  have hcondition : w.store.Legible r ↔ ∃ text, a = .str text := by
    rw [Store.legible_iff ho hpattern, hv]
    simp
  rw [hcondition]
  constructor
  · rintro ⟨text, rfl⟩
    have hcount : ((w.store.tree (.ref r)).read "properties" >>= Tree.length) = .ok text.length := by
      rw [hread]
      simp [Value.toTree, Tree.length]
    have hend := run_properties_atom names text.length
      (by rw [hnode]; exact (Store.attr?_ref ho _).trans hv)
    have hsame : w.store.stripObj names o = o :=
      Store.stripObj_of_no_list hwf ho hlive (by simp [hv])
    exact ⟨w, (run_pattern_go hnode hcount).trans hend, fun _ _ => rfl, by rw [hsame, ho], .refl w,
      rfl⟩
  · intro htext
    push Not at htext
    obtain ⟨fault, hfault⟩ := exists_fault_length (hwf.isSequence_eq_false ho hv) htext
    exact ⟨fault, w, run_pattern_stop hnode (hread.trans hfault)⟩

/-- The hook of an object pattern filters the entries of the pattern, provided that the pattern can be
read. -/
theorem run_pattern (names : List String) (hwf : w.store.WellFormed)
    (hnode : (w.path p).node = .ref r) (hlive : w.store.isNode (.ref r) = true)
    (ho : w.store.obj? r = some o) (hpattern : o.isPattern = true) :
    (pattern names p).SucceedsIff w (w.store.Legible r) (Filtered names w r o) := by
  cases hv : o.attr? "properties" with
  | none => exact run_pattern_missing names hnode ho hpattern hv
  | some v =>
    cases v with
    | items values => exact run_pattern_items names hwf hnode hlive ho hpattern hv
    | atom a => exact run_pattern_atom names hwf hnode hlive ho hpattern hv

end Hook

end Strip

end NamedExports
