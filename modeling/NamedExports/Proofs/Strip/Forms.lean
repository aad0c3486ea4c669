import NamedExports.Proofs.Export.Readable
import NamedExports.Proofs.Strip.Nodes
import NamedExports.Proofs.Strip.Repeat

/-!
# What stripping does to the forms of exports

A named export that is stripped exports the same functions, the same variables declared by name and
the same specifiers as before.  What it takes out of a value may change: of the first declarator
only the first property counts, and when properties go another one comes first.  So the export takes
a name out of a value afterwards exactly if the first property that stays binds this name
(`Tree.OfNodes.exportsDestructured_stripBelow_iff`).

In a program that is made of nodes this holds of all named exports at once
(`Program.Strippable.strip_forms`).  An object that is no node can look like a declaration, but
stripping does not look into it.
-/

namespace NamedExports

namespace Tree

variable {names : List String} {name type : String} {drop : Bool} {t u : Tree}

/-! ### First entries -/

/-- The first entry of a stripped field is the first entry of the field, stripped. -/
theorem firstEntry_stripField (names : List String) (t : Tree) :
    (stripField names false t).firstEntry = t.firstEntry.map (strip names) := by
  cases t with
  | list items =>
    rw [stripField_list]
    cases items <;> rfl
  | node shape attributes => rfl
  | null => rfl
  | bool value => cases value <;> rfl
  | int value =>
    show (int value).firstEntry = _
    unfold firstEntry
    split <;> rfl
  | str value =>
    show (str value).firstEntry = _
    unfold firstEntry
    split <;> rfl

theorem entries_stripField (names : List String) (t : Tree) :
    (stripField names false t).entries = t.entries.map (List.map (strip names)) := by
  cases t with
  | list items =>
    rw [stripField_list, Syntax.entries_list, Syntax.entries_list]
    rfl
  | node shape attributes => rfl
  | null => rfl
  | bool value => cases value <;> rfl
  | int value =>
    show (int value).entries = _
    unfold entries
    split <;> rfl
  | str value =>
    show (str value).entries = _
    unfold entries
    split
    · rfl
    · refine congrArg Except.ok ?_
      rw [List.map_map]
      rfl

/-! ### The forms, one by one -/

/-- What the first declarator of a stripped statement binds is stripped. -/
theorem OfNodes.firstBinding_stripBelow (h : t.OfNodes) :
    (t.stripBelow names).firstBinding = t.firstBinding.map (stripField names false) := by
  unfold firstBinding
  rw [h.get_stripBelow (by decide)]
  dsimp only
  rw [hasType_stripField, (h.get "declaration").get_stripField (by decide), firstEntry_stripField]
  cases (t.get "declaration").hasType "VariableDeclaration" with
  | false => rfl
  | true =>
    rw [if_pos rfl, if_pos rfl]
    cases hfirst : ((t.get "declaration").get "declarations").firstEntry with
    | error fault => rfl
    | ok declarator =>
      show Except.ok (if (declarator.strip names).hasType "VariableDeclarator" then
          (declarator.strip names).get "id" else .null) = Except.ok (stripField names false
            (if declarator.hasType "VariableDeclarator" then declarator.get "id" else .null))
      rw [hasType_strip]
      split
      next htype =>
        obtain ⟨others, hlist⟩ := (firstEntry_eq_ok htype).mp hfirst
        have hdeclarator : declarator.OfNodes := ((h.get _).get _).of_eq_cons hlist
        rw [hdeclarator.get_strip (by decide)]
      next => rfl

theorem OfNodes.firstBinding_stripBelow_of_ok (h : t.OfNodes) (names : List String)
    (hfirst : t.firstBinding = .ok u) :
    (t.stripBelow names).firstBinding = .ok (stripField names false u) := by
  rw [h.firstBinding_stripBelow, hfirst]
  rfl

theorem OfNodes.exportsFunction_stripBelow (h : t.OfNodes) (name : String) :
    (t.stripBelow names).exportsFunction name = t.exportsFunction name := by
  unfold exportsFunction
  rw [h.get_stripBelow (by decide)]
  dsimp only
  rw [hasType_stripField, (h.get "declaration").get_stripField (by decide), isText_get_stripField]

theorem OfNodes.exportsVariable_stripBelow (h : t.OfNodes) (name : String) :
    (t.stripBelow names).exportsVariable name = t.exportsVariable name := by
  unfold exportsVariable
  rw [h.firstBinding_stripBelow]
  cases t.firstBinding with
  | error fault => rfl
  | ok binding => exact congrArg Except.ok (isIdentifierNamed_stripField name)

theorem OfNodes.exportsSpecifier_stripBelow (h : t.OfNodes) (name : String) :
    (t.stripBelow names).exportsSpecifier name = t.exportsSpecifier name := by
  unfold exportsSpecifier
  rw [h.get_stripBelow (by decide), entries_stripField]
  cases (t.get "specifiers").entries with
  | error fault => rfl
  | ok specifiers =>
    refine congrArg Except.ok ?_
    rw [List.any_map]
    refine congrArg (specifiers.any ·) (funext fun specifier => ?_)
    rw [Function.comp_apply, hasType_strip, isIdentifierNamed_get_strip]

/-- A stripped statement exports the same names in all forms but the destructured one. -/
theorem OfNodes.exportsAs_stripBelow (h : t.OfNodes) (name : String) {form : Form}
    (hform : form ≠ .destructured) :
    (t.stripBelow names).exportsAs name form = t.exportsAs name form := by
  cases form with
  | function => exact congrArg Except.ok (h.exportsFunction_stripBelow name)
  | declared => exact h.exportsVariable_stripBelow name
  | destructured => exact absurd rfl hform
  | specifier => exact h.exportsSpecifier_stripBelow name

/-! ### What is destructured -/

theorem bindsAny_singleton (entry : Tree) (name : String) : entry.bindsAny [name] =
    (entry.hasType "ObjectProperty" && (entry.get "value").isIdentifierNamed name) := by
  simp [bindsAny]

/-- The first property of a statement that does not go when some names are stripped binds the given
name.  The statement declares variables, and its first declarator binds an object pattern. -/
def Exposes (names : List String) (statement : Tree) (name : String) : Prop :=
  ∃ declarator others entries entry,
    (statement.get "declaration").hasType "VariableDeclaration" = true ∧
    (statement.get "declaration").get "declarations" = list (declarator :: others) ∧
    declarator.hasType "VariableDeclarator" = true ∧
    (declarator.get "id").hasType "ObjectPattern" = true ∧
    (declarator.get "id").get "properties" = list entries ∧
    entries.find? (fun e => !e.bindsAny names) = some entry ∧
    entry.hasType "ObjectProperty" = true ∧ (entry.get "value").isIdentifierNamed name = true

/-- What is exposed when some names are stripped is none of them. -/
theorem Exposes.not_mem (h : t.Exposes names name) : name ∉ names := by
  obtain ⟨-, -, entries, entry, -, -, -, -, -, hfind, htype, hvalue⟩ := h
  intro hname
  have hbinds : entry.bindsAny names = true :=
    (Bool.and_eq_true _ _).mpr ⟨htype, List.any_eq_true.mpr ⟨name, hname, hvalue⟩⟩
  have hstays := List.find?_some hfind
  rw [hbinds] at hstays
  cases hstays

/-- Whether a statement that binds an object pattern first takes a name out of a value. -/
theorem exportsDestructured_of_pattern {entries : List Tree} (hfirst : t.firstBinding = .ok u)
    (htype : u.hasType "ObjectPattern" = true) (hentries : u.get "properties" = list entries) :
    t.exportsDestructured name = .ok (entries.head?.any (·.bindsAny [name])) := by
  unfold exportsDestructured
  rw [hfirst]
  show (if u.hasType "ObjectPattern" = true then _ else _) = _
  rw [if_pos htype, hentries, Syntax.firstEntry_list]
  refine congrArg Except.ok ?_
  cases entries with
  | nil => rfl
  | cons e es => simp [bindsAny]

theorem exportsDestructured_of_other (hfirst : t.firstBinding = .ok u)
    (htype : u.hasType "ObjectPattern" = false) : t.exportsDestructured name = .ok false := by
  unfold exportsDestructured
  rw [hfirst]
  show (if u.hasType "ObjectPattern" = true then _ else _) = _
  rw [htype]
  rfl

theorem OfNodes.of_firstBinding (h : t.OfNodes) (hfirst : t.firstBinding = .ok u)
    (htype : u.hasType type = true) : u.OfNodes := by
  obtain ⟨declarator, others, -, hlist, -, rfl⟩ := (firstBinding_eq_ok htype).mp hfirst
  have hdeclarator : declarator.OfNodes := ((h.get _).get _).of_eq_cons hlist
  exact hdeclarator.get "id"

/-- A stripped statement that binds an object pattern first takes the name out of a value that the
first property that stays binds. -/
theorem OfNodes.exportsDestructured_stripBelow_pattern (h : t.OfNodes) {entries : List Tree}
    (hfirst : t.firstBinding = .ok u) (htype : u.hasType "ObjectPattern" = true)
    (hentries : u.get "properties" = Tree.list entries) :
    (t.stripBelow names).exportsDestructured name =
      .ok ((entries.find? fun e => !e.bindsAny names).any (·.bindsAny [name])) := by
  have hfirst' := h.firstBinding_stripBelow_of_ok names hfirst
  have hentries' : (stripField names false u).get "properties" =
      Tree.list ((entries.filter fun e => !e.bindsAny names).map (strip names)) := by
    rw [(h.of_firstBinding hfirst htype).get_properties_stripField htype, hentries]
    exact congrArg Tree.list (stripEntries_eq names true entries)
  rw [exportsDestructured_of_pattern hfirst' ((hasType_stripField _).trans htype) hentries',
    List.head?_map, List.head?_filter, Option.any_map]
  simp only [bindsAny_strip]

theorem OfNodes.exportsDestructured_stripBelow_other (h : t.OfNodes)
    (hfirst : t.firstBinding = .ok u) (htype : u.hasType "ObjectPattern" = false) :
    (t.stripBelow names).exportsDestructured name = .ok false := by
  have hfirst' := h.firstBinding_stripBelow_of_ok names hfirst
  exact exportsDestructured_of_other hfirst' ((hasType_stripField _).trans htype)

/-- A stripped statement takes a name out of a value exactly if the first property that stays binds
this name. -/
theorem OfNodes.exportsDestructured_stripBelow_iff (h : t.OfNodes) :
    (t.stripBelow names).exportsDestructured name = .ok true ↔ t.Exposes names name := by
  constructor
  · intro hname
    cases hfirst : t.firstBinding with
    | error fault =>
      unfold exportsDestructured at hname
      rw [h.firstBinding_stripBelow, hfirst] at hname
      cases hname
    | ok u =>
      cases htype : u.hasType "ObjectPattern" with
      | false =>
        rw [h.exportsDestructured_stripBelow_other hfirst htype] at hname
        cases hname
      | true =>
        obtain ⟨entries, hentries⟩ := (h.of_firstBinding hfirst htype).exists_entries htype
        rw [h.exportsDestructured_stripBelow_pattern hfirst htype hentries, Except.ok.injEq,
          Option.any_eq_true] at hname
        obtain ⟨entry, hfind, hbinds⟩ := hname
        obtain ⟨declarator, others, hdeclaration, hlist, hdeclarator, rfl⟩ :=
          (firstBinding_eq_ok htype).mp hfirst
        rw [bindsAny_singleton, Bool.and_eq_true] at hbinds
        exact ⟨declarator, others, entries, entry, hdeclaration, hlist, hdeclarator, htype, hentries,
          hfind, hbinds⟩
  · rintro ⟨declarator, others, entries, entry, hdeclaration, hlist, hdeclarator, htype, hentries,
      hfind, hbinds⟩
    have hfirst := (firstBinding_eq_ok htype).mpr
      ⟨declarator, others, hdeclaration, hlist, hdeclarator, rfl⟩
    rw [h.exportsDestructured_stripBelow_pattern hfirst htype hentries, hfind, Option.any_some,
      bindsAny_singleton, (Bool.and_eq_true _ _).mpr hbinds]

/-- A statement that could be asked whether it takes a name out of a value can be asked when it is
stripped. -/
theorem OfNodes.exists_exportsDestructured_stripBelow (h : t.OfNodes) (names : List String)
    {b : Bool} (hb : t.exportsDestructured name = .ok b) :
    ∃ b', (t.stripBelow names).exportsDestructured name = .ok b' := by
  obtain ⟨u, hfirst, -⟩ := Built.bind_eq_ok.mp hb
  cases htype : u.hasType "ObjectPattern" with
  | false => exact ⟨_, h.exportsDestructured_stripBelow_other hfirst htype⟩
  | true =>
    obtain ⟨entries, hentries⟩ := (h.of_firstBinding hfirst htype).exists_entries htype
    exact ⟨_, h.exportsDestructured_stripBelow_pattern hfirst htype hentries⟩

/-! ### The form that is found -/

/-- A name that a statement does not export is not exported by the stripped statement, or taken out
of a value. -/
theorem OfNodes.exportForm?_stripBelow_of_none (h : t.OfNodes)
    (hnone : t.exportForm? name = .ok none) :
    (t.stripBelow names).exportForm? name = .ok none ∨
      (t.stripBelow names).exportForm? name = .ok (some .destructured) := by
  have hforms := exportForm?_eq_none_iff.mp hnone
  obtain ⟨b, hb⟩ := h.exists_exportsDestructured_stripBelow names (hforms .destructured)
  have hother : ∀ form ≠ .destructured,
      (t.stripBelow names).exportsAs name form = .ok false := fun form hform =>
    (h.exportsAs_stripBelow name hform).trans (hforms form)
  have hfunction : (t.stripBelow names).exportsFunction name = false :=
    Except.ok.inj (hother .function (by decide))
  rw [Syntax.exportForm?_eq (hother .declared (by decide)) hb (hother .specifier (by decide)),
    hfunction]
  cases b with
  | true => exact Or.inr rfl
  | false => exact Or.inl rfl

/-- What is found in a program is exported by one of its named exports. -/
theorem exists_exportsAs_of_matchesOf {found : List Match} {m : Match}
    (h : t.matchesOf name = .ok found) (hm : m ∈ found) :
    ∃ statement ∈ t.namedExports, statement.exportsAs name m.form = .ok true := by
  obtain ⟨statement, hstatement, hform, -⟩ := exists_of_mem_matchesOf h hm
  exact ⟨statement, hstatement, (exportForm?_eq_some_iff.mp hform).1⟩

end Tree

/-! ### Stripped programs -/

namespace Program

variable {p : Program}

/-- A program of which every object is a node. -/
def MadeOfNodes (p : Program) : Prop :=
  ∀ q ∈ p.store.region p.root, p.store.shape? (.ref q) ≠ some .loose

/-- The statements of a program made of nodes that can be stripped are made of nodes. -/
theorem Strippable.ofNodes (hp : p.Strippable) (hnodes : p.MadeOfNodes) :
    ∀ a ∈ p.body, (p.store.tree a).OfNodes := by
  obtain ⟨r, attributes, hroot, ho, -, hlookup⟩ := hp.exists_record
  intro a ha
  have hsub : p.store.region a ⊆ p.store.region p.root := by
    rw [hroot]
    have hbody : (Obj.record (.modelled .program) attributes).attr? "body" = some (.items p.body) :=
      hlookup
    exact Store.region_subset ho (Obj.atoms_subset_of_attr? hbody ha)
  exact Store.ofNodes_tree hp.wellFormed (fun q hq => hnodes q (hsub hq))
    fun q hq => hp.patterns q (hsub hq)

end Program

theorem Module.madeOfNodes_program {m : Module} {p : Program} (hp : m.program = .ok p)
    (hm : m.root.Everywhere Syntax.Ordinary) : p.MadeOfNodes := by
  obtain ⟨statements, hintact⟩ := exists_intact_program hp hm
  exact Store.ne_loose_of_regular hintact.sound.wellBuilt.isRegularNode.1

namespace Program

variable {p : Program}

/-- What stripping does to the forms of exports.  Stripping a program that can be stripped and is
made of nodes succeeds.  Each of its named exports exports the same names as before as a function, as
a variable declared by name and by a specifier.  It takes exactly the name out of a value that was
bound by the first property of its first declarator that stays.  A name that it did not export it
exports afterwards in this form, if at all.  None of the names that were stripped is found to be
taken out of a value any more. -/
theorem Strippable.strip_forms (hp : p.Strippable) (hnodes : p.MadeOfNodes) (names : List String) :
    ∃ removed p', p.strip names = (.ok removed, p') ∧ p'.body = p.body ∧
      (∀ a ∈ p.body, (p.store.tree a).hasType Tree.namedExportType = true →
        (∀ name form, form ≠ .destructured →
          (p'.store.tree a).exportsAs name form = (p.store.tree a).exportsAs name form) ∧
        (∀ name, (p'.store.tree a).exportsAs name .destructured = .ok true ↔
          (p.store.tree a).Exposes names name) ∧
        ∀ name, (p.store.tree a).exportForm? name = .ok none →
          (p'.store.tree a).exportForm? name = .ok none ∨
            (p'.store.tree a).exportForm? name = .ok (some .destructured)) ∧
      ∀ name ∈ names, ∀ found, p'.tree.matchesOf name = .ok found →
        ∀ m ∈ found, m.form ≠ .destructured := by
  obtain ⟨hstrip, hp', -, htrees⟩ := hp.strip names
  have hexports : ∀ a ∈ p.body, (p.store.tree a).hasType Tree.namedExportType = true →
      ((p.stripped names).store.tree a) = (p.store.tree a).stripBelow names := fun a ha htype => by
    rw [htrees a ha, Tree.stripStatement_of_export htype]
  have hofNodes := hp.ofNodes hnodes
  refine ⟨_, _, hstrip, body_stripped names, fun a ha htype => ?_, ?_⟩
  · rw [hexports a ha htype]
    exact ⟨fun name form hform => (hofNodes a ha).exportsAs_stripBelow name hform,
      fun name => (hofNodes a ha).exportsDestructured_stripBelow_iff,
      fun name => (hofNodes a ha).exportForm?_stripBelow_of_none⟩
  · intro name hname found hfound m hm hform
    obtain ⟨statement, hmem, hexport⟩ := Tree.exists_exportsAs_of_matchesOf hfound hm
    obtain ⟨hstatement, htype⟩ := List.mem_filter.mp hmem
    rw [hp'.statements_tree, body_stripped] at hstatement
    obtain ⟨a, ha, rfl⟩ := List.mem_map.mp hstatement
    rw [htrees a ha, Tree.hasType_stripStatement] at htype
    rw [hexports a ha htype, hform] at hexport
    exact ((hofNodes a ha).exportsDestructured_stripBelow_iff.mp hexport).not_mem hname

/-- When the first of two names is dropped from a pattern, the second one is exported. -/
theorem strip_forms_pairModule : ∃ p removed p' a, Module.pairModule.program = .ok p ∧
    p.Strippable ∧ p.MadeOfNodes ∧ p.strip ["a"] = (.ok removed, p') ∧ a ∈ p.body ∧
    (p.store.tree a).exportForm? "a" = .ok (some .destructured) ∧
    (p.store.tree a).exportForm? "b" = .ok none ∧
    (p'.store.tree a).exportsAs "a" .destructured ≠ .ok true ∧
    (p'.store.tree a).exportsAs "b" .destructured = .ok true := by
  have hprogram := Module.program_pairModule
  have hordinary : Module.pairModule.root.Everywhere Syntax.Ordinary := by decide +kernel
  have hp := Module.strippable_program hprogram hordinary
  have hnodes := Module.madeOfNodes_program hprogram hordinary
  obtain ⟨removed, p', hstrip, -, hexports, -⟩ := hp.strip_forms hnodes ["a"]
  have hstatements := hp.statements_tree
  rw [tree_ofTree] at hstatements
  obtain ⟨a, rest, hbody, htree, -⟩ := List.map_eq_cons_iff.mp hstatements.symm
  have ha := hbody ▸ List.mem_cons_self
  obtain ⟨-, hdestructured, -⟩ := hexports a ha (by rw [htree]; rfl)
  rw [htree] at hdestructured
  refine ⟨_, removed, p', a, hprogram, hp, hnodes, hstrip, ha, by rw [htree]; rfl,
    by rw [htree]; rfl, fun h => ?_, (hdestructured "b").mpr ?_⟩
  · exact ((hdestructured "a").mp h).not_mem List.mem_cons_self
  · exact ⟨Module.pairDeclarator, [], [Module.propertyOfName "a", Module.propertyOfName "b"],
      Module.propertyOfName "b", rfl, rfl, rfl, rfl, rfl, rfl, rfl, rfl⟩

end Program

end NamedExports
