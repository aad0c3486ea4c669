import NamedExports.Proofs.Program.Exports
import NamedExports.Proofs.Store.Planted
import NamedExports.Proofs.Strip.WellBuilt

/-!
# Analyses never fail

The analyses of a program read fields of its nodes without asking whether they are there.  They can,
because the program is well built: every node has the fields of its kind, and what stands in them is
what the grammar says (`Tree.WellBuilt`).  A program that is modelled from a module is sound
(`Program.Sound`), and a sound program stays so however often it is stripped; so no analysis of a
module fails, in whatever order the analyses are made (`Module.analyses_never_fail`).
-/

namespace NamedExports

open Kind

namespace Tree

variable {t u : Tree} {name : String}

/-! ### Named exports -/

/-- A well-built declarator binds something well built, or nothing. -/
theorem WellBuilt.get_id (h : t.WellBuilt) (htype : t.hasType "VariableDeclarator" = true) :
    t.get "id" = null ∨ (t.get "id").WellBuilt := by
  obtain ⟨lines, values, rfl, hholds, hparts⟩ := h.exists_of_hasType .variableDeclarator htype
  obtain ⟨binding, value, rfl, hbinding⟩ := hholds.exists_binding
  exact wellBuilt_of_admits hbinding (hparts binding List.mem_cons_self)

/-- The first declarator of a named export binds something well built, or nothing. -/
theorem WellBuilt.exists_firstBinding (h : t.WellBuilt)
    (htype : t.hasType namedExportType = true) :
    ∃ binding, t.firstBinding = .ok binding ∧ (binding = null ∨ binding.WellBuilt) := by
  obtain ⟨lines, values, rfl, hholds, hparts⟩ := h.exists_of_hasType .exportNamedDeclaration htype
  obtain ⟨declaration, specifiers, source, kind, rfl, hdeclaration⟩ := hholds.exists_declaration
  show ∃ binding, (if declaration.hasType "VariableDeclaration" = true then do
      let declarator ← (declaration.get "declarations").firstEntry
      return if declarator.hasType "VariableDeclarator" then declarator.get "id" else null
    else return null) = .ok binding ∧ _
  split
  next hvariables =>
    rcases wellBuilt_of_admits hdeclaration (hparts declaration List.mem_cons_self)
      with rfl | hbuilt
    · exact absurd hvariables (by decide)
    obtain ⟨lines', values', rfl, hholds', hparts'⟩ :=
      hbuilt.exists_of_hasType .variableDeclaration hvariables
    obtain ⟨word, declarators, rfl, hnodes⟩ := hholds'.exists_declarators
    show ∃ binding, (do
      let declarator ← (Tree.list declarators).firstEntry
      return if declarator.hasType "VariableDeclarator" then declarator.get "id" else null) =
        .ok binding ∧ _
    -- there may be no declarator, or something else in its place
    rw [Syntax.firstEntry_list]
    refine ⟨_, rfl, ?_⟩
    cases hhead : declarators.head? with
    | none => exact Or.inl rfl
    | some d =>
      have hd : d ∈ declarators := List.mem_of_head? hhead
      have hdeclarator : d.WellBuilt := hparts' (list declarators) (by simp) d
        (mem_nodes_list.mpr ⟨hd, hnodes d hd⟩)
      rw [Option.getD_some]
      split
      next htype => exact hdeclarator.get_id htype
      next => exact Or.inl rfl
  next => exact ⟨null, rfl, Or.inl rfl⟩

/-- A well-built named export is asked without a fault whether it takes a name out of a value. -/
theorem WellBuilt.exists_exportsDestructured (h : t.WellBuilt)
    (htype : t.hasType namedExportType = true) (name : String) :
    ∃ b, t.exportsDestructured name = .ok b := by
  obtain ⟨binding, hfirst, hbinding⟩ := h.exists_firstBinding htype
  unfold exportsDestructured
  rw [hfirst]
  show ∃ b, (if binding.hasType "ObjectPattern" = true then do
      let property ← (binding.get "properties").firstEntry
      return property.hasType "ObjectProperty" && (property.get "value").isIdentifierNamed name
    else return false) = .ok b
  split
  next hpattern =>
    rcases hbinding with rfl | hbinding
    · exact absurd hpattern (by decide)
    obtain ⟨lines, values, rfl, hholds, -⟩ := hbinding.exists_of_hasType .objectPattern hpattern
    obtain ⟨entries, rfl, -⟩ := hholds.exists_entries
    show ∃ b, (do
      let property ← (Tree.list entries).firstEntry
      return property.hasType "ObjectProperty" &&
        (property.get "value").isIdentifierNamed name) = .ok b
    rw [Syntax.firstEntry_list]
    exact ⟨_, rfl⟩
  next => exact ⟨false, rfl⟩

/-- A well-built named export is asked without a fault whether it has a specifier of a name. -/
theorem WellBuilt.exists_exportsSpecifier (h : t.WellBuilt)
    (htype : t.hasType namedExportType = true) (name : String) :
    ∃ b, t.exportsSpecifier name = .ok b := by
  obtain ⟨lines, values, rfl, hholds, -⟩ := h.exists_of_hasType .exportNamedDeclaration htype
  obtain ⟨declaration, specifiers, source, kind, rfl, -⟩ := hholds.exists_declaration
  show ∃ b, ((Tree.list specifiers).entries >>= fun items =>
    pure (items.any (Syntax.exportsAsSpecifier name))) = .ok b
  rw [Syntax.entries_list]
  exact ⟨_, rfl⟩

/-- A well-built named export is asked for a name without a fault. -/
theorem WellBuilt.exists_exportForm? (h : t.WellBuilt) (htype : t.hasType namedExportType = true)
    (name : String) : ∃ form, t.exportForm? name = .ok form := by
  obtain ⟨binding, hfirst, -⟩ := h.exists_firstBinding htype
  have hdeclared : t.exportsVariable name = .ok (binding.isIdentifierNamed name) := by
    unfold exportsVariable
    rw [hfirst]
    rfl
  obtain ⟨destructured, hdestructured⟩ := h.exists_exportsDestructured htype name
  obtain ⟨specifier, hspecifier⟩ := h.exists_exportsSpecifier htype name
  exact ⟨_, Syntax.exportForm?_eq hdeclared hdestructured hspecifier⟩

/-- A program of well-built statements is searched for a name without a fault. -/
theorem exists_matchesOf {program : Tree} (h : ∀ t ∈ program.statements, t.WellBuilt)
    (name : String) : ∃ found, program.matchesOf name = .ok found := by
  obtain ⟨found, hfound⟩ : ∃ found : List (Option Match),
      program.namedExports.mapM (matchIn? name) = .ok (found.map id) := by
    refine Built.exists_mapM_eq_ok fun t ht => ?_
    obtain ⟨hmem, htype⟩ := List.mem_filter.mp ht
    obtain ⟨form, hform⟩ := (h t hmem).exists_exportForm? htype name
    unfold matchIn?
    rw [hform]
    cases form with
    | none => exact ⟨none, rfl⟩
    | some form => exact ⟨some _, rfl⟩
  refine ⟨found.filterMap id, ?_⟩
  unfold matchesOf
  rw [hfound, List.map_id]
  rfl

/-! ### Labels -/

/-- The patterns of a regular node are found. -/
theorem collectPatterns_of_isRegularNode (h : Syntax.IsRegularNode t) :
    t.collectPatterns = .ok t.patternsInField := by
  obtain ⟨hregular, hnode⟩ := h
  cases hregular with
  | plain lines htype => rfl
  | modelled lines htakes hvalues => rfl
  | _ => exact absurd hnode (by simp [isNode])

/-- A pattern of regular nodes has a line, and its entries have texts as their labels. -/
theorem IsPatternOfNodes.exists_labels (h : t.IsPatternOfNodes) :
    ∃ q : ℤ × List String, t.patternLabels = .ok (int q.1, q.2.map str) := by
  obtain ⟨lines, entries, rfl, hentries⟩ := h
  obtain ⟨texts, htexts⟩ : ∃ texts : List String, entries.mapM label = .ok (texts.map str) := by
    refine Built.exists_mapM_eq_ok fun e he => ?_
    obtain ⟨text, htext, -⟩ := label_strip [] (hentries e he).1 (hentries e he).2
    exact ⟨text, htext⟩
  refine ⟨(lines.first, texts), ?_⟩
  show (entries.mapM label >>= fun labels => pure (int lines.first, labels)) = _
  rw [htexts]
  rfl

/-- The entries of all patterns at or below a regular node have texts as their labels. -/
theorem exists_statementLabels (h : Syntax.IsRegularNode t) :
    ∃ patterns : List (ℤ × List String),
      t.statementLabels = .ok (patterns.map fun q => (int q.1, q.2.map str)) := by
  unfold statementLabels
  rw [collectPatterns_of_isRegularNode h]
  exact Built.exists_mapM_eq_ok fun p hp => (isPatternOfNodes_of_regular h.1 p hp).exists_labels

/-! ### Nodes below a node -/

/-- A node stands in an attribute of another one. -/
def HasPart (t u : Tree) : Prop :=
  ∃ shape attributes, t = node shape attributes ∧ ∃ a ∈ attributes, u ∈ a.2.nodes

/-- The parts of a well-built node are well built. -/
theorem WellBuilt.of_hasPart (h : t.WellBuilt) (hpart : t.HasPart u) : u.WellBuilt := by
  obtain ⟨shape, attributes, ht, a, ha, hu⟩ := hpart
  have hheader : ∀ {type : String} {lines : Lines}, a ∈ header type lines → u.WellBuilt := by
    intro type lines ha
    simp only [header, List.mem_cons, List.not_mem_nil, or_false] at ha
    rcases ha with rfl | rfl | rfl <;> exact absurd hu List.not_mem_nil
  cases h with
  | plain lines htype =>
    cases ht
    exact hheader ha
  | modelled lines hholds hparts =>
    cases ht
    rcases List.mem_append.mp ha with ha | ha
    · exact hheader ha
    · exact hparts a.2 (List.of_mem_zip ha).2 u hu

/-- All nodes below a well-built node are well built. -/
theorem WellBuilt.of_reflTransGen (h : t.WellBuilt) (hbelow : Relation.ReflTransGen HasPart t u) :
    u.WellBuilt := by
  induction hbelow with
  | refl => exact h
  | tail _ hpart ih => exact ih.of_hasPart hpart

end Tree

namespace Program

/-- No object hangs in two places of a program. -/
def Unshared (p : Program) : Prop :=
  ∃ t : Labelled, p.store.Has t ∧ t.atom = p.root ∧ t.refs.Nodup

/-- What the analyses of a program rely on: it shares nothing, and it is the well-built node of a
program. -/
structure Sound (p : Program) : Prop where
  unshared : p.Unshared
  isProgram : p.tree.hasType Kind.program.name = true
  wellBuilt : p.tree.WellBuilt

/-- A program is what another one becomes when it is stripped of some names. -/
def StripsTo (p p' : Program) : Prop :=
  ∃ names, p' = (p.strip names).2

/-- A sound program that lies in its store as it was loaded there. -/
structure Intact (p : Program) (lines : Tree.Lines) (statements : List Tree) : Prop extends
    p.LaidOut lines statements where
  unshared : p.Unshared
  filled : ∀ s ∈ statements, (Content.one .statement).Filled s

variable {p : Program} {lines : Tree.Lines} {statements : List Tree}

theorem Intact.wellBuilt (h : p.Intact lines statements) : ∀ s ∈ statements, s.WellBuilt :=
  fun s hs => (h.filled s hs).wellBuilt rfl

theorem Intact.sound (h : p.Intact lines statements) : p.Sound := by
  have htree := h.tree_eq
  refine ⟨h.unshared, by rw [htree]; rfl, ?_⟩
  rw [htree]
  exact Content.Filled.wellBuilt_modelled (.cons (.many h.filled) .nil)

/-- A program is intact when it is loaded. -/
theorem intact_ofTree (lines : Tree.Lines)
    (h : ∀ s ∈ statements, (Content.one .statement).Filled s) :
    (Program.ofTree (.modelled .program lines [.list statements])).Intact lines statements := by
  obtain ⟨t, ht, hhas, hnodup⟩ :=
    Store.exists_planted_ofTree (.modelled .program lines [.list statements])
  exact ⟨laidOut_ofTree lines fun s hs => ((h s hs).wellBuilt rfl).isRegularNode,
    ⟨t, hhas, ht, hnodup⟩, h⟩

/-- Where no object hangs in two places of a program, none does when it has been stripped. -/
theorem Unshared.stripIn (hp : p.Unshared) (names : List String) {r : Ref} {o : Obj}
    (hroot : p.root = .ref r) (ho : p.store.obj? r = some o) (X : Set Ref) :
    Unshared { p with store := p.store.stripIn names X } := by
  obtain ⟨t, hhas, ht, hnodup⟩ := hp
  obtain ⟨t', ht', hhas'⟩ := (p.store.stripIn names X).exists_has (a := p.root) fun q hq => by
    rw [hroot, Atom.mem_refs, Atom.ref.injEq] at hq
    rw [Store.size_stripIn, ← hq]
    exact Store.index_lt_size ho
  refine ⟨t', hhas', ht', hnodup.sublist (hhas.refs_sublist hhas' (ht'.trans ht.symm) ?_)⟩
  exact fun r o o' ho ho' => Store.atoms_stripIn_sublist ho ho'

/-- Stripping an intact program succeeds and leaves it intact. -/
theorem Intact.strip (h : p.Intact lines statements) (names : List String) :
    ∃ removed p', p.strip names = (.ok removed, p') ∧
      p'.Intact lines (statements.map (Tree.stripStatement names)) := by
  obtain ⟨X, hstrip, hlaid⟩ :=
    h.toLaidOut.strip names fun s hs => (h.wellBuilt s hs).isRegularNode
  refine ⟨_, _, hstrip, hlaid, ?_, fun s' hs' => ?_⟩
  · obtain ⟨r, values, hroot, ho, -, -⟩ := h.body
    exact h.unshared.stripIn names hroot ho X
  · obtain ⟨s, hs, rfl⟩ := List.mem_map.mp hs'
    exact (h.filled s hs).stripStatement names

/-- An intact program stays so however often it is stripped. -/
theorem Intact.of_reflTransGen {p' : Program} (h : p.Intact lines statements)
    (hsteps : Relation.ReflTransGen StripsTo p p') :
    ∃ statements', p'.Intact lines statements' := by
  induction hsteps with
  | refl => exact ⟨statements, h⟩
  | tail _ hstep ih =>
    obtain ⟨statements', hintact⟩ := ih
    obtain ⟨names, rfl⟩ := hstep
    obtain ⟨removed, p', hstrip, hintact'⟩ := hintact.strip names
    rw [hstrip]
    exact ⟨_, hintact'⟩

end Program

/-- Every module of which the texts can be read, and in which no construct is called like a kind of
the model (and no node has more children than a computer could hold), has a program, whatever its
shape.  The program is sound, and stays so however often it is stripped of whatever names.  At any
time no analysis of it fails: it can be searched for every name and stripped of any names, and the
patterns at or below every node of it can be collected, with a number as the line of each pattern
and a text as the label of each entry. -/
theorem Module.analyses_never_fail {m : Module} (hm : m.root.Everywhere Syntax.Ordinary)
    (htexts : m.root.Everywhere fun n => n.text.isSome = true) :
    ∃ p, m.program = .ok p ∧ ∀ p', Relation.ReflTransGen Program.StripsTo p p' →
      p'.Sound ∧
      (∀ name, ∃ found, p'.tree.matchesOf name = .ok found) ∧
      (∀ names, ∃ removed, (p'.strip names).1 = .ok removed) ∧
      ∀ t, Relation.ReflTransGen Tree.HasPart p'.tree t → ∃ patterns : List (ℤ × List String),
        t.statementLabels = .ok (patterns.map fun q => (.int q.1, q.2.map .str)) := by
  have hlegible : m.root.Everywhere (Syntax.Legible True) :=
    (hm.and htexts).imp fun n hn => ⟨hn.1, fun _ => hn.2⟩
  obtain ⟨hsort, htotal⟩ := Syntax.gives_toProgram hlegible
  obtain ⟨tree, htree⟩ := htotal trivial
  obtain ⟨statements, rfl, hstatements⟩ := hsort tree htree
  refine ⟨_, Built.bind_eq_ok.mpr ⟨_, htree, rfl⟩, fun p' hsteps => ?_⟩
  obtain ⟨statements', hintact⟩ :=
    (Program.intact_ofTree m.root.lines hstatements).of_reflTransGen hsteps
  refine ⟨hintact.sound, fun name => ?_, fun names => ?_, fun t ht => ?_⟩
  · refine Tree.exists_matchesOf (fun s hs => hintact.wellBuilt s ?_) name
    rw [hintact.tree_eq] at hs
    exact hs
  · obtain ⟨removed, p'', hstrip, -⟩ := hintact.strip names
    exact ⟨removed, congrArg Prod.fst hstrip⟩
  · exact Tree.exists_statementLabels (hintact.sound.wellBuilt.of_reflTransGen ht).isRegularNode

/-- An empty piece of syntax. -/
def emptySyntax (kind : String) (field : Option String) (children : List Syntax) : Syntax :=
  .node kind ⟨0, 0⟩ true field (some "") children

/-- A module that no text is read as: it exports a pattern of a property without key and value, a
default without a name, a rest element without a pattern, and a number. -/
def hollowModule : Module where
  root := emptySyntax "program" none
    [emptySyntax "export_statement" none
      [emptySyntax "variable_declaration" (some "declaration")
        [emptySyntax "variable_declarator" none
          [emptySyntax "object_pattern" (some "name")
            [emptySyntax "pair_pattern" none [],
              emptySyntax "object_assignment_pattern" none [],
              emptySyntax "rest_pattern" none [],
              emptySyntax "number" none []]]]]]
  damaged := true

/-- It can be stripped and searched all the same. -/
theorem Module.analyses_never_fail_hollowModule :
    hollowModule.root.Everywhere Syntax.Ordinary ∧
      (hollowModule.root.Everywhere fun n => n.text.isSome = true) ∧
      ∃ p removed found, hollowModule.program = .ok p ∧
        (p.strip ["a"]).1 = .ok removed ∧ (p.strip ["a"]).2.Sound ∧
        (p.strip ["a"]).2.tree.matchesOf "a" = .ok found ∧
        ∃ patterns : List (ℤ × List String), (p.strip ["a"]).2.tree.statementLabels =
          .ok (patterns.map fun q => (.int q.1, q.2.map .str)) := by
  have hordinary : hollowModule.root.Everywhere Syntax.Ordinary := by decide +kernel
  have htexts : hollowModule.root.Everywhere fun n => n.text.isSome = true := by decide +kernel
  obtain ⟨p, hp, hreached⟩ := Module.analyses_never_fail hordinary htexts
  obtain ⟨-, -, hstrip, -⟩ := hreached p .refl
  obtain ⟨removed, hremoved⟩ := hstrip ["a"]
  obtain ⟨hsound, hfind, -, hlabels⟩ := hreached (p.strip ["a"]).2 (.single ⟨["a"], rfl⟩)
  obtain ⟨found, hfound⟩ := hfind "a"
  exact ⟨hordinary, htexts, p, removed, found, hp, hremoved, hsound, hfound, hlabels _ .refl⟩

end NamedExports
