import NamedExports.Proofs.Strip.Repeat

/-!
# What stripping reaches

Stripping is meant for variables that are taken out of a value by a pattern.  It strips all object
patterns of a named export, though, and the model keeps two sorts of them: those by which the
declarators of a variable declaration bind variables (`Tree.variableBindings`), and those in the
parameters of a function (`Tree.parameters`).  Nothing else in a named export holds a pattern
(`Tree.WellBuilt.objectPatterns_eq`), so nothing else changes and nothing else counts
(`Module.strip_reaches`).  A parameter of an exported function does lose its property, if the
property binds one of the names (`Module.not_strip_variables_only`).
-/

namespace NamedExports

open Kind

namespace Tree

variable {names : List String} {kind : Kind} {lines : Lines} {values : List Tree} {t u : Tree}

/-! ### Trees that stripping leaves as they are -/

/-- A regular tree of which no pattern has an entry that binds one of the names is not changed. -/
theorem stripField_eq_self (h : t.Regular) (hbound : ∀ q ∈ t.patternsInField, boundIn names q = []) :
    stripField names false t = t := by
  induction h with
  | null => rfl
  | bool value => rfl
  | int value => rfl
  | str value => rfl
  | @list items hflat hitems ih =>
    have hsame : items.map (strip names) = items.map id := by
      refine List.map_congr_left fun e he => ?_
      rw [← stripField_of_ne_list (hflat e he)]
      refine ih e he fun q hq => hbound q ?_
      rw [patternsInField_of_ne_list (hflat e he)] at hq
      show q ∈ patternsInEntries items
      rw [patternsInEntries_eq]
      exact List.mem_flatMap_of_mem he hq
    rw [stripField_list, hsame, List.map_id]
  | plain lines htype => exact strip_plain
  | @modelled kind lines values htakes hvalues ih =>
    obtain ⟨hlength, htakes⟩ := htakes
    change ∀ q ∈ (modelled kind lines values).objectPatterns, _ at hbound
    rw [objectPatterns_modelled hlength] at hbound
    have hfields : values.map (stripField names false) = values.map id := by
      refine List.map_congr_left fun v hv => ih v hv fun q hq => hbound q ?_
      exact List.mem_append_right _ (List.mem_flatMap_of_mem hv hq)
    show (modelled kind lines values).strip names = _
    by_cases hkind : kind = .objectPattern
    · subst hkind
      obtain ⟨entries, rfl, -⟩ := htakes
      -- no entry goes, so the entries are stripped as those of any list
      have hnone : entries.filter (·.bindsAny names) = [] :=
        hbound (modelled .objectPattern lines [list entries]) (List.mem_append_left _ (by simp))
      have hall : stripEntries names true entries = entries.map (strip names) := by
        rw [stripEntries_eq]
        congr 1
        refine List.filter_eq_self.mpr fun e he => ?_
        simpa using List.filter_eq_nil_iff.mp hnone e he
      have hentries : entries.map (strip names) = entries := by
        have hlist : stripField names false (list entries) = list entries :=
          List.map_inj_left.mp hfields _ List.mem_cons_self
        rw [stripField_list] at hlist
        exact list.inj hlist
      rw [strip_objectPattern, hall, hentries]
    · rw [strip_modelled_of_ne hkind hlength, hfields, List.map_id]

/-- A pattern that stripping does not change has no entry that binds one of the names. -/
theorem IsPatternOfNodes.boundIn_eq_nil (h : t.IsPatternOfNodes) (hsame : t.strip names = t) :
    boundIn names t = [] := by
  obtain ⟨lines, entries, rfl, -⟩ := h
  rw [strip_objectPattern] at hsame
  have hentries : stripEntries names true entries = entries := by
    have hvalues := (node.inj hsame).2
    simpa [modelled, header, Kind.fields] using hvalues
  have hlength := congrArg List.length hentries
  rw [stripEntries_eq, List.length_map, ← List.countP_eq_length_filter] at hlength
  have hkeep := List.countP_eq_length.mp hlength
  show entries.filter (·.bindsAny names) = []
  refine List.filter_eq_nil_iff.mpr fun e he => ?_
  simpa using hkeep e he

/-- Stripping leaves a regular tree as it is exactly if no entry of its patterns binds one of the
names. -/
theorem stripField_eq_self_iff (h : t.Regular) :
    stripField names false t = t ↔ ∀ q ∈ t.patternsInField, boundIn names q = [] := by
  refine ⟨fun hsame q hq => ?_, stripField_eq_self h⟩
  have hpatterns : t.patternsInField.map (strip names) = t.patternsInField.map id := by
    rw [← (patternsInField_stripField h).1, hsame, List.map_id]
  exact (isPatternOfNodes_of_regular h q hq).boundIn_eq_nil (List.map_inj_left.mp hpatterns q hq)

/-- A regular tree that holds no patterns. -/
structure Patternless (t : Tree) : Prop where
  regular : t.Regular
  none : t.patternsInField = []

/-- Where there are no patterns there is nothing to strip. -/
theorem Patternless.stripField_eq (h : t.Patternless) (names : List String) :
    stripField names false t = t :=
  stripField_eq_self h.regular (by simp [h.none])

/-- Where no modelled node but a name or a text may stand, there is no pattern. -/
theorem patternless_of_names {p : Place}
    (hkinds : ∀ kind ∈ p.kinds, kind = identifier ∨ kind = stringLiteral) (h : p.Admits t)
    (hparts : ∀ u ∈ t.nodes, u.WellBuilt) : t.Patternless := by
  refine ⟨?_, patternsInField_of_names hkinds h hparts⟩
  have hone : (Content.one p).Admits t := h
  exact regular_of_admits hone fun u hu => (hparts u hu).isRegularNode.1

/-! ### Where patterns stand in a named export -/

/-- The items of a list; what is no list has none. -/
def items : Tree → List Tree
  | list items => items
  | _ => []

/-- What the declarators of an exported variable declaration bind. -/
def variableBindings (statement : Tree) : List Tree :=
  let declaration := statement.get "declaration"
  if declaration.hasType "VariableDeclaration" then
    (declaration.get "declarations").items.map (·.get "id")
  else []

/-- The parameters of an exported function. -/
def parameters (statement : Tree) : List Tree :=
  let declaration := statement.get "declaration"
  if declaration.hasType "FunctionDeclaration" then (declaration.get "params").items else []

/-- A tree with what it has in one attribute changed. -/
def mapAttr (name : String) (f : Tree → Tree) : Tree → Tree
  | node shape attributes =>
    node shape (attributes.map fun a => (a.1, if a.1 = name then f a.2 else a.2))
  | t => t

/-- A declaration with what its declarators bind, or its parameters, changed. -/
def mapBindings (f : Tree → Tree) (declaration : Tree) : Tree :=
  if declaration.hasType "VariableDeclaration" then
    declaration.mapAttr "declarations" (mapItems (mapAttr "id" f))
  else if declaration.hasType "FunctionDeclaration" then declaration.mapAttr "params" (mapItems f)
  else declaration

/-- A statement of which, if it is a named export, what its declarators bind and its parameters are
stripped, and nothing else. -/
def stripBindings (names : List String) (statement : Tree) : Tree :=
  if statement.hasType namedExportType then
    statement.mapAttr "declaration" (mapBindings (strip names))
  else statement

/-- A specifier holds no patterns. -/
theorem WellBuilt.objectPatterns_of_specifier (h : t.WellBuilt)
    (hplace : (Place.mk [exportSpecifier, exportNamespaceSpecifier] false false).Admits t) :
    t.objectPatterns = [] := by
  have hnames : ∀ kind ∈ Place.exportName.kinds, kind = identifier ∨ kind = stringLiteral := by
    decide
  cases h with
  | plain lines htype => exact objectPatterns_plain htype
  | @modelled kind lines values hholds hparts =>
    have hkind : kind ∈ [exportSpecifier, exportNamespaceSpecifier] := hplace
    have hvalues : ∀ v ∈ values, Place.exportName.Admits v := by
      simp only [List.mem_cons, List.not_mem_nil, or_false] at hkind
      rcases hkind with rfl | rfl
      · obtain _ | ⟨hlocal, _ | ⟨hexported, ⟨⟩⟩⟩ := hholds
        simp only [List.forall_mem_cons]
        exact ⟨hlocal, hexported, by simp⟩
      · obtain _ | ⟨hexported, ⟨⟩⟩ := hholds
        simp only [List.forall_mem_cons]
        exact ⟨hexported, by simp⟩
    have hne : kind ≠ .objectPattern := by
      rintro rfl
      exact absurd hkind (by decide)
    rw [objectPatterns_modelled hholds.length_eq, if_neg hne, List.nil_append,
      List.flatMap_eq_nil_iff]
    exact fun v hv => patternsInField_of_names hnames (hvalues v hv) (hparts v hv)

/-- The parts of a named export: what it declares, and other fields without patterns. -/
theorem WellBuilt.exists_export (h : t.WellBuilt) (htype : t.hasType namedExportType = true) :
    ∃ lines declaration specifiers source kind,
      t = Tree.modelled .exportNamedDeclaration lines
        [declaration, list specifiers, source, str kind] ∧
      Place.declaration.Admits declaration ∧ (∀ u ∈ declaration.nodes, u.WellBuilt) ∧
      (list specifiers).Patternless ∧ source.Patternless := by
  obtain ⟨lines, values, rfl, hholds, hparts⟩ := h.exists_of_hasType .exportNamedDeclaration htype
  obtain _ | ⟨hdeclaration, _ | ⟨⟨specifiers, rfl, hspecifiers⟩, _ | ⟨hsource, _ | ⟨⟨kind, rfl⟩,
    ⟨⟩⟩⟩⟩⟩ := hholds
  have hbuilt : ∀ s ∈ specifiers, s.WellBuilt := fun s hs => hparts (list specifiers) (by simp) s
    (mem_nodes_list.mpr ⟨hs, (hspecifiers s hs).isNode rfl⟩)
  refine ⟨lines, _, specifiers, _, kind, rfl, hdeclaration, hparts _ (by simp), ⟨?_, ?_⟩,
    patternless_of_names (by decide) hsource (hparts _ (by simp))⟩
  · exact Syntax.regular_list fun s hs => (hbuilt s hs).isRegularNode
  · show patternsInEntries specifiers = []
    rw [patternsInEntries_eq, List.flatMap_eq_nil_iff]
    exact fun s hs => (hbuilt s hs).objectPatterns_of_specifier (hspecifiers s hs)

/-- The parts of a declarator: what it binds, and what it is initialised with, without patterns. -/
theorem WellBuilt.exists_declarator (h : t.WellBuilt)
    (hplace : (Place.mk [variableDeclarator] false false).Admits t) :
    ∃ lines binding init, t = Tree.modelled .variableDeclarator lines [binding, init] ∧
      (∀ ts, binding ≠ list ts) ∧ init.Patternless := by
  cases h with
  | plain lines htype => exact absurd (show false = true from hplace) Bool.false_ne_true
  | @modelled kind lines values hholds hparts =>
    obtain rfl : kind = .variableDeclarator := List.mem_singleton.mp hplace
    obtain _ | ⟨hbinding, _ | ⟨hinit, ⟨⟩⟩⟩ := hholds
    exact ⟨lines, _, _, rfl, fun _ => Place.Admits.ne_list hbinding,
      patternless_of_names (by decide) hinit (hparts _ (by simp))⟩

/-- What a named export declares is nothing with patterns, a function or variables. -/
theorem declaration_cases (h : Place.declaration.Admits t) (hparts : ∀ u ∈ t.nodes, u.WellBuilt) :
    ((∀ kind : Kind, t.hasType kind.name = false) ∧ t.Patternless) ∨
    (∃ lines id params async generator,
      t = modelled .functionDeclaration lines [id, list params, bool async, bool generator] ∧
      id.Patternless ∧ ∀ p ∈ params, ∀ ts, p ≠ list ts) ∨
    ∃ lines word declarators, t = modelled .variableDeclaration lines [str word, list declarators] ∧
      ∀ d ∈ declarators, ∃ lines binding init,
        d = modelled .variableDeclarator lines [binding, init] ∧
          (∀ ts, binding ≠ list ts) ∧ init.Patternless := by
  rcases wellBuilt_of_admits h hparts with rfl | hbuilt
  · exact Or.inl ⟨fun _ => rfl, .null, rfl⟩
  · cases hbuilt with
    | plain lines htype =>
      exact Or.inl ⟨hasType_plain htype, .plain lines htype, objectPatterns_plain htype⟩
    | @modelled kind lines values hholds hbelow =>
      have hkind : kind ∈ [functionDeclaration, variableDeclaration] := h
      simp only [List.mem_cons, List.not_mem_nil, or_false] at hkind
      rcases hkind with rfl | rfl
      · obtain _ | ⟨hid, _ | ⟨⟨params, rfl, hparams⟩, _ | ⟨⟨async, rfl⟩, _ | ⟨⟨generator, rfl⟩,
          ⟨⟩⟩⟩⟩⟩ := hholds
        refine Or.inr (Or.inl ⟨lines, _, params, async, generator, rfl, ?_, ?_⟩)
        · exact patternless_of_names (by decide) hid (hbelow _ (by simp))
        · exact fun p hp ts => (hparams p hp).ne_list
      · obtain _ | ⟨⟨word, rfl⟩, _ | ⟨⟨declarators, rfl, hdeclarators⟩, ⟨⟩⟩⟩ := hholds
        refine Or.inr (Or.inr ⟨lines, word, declarators, rfl, fun d hd => ?_⟩)
        have hd' : d.WellBuilt := hbelow (list declarators) (by simp) d
          (mem_nodes_list.mpr ⟨hd, (hdeclarators d hd).isNode rfl⟩)
        exact hd'.exists_declarator (hdeclarators d hd)

/-- The patterns of a named export are those of what it binds variables by and of its parameters. -/
theorem WellBuilt.objectPatterns_eq (h : t.WellBuilt) (htype : t.hasType namedExportType = true) :
    t.objectPatterns = (t.variableBindings ++ t.parameters).flatMap objectPatterns := by
  obtain ⟨lines, declaration, specifiers, source, kind, rfl, hdeclaration, hparts, hspecifiers,
    hsource⟩ := h.exists_export htype
  have hall : (Tree.modelled .exportNamedDeclaration lines
      [declaration, list specifiers, source, str kind]).objectPatterns =
        declaration.patternsInField := by
    rw [objectPatterns_modelled rfl, if_neg (by decide)]
    simp only [List.flatMap_cons, List.flatMap_nil, hspecifiers.none, hsource.none]
    simp [patternsInField, objectPatterns]
  rw [hall]
  -- a declaration has patterns in its parameters or in its declarators, but not in both
  rcases declaration_cases hdeclaration hparts with ⟨htypes, hbare⟩ |
    ⟨lines', id, params, async, generator, rfl, hid, -⟩ | ⟨lines', word, declarators, rfl, hds⟩
  · have hvariables : declaration.hasType "VariableDeclaration" = false :=
      htypes .variableDeclaration
    have hfunction : declaration.hasType "FunctionDeclaration" = false :=
      htypes .functionDeclaration
    show declaration.patternsInField =
      ((if declaration.hasType "VariableDeclaration" then
          (declaration.get "declarations").items.map (·.get "id") else []) ++
        if declaration.hasType "FunctionDeclaration" then
          (declaration.get "params").items else []).flatMap objectPatterns
    rw [hbare.none, hvariables, hfunction]
    rfl
  · show (Tree.modelled .functionDeclaration lines' _).objectPatterns =
      ([] ++ params).flatMap objectPatterns
    rw [objectPatterns_modelled rfl, if_neg (by decide)]
    simp only [List.flatMap_cons, List.flatMap_nil, hid.none, List.nil_append]
    show patternsInEntries params ++ [] = _
    rw [List.append_nil, patternsInEntries_eq]
  · show (Tree.modelled .variableDeclaration lines' _).objectPatterns =
      (declarators.map (Tree.get · "id") ++ []).flatMap objectPatterns
    have hbindings : declarators.flatMap objectPatterns =
        declarators.flatMap fun d => (d.get "id").objectPatterns := by
      refine List.flatMap_congr fun d hd => ?_
      obtain ⟨lines, binding, init, rfl, hbinding, hinit⟩ := hds d hd
      show _ = binding.objectPatterns
      rw [objectPatterns_modelled rfl, if_neg (by decide), ← patternsInField_of_ne_list hbinding]
      simp [hinit.none]
    rw [objectPatterns_modelled rfl, if_neg (by decide), List.append_nil, List.flatMap_map,
      ← hbindings, ← patternsInEntries_eq]
    simp [patternsInField, objectPatterns]

/-- What a named export declares is stripped where it binds variables and has parameters. -/
theorem stripField_declaration (names : List String) (h : Place.declaration.Admits t)
    (hparts : ∀ u ∈ t.nodes, u.WellBuilt) :
    stripField names false t = t.mapBindings (strip names) := by
  rcases declaration_cases h hparts with ⟨htypes, hbare⟩ |
    ⟨lines, id, params, async, generator, rfl, hid, -⟩ |
    ⟨lines, word, declarators, rfl, hds⟩
  · rw [hbare.stripField_eq]
    have hvariables : t.hasType "VariableDeclaration" = false := htypes .variableDeclaration
    have hfunction : t.hasType "FunctionDeclaration" = false := htypes .functionDeclaration
    unfold mapBindings
    rw [hvariables, hfunction]
    rfl
  · show (modelled .functionDeclaration lines _).strip names = modelled .functionDeclaration lines
      [id, list (params.map (strip names)), bool async, bool generator]
    rw [strip_modelled_of_ne (by decide) rfl]
    simp only [List.map_cons, List.map_nil, stripField_list, hid.stripField_eq]
    rfl
  · show (modelled .variableDeclaration lines _).strip names = modelled .variableDeclaration lines
      [str word, list (declarators.map (mapAttr "id" (strip names)))]
    rw [strip_modelled_of_ne (by decide) rfl]
    have hbindings : declarators.map (strip names) =
        declarators.map (mapAttr "id" (strip names)) := by
      refine List.map_congr_left fun d hd => ?_
      obtain ⟨lines, binding, init, rfl, hbinding, hinit⟩ := hds d hd
      show (modelled .variableDeclarator lines _).strip names =
        modelled .variableDeclarator lines [binding.strip names, init]
      rw [strip_modelled_of_ne (by decide) rfl]
      simp only [List.map_cons, List.map_nil, stripField_of_ne_list hbinding, hinit.stripField_eq]
    simp only [List.map_cons, List.map_nil, stripField_list, hbindings]
    rfl

/-- A well-built statement is stripped where it binds variables and has parameters. -/
theorem stripStatement_eq_stripBindings (h : t.WellBuilt) (names : List String) :
    t.stripStatement names = t.stripBindings names := by
  unfold stripStatement stripBindings
  split
  next htype =>
    obtain ⟨lines, declaration, specifiers, source, kind, rfl, hdeclaration, hparts, hspecifiers,
      hsource⟩ := h.exists_export htype
    show _ = modelled .exportNamedDeclaration lines
      [declaration.mapBindings (strip names), list specifiers, source, str kind]
    rw [stripBelow_modelled rfl, ← stripField_declaration names hdeclaration hparts]
    simp only [List.map_cons, List.map_nil, hspecifiers.stripField_eq, hsource.stripField_eq]
    rfl
  next => rfl

/-- The entries of a named export that bind one of the names stand where it binds variables and has
parameters. -/
theorem bound_of_export (h : t.WellBuilt) (htype : t.hasType namedExportType = true)
    (names : List String) :
    t.bound names = (t.variableBindings ++ t.parameters).flatMap (bound names) := by
  unfold bound
  rw [h.objectPatterns_eq htype, List.flatMap_assoc]

/-- A named export is not changed exactly if no entry binds one of the names where it binds variables
and has parameters. -/
theorem stripBindings_eq_self_iff (h : t.WellBuilt) (htype : t.hasType namedExportType = true) :
    t.stripBindings names = t ↔
      (t.variableBindings ++ t.parameters).flatMap (bound names) = [] := by
  have hfield : t.stripStatement names = stripField names false t := by
    obtain ⟨lines, values, rfl, hholds, -⟩ := h.exists_of_hasType .exportNamedDeclaration htype
    rw [stripStatement_of_export htype, stripBelow_modelled hholds.length_eq,
      ← strip_modelled_of_ne (by decide) hholds.length_eq]
    rfl
  have hpatterns : t.patternsInField = t.objectPatterns :=
    patternsInField_of_ne_list fun ts => h.isRegularNode.ne_list
  rw [← stripStatement_eq_stripBindings h, hfield, stripField_eq_self_iff h.isRegularNode.1,
    hpatterns, ← bound_of_export h htype]
  exact List.flatMap_eq_nil_iff.symm

/-- A statement that declares a function declares no variables. -/
theorem variableBindings_of_function
    (h : (t.get "declaration").hasType "FunctionDeclaration" = true) : t.variableBindings = [] := by
  have hvariables : (t.get "declaration").hasType "VariableDeclaration" = false := by
    unfold hasType at h ⊢
    cases htype : (t.get "declaration").get "type" with
    | str type =>
      rw [htype] at h
      obtain rfl : type = "FunctionDeclaration" := by simpa [isText] using h
      decide
    | _ => rfl
  unfold variableBindings
  dsimp only
  rw [hvariables]
  rfl

end Tree

/-- What stripping an intact program reaches: what the variables of its named exports are bound by,
and the parameters of its exported functions. -/
theorem Program.Intact.strip_eq {p : Program} {lines : Tree.Lines} {statements : List Tree}
    (h : p.Intact lines statements) (names : List String) :
    ∃ p', p.strip names = (.ok ((p.tree.namedExports.flatMap fun t =>
        t.variableBindings ++ t.parameters).flatMap (Tree.bound names)).length, p') ∧
      p'.tree = .modelled .program lines [.list (statements.map (Tree.stripBindings names))] := by
  obtain ⟨X, hstrip, hlaid⟩ := h.toLaidOut.strip names fun t ht => (h.wellBuilt t ht).isRegularNode
  have hexports : p.tree.namedExports = statements.filter (·.hasType Tree.namedExportType) := by
    rw [h.tree_eq]
    rfl
  have hstatements : statements.map (Tree.stripStatement names) =
      statements.map (Tree.stripBindings names) :=
    List.map_congr_left fun t ht => Tree.stripStatement_eq_stripBindings (h.wellBuilt t ht) names
  have hbound : (p.tree.namedExports.flatMap fun t =>
      t.variableBindings ++ t.parameters).flatMap (Tree.bound names) =
        statements.flatMap (Tree.boundByStatement names) := by
    rw [Tree.flatMap_boundByStatement, hexports, List.flatMap_assoc]
    refine List.flatMap_congr fun t ht => ?_
    obtain ⟨hmem, htype⟩ := List.mem_filter.mp ht
    exact (Tree.bound_of_export (h.wellBuilt t hmem) htype names).symm
  rw [hbound, ← hstatements]
  exact ⟨_, hstrip, hlaid.tree_eq⟩

namespace Module

/-- What stripping reaches in a program that is modelled from a module in which no construct is
called like a kind of the model (and no node has more children than a computer could hold).

Stripping succeeds and changes nothing but what the variables of named exports are bound by and the
parameters of exported functions; the number that it tells counts the entries there that bind one of
the names, in object patterns at any depth.  A named export is the same afterwards exactly if it has
no such entry.  So where no parameter of an exported function has one, only what variables are bound
by counts, and all exported functions are the same afterwards. -/
theorem strip_reaches {m : Module} {p : Program} (hp : m.program = .ok p)
    (hm : m.root.Everywhere Syntax.Ordinary) (names : List String) :
    ∃ lines statements removed p',
      p.tree = .modelled .program lines [.list statements] ∧
      p.strip names = (.ok removed, p') ∧
      p'.tree = .modelled .program lines [.list (statements.map (Tree.stripBindings names))] ∧
      removed = ((p.tree.namedExports.flatMap fun t =>
        t.variableBindings ++ t.parameters).flatMap (Tree.bound names)).length ∧
      (∀ t ∈ p.tree.namedExports, t.stripBindings names = t ↔
        (t.variableBindings ++ t.parameters).flatMap (Tree.bound names) = []) ∧
      ((∀ t ∈ p.tree.namedExports, t.parameters.flatMap (Tree.bound names) = []) →
        removed = ((p.tree.namedExports.flatMap Tree.variableBindings).flatMap
          (Tree.bound names)).length ∧
        ∀ t ∈ p.tree.namedExports, (t.get "declaration").hasType "FunctionDeclaration" = true →
          t.stripBindings names = t) := by
  obtain ⟨statements, hintact⟩ := exists_intact_program hp hm
  obtain ⟨p', hstrip, htree'⟩ := hintact.strip_eq names
  have hsame : ∀ t ∈ p.tree.namedExports, t.stripBindings names = t ↔
      (t.variableBindings ++ t.parameters).flatMap (Tree.bound names) = [] := by
    intro t ht
    obtain ⟨hmem, htype⟩ := List.mem_filter.mp ht
    rw [hintact.tree_eq] at hmem
    exact Tree.stripBindings_eq_self_iff (hintact.wellBuilt t hmem) htype
  refine ⟨m.root.lines, statements, _, p', hintact.tree_eq, hstrip, htree', rfl, hsame,
    fun hparameters => ⟨?_, fun t ht hfunction => (hsame t ht).mpr ?_⟩⟩
  · rw [List.flatMap_assoc, List.flatMap_assoc]
    refine congrArg List.length (List.flatMap_congr fun t ht => ?_)
    rw [List.flatMap_append, hparameters t ht, List.append_nil]
  · rw [Tree.variableBindings_of_function hfunction, List.nil_append, hparameters t ht]

/-! ### A function with a parameter that is a pattern -/

/-- The parameter `{ a }`. -/
def patternParameter : Syntax :=
  .node "required_parameter" ⟨0, 0⟩ true none none
    [.node "object_pattern" ⟨0, 0⟩ true (some "pattern") none
      [.node "shorthand_property_identifier_pattern" ⟨0, 0⟩ true none (some "a") []]]

/-- The declaration `function f({ a }) {}`. -/
def functionOfPattern : Syntax :=
  .node "function_declaration" ⟨0, 0⟩ true (some "declaration") none
    [.node "identifier" ⟨0, 0⟩ true (some "name") (some "f") [],
      .node "formal_parameters" ⟨0, 0⟩ true (some "parameters") none [patternParameter]]

/-- The module `export function f({ a }) {}`. -/
def functionModule : Module where
  root := .node "program" ⟨0, 0⟩ true none none
    [.node "export_statement" ⟨0, 0⟩ true none none [functionOfPattern]]
  damaged := false

/-- The declaration `function f({ a }) {}` as it is modelled, with some entries in the pattern. -/
def functionOfEntries (entries : List Tree) : Tree :=
  .modelled .functionDeclaration ⟨1, 1⟩ [.modelled .identifier ⟨1, 1⟩ [.str "f"],
    .list [.modelled .objectPattern ⟨1, 1⟩ [.list entries]], .bool false, .bool false]

/-- The statement `export function f({ a }) {}`, with some entries in the pattern. -/
def functionExport (entries : List Tree) : Tree :=
  .modelled .exportNamedDeclaration ⟨1, 1⟩
    [functionOfEntries entries, .list [], .null, .str "value"]

theorem toParameter_patternParameter : patternParameter.toParameter =
    .ok (.modelled .objectPattern ⟨1, 1⟩ [.list [propertyOfName "a"]]) := by
  have hmember : (Syntax.node "shorthand_property_identifier_pattern" ⟨0, 0⟩ true none (some "a")
      []).toMember = .ok (propertyOfName "a") :=
    (Syntax.toMember_shorthand rfl).trans rfl
  have hmembers := Built.mapM_eq_ok_iff.mpr (.cons hmember .nil)
  have hpattern : (Syntax.node "object_pattern" ⟨0, 0⟩ true (some "pattern") none
      [.node "shorthand_property_identifier_pattern" ⟨0, 0⟩ true none (some "a") []]).toPattern =
        .ok (.modelled .objectPattern ⟨1, 1⟩ [.list [propertyOfName "a"]]) := by
    rw [Syntax.toPattern_object rfl]
    show (List.mapM Syntax.toMember [_] >>= fun members =>
      pure (Tree.modelled .objectPattern ⟨1, 1⟩ [.list members])) = _
    rw [hmembers]
    rfl
  show (Syntax.toPattern _ >>= fun pattern => pure pattern) = _
  rw [hpattern]
  rfl

theorem toProgram_functionModule : functionModule.root.toProgram =
    .ok (.modelled .program ⟨1, 1⟩ [.list [functionExport [propertyOfName "a"]]]) := by
  have hparameters := Built.mapM_eq_ok_iff.mpr (.cons toParameter_patternParameter .nil)
  have hfunction : functionOfPattern.toFunction = .ok (functionOfEntries [propertyOfName "a"]) := by
    show (List.mapM Syntax.toParameter [_] >>= fun params => pure (Tree.modelled
      .functionDeclaration ⟨1, 1⟩ [.modelled .identifier ⟨1, 1⟩ [.str "f"], .list params,
        .bool false, .bool false])) = _
    rw [hparameters]
    rfl
  have hstatement : (Syntax.node "export_statement" ⟨0, 0⟩ true none none
      [functionOfPattern]).toStatement = .ok (functionExport [propertyOfName "a"]) := by
    show (functionOfPattern.toFunction >>= fun declaration => pure (Tree.modelled
      .exportNamedDeclaration ⟨1, 1⟩ [declaration, .list [], .null, .str "value"])) = _
    rw [hfunction]
    rfl
  have hstatements := Built.mapM_eq_ok_iff.mpr (.cons hstatement .nil)
  show (List.mapM Syntax.toStatement [_] >>= fun ts =>
    pure (Tree.modelled .program ⟨1, 1⟩ [.list ts])) = _
  rw [hstatements]
  rfl

theorem program_functionModule : functionModule.program =
    .ok (.ofTree (.modelled .program ⟨1, 1⟩ [.list [functionExport [propertyOfName "a"]]])) := by
  unfold Module.program
  rw [toProgram_functionModule]
  rfl

/-- A parameter loses its property, which counts. -/
theorem strip_reaches_functionModule : ∃ p p', functionModule.program = .ok p ∧
    functionModule.root.Everywhere Syntax.Ordinary ∧ p.strip ["a"] = (.ok 1, p') ∧
    p'.tree.statements = [functionExport []] := by
  have hp := program_functionModule
  have hm : functionModule.root.Everywhere Syntax.Ordinary := by decide +kernel
  obtain ⟨lines, statements, removed, p', htree, hstrip, htree', hremoved, -⟩ :=
    strip_reaches hp hm ["a"]
  rw [Program.tree_ofTree] at htree hremoved
  obtain rfl : [functionExport [propertyOfName "a"]] = statements := congrArg Tree.statements htree
  rw [hremoved] at hstrip
  exact ⟨_, p', hp, hm, hstrip, congrArg Tree.statements htree'⟩

/-- Not only what variables are bound by is stripped, and counts. -/
theorem not_strip_variables_only :
    ¬ ∀ (m : Module) (p : Program), m.program = .ok p → m.root.Everywhere Syntax.Ordinary →
      ∀ names : List String, ∃ removed p', p.strip names = (.ok removed, p') ∧
        removed = ((p.tree.namedExports.flatMap Tree.variableBindings).flatMap
          (Tree.bound names)).length ∧
        ∀ t ∈ p.tree.namedExports, (t.get "declaration").hasType "FunctionDeclaration" = true →
          t ∈ p'.tree.namedExports := by
  intro hclaim
  have hp := program_functionModule
  have hm : functionModule.root.Everywhere Syntax.Ordinary := by decide +kernel
  obtain ⟨removed, p', hstrip, hremoved, -⟩ := hclaim _ _ hp hm ["a"]
  obtain ⟨statements, hintact⟩ := exists_intact_program hp hm
  obtain ⟨p'', hstrip', -⟩ := hintact.strip_eq ["a"]
  rw [hstrip', Program.tree_ofTree] at hstrip
  rw [Program.tree_ofTree] at hremoved
  cases hremoved
  cases hstrip

end Module

end NamedExports
