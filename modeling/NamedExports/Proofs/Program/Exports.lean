import NamedExports.Export.Match
import NamedExports.Proofs.Program.Conversion
import NamedExports.Proofs.Store.Load

/-!
# Exports read off the syntax

Which names a module exports can be read off its syntax tree directly, without a model in between:
`Syntax.exportMatch?` does so for one node at the top level.  The matches that are found in the
modelled program are the same ones, in the same order (`Module.matchesOf_tree_program`).
-/

namespace NamedExports

namespace Syntax

/-! ### Reading off -/

/-- Whether a node in the place of a pattern is the given name. -/
def bindsName (n : Syntax) (name : String) : Bool :=
  n.isName && n.text == some name

/-- Whether a statement declares a function of the given name. -/
def declaresFunction (n : Syntax) (name : String) : Bool :=
  (n.child? "declaration").any fun d =>
    d.isFunction && (d.child? "name").any fun c => c.text == some name

/-- What the first declarator of a statement declares. -/
def firstDeclared? (n : Syntax) : Option Syntax :=
  ((n.child? "declaration").filter isVariables).bind fun d =>
    d.declarators.head?.bind fun c => c.child? "name"

/-- Whether the first declarator of a statement declares the given name. -/
def declaresVariable (n : Syntax) (name : String) : Bool :=
  n.firstDeclared?.any fun c => c.bindsName name

/-- Whether an entry of an object pattern is a property that binds the given name. -/
def bindsProperty (n : Syntax) (name : String) : Bool :=
  n.kind == "shorthand_property_identifier_pattern" && n.text == some name ||
    n.kind == "pair_pattern" && (n.child? "value").any fun c => c.bindsName name

/-- Whether the first declarator of a statement takes the given name out of a value, as the first
that it takes. -/
def declaresDestructured (n : Syntax) (name : String) : Bool :=
  n.firstDeclared?.any fun c =>
    c.kind == "object_pattern" && c.parts.head?.any fun e => e.bindsProperty name

/-- Whether an entry of an export clause exports the given name: by its other name if it has one,
and not as a text. -/
def specifies (n : Syntax) (name : String) : Bool :=
  n.kind == "export_specifier" &&
    ((n.child? "alias").or (n.child? "name")).any fun c =>
      c.kind != "string" && c.text == some name

/-- Whether a statement has an export clause that exports the given name. -/
def hasSpecifier (n : Syntax) (name : String) : Bool :=
  n.parts.any fun clause =>
    clause.kind == "export_clause" && clause.parts.any fun c => c.specifies name

/-- The form in which a statement exports a name. -/
def exportForm? (n : Syntax) (name : String) : Option Form :=
  if !n.isNamedExport then none
  else if n.declaresFunction name then some .function
  else if n.declaresVariable name then some .declared
  else if n.declaresDestructured name then some .destructured
  else if n.hasSpecifier name then some .specifier
  else none

/-- The match of a name in a statement, with the lines of the statement counted from one. -/
def exportMatch? (n : Syntax) (name : String) : Option Match :=
  (n.exportForm? name).map fun form => ⟨name, form, .int n.lines.first, .int n.lines.last⟩

/-! ### Bindings -/

variable {n : Syntax} {t : Tree} {name : String}

theorem isName_of_kind {kind : String} (h : n.kind = kind)
    (hkind : kind ∉ ["identifier", "shorthand_property_identifier_pattern"]) :
    n.isName = false := by
  simp_all [isName]

/-- A converted pattern is an identifier of some name exactly if the pattern is that name. -/
theorem isIdentifierNamed_of_toPattern (h : n.toPattern = .ok t) :
    t.isIdentifierNamed name = n.bindsName name := by
  unfold bindsName
  cases patternIs_of_toPattern h with
  | @name text hname htext =>
    rw [hname, htext]
    show (text == name) = (some text == some name)
    simp
  | object hkind _ => rw [isName_of_kind hkind (by decide)]; rfl
  | array hkind _ => rw [isName_of_kind hkind (by decide)]; rfl
  | assignment hkind _ => rw [isName_of_kind hkind (by decide)]; rfl
  | rest hkind _ => rw [isName_of_kind hkind (by decide)]; rfl
  | other hname _ =>
    -- a plain node may be called an identifier, but it has no name
    rw [hname, Bool.false_and]
    exact Bool.and_false _

/-- The same where there may be no pattern. -/
theorem isIdentifierNamed_of_toPattern? {n? : Option Syntax} (h : toPattern? n? = .ok t) :
    t.isIdentifierNamed name = n?.any fun c => c.bindsName name := by
  cases n? with
  | none =>
    rw [← Built.pure_eq_ok.mp h]
    rfl
  | some c => exact isIdentifierNamed_of_toPattern h

/-- A converted entry of an object pattern is a property that binds some name exactly if the entry
is. -/
theorem bindsProperty_of_toMember (h : n.toMember = .ok t) :
    (t.hasType "ObjectProperty" && (t.get "value").isIdentifierNamed name) =
      n.bindsProperty name := by
  unfold bindsProperty
  cases memberIs_of_toMember h with
  | @pair key value hkind hkey hvalue =>
    rw [hkind]
    show value.isIdentifierNamed name = _
    rw [isIdentifierNamed_of_toPattern? hvalue]
    simp
  | @shorthand text hkind htext =>
    rw [hkind, htext]
    show (text == name) = _
    simp
  | defaulted hkind hkey hleft =>
    rw [hkind]
    rfl
  | rest hkind hpattern =>
    rw [hkind]
    rw [toPattern_rest hkind, Built.bind_eq_ok] at hpattern
    obtain ⟨argument, -, heq⟩ := hpattern
    rw [← Built.pure_eq_ok.mp heq]
    rfl
  | other hkind =>
    have hpair : n.kind ≠ "pair_pattern" := fun heq => hkind (by rw [heq]; decide)
    have hshorthand : n.kind ≠ "shorthand_property_identifier_pattern" := fun heq =>
      hkind (by rw [heq]; decide)
    rw [beq_false_of_ne hpair, beq_false_of_ne hshorthand]
    exact Bool.and_false _

/-- The first entry of a list is its head. -/
theorem firstEntry_list (items : List Tree) :
    (Tree.list items).firstEntry = .ok (items.head?.getD .null) := by
  cases items <;> rfl

theorem entries_list (items : List Tree) : (Tree.list items).entries = .ok items := by
  cases items <;> rfl

/-- The first entry of a converted object pattern is a property that binds some name exactly if the
first entry of the pattern is. -/
theorem destructures_of_toPattern (h : n.toPattern = .ok t) :
    (if t.hasType "ObjectPattern" then do
      let property ← (t.get "properties").firstEntry
      return property.hasType "ObjectProperty" && (property.get "value").isIdentifierNamed name
    else return false) =
      (.ok (n.kind == "object_pattern" && n.parts.head?.any fun e => e.bindsProperty name) :
        Except Fault Bool) := by
  have hother : ∀ {kind : String}, n.kind = kind → kind ≠ "object_pattern" →
      (n.kind == "object_pattern") = false := by
    rintro kind rfl hne
    exact beq_false_of_ne hne
  cases patternIs_of_toPattern h with
  | name hname htext =>
    have hkind : n.kind ≠ "object_pattern" := by
      intro hkind
      rw [isName_of_kind hkind (by decide)] at hname
      exact absurd hname (by decide)
    rw [beq_false_of_ne hkind]
    rfl
  | @object entries hkind hentries =>
    rw [hkind]
    show (do
      let property ← (Tree.list entries).firstEntry
      return property.hasType "ObjectProperty" && (property.get "value").isIdentifierNamed name)
        = _
    rw [firstEntry_list]
    cases hparts : n.parts with
    | nil =>
      rw [hparts] at hentries
      cases hentries
      rfl
    | cons c cs =>
      rw [hparts] at hentries
      cases hentries with
      | cons hc _ => exact congrArg Except.ok (bindsProperty_of_toMember hc)
  | array hkind _ => rw [hother hkind (by decide)]; rfl
  | assignment hkind _ => rw [hother hkind (by decide)]; rfl
  | rest hkind _ => rw [hother hkind (by decide)]; rfl
  | other hname hkind =>
    -- a plain node may be called an object pattern, but it has no entries
    have hkind' : n.kind ≠ "object_pattern" := fun heq => hkind (by rw [heq]; decide)
    rw [beq_false_of_ne hkind']
    split <;> rfl

/-! ### Declarations -/

/-- A converted name, which may be missing, has the text of the name. -/
theorem isText_of_toIdentifier? {n? : Option Syntax} (h : toIdentifier? n? = .ok t) :
    (t.get "name").isText name = n?.any fun c => c.text == some name := by
  cases n? with
  | none =>
    rw [← Built.pure_eq_ok.mp h]
    rfl
  | some c =>
    obtain ⟨text, htext, rfl⟩ := toIdentifier_eq_ok.mp h
    rw [Option.any_some, htext]
    show (text == name) = _
    simp

/-- What the first of the converted declarators binds is the conversion of what the first declarator
declares. -/
theorem firstBinding_of_declarators {cs : List Syntax} {declared : List Tree}
    (h : List.Forall₂ (fun c d => toDeclarator c = .ok d) cs declared) :
    ∃ binding, (do
      let declarator ← (Tree.list declared).firstEntry
      return if declarator.hasType "VariableDeclarator" then declarator.get "id" else .null) =
        .ok binding ∧ toPattern? (cs.head?.bind fun c => c.child? "name") = .ok binding := by
  rw [firstEntry_list]
  cases h with
  | nil => exact ⟨.null, rfl, rfl⟩
  | cons hc _ =>
    obtain ⟨binding, hbinding, rfl⟩ := exists_of_toDeclarator hc
    exact ⟨binding, rfl, hbinding⟩

/-- A converted declaration is a function of some name exactly if the declaration is. -/
theorem exportsFunction_of_toDeclaration {statement : Tree}
    (h : toDeclaration? (n.child? "declaration") = .ok (statement.get "declaration")) :
    statement.exportsFunction name = n.declaresFunction name := by
  unfold Tree.exportsFunction declaresFunction
  generalize statement.get "declaration" = declaration at h ⊢
  cases hd : n.child? "declaration" with
  | none =>
    rw [hd] at h
    rw [← Built.pure_eq_ok.mp h]
    rfl
  | some d =>
    rw [hd] at h
    rw [Option.any_some]
    cases declarationIs_of_toDeclaration h with
    | function hfunction hid =>
      rw [hfunction, Bool.true_and]
      exact isText_of_toIdentifier? hid
    | binding hfunction =>
      rw [hfunction]
      rfl
    | other hfunction =>
      rw [hfunction]
      exact Bool.and_false _

/-- The first binding of a converted statement is the conversion of what its first declarator
declares. -/
theorem firstBinding_of_toDeclaration {statement : Tree}
    (h : toDeclaration? (n.child? "declaration") = .ok (statement.get "declaration")) :
    ∃ binding, statement.firstBinding = .ok binding ∧
      toPattern? n.firstDeclared? = .ok binding := by
  unfold Tree.firstBinding firstDeclared?
  generalize statement.get "declaration" = declaration at h ⊢
  cases hd : n.child? "declaration" with
  | none =>
    rw [hd] at h
    rw [← Built.pure_eq_ok.mp h]
    exact ⟨.null, rfl, rfl⟩
  | some d =>
    rw [hd] at h
    cases declarationIs_of_toDeclaration h with
    | function hfunction =>
      rw [Option.filter_some, isVariables_of_isFunction hfunction]
      exact ⟨.null, rfl, rfl⟩
    | binding _ hvariables hdeclared =>
      rw [Option.filter_some, if_pos hvariables, Option.bind_some]
      exact firstBinding_of_declarators hdeclared
    | other hfunction hvariables =>
      rw [Option.filter_some, hvariables]
      -- a plain node may be called a variable declaration, but it has no declarators
      refine ⟨.null, ?_, rfl⟩
      dsimp only
      split <;> rfl

/-! ### Export clauses -/

/-- A converted name of an export clause is an identifier of some name exactly if it is that name,
and not as a text. -/
theorem isIdentifierNamed_of_toExportName? {n? : Option Syntax} (h : toExportName? n? = .ok t) :
    t.isIdentifierNamed name = n?.any fun c => c.kind != "string" && c.text == some name := by
  cases n? with
  | none =>
    rw [← Built.pure_eq_ok.mp h]
    rfl
  | some c =>
    change c.toExportName = .ok t at h
    unfold toExportName at h
    rw [Option.any_some]
    by_cases hkind : c.kind = "string"
    · rw [if_pos hkind] at h
      obtain ⟨text, -, rfl⟩ := toStringLiteral_eq_ok.mp h
      rw [hkind]
      rfl
    · rw [if_neg hkind] at h
      obtain ⟨text, htext, rfl⟩ := toIdentifier_eq_ok.mp h
      have hne : (c.kind != "string") = true := by simpa using hkind
      rw [hne, htext]
      show (text == name) = _
      simp

/-- Whether a specifier exports a name, as the program is asked. -/
def exportsAsSpecifier (name : String) (t : Tree) : Bool :=
  t.hasType "ExportSpecifier" && (t.get "exported").isIdentifierNamed name

/-- Some specifier of a converted part of a statement exports a name exactly if the part is an
export clause with such an entry. -/
theorem any_of_toSpecifiers {specifiers : List Tree} (h : n.toSpecifiers = .ok specifiers) :
    specifiers.any (exportsAsSpecifier name) =
      (n.kind == "export_clause" && n.parts.any fun c => c.specifies name) := by
  unfold toSpecifiers at h
  split at h
  · rename_i hkind
    have hentries : n.parts.any (fun c => c.specifies name) =
        (n.parts.filter fun c => c.kind == "export_specifier").any fun c => c.specifies name := by
      rw [List.any_filter]
      refine congrArg (n.parts.any ·) (funext fun c => ?_)
      unfold specifies
      cases c.kind == "export_specifier" <;> rfl
    rw [hkind, hentries]
    refine any_of_forall₂ (Built.mapM_eq_ok_iff.mp h) fun c hc t ht => ?_
    obtain ⟨local_, exported, -, hexported, rfl⟩ := exists_of_toSpecifier ht
    unfold specifies
    rw [(List.mem_filter.mp hc).2, ← isIdentifierNamed_of_toExportName? hexported]
    rfl
  · rename_i hkind
    obtain ⟨exported, -, heq⟩ := Built.bind_eq_ok.mp h
    rw [← Built.pure_eq_ok.mp heq, hkind]
    rfl
  · rename_i hclause _
    rw [← Built.pure_eq_ok.mp h, beq_false_of_ne hclause]
    rfl

/-- Some specifier of a converted statement exports a name exactly if the statement has an export
clause that does. -/
theorem any_flatten_of_toSpecifiers {specifiers : List (List Tree)}
    (h : List.Forall₂ (fun c ts => toSpecifiers c = .ok ts) n.parts specifiers) :
    specifiers.flatten.any (exportsAsSpecifier name) = n.hasSpecifier name := by
  rw [List.any_flatten]
  exact any_of_forall₂ h fun c _ ts hts => any_of_toSpecifiers hts

/-! ### Statements and programs -/

/-- The form of an export is the first one that is asked for and found. -/
theorem exportForm?_eq {statement : Tree} {declared destructured specifier : Bool}
    (hdeclared : statement.exportsVariable name = .ok declared)
    (hdestructured : statement.exportsDestructured name = .ok destructured)
    (hspecifier : statement.exportsSpecifier name = .ok specifier) :
    statement.exportForm? name = .ok
      (if statement.exportsFunction name then some .function
      else if declared then some .declared
      else if destructured then some .destructured
      else if specifier then some .specifier
      else none) := by
  unfold Tree.exportForm? Form.all
  simp only [Tree.formAmong?, Tree.exportsAs, hdeclared, hdestructured, hspecifier, bind,
    Except.bind, pure, Except.pure]
  cases statement.exportsFunction name <;> cases declared <;> cases destructured <;>
    cases specifier <;> rfl

/-- The form of a converted statement is the one that is read off. -/
theorem exportForm?_of_toStatement (h : n.toStatement = .ok t) :
    t.exportForm? name = .ok (n.exportForm? name) := by
  unfold exportForm?
  cases hexport : n.isNamedExport with
  | false =>
    obtain ⟨type, htype, -⟩ := toStatement_other hexport
    rw [htype, Except.ok.injEq] at h
    rw [← h]
    rfl
  | true =>
    rw [toStatement_namedExport hexport] at h
    obtain ⟨declaration, specifiers, source, kind, hdeclaration, hspecifiers, -, rfl⟩ :=
      exists_of_toNamedExport h
    obtain ⟨statement, hstatement⟩ : ∃ s, s = Tree.modelled .exportNamedDeclaration n.lines
      [declaration, .list specifiers.flatten, source, .str kind] := ⟨_, rfl⟩
    have hget : toDeclaration? (n.child? "declaration") = .ok (statement.get "declaration") := by
      rw [hstatement]
      exact hdeclaration
    obtain ⟨binding, hfirst, hbinding⟩ := firstBinding_of_toDeclaration hget
    have hdeclared : statement.exportsVariable name = .ok (n.declaresVariable name) := by
      unfold Tree.exportsVariable declaresVariable
      rw [hfirst, ← isIdentifierNamed_of_toPattern? hbinding]
      rfl
    have hdestructured : statement.exportsDestructured name =
        .ok (n.declaresDestructured name) := by
      unfold Tree.exportsDestructured declaresDestructured
      rw [hfirst]
      cases hc : n.firstDeclared? with
      | none =>
        rw [hc] at hbinding
        rw [← Built.pure_eq_ok.mp hbinding]
        rfl
      | some c =>
        rw [hc] at hbinding
        exact destructures_of_toPattern hbinding
    have hspecifier : statement.exportsSpecifier name = .ok (n.hasSpecifier name) := by
      rw [← any_flatten_of_toSpecifiers hspecifiers, hstatement]
      show ((Tree.list specifiers.flatten).entries >>= fun items =>
        pure (items.any (exportsAsSpecifier name))) = _
      rw [entries_list]
      rfl
    rw [← hstatement, exportForm?_eq hdeclared hdestructured hspecifier,
      exportsFunction_of_toDeclaration hget]
    rfl

/-- A converted statement has the lines of the statement. -/
theorem lines_of_toStatement (h : n.toStatement = .ok t) :
    t.get "start_line" = .int n.lines.first ∧ t.get "end_line" = .int n.lines.last := by
  cases hexport : n.isNamedExport with
  | false =>
    obtain ⟨type, htype, -⟩ := toStatement_other hexport
    rw [htype, Except.ok.injEq] at h
    rw [← h]
    exact ⟨rfl, rfl⟩
  | true =>
    rw [toStatement_namedExport hexport] at h
    obtain ⟨declaration, specifiers, source, kind, -, -, -, rfl⟩ := exists_of_toNamedExport h
    exact ⟨rfl, rfl⟩

/-- The match in a converted statement is the one that is read off. -/
theorem matchIn?_of_toStatement (h : n.toStatement = .ok t) :
    t.matchIn? name = .ok (n.exportMatch? name) := by
  obtain ⟨hfirst, hlast⟩ := lines_of_toStatement h
  unfold Tree.matchIn? exportMatch?
  rw [exportForm?_of_toStatement h, hfirst, hlast]
  cases n.exportForm? name <;> rfl

/-- A statement that is not taken for a named export has no match. -/
theorem exportMatch?_eq_none (h : n.toStatement = .ok t)
    (htype : t.hasType Tree.namedExportType = false) : n.exportMatch? name = none := by
  cases hexport : n.isNamedExport with
  | false =>
    unfold exportMatch? exportForm?
    rw [hexport]
    rfl
  | true =>
    rw [toStatement_namedExport hexport] at h
    obtain ⟨declaration, specifiers, source, kind, -, -, -, rfl⟩ := exists_of_toNamedExport h
    exact Bool.noConfusion htype

/-- The matches in converted statements are those that are read off, in the same order. -/
theorem mapM_matchIn?_of_toStatement (name : String) {parts : List Syntax} {statements : List Tree}
    (h : List.Forall₂ (fun c s => toStatement c = .ok s) parts statements) :
    ∃ found, (statements.filter (·.hasType Tree.namedExportType)).mapM (Tree.matchIn? name) =
        .ok found ∧
      found.filterMap id = parts.filterMap fun c => c.exportMatch? name := by
  induction h with
  | nil => exact ⟨[], rfl, rfl⟩
  | @cons c s parts statements hc _ ih =>
    obtain ⟨found, hfound, hsame⟩ := ih
    cases htype : s.hasType Tree.namedExportType with
    | false =>
      refine ⟨found, ?_, ?_⟩
      · rw [List.filter_cons_of_neg (by simp [htype]), hfound]
      · rw [hsame, List.filterMap_cons, exportMatch?_eq_none hc htype]
    | true =>
      refine ⟨c.exportMatch? name :: found, ?_, ?_⟩
      · rw [List.filter_cons_of_pos (by simpa using htype), List.mapM_cons,
          matchIn?_of_toStatement hc, hfound]
        rfl
      · rw [List.filterMap_cons, List.filterMap_cons, hsame]
        rfl

end Syntax

/-- A match is of the name that is looked for, in the form and with the lines of a named export. -/
theorem Tree.exists_of_mem_matchesOf {t : Tree} {name : String} {found : List Match} {m : Match}
    (h : t.matchesOf name = .ok found) (hm : m ∈ found) :
    ∃ statement ∈ t.namedExports, statement.exportForm? name = .ok (some m.form) ∧
      m = ⟨name, m.form, statement.get "start_line", statement.get "end_line"⟩ := by
  obtain ⟨found', hfound', hfound⟩ := Built.bind_eq_ok.mp h
  rw [← Built.pure_eq_ok.mp hfound, List.mem_filterMap] at hm
  obtain ⟨_, hmem, rfl⟩ := hm
  obtain ⟨statement, hstatement, hmatch⟩ := Built.exists_of_mem_mapM hfound' hmem
  obtain ⟨form, hform, hrest⟩ := Built.bind_eq_ok.mp hmatch
  cases form with
  | none => cases Built.pure_eq_ok.mp hrest
  | some form =>
    cases Built.pure_eq_ok.mp hrest
    exact ⟨statement, hstatement, hform, rfl⟩

/-- The exports that are found in the program of a module are those that are read off its syntax:
statement by statement in their order, each with its form and its lines. -/
theorem Module.matchesOf_tree_program {m : Module} {p : Program} (h : m.program = .ok p)
    (name : String) :
    p.tree.matchesOf name = .ok (m.root.parts.filterMap fun n => n.exportMatch? name) := by
  obtain ⟨t, ht, hp⟩ := Built.bind_eq_ok.mp h
  obtain ⟨statements, hstatements, rfl⟩ := Syntax.exists_of_toProgram ht
  obtain ⟨found, hfound, hsame⟩ := Syntax.mapM_matchIn?_of_toStatement name hstatements
  rw [← Built.pure_eq_ok.mp hp, Program.tree_ofTree, ← hsame]
  unfold Tree.matchesOf
  show ((statements.filter (·.hasType Tree.namedExportType)).mapM (Tree.matchIn? name) >>=
    fun found => pure (found.filterMap id)) = _
  rw [hfound]
  rfl

/-- The module `export function a() {}` with `export { b as a }` in its second line. -/
def repeatedExport : Module where
  root := .node "program" ⟨0, 1⟩ true none none
    [.node "export_statement" ⟨0, 0⟩ true none none
      [.node "export" ⟨0, 0⟩ false none none [],
        .node "function_declaration" ⟨0, 0⟩ true (some "declaration") none
          [.node "identifier" ⟨0, 0⟩ true (some "name") (some "a") []]],
      .node "export_statement" ⟨1, 1⟩ true none none
        [.node "export" ⟨1, 1⟩ false none none [],
          .node "export_clause" ⟨1, 1⟩ true none none
            [.node "export_specifier" ⟨1, 1⟩ true none none
              [.node "identifier" ⟨1, 1⟩ true (some "name") (some "b") [],
                .node "identifier" ⟨1, 1⟩ true (some "alias") (some "a") []]]]]
  damaged := false

/-- A name that is exported twice has two matches. -/
theorem Module.matchesOf_tree_repeatedExport : ∃ p, repeatedExport.program = .ok p ∧
    p.tree.matchesOf "a" =
      .ok [⟨"a", .function, .int 1, .int 1⟩, ⟨"a", .specifier, .int 2, .int 2⟩] := by
  obtain ⟨p, hp⟩ : ∃ p, repeatedExport.program = .ok p := ⟨_, rfl⟩
  exact ⟨p, hp, (Module.matchesOf_tree_program hp "a").trans rfl⟩

end NamedExports
