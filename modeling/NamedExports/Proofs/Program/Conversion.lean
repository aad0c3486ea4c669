import Mathlib.Data.List.Forall2
import NamedExports.Program.Statement

/-!
# What syntax is converted to

The conversion of a syntax tree is a recursion that may stop at a text that cannot be read.  This
module says what each of its functions gives where it gives something: one equation or equivalence
for each, by which later modules take conversions apart without unfolding them.  Lists are converted
item by item (`Built.mapM_eq_ok_iff`).
-/

namespace NamedExports

/-! ### Steps that may fail -/

namespace Built

variable {ε α β : Type}

theorem bind_eq_ok {x : Except ε α} {f : α → Except ε β} {b : β} :
    (x >>= f) = .ok b ↔ ∃ a, x = .ok a ∧ f a = .ok b := by
  cases x <;> simp [bind, Except.bind]

theorem pure_eq_ok {a b : α} : (pure a : Except ε α) = .ok b ↔ a = b := by
  simp [pure, Except.pure]

/-- A list is converted item by item. -/
theorem mapM_eq_ok_iff {f : α → Except ε β} {as : List α} {bs : List β} :
    as.mapM f = .ok bs ↔ List.Forall₂ (fun a b => f a = .ok b) as bs := by
  induction as generalizing bs with
  | nil => cases bs <;> simp [pure_eq_ok]
  | cons a as ih =>
    rw [List.mapM_cons, bind_eq_ok]
    constructor
    · rintro ⟨b, hb, hrest⟩
      obtain ⟨bs', hbs', hcons⟩ := bind_eq_ok.mp hrest
      rw [← pure_eq_ok.mp hcons]
      exact .cons hb (ih.mp hbs')
    · intro h
      cases h with
      | cons hb hrest => exact ⟨_, hb, bind_eq_ok.mpr ⟨_, ih.mpr hrest, rfl⟩⟩

/-- What a list is converted to has been converted from its items. -/
theorem exists_of_mem_mapM {f : α → Except ε β} {as : List α} {bs : List β} {b : β}
    (h : as.mapM f = .ok bs) (hb : b ∈ bs) : ∃ a ∈ as, f a = .ok b := by
  have hpairs := mapM_eq_ok_iff.mp h
  clear h
  induction hpairs with
  | nil => cases hb
  | @cons a _ as _ ha _ ih =>
    rcases List.mem_cons.mp hb with rfl | hb
    · exact ⟨a, List.mem_cons_self, ha⟩
    · obtain ⟨a', ha', hb'⟩ := ih hb
      exact ⟨a', List.mem_cons_of_mem _ ha', hb'⟩

/-- A list of which every item is converted. -/
theorem exists_mapM_eq_ok {γ : Type} {f : α → Except ε β} {g : γ → β} {as : List α}
    (h : ∀ a ∈ as, ∃ c, f a = .ok (g c)) : ∃ cs : List γ, as.mapM f = .ok (cs.map g) := by
  induction as with
  | nil => exact ⟨[], rfl⟩
  | cons a as ih =>
    obtain ⟨c, hc⟩ := h a List.mem_cons_self
    obtain ⟨cs, hcs⟩ := ih fun b hb => h b (List.mem_cons_of_mem _ hb)
    refine ⟨c :: cs, ?_⟩
    rw [List.mapM_cons, hc, hcs]
    rfl

end Built

/-- Where partners in two lists share a property, some item of the one has it exactly if some item of
the other does. -/
theorem any_of_forall₂ {α β : Type} {R : α → β → Prop} {p : α → Bool} {q : β → Bool} {as : List α}
    {bs : List β} (h : List.Forall₂ R as bs) (hpq : ∀ a ∈ as, ∀ b, R a b → q b = p a) :
    bs.any q = as.any p := by
  induction h with
  | nil => rfl
  | @cons a b as bs hab _ ih =>
    rw [List.any_cons, List.any_cons, hpq a List.mem_cons_self b hab,
      ih fun a ha => hpq a (List.mem_cons_of_mem _ ha)]

namespace Syntax

variable {n : Syntax} {t : Tree}

/-! ### Names and texts -/

theorem readText_eq_ok {text : String} : n.readText = .ok text ↔ n.text = some text := by
  unfold readText
  cases n.text <;> simp

theorem toIdentifier_eq_ok : n.toIdentifier = .ok t ↔
    ∃ text, n.text = some text ∧ t = .modelled .identifier n.lines [.str text] := by
  unfold toIdentifier
  rw [Built.bind_eq_ok]
  simp only [readText_eq_ok, Built.pure_eq_ok]
  exact ⟨fun ⟨text, h, heq⟩ => ⟨text, h, heq.symm⟩, fun ⟨text, h, heq⟩ => ⟨text, h, heq.symm⟩⟩

theorem toStringLiteral_eq_ok : n.toStringLiteral = .ok t ↔
    ∃ text, n.text = some text ∧ t = .modelled .stringLiteral n.lines [.str (unquoted text)] := by
  unfold toStringLiteral
  rw [Built.bind_eq_ok]
  simp only [readText_eq_ok, Built.pure_eq_ok]
  exact ⟨fun ⟨text, h, heq⟩ => ⟨text, h, heq.symm⟩, fun ⟨text, h, heq⟩ => ⟨text, h, heq.symm⟩⟩

/-! ### Patterns -/

/-- Whether a node in the place of a pattern is a name. -/
def isName (n : Syntax) : Bool :=
  n.kind == "identifier" || n.kind == "shorthand_property_identifier_pattern"

theorem toMembers_eq_mapM (cs : List Syntax) : toMembers cs = cs.mapM toMember := by
  induction cs with
  | nil =>
    rw [toMembers]
    rfl
  | cons c cs ih =>
    rw [toMembers, ih, List.mapM_cons]

theorem toPatterns_eq_mapM (cs : List Syntax) : toPatterns cs = cs.mapM toPattern := by
  induction cs with
  | nil =>
    rw [toPatterns]
    rfl
  | cons c cs ih =>
    rw [toPatterns, ih, List.mapM_cons]

theorem toPattern_of_isName (h : n.isName = true) : n.toPattern = n.toIdentifier := by
  unfold toPattern
  rcases (Bool.or_eq_true _ _).mp h with hkind | hkind <;>
  · rw [beq_iff_eq] at hkind
    simp only [hkind]

theorem toPattern_object (h : n.kind = "object_pattern") : n.toPattern = do
    return .modelled .objectPattern n.lines [.list (← n.parts.mapM toMember)] := by
  unfold toPattern
  simp only [h, toMembers_eq_mapM]

theorem toPattern_array (h : n.kind = "array_pattern") : n.toPattern = do
    return .modelled .arrayPattern n.lines [.list (← n.parts.mapM toPattern)] := by
  unfold toPattern
  simp only [h, toPatterns_eq_mapM]

theorem toPattern_assignment (h : n.kind = "assignment_pattern") : n.toPattern = do
    return defaulted n.lines (← toPattern? (n.child? "left")) (n.child? "right") := by
  unfold toPattern
  simp only [h]
  split <;> rename_i heq <;> rw [heq] <;> rfl

theorem toPattern_rest (h : n.kind = "rest_pattern") : n.toPattern = do
    return .modelled .restElement n.lines [← toPattern? n.parts.head?] := by
  unfold toPattern
  simp only [h]
  split <;> rename_i heq <;> rw [heq] <;> rfl

/-- The kinds of nodes that are patterns of their own, other than names. -/
def nestedKinds : List String :=
  ["object_pattern", "array_pattern", "assignment_pattern", "rest_pattern"]

theorem toPattern_other (hname : n.isName = false) (h : n.kind ∉ nestedKinds) :
    n.toPattern = .ok n.toPlain := by
  unfold toPattern
  split
  · simp_all [isName]
  · simp_all [isName]
  · simp_all [nestedKinds]
  · simp_all [nestedKinds]
  · simp_all [nestedKinds]
  · simp_all [nestedKinds]
  · rfl

/-! ### Entries of object patterns -/

theorem toMember_pair (h : n.kind = "pair_pattern") : n.toMember = do
    let value ← toPattern? (n.child? "value")
    return .modelled .objectProperty n.lines
      [← toKey? (n.child? "key"), value, .bool false, .bool (isComputed (n.child? "key"))] := by
  unfold toMember
  simp only [h]
  split <;> rename_i heq <;> rw [heq] <;> rfl

theorem toMember_shorthand (h : n.kind = "shorthand_property_identifier_pattern") :
    n.toMember = do
      return .modelled .objectProperty n.lines
        [← n.toIdentifier, ← n.toIdentifier, .bool true, .bool false] := by
  unfold toMember
  simp only [h]

theorem toMember_defaulted (h : n.kind = "object_assignment_pattern") : n.toMember = do
    let key ← toDefaultedKey n (n.child? "left")
    let left ← toPattern? (n.child? "left")
    return .modelled .objectProperty n.lines
      [key, defaulted n.lines left (n.child? "right"), .bool true, .bool false] := by
  unfold toMember
  simp only [h]
  split <;> rename_i heq <;> rw [heq] <;> rfl

theorem toMember_rest (h : n.kind = "rest_pattern") : n.toMember = n.toPattern := by
  unfold toMember
  simp only [h]

/-- The kinds of nodes that are entries of object patterns. -/
def memberKinds : List String :=
  ["pair_pattern", "shorthand_property_identifier_pattern", "object_assignment_pattern",
    "rest_pattern"]

theorem toMember_other (h : n.kind ∉ memberKinds) : n.toMember = .ok n.toPlain := by
  unfold toMember
  split
  · simp_all [memberKinds]
  · simp_all [memberKinds]
  · simp_all [memberKinds]
  · simp_all [memberKinds]
  · rfl

/-! ### All outcomes -/

/-- What a node in the place of a pattern is converted to. -/
inductive PatternIs (n : Syntax) : Tree → Prop where
  | name {text : String} (hname : n.isName = true) (htext : n.text = some text) :
      PatternIs n (.modelled .identifier n.lines [.str text])
  | object {entries : List Tree} (hkind : n.kind = "object_pattern")
      (hentries : List.Forall₂ (fun c e => toMember c = .ok e) n.parts entries) :
      PatternIs n (.modelled .objectPattern n.lines [.list entries])
  | array {elements : List Tree} (hkind : n.kind = "array_pattern")
      (helements : List.Forall₂ (fun c e => toPattern c = .ok e) n.parts elements) :
      PatternIs n (.modelled .arrayPattern n.lines [.list elements])
  | assignment {left : Tree} (hkind : n.kind = "assignment_pattern")
      (hleft : toPattern? (n.child? "left") = .ok left) :
      PatternIs n (defaulted n.lines left (n.child? "right"))
  | rest {argument : Tree} (hkind : n.kind = "rest_pattern")
      (hargument : toPattern? n.parts.head? = .ok argument) :
      PatternIs n (.modelled .restElement n.lines [argument])
  | other (hname : n.isName = false) (hkind : n.kind ∉ nestedKinds) : PatternIs n n.toPlain

/-- What a node in the place of an entry of an object pattern is converted to. -/
inductive MemberIs (n : Syntax) : Tree → Prop where
  | pair {key value : Tree} (hkind : n.kind = "pair_pattern")
      (hkey : toKey? (n.child? "key") = .ok key)
      (hvalue : toPattern? (n.child? "value") = .ok value) :
      MemberIs n (.modelled .objectProperty n.lines
        [key, value, .bool false, .bool (isComputed (n.child? "key"))])
  | shorthand {text : String} (hkind : n.kind = "shorthand_property_identifier_pattern")
      (htext : n.text = some text) :
      MemberIs n (.modelled .objectProperty n.lines
        [.modelled .identifier n.lines [.str text], .modelled .identifier n.lines [.str text],
          .bool true, .bool false])
  | defaulted {key left : Tree} (hkind : n.kind = "object_assignment_pattern")
      (hkey : toDefaultedKey n (n.child? "left") = .ok key)
      (hleft : toPattern? (n.child? "left") = .ok left) :
      MemberIs n (.modelled .objectProperty n.lines
        [key, Syntax.defaulted n.lines left (n.child? "right"), .bool true, .bool false])
  | rest {pattern : Tree} (hkind : n.kind = "rest_pattern") (hpattern : n.toPattern = .ok pattern) :
      MemberIs n pattern
  | other (hkind : n.kind ∉ memberKinds) : MemberIs n n.toPlain

theorem patternIs_of_toPattern (h : n.toPattern = .ok t) : PatternIs n t := by
  -- the conversion asks for names first and then for the kinds one after the other
  cases hname : n.isName with
  | true =>
    rw [toPattern_of_isName hname, toIdentifier_eq_ok] at h
    obtain ⟨text, htext, rfl⟩ := h
    exact .name hname htext
  | false =>
    by_cases hobject : n.kind = "object_pattern"
    · rw [toPattern_object hobject, Built.bind_eq_ok] at h
      obtain ⟨entries, hentries, heq⟩ := h
      rw [← Built.pure_eq_ok.mp heq]
      exact .object hobject (Built.mapM_eq_ok_iff.mp hentries)
    by_cases harray : n.kind = "array_pattern"
    · rw [toPattern_array harray, Built.bind_eq_ok] at h
      obtain ⟨elements, helements, heq⟩ := h
      rw [← Built.pure_eq_ok.mp heq]
      exact .array harray (Built.mapM_eq_ok_iff.mp helements)
    by_cases hassignment : n.kind = "assignment_pattern"
    · rw [toPattern_assignment hassignment, Built.bind_eq_ok] at h
      obtain ⟨left, hleft, heq⟩ := h
      rw [← Built.pure_eq_ok.mp heq]
      exact .assignment hassignment hleft
    by_cases hrest : n.kind = "rest_pattern"
    · rw [toPattern_rest hrest, Built.bind_eq_ok] at h
      obtain ⟨argument, hargument, heq⟩ := h
      rw [← Built.pure_eq_ok.mp heq]
      exact .rest hrest hargument
    have hkind : n.kind ∉ nestedKinds := by
      simp [nestedKinds, hobject, harray, hassignment, hrest]
    rw [toPattern_other hname hkind, Except.ok.injEq] at h
    rw [← h]
    exact .other hname hkind

theorem memberIs_of_toMember (h : n.toMember = .ok t) : MemberIs n t := by
  by_cases hpair : n.kind = "pair_pattern"
  · rw [toMember_pair hpair] at h
    simp only [Built.bind_eq_ok, Built.pure_eq_ok] at h
    obtain ⟨value, hvalue, key, hkey, rfl⟩ := h
    exact .pair hpair hkey hvalue
  by_cases hshorthand : n.kind = "shorthand_property_identifier_pattern"
  · rw [toMember_shorthand hshorthand] at h
    simp only [Built.bind_eq_ok, Built.pure_eq_ok, toIdentifier_eq_ok] at h
    obtain ⟨_, ⟨text, htext, rfl⟩, _, ⟨text', htext', rfl⟩, rfl⟩ := h
    cases htext.symm.trans htext'
    exact .shorthand hshorthand htext
  by_cases hdefaulted : n.kind = "object_assignment_pattern"
  · rw [toMember_defaulted hdefaulted] at h
    simp only [Built.bind_eq_ok, Built.pure_eq_ok] at h
    obtain ⟨key, hkey, left, hleft, rfl⟩ := h
    exact .defaulted hdefaulted hkey hleft
  by_cases hrest : n.kind = "rest_pattern"
  · rw [toMember_rest hrest] at h
    exact .rest hrest h
  have hkind : n.kind ∉ memberKinds := by
    simp [memberKinds, hpair, hshorthand, hdefaulted, hrest]
  rw [toMember_other hkind, Except.ok.injEq] at h
  rw [← h]
  exact .other hkind

/-! ### Declarations -/

theorem exists_of_toFunction (h : n.toFunction = .ok t) : ∃ id params,
    toIdentifier? (n.child? "name") = .ok id ∧ toParameters? (n.child? "parameters") = .ok params ∧
    t = .modelled .functionDeclaration n.lines
      [id, .list params, .bool (n.children.any fun c => c.kind == "async"),
        .bool (n.kind == "generator_function_declaration")] := by
  unfold toFunction at h
  simp only [Built.bind_eq_ok, Built.pure_eq_ok] at h
  obtain ⟨id, hid, params, hparams, rfl⟩ := h
  exact ⟨id, params, hid, hparams, rfl⟩

theorem exists_of_toDeclarator (h : n.toDeclarator = .ok t) : ∃ binding,
    toPattern? (n.child? "name") = .ok binding ∧
    t = .modelled .variableDeclarator n.lines [binding, toPlain? (n.child? "value")] := by
  unfold toDeclarator at h
  simp only [Built.bind_eq_ok, Built.pure_eq_ok] at h
  obtain ⟨binding, hbinding, rfl⟩ := h
  exact ⟨binding, hbinding, rfl⟩

/-- The declarators of a variable declaration. -/
def declarators (n : Syntax) : List Syntax :=
  n.parts.filter fun c => c.kind == "variable_declarator"

theorem exists_of_toVariables (h : n.toVariables = .ok t) : ∃ word declared,
    List.Forall₂ (fun c d => toDeclarator c = .ok d) n.declarators declared ∧
    t = .modelled .variableDeclaration n.lines [.str word, .list declared] := by
  unfold toVariables at h
  simp only [Built.bind_eq_ok, Built.pure_eq_ok] at h
  obtain ⟨word, -, declared, hdeclared, rfl⟩ := h
  exact ⟨word, declared, Built.mapM_eq_ok_iff.mp hdeclared, rfl⟩

/-- Whether a node is a function declaration. -/
def isFunction (n : Syntax) : Bool :=
  n.kind == "function_declaration" || n.kind == "generator_function_declaration"

/-- Whether a node is a declaration of variables. -/
def isVariables (n : Syntax) : Bool :=
  n.kind == "lexical_declaration" || n.kind == "variable_declaration"

theorem toDeclaration_function (h : n.isFunction = true) : n.toDeclaration = n.toFunction := by
  unfold toDeclaration
  rcases (Bool.or_eq_true _ _).mp h with hkind | hkind <;>
  · rw [beq_iff_eq] at hkind
    simp only [hkind]

theorem toDeclaration_variables (h : n.isVariables = true) : n.toDeclaration = n.toVariables := by
  unfold toDeclaration
  rcases (Bool.or_eq_true _ _).mp h with hkind | hkind <;>
  · rw [beq_iff_eq] at hkind
    simp only [hkind]

theorem toDeclaration_other (hfunction : n.isFunction = false) (h : n.isVariables = false) :
    n.toDeclaration = .ok n.toPlain := by
  unfold toDeclaration
  split
  · simp_all [isFunction]
  · simp_all [isFunction]
  · simp_all [isVariables]
  · simp_all [isVariables]
  · rfl

theorem isVariables_of_isFunction (h : n.isFunction = true) : n.isVariables = false := by
  rcases (Bool.or_eq_true _ _).mp h with hkind | hkind <;>
  · rw [beq_iff_eq] at hkind
    simp [isVariables, hkind]

/-- What an exported declaration is converted to. -/
inductive DeclarationIs (n : Syntax) : Tree → Prop where
  | function {id : Tree} {params : List Tree} (hfunction : n.isFunction = true)
      (hid : toIdentifier? (n.child? "name") = .ok id)
      (hparams : toParameters? (n.child? "parameters") = .ok params) :
      DeclarationIs n (.modelled .functionDeclaration n.lines
        [id, .list params, .bool (n.children.any fun c => c.kind == "async"),
          .bool (n.kind == "generator_function_declaration")])
  | binding {word : String} {declared : List Tree} (hfunction : n.isFunction = false)
      (hvariables : n.isVariables = true)
      (hdeclared : List.Forall₂ (fun c d => toDeclarator c = .ok d) n.declarators declared) :
      DeclarationIs n (.modelled .variableDeclaration n.lines [.str word, .list declared])
  | other (hfunction : n.isFunction = false) (hvariables : n.isVariables = false) :
      DeclarationIs n n.toPlain

theorem declarationIs_of_toDeclaration (h : n.toDeclaration = .ok t) : DeclarationIs n t := by
  cases hfunction : n.isFunction with
  | true =>
    rw [toDeclaration_function hfunction] at h
    obtain ⟨id, params, hid, hparams, rfl⟩ := exists_of_toFunction h
    exact .function hfunction hid hparams
  | false =>
    cases hvariables : n.isVariables with
    | true =>
      rw [toDeclaration_variables hvariables] at h
      obtain ⟨word, declared, hdeclared, rfl⟩ := exists_of_toVariables h
      exact .binding hfunction hvariables hdeclared
    | false =>
      rw [toDeclaration_other hfunction hvariables, Except.ok.injEq] at h
      rw [← h]
      exact .other hfunction hvariables

/-! ### Export statements -/

theorem exists_of_toSpecifier (h : n.toSpecifier = .ok t) : ∃ local_ exported,
    toExportName? (n.child? "name") = .ok local_ ∧
    toExportName? ((n.child? "alias").or (n.child? "name")) = .ok exported ∧
    t = .modelled .exportSpecifier n.lines [local_, exported] := by
  unfold toSpecifier at h
  simp only [Built.bind_eq_ok, Built.pure_eq_ok] at h
  obtain ⟨local_, hlocal, exported, hexported, rfl⟩ := h
  exact ⟨local_, exported, hlocal, hexported, rfl⟩

theorem exists_of_toNamedExport (h : n.toNamedExport = .ok t) :
    ∃ declaration specifiers source kind,
      toDeclaration? (n.child? "declaration") = .ok declaration ∧
      List.Forall₂ (fun c ts => toSpecifiers c = .ok ts) n.parts specifiers ∧
      toSource? (n.child? "source") = .ok source ∧
      t = .modelled .exportNamedDeclaration n.lines
        [declaration, .list specifiers.flatten, source, .str kind] := by
  unfold toNamedExport at h
  simp only [Built.bind_eq_ok, Built.pure_eq_ok] at h
  obtain ⟨specifiers, hspecifiers, declaration, hdeclaration, source, hsource, rfl⟩ := h
  exact ⟨declaration, specifiers, source, _, hdeclaration, Built.mapM_eq_ok_iff.mp hspecifiers,
    hsource, rfl⟩

/-- Whether a node is an export statement that exports names of its own: none of the words and
signs of the others stands in it. -/
def isNamedExport (n : Syntax) : Bool :=
  n.kind == "export_statement" &&
    ["default", "*", "=", "namespace"].all fun token => !n.hasToken token

theorem namelessExport?_eq_none_iff : n.namelessExport? = none ↔
    (["default", "*", "=", "namespace"].all fun token => !n.hasToken token) = true := by
  unfold namelessExport?
  cases h : n.hasToken "default" <;> cases h' : n.hasToken "*" <;> cases h'' : n.hasToken "=" <;>
    cases h''' : n.hasToken "namespace" <;> simp [h, h', h'', h''']

theorem toStatement_namedExport (h : n.isNamedExport = true) :
    n.toStatement = n.toNamedExport := by
  obtain ⟨hkind, htokens⟩ := (Bool.and_eq_true _ _).mp h
  unfold toStatement
  rw [if_pos (beq_iff_eq.mp hkind), namelessExport?_eq_none_iff.mpr htokens]

/-- The types of the exports that export no names of their own. -/
def namelessTypes : List String :=
  ["ExportDefaultDeclaration", "ExportAllDeclaration", "TSExportAssignment",
    "TSNamespaceExportDeclaration"]

theorem namelessExport?_mem {type : String} (h : n.namelessExport? = some type) :
    type ∈ namelessTypes := by
  unfold namelessExport? at h
  split at h
  · cases h; decide
  · split at h
    · cases h; decide
    · split at h
      · cases h; decide
      · split at h
        · cases h; decide
        · cases h

/-- Any other statement is kept as a plain node. -/
theorem toStatement_other (h : n.isNamedExport = false) :
    ∃ type, n.toStatement = .ok (.plain type n.lines) ∧
      (type = n.kind ∨ type ∈ namelessTypes) := by
  unfold toStatement
  by_cases hkind : n.kind = "export_statement"
  · rw [if_pos hkind]
    cases htype : n.namelessExport? with
    | some type => exact ⟨type, rfl, Or.inr (namelessExport?_mem htype)⟩
    | none =>
      have htokens := namelessExport?_eq_none_iff.mp htype
      rw [isNamedExport, hkind, htokens] at h
      exact absurd h (by decide)
  · rw [if_neg hkind]
    exact ⟨n.kind, rfl, Or.inl rfl⟩

theorem exists_of_toProgram (h : n.toProgram = .ok t) : ∃ statements,
    List.Forall₂ (fun c s => toStatement c = .ok s) n.parts statements ∧
    t = .modelled .program n.lines [.list statements] := by
  unfold toProgram at h
  simp only [Built.bind_eq_ok, Built.pure_eq_ok] at h
  obtain ⟨statements, hstatements, rfl⟩ := h
  exact ⟨statements, Built.mapM_eq_ok_iff.mp hstatements, rfl⟩

end Syntax

end NamedExports
