import NamedExports.Proofs.Export.Readable

/-!
# The forms exclude each other

A declaration is of one type, and what its first declarator binds is of one type, so a statement
exports one name in one of the first three forms at most (`Tree.eq_of_exportsAs`).  It can export a
name by a specifier besides, but only if it has both a declaration and specifiers, which no statement
of a module text has.  Without them the form that is found is the only one
(`Tree.forms_exclusive`).
-/

namespace NamedExports.Tree

variable {t u statement : Tree} {name name' type type' : String} {form form' : Form}

/-! ### What holds of a statement in one form -/

theorem eq_str_of_isText (h : t.isText name = true) : t = str name := by
  cases t with
  | str text => exact congrArg str (of_decide_eq_true h)
  | _ => cases h

/-- An object says of one type at most that it is of it. -/
theorem hasType_unique (h : t.hasType type = true) (h' : t.hasType type' = true) : type = type' := by
  have heq : str type = str type' := (eq_str_of_isText h).symm.trans (eq_str_of_isText h')
  exact str.inj heq

/-- An identifier has one name. -/
theorem isIdentifierNamed_unique (h : t.isIdentifierNamed name = true)
    (h' : t.isIdentifierNamed name' = true) : name = name' := by
  obtain ⟨-, hname⟩ := (Bool.and_eq_true _ _).mp h
  obtain ⟨-, hname'⟩ := (Bool.and_eq_true _ _).mp h'
  exact str.inj ((eq_str_of_isText hname).symm.trans (eq_str_of_isText hname'))

theorem hasType_of_isIdentifierNamed (h : t.isIdentifierNamed name = true) :
    t.hasType "Identifier" = true :=
  ((Bool.and_eq_true _ _).mp h).1

theorem exportsFunction_eq_true_iff : statement.exportsFunction name = true ↔
    (statement.get "declaration").hasType "FunctionDeclaration" = true ∧
      (((statement.get "declaration").get "id").get "name").isText name = true :=
  Bool.and_eq_true_iff

theorem exportsVariable_eq_true_iff : statement.exportsVariable name = .ok true ↔
    ∃ u, statement.firstBinding = .ok u ∧ u.isIdentifierNamed name = true := by
  unfold exportsVariable
  rw [Built.bind_eq_ok]
  exact exists_congr fun u => and_congr_right fun _ => Built.pure_eq_ok

theorem exportsDestructured_eq_true_iff : statement.exportsDestructured name = .ok true ↔
    ∃ u property, statement.firstBinding = .ok u ∧ u.hasType "ObjectPattern" = true ∧
      (u.get "properties").firstEntry = .ok property ∧ property.hasType "ObjectProperty" = true ∧
      (property.get "value").isIdentifierNamed name = true := by
  unfold exportsDestructured
  constructor
  · intro h
    obtain ⟨u, hu, hrest⟩ := Built.bind_eq_ok.mp h
    split at hrest
    next htype =>
      obtain ⟨property, hproperty, hbinds⟩ := Built.bind_eq_ok.mp hrest
      obtain ⟨hpropertyType, hvalue⟩ := (Bool.and_eq_true _ _).mp (Built.pure_eq_ok.mp hbinds)
      exact ⟨u, property, hu, htype, hproperty, hpropertyType, hvalue⟩
    next => cases Built.pure_eq_ok.mp hrest
  · rintro ⟨u, property, hu, htype, hproperty, hpropertyType, hvalue⟩
    refine Built.bind_eq_ok.mpr ⟨u, hu, ?_⟩
    rw [if_pos htype]
    refine Built.bind_eq_ok.mpr ⟨property, hproperty, Built.pure_eq_ok.mpr ?_⟩
    rw [hpropertyType, hvalue]
    rfl

/-! ### Two forms at once -/

/-- What declares a function has no first declarator that binds anything. -/
theorem not_hasType_of_exportsFunction (h : statement.exportsFunction name = true)
    (hu : statement.firstBinding = .ok u) (type : String) : u.hasType type = false := by
  rw [Bool.eq_false_iff]
  intro htype
  obtain ⟨hfunction, -⟩ := exportsFunction_eq_true_iff.mp h
  obtain ⟨declarator, others, hvariables, -⟩ := (firstBinding_eq_ok htype).mp hu
  exact absurd (hasType_unique hfunction hvariables) (by decide)

/-- A function is exported alone of the first three forms. -/
theorem eq_function_of_exportsAs (h : statement.exportsFunction name = true)
    (h' : statement.exportsAs name' form = .ok true) (hform : form ≠ .specifier) :
    form = .function := by
  cases form with
  | function => rfl
  | declared =>
    obtain ⟨u, hu, hnamed⟩ := exportsVariable_eq_true_iff.mp h'
    have hnot := not_hasType_of_exportsFunction h hu "Identifier"
    rw [hasType_of_isIdentifierNamed hnamed] at hnot
    cases hnot
  | destructured =>
    obtain ⟨u, property, hu, htype, -⟩ := exportsDestructured_eq_true_iff.mp h'
    have hnot := not_hasType_of_exportsFunction h hu "ObjectPattern"
    rw [htype] at hnot
    cases hnot
  | specifier => exact absurd rfl hform

/-- What is declared by its name is not taken out of a value. -/
theorem not_exportsDestructured_of_exportsVariable (h : statement.exportsVariable name = .ok true) :
    statement.exportsDestructured name' ≠ .ok true := by
  intro h'
  obtain ⟨u, hu, hnamed⟩ := exportsVariable_eq_true_iff.mp h
  obtain ⟨u', property, hu', htype, -⟩ := exportsDestructured_eq_true_iff.mp h'
  cases hu.symm.trans hu'
  exact absurd (hasType_unique (hasType_of_isIdentifierNamed hnamed) htype) (by decide)

/-- In each of the first three forms a statement exports one name at most. -/
theorem name_unique_of_exportsAs (hform : form ≠ .specifier)
    (h : statement.exportsAs name form = .ok true)
    (h' : statement.exportsAs name' form = .ok true) : name = name' := by
  cases form with
  | function =>
    obtain ⟨-, hname⟩ := exportsFunction_eq_true_iff.mp (Except.ok.inj h)
    obtain ⟨-, hname'⟩ := exportsFunction_eq_true_iff.mp (Except.ok.inj h')
    exact str.inj ((eq_str_of_isText hname).symm.trans (eq_str_of_isText hname'))
  | declared =>
    obtain ⟨u, hu, hnamed⟩ := exportsVariable_eq_true_iff.mp h
    obtain ⟨u', hu', hnamed'⟩ := exportsVariable_eq_true_iff.mp h'
    cases hu.symm.trans hu'
    exact isIdentifierNamed_unique hnamed hnamed'
  | destructured =>
    obtain ⟨u, property, hu, -, hproperty, -, hnamed⟩ := exportsDestructured_eq_true_iff.mp h
    obtain ⟨u', property', hu', -, hproperty', -, hnamed'⟩ := exportsDestructured_eq_true_iff.mp h'
    cases hu.symm.trans hu'
    cases hproperty.symm.trans hproperty'
    exact isIdentifierNamed_unique hnamed hnamed'
  | specifier => exact absurd rfl hform

/-- A statement exports one name in one of the first three forms at most. -/
theorem eq_of_exportsAs (hform : form ≠ .specifier) (hform' : form' ≠ .specifier)
    (h : statement.exportsAs name form = .ok true)
    (h' : statement.exportsAs name' form' = .ok true) : form = form' ∧ name = name' := by
  have heq : form = form' := by
    cases form with
    | function => exact (eq_function_of_exportsAs (Except.ok.inj h) h' hform').symm
    | declared =>
      cases form' with
      | function => exact eq_function_of_exportsAs (Except.ok.inj h') h hform
      | declared => rfl
      | destructured => exact absurd h' (not_exportsDestructured_of_exportsVariable h)
      | specifier => exact absurd rfl hform'
    | destructured =>
      cases form' with
      | function => exact eq_function_of_exportsAs (Except.ok.inj h') h hform
      | declared => exact absurd h (not_exportsDestructured_of_exportsVariable h')
      | destructured => rfl
      | specifier => exact absurd rfl hform'
    | specifier => exact absurd rfl hform
  subst heq
  exact ⟨rfl, name_unique_of_exportsAs hform h h'⟩

/-! ### Statements without a declaration or without specifiers -/

/-- A statement without a declaration exports names by specifiers only. -/
theorem eq_specifier_of_no_declaration (hnone : statement.get "declaration" = null)
    (h : statement.exportsAs name form = .ok true) : form = .specifier := by
  have hfirst : ∀ {u type}, statement.firstBinding = .ok u → u.hasType type ≠ true := by
    intro u type hu htype
    obtain ⟨declarator, others, hvariables, -⟩ := (firstBinding_eq_ok htype).mp hu
    rw [hnone] at hvariables
    cases hvariables
  cases form with
  | function =>
    obtain ⟨hfunction, -⟩ := exportsFunction_eq_true_iff.mp (Except.ok.inj h)
    rw [hnone] at hfunction
    cases hfunction
  | declared =>
    obtain ⟨u, hu, hnamed⟩ := exportsVariable_eq_true_iff.mp h
    exact absurd (hasType_of_isIdentifierNamed hnamed) (hfirst hu)
  | destructured =>
    obtain ⟨u, property, hu, htype, -⟩ := exportsDestructured_eq_true_iff.mp h
    exact absurd htype (hfirst hu)
  | specifier => rfl

/-- A statement without specifiers exports none by them. -/
theorem ne_specifier_of_no_specifiers (hnone : (statement.get "specifiers").isEmpty = true)
    (h : statement.exportsAs name form = .ok true) : form ≠ .specifier := by
  rintro rfl
  change statement.exportsSpecifier name = .ok true at h
  unfold exportsSpecifier entries at h
  rw [if_pos hnone] at h
  cases h

/-- A statement without a declaration, or without specifiers, exports a name in one form at most. -/
theorem form_unique_of_exportsAs
    (hnone : statement.get "declaration" = null ∨ (statement.get "specifiers").isEmpty = true)
    (h : statement.exportsAs name form = .ok true)
    (h' : statement.exportsAs name form' = .ok true) : form = form' := by
  rcases hnone with hnone | hnone
  · rw [eq_specifier_of_no_declaration hnone h, eq_specifier_of_no_declaration hnone h']
  · exact (eq_of_exportsAs (ne_specifier_of_no_specifiers hnone h)
      (ne_specifier_of_no_specifiers hnone h') h h').1

/-! ### Exclusive forms -/

/-- A value is a list or null. -/
def IsListOrNull (t : Tree) : Prop :=
  t = null ∨ ∃ items, t = list items

theorem IsListOrNull.listable (h : t.IsListOrNull) : t.Listable := by
  rcases h with rfl | ⟨items, rfl⟩
  · exact Or.inl rfl
  · exact Or.inr (Or.inl ⟨items, rfl⟩)

/-- Where everything that is read as a list is a list or null, every form has an answer.  At most one
of the first three forms holds, for at most one name.  The form that is asked for is the first one
that holds, and there is one exactly if the name is exported.  If there is no declaration or there
are no specifiers, it is the only one that holds. -/
theorem forms_exclusive (statement : Tree)
    (hlists : ∀ form value, statement.ReadAsList form value → value.IsListOrNull) :
    (∀ name form, ∃ b, statement.exportsAs name form = .ok b) ∧
    (∀ name name' form form', form ≠ .specifier → form' ≠ .specifier →
      statement.exportsAs name form = .ok true → statement.exportsAs name' form' = .ok true →
      form = form' ∧ name = name') ∧
    (∀ name, ∃ found, statement.exportForm? name = .ok found ∧
      statement.exportsName name = .ok found.isSome ∧
      (found = none → ∀ form, statement.exportsAs name form = .ok false) ∧
      ∀ form, found = some form → statement.exportsAs name form = .ok true ∧
        ∀ earlier ∈ form.earlier, statement.exportsAs name earlier = .ok false) ∧
    (statement.get "declaration" = null ∨ (statement.get "specifiers").isEmpty = true →
      ∀ name form, (∀ form', statement.exportsAs name form = .ok true →
          statement.exportsAs name form' = .ok true → form = form') ∧
        (statement.exportForm? name = .ok (some form) ↔
          statement.exportsAs name form = .ok true)) := by
  have hread : ∀ form value, statement.ReadAsList form value → value.Listable :=
    fun form value hvalue => (hlists form value hvalue).listable
  have hfound : ∀ name, ∃ found, statement.exportForm? name = .ok found := fun name =>
    (exists_exportForm?_iff statement name).mpr fun form _ => hread form
  refine ⟨?_, ?_, ?_, ?_⟩
  · intro name form
    exact (exists_exportsAs_iff statement name form).mpr (hread form)
  · intro name name' form form' hform hform' h h'
    exact eq_of_exportsAs hform hform' h h'
  · intro name
    obtain ⟨found, hname⟩ := hfound name
    refine ⟨found, hname, ?_, ?_, ?_⟩
    · rw [exportsName_eq, hname]
      rfl
    · rintro rfl
      exact exportForm?_eq_none_iff.mp hname
    · rintro form rfl
      exact exportForm?_eq_some_iff.mp hname
  · intro hnone name form
    constructor
    · intro form' h h'
      exact form_unique_of_exportsAs hnone h h'
    · constructor
      · intro h
        exact (exportForm?_eq_some_iff.mp h).1
      · intro h
        obtain ⟨found, hname⟩ := hfound name
        cases found with
        | none =>
          rw [exportForm?_eq_none_iff.mp hname form] at h
          cases h
        | some form' =>
          have hform' := (exportForm?_eq_some_iff.mp hname).1
          rw [hname, form_unique_of_exportsAs hnone h hform']

/-- A statement that exports `a` by a declaration and `a` and `b` by specifiers. -/
def mixedExport : Tree :=
  modelled .exportNamedDeclaration ⟨0, 0⟩ [
    modelled .variableDeclaration ⟨0, 0⟩ [str "const", list [
      modelled .variableDeclarator ⟨0, 0⟩ [modelled .identifier ⟨0, 0⟩ [str "a"], null]]],
    list [
      modelled .exportSpecifier ⟨0, 0⟩ [null, modelled .identifier ⟨0, 0⟩ [str "a"]],
      modelled .exportSpecifier ⟨0, 0⟩ [null, modelled .identifier ⟨0, 0⟩ [str "b"]]],
    null, str "value"]

/-- What is read of a statement that has a declaration and specifiers. -/
theorem forms_exclusive_mixedExport :
    (∀ form value, mixedExport.ReadAsList form value → value.IsListOrNull) ∧
    mixedExport.exportForm? "a" = .ok (some .declared) ∧
    mixedExport.exportsAs "a" .specifier = .ok true ∧
    mixedExport.exportForm? "b" = .ok (some .specifier) ∧
    ∀ name form, form ≠ .specifier → mixedExport.exportsAs name form = .ok true →
      form = .declared ∧ name = "a" := by
  have hlists : ∀ form value, mixedExport.ReadAsList form value → value.IsListOrNull := by
    intro form value hvalue
    cases hvalue with
    | declarators hform hdeclaration => exact Or.inr ⟨_, rfl⟩
    | specifiers => exact Or.inr ⟨_, rfl⟩
    | @properties declarator others hdeclaration hlist hdeclarator hpattern =>
      cases hlist
      cases hpattern
  obtain ⟨-, hunique, -, -⟩ := forms_exclusive mixedExport hlists
  refine ⟨hlists, rfl, rfl, rfl, ?_⟩
  intro name form hform h
  exact hunique name "a" form .declared hform (by decide) h rfl

end NamedExports.Tree
