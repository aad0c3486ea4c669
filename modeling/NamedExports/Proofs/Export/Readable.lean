import NamedExports.Proofs.Program.Exports

/-!
# Statements that can be asked for their exports

To tell whether a statement exports a name in a form, values in it are read as lists
(`Tree.ReadAsList`).  A list can be read, and so can a text and whatever counts as no value; anything
else is a fault (`Tree.Listable`).  So there is an answer exactly if all values that are read as lists
can be read (`Tree.exists_exportsAs_iff`).

When the forms are asked one after the other, only those count that come before the first one that
holds (`Tree.exists_exportForm?_iff`).  Asking for the form and asking for a plain answer come to the
same, faults included (`Tree.exportsName_eq`).
-/

namespace NamedExports

/-- The forms that are tried before a form. -/
def Form.earlier (form : Form) : List Form :=
  Form.all.takeWhile (· ≠ form)

/-- What comes before a form in the order in which the forms are tried. -/
theorem Form.all_eq_append_iff {form : Form} {before : List Form} :
    (∃ after, Form.all = before ++ form :: after) ↔ before = form.earlier := by
  constructor
  · rintro ⟨after, h⟩
    have hnot : form ∉ before := by
      intro hmem
      have hnodup : Form.all.Nodup := by decide
      rw [h] at hnodup
      exact (List.nodup_append.mp hnodup).2.2 form hmem form List.mem_cons_self rfl
    have hbefore : ∀ other ∈ before, decide (other ≠ form) = true := by
      intro other hother
      exact decide_eq_true fun heq => hnot (heq ▸ hother)
    unfold earlier
    rw [h, List.takeWhile_append_of_pos hbefore, List.takeWhile_cons_of_neg (by simp),
      List.append_nil]
  · rintro rfl
    cases form
    · exact ⟨_, rfl⟩
    · exact ⟨_, rfl⟩
    · exact ⟨_, rfl⟩
    · exact ⟨_, rfl⟩

namespace Tree

variable {t u statement : Tree} {name type : String} {form : Form} {forms : List Form}

/-! ### Values that are read as lists -/

/-- A value can be read as a list: it is a list or a text, or it counts as no value. -/
def Listable (t : Tree) : Prop :=
  t.isEmpty = true ∨ (∃ items, t = list items) ∨ ∃ text, t = str text

/-- The first entry of a value that cannot be read as a list is a fault. -/
theorem firstEntry_of_not_listable (h : ¬ t.Listable) : t.firstEntry = .error (.noEntries t.owner) := by
  unfold Listable at h
  push Not at h
  obtain ⟨hempty, hlist, htext⟩ := h
  unfold firstEntry
  rw [if_neg hempty]
  cases t with
  | list items => exact absurd rfl (hlist items)
  | str text => exact absurd rfl (htext text)
  | _ => rfl

/-- So are its entries. -/
theorem entries_of_not_listable (h : ¬ t.Listable) : t.entries = .error (.notIterable t.owner) := by
  unfold Listable at h
  push Not at h
  obtain ⟨hempty, hlist, htext⟩ := h
  unfold entries
  rw [if_neg hempty]
  cases t with
  | list items => exact absurd rfl (hlist items)
  | str text => exact absurd rfl (htext text)
  | _ => rfl

theorem Listable.exists_firstEntry (h : t.Listable) : ∃ u, t.firstEntry = .ok u := by
  unfold firstEntry
  split
  next => exact ⟨_, rfl⟩
  next hempty =>
    rcases h with h | ⟨items, rfl⟩ | ⟨text, rfl⟩
    · exact absurd h hempty
    · cases items with
      | nil => exact absurd rfl hempty
      | cons item items => exact ⟨_, rfl⟩
    · exact ⟨_, rfl⟩

theorem Listable.exists_entries (h : t.Listable) : ∃ us, t.entries = .ok us := by
  unfold entries
  split
  next => exact ⟨_, rfl⟩
  next hempty =>
    rcases h with h | ⟨items, rfl⟩ | ⟨text, rfl⟩
    · exact absurd h hempty
    · exact ⟨_, rfl⟩
    · exact ⟨_, rfl⟩

theorem exists_firstEntry_iff : (∃ u, t.firstEntry = .ok u) ↔ t.Listable := by
  constructor
  · rintro ⟨u, hu⟩
    by_contra h
    rw [firstEntry_of_not_listable h] at hu
    cases hu
  · exact Listable.exists_firstEntry

theorem exists_entries_iff : (∃ us, t.entries = .ok us) ↔ t.Listable := by
  constructor
  · rintro ⟨us, hus⟩
    by_contra h
    rw [entries_of_not_listable h] at hus
    cases hus
  · exact Listable.exists_entries

/-- A node of a type that is a first entry is the first item of a list. -/
theorem firstEntry_eq_ok (hu : u.hasType type = true) :
    t.firstEntry = .ok u ↔ ∃ others, t = list (u :: others) := by
  constructor
  · intro h
    unfold firstEntry at h
    split at h
    · cases h
      cases hu
    · split at h
      · cases h
        exact ⟨_, rfl⟩
      · cases h
        cases hu
      · cases h
  · rintro ⟨others, rfl⟩
    rfl

/-! ### What is read of a statement -/

/-- The value is read as a list to tell whether the statement exports a name in the form. -/
inductive ReadAsList (statement : Tree) : Form → Tree → Prop
  /-- The declarators of a variable declaration, of which the first one counts. -/
  | declarators {form : Form} (hform : form = .declared ∨ form = .destructured)
      (hdeclaration : (statement.get "declaration").hasType "VariableDeclaration" = true) :
      ReadAsList statement form ((statement.get "declaration").get "declarations")
  /-- The properties of the object pattern that the first declarator binds. -/
  | properties {declarator : Tree} {others : List Tree}
      (hdeclaration : (statement.get "declaration").hasType "VariableDeclaration" = true)
      (hlist : (statement.get "declaration").get "declarations" = list (declarator :: others))
      (hdeclarator : declarator.hasType "VariableDeclarator" = true)
      (hpattern : (declarator.get "id").hasType "ObjectPattern" = true) :
      ReadAsList statement .destructured ((declarator.get "id").get "properties")
  | specifiers : ReadAsList statement .specifier (statement.get "specifiers")

/-- A statement that binds something of a type first declares it by its first declarator. -/
theorem firstBinding_eq_ok (hu : u.hasType type = true) : t.firstBinding = .ok u ↔
    ∃ declarator others, (t.get "declaration").hasType "VariableDeclaration" = true ∧
      (t.get "declaration").get "declarations" = list (declarator :: others) ∧
      declarator.hasType "VariableDeclarator" = true ∧ declarator.get "id" = u := by
  have hnull : null ≠ u := by
    rintro rfl
    cases hu
  unfold firstBinding
  dsimp only
  constructor
  · intro h
    split at h
    next hdeclaration =>
      obtain ⟨declarator, hdeclarator, hid⟩ := Built.bind_eq_ok.mp h
      have hid := Built.pure_eq_ok.mp hid
      split at hid
      next htype =>
        obtain ⟨others, hlist⟩ := (firstEntry_eq_ok htype).mp hdeclarator
        exact ⟨declarator, others, hdeclaration, hlist, htype, hid⟩
      next => exact absurd hid hnull
    next => exact absurd (Built.pure_eq_ok.mp h) hnull
  · rintro ⟨declarator, others, hdeclaration, hlist, htype, rfl⟩
    rw [if_pos hdeclaration, hlist, Syntax.firstEntry_list]
    exact congrArg Except.ok (if_pos htype)

/-- What the first declarator binds can be told if the declarators can be read. -/
theorem exists_firstBinding_iff : (∃ u, statement.firstBinding = .ok u) ↔
    ((statement.get "declaration").hasType "VariableDeclaration" = true →
      ((statement.get "declaration").get "declarations").Listable) := by
  unfold firstBinding
  dsimp only
  split
  next hdeclaration =>
    constructor
    · rintro ⟨u, hu⟩ -
      obtain ⟨declarator, hdeclarator, -⟩ := Built.bind_eq_ok.mp hu
      exact exists_firstEntry_iff.mp ⟨declarator, hdeclarator⟩
    · intro h
      obtain ⟨declarator, hdeclarator⟩ := (h hdeclaration).exists_firstEntry
      rw [hdeclarator]
      exact ⟨_, rfl⟩
  next hdeclaration =>
    constructor
    · intro _ h
      exact absurd h hdeclaration
    · intro _
      exact ⟨_, rfl⟩

theorem exists_exportsVariable_iff : (∃ b, statement.exportsVariable name = .ok b) ↔
    ∃ u, statement.firstBinding = .ok u := by
  unfold exportsVariable
  constructor
  · rintro ⟨b, hb⟩
    obtain ⟨u, hu, -⟩ := Built.bind_eq_ok.mp hb
    exact ⟨u, hu⟩
  · rintro ⟨u, hu⟩
    rw [hu]
    exact ⟨_, rfl⟩

theorem exists_exportsDestructured_iff : (∃ b, statement.exportsDestructured name = .ok b) ↔
    ∃ u, statement.firstBinding = .ok u ∧
      (u.hasType "ObjectPattern" = true → (u.get "properties").Listable) := by
  unfold exportsDestructured
  constructor
  · rintro ⟨b, hb⟩
    obtain ⟨u, hu, hrest⟩ := Built.bind_eq_ok.mp hb
    refine ⟨u, hu, ?_⟩
    intro htype
    rw [if_pos htype] at hrest
    obtain ⟨property, hproperty, -⟩ := Built.bind_eq_ok.mp hrest
    exact exists_firstEntry_iff.mp ⟨property, hproperty⟩
  · rintro ⟨u, hu, hlistable⟩
    rw [hu]
    show ∃ b, (if u.hasType "ObjectPattern" = true then _ else _) = Except.ok b
    split
    next htype =>
      obtain ⟨property, hproperty⟩ := (hlistable htype).exists_firstEntry
      rw [hproperty]
      exact ⟨_, rfl⟩
    next => exact ⟨_, rfl⟩

theorem exists_exportsSpecifier_iff : (∃ b, statement.exportsSpecifier name = .ok b) ↔
    (statement.get "specifiers").Listable := by
  unfold exportsSpecifier
  rw [← exists_entries_iff]
  constructor
  · rintro ⟨b, hb⟩
    obtain ⟨us, hus, -⟩ := Built.bind_eq_ok.mp hb
    exact ⟨us, hus⟩
  · rintro ⟨us, hus⟩
    rw [hus]
    exact ⟨_, rfl⟩

/-- Whether a statement exports a name in a form can be told exactly if all values that are read as
lists for it can be read. -/
theorem exists_exportsAs_iff (statement : Tree) (name : String) (form : Form) :
    (∃ b, statement.exportsAs name form = .ok b) ↔
      ∀ value, statement.ReadAsList form value → value.Listable := by
  cases form with
  | function =>
    constructor
    · intro _ value hvalue
      cases hvalue with
      | declarators hform hdeclaration => simp at hform
    · intro _
      exact ⟨_, rfl⟩
  | declared =>
    show (∃ b, statement.exportsVariable name = .ok b) ↔ _
    rw [exists_exportsVariable_iff, exists_firstBinding_iff]
    constructor
    · intro h value hvalue
      cases hvalue with
      | declarators hform hdeclaration => exact h hdeclaration
    · intro h hdeclaration
      exact h _ (.declarators (Or.inl rfl) hdeclaration)
  | destructured =>
    show (∃ b, statement.exportsDestructured name = .ok b) ↔ _
    rw [exists_exportsDestructured_iff]
    constructor
    · rintro ⟨u, hu, hlistable⟩ value hvalue
      cases hvalue with
      | declarators hform hdeclaration => exact exists_firstBinding_iff.mp ⟨u, hu⟩ hdeclaration
      | properties hdeclaration hlist hdeclarator hpattern =>
        have hfirst := (firstBinding_eq_ok hpattern).mpr
          ⟨_, _, hdeclaration, hlist, hdeclarator, rfl⟩
        cases hu.symm.trans hfirst
        exact hlistable hpattern
    · intro h
      obtain ⟨u, hu⟩ := exists_firstBinding_iff.mpr fun hdeclaration =>
        h _ (.declarators (Or.inr rfl) hdeclaration)
      refine ⟨u, hu, ?_⟩
      intro htype
      obtain ⟨declarator, others, hdeclaration, hlist, hdeclarator, rfl⟩ :=
        (firstBinding_eq_ok htype).mp hu
      exact h _ (.properties hdeclaration hlist hdeclarator htype)
  | specifier =>
    show (∃ b, statement.exportsSpecifier name = .ok b) ↔ _
    rw [exists_exportsSpecifier_iff]
    constructor
    · intro h value hvalue
      cases hvalue with
      | declarators hform hdeclaration => simp at hform
      | specifiers => exact h
    · intro h
      exact h _ .specifiers

/-! ### Forms asked one after the other -/

/-- No form of a list is found exactly if none of them holds. -/
theorem formAmong?_eq_none_iff : t.formAmong? name forms = .ok none ↔
    ∀ form ∈ forms, t.exportsAs name form = .ok false := by
  induction forms with
  | nil => simp [formAmong?]
  | cons form forms ih =>
    rw [List.forall_mem_cons, ← ih]
    constructor
    · intro h
      obtain ⟨b, hb, hrest⟩ := Built.bind_eq_ok.mp h
      cases b with
      | true => cases Built.pure_eq_ok.mp hrest
      | false => exact ⟨hb, hrest⟩
    · rintro ⟨hb, hrest⟩
      exact Built.bind_eq_ok.mpr ⟨false, hb, hrest⟩

/-- The form that is found is the first one of the list that holds. -/
theorem formAmong?_eq_some_iff : t.formAmong? name forms = .ok (some form) ↔
    ∃ before after, forms = before ++ form :: after ∧ t.exportsAs name form = .ok true ∧
      ∀ earlier ∈ before, t.exportsAs name earlier = .ok false := by
  induction forms with
  | nil => simp [formAmong?]
  | cons first forms ih =>
    constructor
    · intro h
      obtain ⟨b, hb, hrest⟩ := Built.bind_eq_ok.mp h
      cases b with
      | true =>
        cases Built.pure_eq_ok.mp hrest
        exact ⟨[], forms, rfl, hb, by simp⟩
      | false =>
        obtain ⟨before, after, rfl, hform, hbefore⟩ := ih.mp hrest
        exact ⟨first :: before, after, rfl, hform, List.forall_mem_cons.mpr ⟨hb, hbefore⟩⟩
    · rintro ⟨before, after, hsplit, hform, hbefore⟩
      cases before with
      | nil =>
        cases hsplit
        exact Built.bind_eq_ok.mpr ⟨true, hform, rfl⟩
      | cons earlier before =>
        cases hsplit
        obtain ⟨hearlier, hbefore⟩ := List.forall_mem_cons.mp hbefore
        exact Built.bind_eq_ok.mpr ⟨false, hearlier, ih.mpr ⟨before, after, rfl, hform, hbefore⟩⟩

/-- Whether a form of a list is found can be told exactly if it can be told of each form that none
before it holds. -/
theorem exists_formAmong?_iff : (∃ found, t.formAmong? name forms = .ok found) ↔
    ∀ before form after, forms = before ++ form :: after →
      (∀ earlier ∈ before, t.exportsAs name earlier ≠ .ok true) →
      ∃ b, t.exportsAs name form = .ok b := by
  -- a form is asked for only after those before it have been denied
  induction forms with
  | nil => simp [formAmong?]
  | cons first forms ih =>
    constructor
    · rintro ⟨found, hfound⟩ before form after hsplit hbefore
      obtain ⟨b, hb, hrest⟩ := Built.bind_eq_ok.mp hfound
      cases before with
      | nil =>
        cases hsplit
        exact ⟨b, hb⟩
      | cons earlier before =>
        cases hsplit
        obtain ⟨hearlier, hbefore⟩ := List.forall_mem_cons.mp hbefore
        cases b with
        | true => exact absurd hb hearlier
        | false => exact ih.mp ⟨found, hrest⟩ before form after rfl hbefore
    · intro h
      obtain ⟨b, hb⟩ := h [] first forms rfl (by simp)
      cases b with
      | true => exact ⟨_, Built.bind_eq_ok.mpr ⟨true, hb, rfl⟩⟩
      | false =>
        obtain ⟨found, hfound⟩ := ih.mpr fun before form after hsplit hbefore =>
          h (first :: before) form after (by rw [hsplit]; rfl)
            (List.forall_mem_cons.mpr ⟨by simp [hb], hbefore⟩)
        exact ⟨found, Built.bind_eq_ok.mpr ⟨false, hb, hfound⟩⟩

theorem exportForm?_eq_none_iff : statement.exportForm? name = .ok none ↔
    ∀ form, statement.exportsAs name form = .ok false := by
  have hall : ∀ form, form ∈ Form.all := by
    intro form
    cases form <;> decide
  unfold exportForm?
  rw [formAmong?_eq_none_iff]
  exact ⟨fun h form => h form (hall form), fun h form _ => h form⟩

/-- The form in which a statement exports a name is the first one that holds. -/
theorem exportForm?_eq_some_iff : statement.exportForm? name = .ok (some form) ↔
    statement.exportsAs name form = .ok true ∧
      ∀ earlier ∈ form.earlier, statement.exportsAs name earlier = .ok false := by
  unfold exportForm?
  rw [formAmong?_eq_some_iff]
  constructor
  · rintro ⟨before, after, hsplit, hform, hbefore⟩
    rw [← Form.all_eq_append_iff.mp ⟨after, hsplit⟩]
    exact ⟨hform, hbefore⟩
  · rintro ⟨hform, hearlier⟩
    obtain ⟨after, hsplit⟩ := Form.all_eq_append_iff.mpr (rfl : form.earlier = form.earlier)
    exact ⟨form.earlier, after, hsplit, hform, hearlier⟩

/-- The form in which a statement exports a name can be told exactly if all values can be read that
are read as lists for the forms that are asked. -/
theorem exists_exportForm?_iff (statement : Tree) (name : String) :
    (∃ found, statement.exportForm? name = .ok found) ↔
      ∀ form, (∀ earlier ∈ form.earlier, statement.exportsAs name earlier ≠ .ok true) →
        ∀ value, statement.ReadAsList form value → value.Listable := by
  unfold exportForm?
  rw [exists_formAmong?_iff]
  constructor
  · intro h form hearlier
    obtain ⟨after, hsplit⟩ := Form.all_eq_append_iff.mpr (rfl : form.earlier = form.earlier)
    exact (exists_exportsAs_iff statement name form).mp (h form.earlier form after hsplit hearlier)
  · intro h before form after hsplit hbefore
    rw [Form.all_eq_append_iff.mp ⟨after, hsplit⟩] at hbefore
    exact (exists_exportsAs_iff statement name form).mpr (h form hbefore)

/-- A statement exports a name exactly if it does so in some form, and what goes wrong when it is
asked goes wrong in the same way when it is asked for the form. -/
theorem exportsName_eq (statement : Tree) (name : String) :
    statement.exportsName name = (statement.exportForm? name).map Option.isSome := by
  unfold exportsName exportForm? Form.all
  simp only [formAmong?, exportsAs]
  cases statement.exportsFunction name with
  | true => rfl
  | false =>
    cases statement.exportsVariable name with
    | error fault => rfl
    | ok declared =>
      cases declared with
      | true => rfl
      | false =>
        cases statement.exportsDestructured name with
        | error fault => rfl
        | ok destructured =>
          cases destructured with
          | true => rfl
          | false =>
            cases statement.exportsSpecifier name with
            | error fault => rfl
            | ok specifier => cases specifier <;> rfl

end Tree

end NamedExports
