import NamedExports.Proofs.Program.Grammar

/-!
# Every module has a well-built program

The conversion of syntax stops at texts that cannot be read, and at nothing else: whatever shape a
syntax tree has, as long as its texts can be read it is converted to a program, and the program is
well built (`Syntax.gives_toProgram`).  Parts that are missing leave their places vacant, and parts
of unexpected kinds are not modelled, so every place of the program is filled as the grammar says.

What a conversion gives and whether it gives anything are shown together (`Built.Gives`), function
by function in the order of the conversion.
-/

namespace NamedExports

open Kind

/-! ### Conversions that give something -/

/-- A conversion gives results of some sort only, and gives one if all texts can be read. -/
structure Built.Gives {α : Type} (x : Built α) (readable : Prop) (P : α → Prop) : Prop where
  sort : ∀ a, x = .ok a → P a
  total : readable → ∃ a, x = .ok a

namespace Built.Gives

variable {α β : Type} {x : Built α} {readable : Prop} {P P' : α → Prop} {Q : β → Prop}

theorem pure {a : α} (h : P a) : Gives (Pure.pure a) readable P :=
  ⟨fun _ ha => Built.pure_eq_ok.mp ha ▸ h, fun _ => ⟨a, rfl⟩⟩

theorem imp (h : x.Gives readable P) (hP : ∀ a, P a → P' a) : x.Gives readable P' :=
  ⟨fun a ha => hP a (h.sort a ha), h.total⟩

theorem bind {f : α → Built β} (h : x.Gives readable P)
    (hf : ∀ a, P a → (f a).Gives readable Q) : Gives (x >>= f) readable Q := by
  refine ⟨fun b hb => ?_, fun hreadable => ?_⟩
  · obtain ⟨a, ha, hab⟩ := Built.bind_eq_ok.mp hb
    exact (hf a (h.sort a ha)).sort b hab
  · obtain ⟨a, ha⟩ := h.total hreadable
    obtain ⟨b, hb⟩ := (hf a (h.sort a ha)).total hreadable
    exact ⟨b, Built.bind_eq_ok.mpr ⟨a, ha, hb⟩⟩

/-- A list is converted item by item. -/
theorem mapM {f : α → Built β} {as : List α} (h : ∀ a ∈ as, (f a).Gives readable Q) :
    Gives (as.mapM f) readable fun bs => bs.length = as.length ∧ ∀ b ∈ bs, Q b := by
  induction as with
  | nil => exact .pure ⟨rfl, by simp⟩
  | cons a as ih =>
    rw [List.mapM_cons]
    refine (h a List.mem_cons_self).bind fun b hb => ?_
    refine (ih fun c hc => h c (List.mem_cons_of_mem _ hc)).bind fun bs hbs => ?_
    exact .pure ⟨congrArg Nat.succ hbs.1, List.forall_mem_cons.mpr ⟨hb, hbs.2⟩⟩

end Built.Gives

/-! ### Filled fields -/

/-- A field is filled as it should be, with nodes that are well built. -/
structure Content.Filled (content : Content) (t : Tree) : Prop where
  admits : content.Admits t
  parts : ∀ u ∈ t.nodes, u.WellBuilt

namespace Content.Filled

variable {p : Place} {t : Tree} {ts : List Tree} {lines : Tree.Lines} {values : List Tree}

theorem text (value : String) : Content.text.Filled (.str value) :=
  ⟨⟨value, rfl⟩, by simp [Tree.nodes, Tree.isNode]⟩

theorem truth (value : Bool) : Content.truth.Filled (.bool value) :=
  ⟨⟨value, rfl⟩, by simp [Tree.nodes, Tree.isNode]⟩

theorem vacant (h : p.vacant = true) : (Content.one p).Filled .null :=
  ⟨h, by simp [Tree.nodes, Tree.isNode]⟩

/-- A node that fits in a place. -/
theorem node (h : p.Admits t) (hbuilt : t.WellBuilt) : (Content.one p).Filled t := by
  refine ⟨h, fun u hu => ?_⟩
  rw [Tree.nodes_of_isNode hbuilt.isNode, List.mem_singleton] at hu
  exact hu ▸ hbuilt

theorem plain {type : String} (hp : p.plain = true) (htype : Kind.ofName? type = none) :
    (Content.one p).Filled (.plain type lines) :=
  node hp (.plain lines htype)

/-- Where there is always a node, it is well built. -/
theorem wellBuilt (h : (Content.one p).Filled t) (hp : p.vacant = false) : t.WellBuilt :=
  h.parts t (Tree.mem_nodes_of_isNode (Place.Admits.isNode h.admits hp))

/-- A node of a kind of which all fields are filled. -/
theorem wellBuilt_modelled {kind : Kind} (h : List.Forall₂ Content.Filled kind.contents values) :
    (Tree.modelled kind lines values).WellBuilt := by
  refine .modelled lines (h.imp fun _ _ hfilled => hfilled.admits) fun v hv => ?_
  obtain ⟨content, -, hcontent⟩ := exists_of_forall₂ h hv
  exact hcontent.parts

theorem modelled {kind : Kind} (hkind : kind ∈ p.kinds)
    (h : List.Forall₂ Content.Filled kind.contents values) :
    (Content.one p).Filled (.modelled kind lines values) :=
  node hkind (wellBuilt_modelled h)

/-- What fills a place fills it too if it may be vacant. -/
theorem orVacant (h : (Content.one p).Filled t) : (Content.one p.orVacant).Filled t := by
  refine ⟨?_, h.parts⟩
  have hadmits : p.Admits t := h.admits
  show p.orVacant.Admits t
  cases t with
  | null => rfl
  | node shape attributes => cases shape <;> exact hadmits
  | _ => exact hadmits

theorem nodes_of_list (h : ∀ t ∈ ts, (Content.one p).Filled t) :
    ∀ u ∈ (Tree.list ts).nodes, u.WellBuilt := by
  intro u hu
  obtain ⟨hmem, hnode⟩ := Tree.mem_nodes_list.mp hu
  exact (h u hmem).parts u (Tree.mem_nodes_of_isNode hnode)

/-- A list of which every item fits in a place. -/
theorem many (h : ∀ t ∈ ts, (Content.one p).Filled t) : (Content.many p).Filled (.list ts) :=
  ⟨⟨ts, rfl, fun t ht => (h t ht).admits⟩, nodes_of_list h⟩

theorem numbered (h : ∀ t ∈ ts, (Content.one p).Filled t) (hlength : ts.length ≤ 10 ^ Text.maxDigits) :
    (Content.numbered p).Filled (.list ts) :=
  ⟨⟨ts, rfl, fun t ht => (h t ht).admits, hlength⟩, nodes_of_list h⟩

/-- An identifier, where there may be one. -/
theorem identifier (text : String) (hp : Kind.identifier ∈ p.kinds) :
    (Content.one p).Filled (.modelled .identifier lines [.str text]) :=
  modelled hp (.cons (.text text) .nil)

/-- A string literal, where there may be one. -/
theorem stringLiteral (text : String) (hp : Kind.stringLiteral ∈ p.kinds) :
    (Content.one p).Filled (.modelled .stringLiteral lines [.str text]) :=
  modelled hp (.cons (.text text) .nil)

end Content.Filled

namespace Syntax

open Content (Filled)

/-- An ordinary node, of which the text can be read if all texts can. -/
structure Legible (readable : Prop) (n : Syntax) : Prop extends n.Ordinary where
  text_isSome : readable → n.text.isSome = true

variable {readable : Prop} {n : Syntax} {n? : Option Syntax} {p : Place} {lines : Tree.Lines}

/-! ### Names and texts -/

theorem gives_readText (hn : n.Legible readable) : n.readText.Gives readable fun _ => True := by
  refine ⟨fun _ _ => trivial, fun hreadable => ?_⟩
  obtain ⟨text, htext⟩ := Option.isSome_iff_exists.mp (hn.text_isSome hreadable)
  exact ⟨text, readText_eq_ok.mpr htext⟩

theorem gives_toIdentifier (hn : n.Legible readable) (hp : identifier ∈ p.kinds) :
    n.toIdentifier.Gives readable (Content.one p).Filled :=
  (gives_readText hn).bind fun text _ => .pure (.identifier text hp)

theorem gives_toStringLiteral (hn : n.Legible readable) (hp : stringLiteral ∈ p.kinds) :
    n.toStringLiteral.Gives readable (Content.one p).Filled :=
  (gives_readText hn).bind fun text _ => .pure (.stringLiteral (unquoted text) hp)

theorem filled_toPlain (hn : n.Ordinary) (hp : p.plain = true) :
    (Content.one p).Filled n.toPlain :=
  .plain hp hn.kind_eq_none

theorem filled_toPlain? (hn : ∀ c, n? = some c → c.Ordinary) :
    (Content.one .expression).Filled (toPlain? n?) := by
  cases n? with
  | none => exact .vacant rfl
  | some c => exact filled_toPlain (hn c rfl) rfl

/-- What is converted if it is there, and leaves its place vacant if it is not. -/
theorem gives_of_vacant {f : Syntax → Built Tree} {f? : Option Syntax → Built Tree}
    (hnone : f? none = pure .null) (hsome : ∀ c, f? (some c) = f c) (hp : p.vacant = true)
    (h : ∀ c, n? = some c → (f c).Gives readable (Content.one p).Filled) :
    (f? n?).Gives readable (Content.one p).Filled := by
  cases n? with
  | none =>
    rw [hnone]
    exact .pure (.vacant hp)
  | some c =>
    rw [hsome]
    exact h c rfl

theorem gives_toKey (hn : n.Legible readable) : n.toKey.Gives readable (Content.one .key).Filled := by
  unfold toKey
  split
  · exact gives_toIdentifier hn (by decide)
  · exact gives_toStringLiteral hn (by decide)
  · exact .pure (filled_toPlain hn.toOrdinary rfl)

theorem gives_toKey? (hn : ∀ c, n? = some c → c.Legible readable) :
    (toKey? n?).Gives readable (Content.one .key).Filled :=
  gives_of_vacant rfl (fun _ => rfl) rfl fun c hc => gives_toKey (hn c hc)

theorem gives_toDefaultedKey (hn : ∀ c, n? = some c → c.Legible readable) :
    (toDefaultedKey n n?).Gives readable (Content.one .key).Filled := by
  cases n? with
  | none => exact .pure (.plain rfl (by decide))
  | some c =>
    unfold toDefaultedKey
    dsimp only
    split
    · exact gives_toIdentifier (hn c rfl) (by decide)
    · exact .pure (.plain rfl (hn c rfl).kind_eq_none)

/-! ### Patterns -/

/-- A pattern with a default, where there may be one. -/
theorem filled_defaulted {left : Tree} (hleft : (Content.one Place.pattern.orVacant).Filled left)
    (hn : ∀ c, n? = some c → c.Ordinary) (hp : assignmentPattern ∈ p.kinds) :
    (Content.one p).Filled (defaulted lines left n?) :=
  .modelled hp (.cons hleft (.cons (filled_toPlain? hn) .nil))

/-- A pattern that may be missing is converted if it is when it is there. -/
theorem gives_toPattern?_of
    (h : ∀ c, n? = some c → c.toPattern.Gives readable (Content.one .pattern).Filled) :
    (toPattern? n?).Gives readable (Content.one Place.pattern.orVacant).Filled :=
  gives_of_vacant rfl (fun _ => rfl) rfl fun c hc => (h c hc).imp fun _ ht => ht.orVacant

/-- A rest element is converted if the patterns below it are. -/
theorem gives_toPattern_rest (hkind : n.kind = "rest_pattern") (hp : restElement ∈ p.kinds)
    (hpattern : ∀ c ∈ n.children, c.toPattern.Gives readable (Content.one .pattern).Filled) :
    n.toPattern.Gives readable (Content.one p).Filled := by
  rw [toPattern_rest hkind]
  refine (gives_toPattern?_of fun c hc => hpattern c ?_).bind fun argument hargument => ?_
  · exact mem_children_of_mem_parts (List.mem_of_head? hc)
  · exact .pure (.modelled hp (.cons hargument .nil))

/-- A pattern is converted if the patterns and entries below it are. -/
theorem gives_toPattern_step (hn : n.Everywhere (Legible readable))
    (hpattern : ∀ c ∈ n.children, c.toPattern.Gives readable (Content.one .pattern).Filled)
    (hmember : ∀ c ∈ n.children, c.toMember.Gives readable (Content.one .entry).Filled) :
    n.toPattern.Gives readable (Content.one .pattern).Filled := by
  cases hname : n.isName with
  | true =>
    rw [toPattern_of_isName hname]
    exact gives_toIdentifier hn.here (by decide)
  | false =>
    by_cases hobject : n.kind = "object_pattern"
    · rw [toPattern_object hobject]
      refine (Built.Gives.mapM fun c hc => hmember c (mem_children_of_mem_parts hc)).bind
        fun entries hentries => .pure (.modelled (by decide) (.cons (.numbered hentries.2 ?_) .nil))
      rw [hentries.1]
      exact Nat.le_trans (List.length_filter_le _ _) hn.here.length_le
    by_cases harray : n.kind = "array_pattern"
    · rw [toPattern_array harray]
      exact (Built.Gives.mapM fun c hc => hpattern c (mem_children_of_mem_parts hc)).bind
        fun elements helements => .pure (.modelled (by decide) (.cons (.many helements.2) .nil))
    by_cases hassignment : n.kind = "assignment_pattern"
    · rw [toPattern_assignment hassignment]
      exact (gives_toPattern?_of fun c hc => hpattern c (mem_children_of_child? hc)).bind
        fun left hleft => .pure
          (filled_defaulted hleft (fun c hc => (hn.of_child? hc).here.toOrdinary) (by decide))
    by_cases hrest : n.kind = "rest_pattern"
    · exact gives_toPattern_rest hrest (by decide) hpattern
    rw [toPattern_other hname (by simp [nestedKinds, hobject, harray, hassignment, hrest])]
    exact .pure (filled_toPlain hn.here.toOrdinary rfl)

/-- An entry of an object pattern is converted if the patterns below it are. -/
theorem gives_toMember_step (hn : n.Everywhere (Legible readable))
    (hpattern : ∀ c ∈ n.children, c.toPattern.Gives readable (Content.one .pattern).Filled) :
    n.toMember.Gives readable (Content.one .entry).Filled := by
  have hproperty : ∀ {key value : Tree} {shorthand computed : Bool},
      (Content.one .key).Filled key → (Content.one Place.pattern.orVacant).Filled value →
      (Content.one .entry).Filled (.modelled .objectProperty n.lines
        [key, value, .bool shorthand, .bool computed]) := fun hkey hvalue =>
    .modelled (by decide) (.cons hkey (.cons hvalue (.cons (.truth _) (.cons (.truth _) .nil))))
  have hpattern? : ∀ field, (toPattern? (n.child? field)).Gives readable
      (Content.one Place.pattern.orVacant).Filled := fun field =>
    gives_toPattern?_of fun c hc => hpattern c (mem_children_of_child? hc)
  have hchild : ∀ field c, n.child? field = some c → c.Legible readable := fun field c hc =>
    (hn.of_child? hc).here
  by_cases hpair : n.kind = "pair_pattern"
  · rw [toMember_pair hpair]
    exact (hpattern? "value").bind fun value hvalue => (gives_toKey? (hchild "key")).bind
      fun key hkey => .pure (hproperty hkey hvalue)
  by_cases hshorthand : n.kind = "shorthand_property_identifier_pattern"
  · rw [toMember_shorthand hshorthand]
    exact (gives_toIdentifier hn.here (by decide)).bind fun key hkey =>
      (gives_toIdentifier hn.here (by decide)).bind fun value hvalue =>
        .pure (hproperty hkey hvalue)
  by_cases hdefaulted : n.kind = "object_assignment_pattern"
  · rw [toMember_defaulted hdefaulted]
    exact (gives_toDefaultedKey (hchild "left")).bind fun key hkey => (hpattern? "left").bind
      fun left hleft => .pure
        (hproperty hkey (filled_defaulted hleft (fun c hc => (hchild "right" c hc).toOrdinary)
          (by decide)))
  by_cases hrest : n.kind = "rest_pattern"
  · rw [toMember_rest hrest]
    exact gives_toPattern_rest hrest (by decide) hpattern
  rw [toMember_other (by simp [memberKinds, hpair, hshorthand, hdefaulted, hrest])]
  exact .pure (filled_toPlain hn.here.toOrdinary rfl)

/-- Patterns and entries of object patterns are converted. -/
theorem gives_of_everywhere (hn : n.Everywhere (Legible readable)) :
    n.toPattern.Gives readable (Content.one .pattern).Filled ∧
      n.toMember.Gives readable (Content.one .entry).Filled := by
  induction hn with
  | @intro n here below ih =>
    have hn : n.Everywhere (Legible readable) := .intro here below
    exact ⟨gives_toPattern_step hn (fun c hc => (ih c hc).1) fun c hc => (ih c hc).2,
      gives_toMember_step hn fun c hc => (ih c hc).1⟩

theorem gives_toPattern? (hn : ∀ c, n? = some c → c.Everywhere (Legible readable)) :
    (toPattern? n?).Gives readable (Content.one Place.pattern.orVacant).Filled :=
  gives_toPattern?_of fun c hc => (gives_of_everywhere (hn c hc)).1

/-! ### Declarations -/

theorem gives_toParameter (hn : n.Everywhere (Legible readable)) :
    n.toParameter.Gives readable (Content.one Place.pattern.orVacant).Filled := by
  unfold toParameter
  split
  · refine (gives_toPattern? fun c hc => hn.of_child? hc).bind fun pattern hpattern => ?_
    cases hvalue : n.child? "value" with
    | none => exact .pure hpattern
    | some value =>
      refine .pure (filled_defaulted hpattern (fun c hc => ?_) (by decide))
      rw [← Option.some.inj hc]
      exact (hn.of_child? hvalue).here.toOrdinary
  · exact (gives_of_everywhere hn).1.imp fun _ ht => ht.orVacant

theorem gives_toParameters? (hn : ∀ c, n? = some c → c.Everywhere (Legible readable)) :
    (toParameters? n?).Gives readable fun ts => ∀ t ∈ ts,
      (Content.one Place.pattern.orVacant).Filled t := by
  cases n? with
  | none => exact .pure (by simp)
  | some c =>
    exact (Built.Gives.mapM fun parameter hparameter =>
      gives_toParameter ((hn c rfl).of_mem_parts hparameter)).imp fun _ hts => hts.2

theorem gives_toFunction (hn : n.Everywhere (Legible readable)) :
    n.toFunction.Gives readable (Content.one .declaration).Filled := by
  have hid : (toIdentifier? (n.child? "name")).Gives readable
      (Content.one ⟨[identifier], false, true⟩).Filled :=
    gives_of_vacant rfl (fun _ => rfl) rfl fun c hc =>
      gives_toIdentifier (hn.of_child? hc).here (by decide)
  unfold toFunction
  exact hid.bind fun id hid => (gives_toParameters? fun c hc => hn.of_child? hc).bind
    fun params hparams => .pure (.modelled (by decide)
      (.cons hid (.cons (.many hparams) (.cons (.truth _) (.cons (.truth _) .nil)))))

theorem gives_toDeclarator (hn : n.Everywhere (Legible readable)) :
    n.toDeclarator.Gives readable (Content.one ⟨[variableDeclarator], false, false⟩).Filled := by
  unfold toDeclarator
  exact (gives_toPattern? fun c hc => hn.of_child? hc).bind fun binding hbinding =>
    .pure (.modelled (by decide)
      (.cons hbinding (.cons (filled_toPlain? fun c hc => (hn.of_child? hc).here.toOrdinary) .nil)))

theorem gives_toDeclarationWord (hn : ∀ c, n? = some c → c.Legible readable) :
    (toDeclarationWord n?).Gives readable fun _ => True := by
  cases n? with
  | none => exact .pure trivial
  | some c => exact gives_readText (hn c rfl)

theorem gives_toVariables (hn : n.Everywhere (Legible readable)) :
    n.toVariables.Gives readable (Content.one .declaration).Filled := by
  unfold toVariables
  refine (gives_toDeclarationWord fun c hc => (hn.of_child? hc).here).bind fun word _ => ?_
  refine (Built.Gives.mapM fun c hc =>
    gives_toDeclarator (hn.of_mem_parts (List.mem_filter.mp hc).1)).bind fun declarators hall => ?_
  exact .pure (.modelled (by decide) (.cons (.text word) (.cons (.many hall.2) .nil)))

theorem gives_toDeclaration (hn : n.Everywhere (Legible readable)) :
    n.toDeclaration.Gives readable (Content.one .declaration).Filled := by
  cases hfunction : n.isFunction with
  | true =>
    rw [toDeclaration_function hfunction]
    exact gives_toFunction hn
  | false =>
    cases hvariables : n.isVariables with
    | true =>
      rw [toDeclaration_variables hvariables]
      exact gives_toVariables hn
    | false =>
      rw [toDeclaration_other hfunction hvariables]
      exact .pure (filled_toPlain hn.here.toOrdinary rfl)

/-! ### Statements and programs -/

theorem gives_toExportName? (hn : ∀ c, n? = some c → c.Legible readable) :
    (toExportName? n?).Gives readable (Content.one .exportName).Filled := by
  refine gives_of_vacant (f := toExportName) rfl (fun _ => rfl) rfl fun c hc => ?_
  unfold toExportName
  split
  · exact gives_toStringLiteral (hn c hc) (by decide)
  · exact gives_toIdentifier (hn c hc) (by decide)

/-- The place of a specifier. -/
theorem gives_toSpecifier (hn : n.Everywhere (Legible readable)) : n.toSpecifier.Gives readable
    (Content.one ⟨[exportSpecifier, exportNamespaceSpecifier], false, false⟩).Filled := by
  have hchild : ∀ field c, n.child? field = some c → c.Legible readable := fun field c hc =>
    (hn.of_child? hc).here
  unfold toSpecifier
  refine (gives_toExportName? (hchild "name")).bind fun name hname => ?_
  refine (gives_toExportName? fun c hc => ?_).bind fun exported hexported =>
    .pure (.modelled (by decide) (.cons hname (.cons hexported .nil)))
  rcases Option.or_eq_some_iff.mp hc with halias | ⟨-, hname⟩
  · exact hchild "alias" c halias
  · exact hchild "name" c hname

theorem gives_toSpecifiers (hn : n.Everywhere (Legible readable)) :
    n.toSpecifiers.Gives readable fun ts => ∀ t ∈ ts,
      (Content.one ⟨[exportSpecifier, exportNamespaceSpecifier], false, false⟩).Filled t := by
  unfold toSpecifiers
  split
  · exact (Built.Gives.mapM fun c hc =>
      gives_toSpecifier (hn.of_mem_parts (List.mem_filter.mp hc).1)).imp fun _ hts => hts.2
  · refine (gives_toExportName? fun c hc =>
      (hn.of_mem_parts (List.mem_of_head? hc)).here).bind fun exported hexported => .pure ?_
    rw [List.forall_mem_singleton]
    exact .modelled (by decide) (.cons hexported .nil)
  · exact .pure (by simp)

theorem gives_toNamedExport (hn : n.Everywhere (Legible readable)) :
    n.toNamedExport.Gives readable (Content.one .statement).Filled := by
  have hdeclaration : (toDeclaration? (n.child? "declaration")).Gives readable
      (Content.one .declaration).Filled :=
    gives_of_vacant rfl (fun _ => rfl) rfl fun c hc => gives_toDeclaration (hn.of_child? hc)
  have hsource : (toSource? (n.child? "source")).Gives readable
      (Content.one ⟨[stringLiteral], false, true⟩).Filled :=
    gives_of_vacant rfl (fun _ => rfl) rfl fun c hc =>
      gives_toStringLiteral (hn.of_child? hc).here (by decide)
  unfold toNamedExport
  refine (Built.Gives.mapM fun c hc => gives_toSpecifiers (hn.of_mem_parts hc)).bind
    fun specifiers hspecifiers => hdeclaration.bind fun declaration hdeclaration =>
      hsource.bind fun source hsource => .pure (.modelled (by decide)
        (.cons hdeclaration (.cons (.many fun t ht => ?_) (.cons hsource (.cons (.text _) .nil)))))
  obtain ⟨ts, hts, ht⟩ := List.mem_flatten.mp ht
  exact hspecifiers.2 ts hts t ht

theorem gives_toStatement (hn : n.Everywhere (Legible readable)) :
    n.toStatement.Gives readable (Content.one .statement).Filled := by
  cases hexport : n.isNamedExport with
  | true =>
    rw [toStatement_namedExport hexport]
    exact gives_toNamedExport hn
  | false =>
    obtain ⟨type, htype, hnames⟩ := toStatement_other hexport
    rw [htype]
    refine .pure (.plain rfl ?_)
    rcases hnames with rfl | hmem
    · exact hn.here.kind_eq_none
    · have hnone : ∀ type ∈ namelessTypes, Kind.ofName? type = none := by decide
      exact hnone type hmem

/-- A program is a list of well-built statements, and a module has one if all of its texts can be
read. -/
theorem gives_toProgram (hn : n.Everywhere (Legible readable)) :
    n.toProgram.Gives readable fun t => ∃ statements,
      t = .modelled .program n.lines [.list statements] ∧
        ∀ s ∈ statements, (Content.one .statement).Filled s := by
  unfold toProgram
  exact (Built.Gives.mapM fun c hc => gives_toStatement (hn.of_mem_parts hc)).bind
    fun statements hstatements => .pure ⟨statements, rfl, hstatements.2⟩

end Syntax

end NamedExports
