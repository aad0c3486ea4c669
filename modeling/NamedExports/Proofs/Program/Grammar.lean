import NamedExports.Proofs.Program.Regular

/-!
# The grammar of modelled programs

What the nodes of a modelled program hold: `Kind.contents` says for every field of every kind which
nodes may stand there, and whether there may be none.  A tree that follows this throughout is well
built (`Tree.WellBuilt`).  The grammar is what the consumers of a program rely on: a reader that
asks a node of some kind for a field finds the field, and nothing in it that it does not expect.

Well-built trees are regular (`Tree.WellBuilt.isRegularNode`).
-/

namespace NamedExports

open Kind

/-- What may stand in a place for one node. -/
structure Place where
  /-- The kinds of the modelled nodes that may stand there. -/
  kinds : List Kind
  /-- Whether a node that is not modelled may stand there. -/
  plain : Bool
  /-- Whether there may be no node at all. -/
  vacant : Bool

namespace Place

/-- A tree may stand in a place. -/
def Admits (p : Place) : Tree → Prop
  | .null => p.vacant = true
  | .node (.modelled kind) _ => kind ∈ p.kinds
  | .node .plain _ => p.plain = true
  | _ => False

/-- A place that may be vacant. -/
def orVacant (p : Place) : Place :=
  { p with vacant := true }

/-- The place of a pattern: anything that is no pattern is not modelled there. -/
def pattern : Place :=
  ⟨[identifier, objectPattern, arrayPattern, assignmentPattern, restElement], true, false⟩

/-- The place of an entry of an object pattern. -/
def entry : Place :=
  ⟨[objectProperty, restElement], true, false⟩

/-- The place of the key of a property. -/
def key : Place :=
  ⟨[identifier, stringLiteral], true, true⟩

/-- The place of a value, of which only the construct is kept. -/
def expression : Place :=
  ⟨[], true, true⟩

/-- The place of a name in an export clause. -/
def exportName : Place :=
  ⟨[identifier, stringLiteral], false, true⟩

/-- The place of an exported declaration. -/
def declaration : Place :=
  ⟨[functionDeclaration, variableDeclaration], true, true⟩

/-- The place of a statement. -/
def statement : Place :=
  ⟨[exportNamedDeclaration], true, false⟩

/-- What stands in a place for a node is a node, or there is none. -/
theorem Admits.eq_null_or_isNode {p : Place} {t : Tree} (h : p.Admits t) :
    t = .null ∨ t.isNode = true := by
  cases t with
  | null => exact Or.inl rfl
  | node shape attributes =>
    cases shape with
    | loose => exact absurd h id
    | _ => exact Or.inr rfl
  | _ => exact absurd h id

theorem Admits.ne_list {p : Place} {t : Tree} {ts : List Tree} (h : p.Admits t) : t ≠ .list ts := by
  rintro rfl
  exact h

/-- Where there is always a node, it is one. -/
theorem Admits.isNode {p : Place} {t : Tree} (h : p.Admits t) (hvacant : p.vacant = false) :
    t.isNode = true := by
  rcases h.eq_null_or_isNode with rfl | hnode
  · exact absurd (show p.vacant = true from h) (by simp [hvacant])
  · exact hnode

end Place

/-- What a field of a modelled node holds. -/
inductive Content where
  | text
  | truth
  | one (place : Place)
  | many (place : Place)
  /-- Entries, no more of them than can be numbered. -/
  | numbered (place : Place)

/-- A value of a field is what the field holds. -/
def Content.Admits : Content → Tree → Prop
  | text, t => ∃ value, t = .str value
  | truth, t => ∃ value, t = .bool value
  | one p, t => p.Admits t
  | many p, t => ∃ ts, t = .list ts ∧ ∀ u ∈ ts, p.Admits u
  | numbered p, t => ∃ ts, t = .list ts ∧ (∀ u ∈ ts, p.Admits u) ∧ ts.length ≤ 10 ^ Text.maxDigits

/-- What the fields of a kind hold, in the order of the fields. -/
def Kind.contents : Kind → List Content
  | identifier | stringLiteral => [.text]
  | restElement => [.one Place.pattern.orVacant]
  | assignmentPattern => [.one Place.pattern.orVacant, .one .expression]
  | arrayPattern => [.many .pattern]
  | objectProperty => [.one .key, .one Place.pattern.orVacant, .truth, .truth]
  | objectPattern => [.numbered .entry]
  | variableDeclarator => [.one Place.pattern.orVacant, .one .expression]
  | variableDeclaration => [.text, .many ⟨[variableDeclarator], false, false⟩]
  | functionDeclaration =>
    [.one ⟨[identifier], false, true⟩, .many Place.pattern.orVacant, .truth, .truth]
  | exportSpecifier => [.one .exportName, .one .exportName]
  | exportNamespaceSpecifier => [.one .exportName]
  | exportNamedDeclaration =>
    [.one .declaration, .many ⟨[exportSpecifier, exportNamespaceSpecifier], false, false⟩,
      .one ⟨[stringLiteral], false, true⟩, .text]
  | program => [.many .statement]

/-- The values of the fields of a node are what the fields of its kind hold. -/
def Kind.Holds (kind : Kind) (values : List Tree) : Prop :=
  List.Forall₂ Content.Admits kind.contents values

theorem Kind.length_contents (kind : Kind) : kind.contents.length = kind.fields.length := by
  cases kind <;> rfl

/-- A node of a kind has all fields of the kind. -/
theorem Kind.Holds.length_eq {kind : Kind} {values : List Tree} (h : kind.Holds values) :
    values.length = kind.fields.length := by
  rw [← List.Forall₂.length_eq h, kind.length_contents]

/-- What stands in the second of two related lists is related to something in the first. -/
theorem exists_of_forall₂ {α β : Type} {R : α → β → Prop} {as : List α} {bs : List β}
    (h : List.Forall₂ R as bs) {b : β} (hb : b ∈ bs) : ∃ a ∈ as, R a b := by
  induction h with
  | nil => simp at hb
  | @cons a b' as bs hab _ ih =>
    rcases List.mem_cons.mp hb with rfl | hb
    · exact ⟨a, List.mem_cons_self, hab⟩
    · obtain ⟨a', ha', hab'⟩ := ih hb
      exact ⟨a', List.mem_cons_of_mem _ ha', hab'⟩

/-! ### What the kinds hold -/

namespace Kind.Holds

variable {values : List Tree}

theorem exists_name (h : identifier.Holds values) : ∃ text, values = [.str text] := by
  obtain _ | ⟨⟨text, rfl⟩, ⟨⟩⟩ := h
  exact ⟨text, rfl⟩

theorem exists_literal (h : stringLiteral.Holds values) : ∃ text, values = [.str text] :=
  exists_name h

theorem exists_entries (h : objectPattern.Holds values) : ∃ entries, values = [.list entries] ∧
    (∀ e ∈ entries, Place.entry.Admits e) ∧ entries.length ≤ 10 ^ Text.maxDigits := by
  obtain _ | ⟨⟨entries, rfl, hentries, hlength⟩, ⟨⟩⟩ := h
  exact ⟨entries, rfl, hentries, hlength⟩

theorem exists_property (h : objectProperty.Holds values) : ∃ key value shorthand computed,
    values = [key, value, .bool shorthand, .bool computed] ∧ Place.key.Admits key := by
  obtain _ | ⟨hkey, _ | ⟨-, _ | ⟨⟨shorthand, rfl⟩, _ | ⟨⟨computed, rfl⟩, ⟨⟩⟩⟩⟩⟩ := h
  exact ⟨_, _, shorthand, computed, rfl, hkey⟩

theorem exists_declarators (h : variableDeclaration.Holds values) : ∃ word declarators,
    values = [.str word, .list declarators] ∧ ∀ d ∈ declarators, d.isNode = true := by
  obtain _ | ⟨⟨word, rfl⟩, _ | ⟨⟨declarators, rfl, hdeclarators⟩, ⟨⟩⟩⟩ := h
  exact ⟨word, declarators, rfl, fun d hd => (hdeclarators d hd).isNode rfl⟩

theorem exists_binding (h : variableDeclarator.Holds values) : ∃ binding value,
    values = [binding, value] ∧ Place.pattern.orVacant.Admits binding := by
  obtain _ | ⟨hbinding, _ | ⟨-, ⟨⟩⟩⟩ := h
  exact ⟨_, _, rfl, hbinding⟩

theorem exists_declaration (h : exportNamedDeclaration.Holds values) :
    ∃ declaration specifiers source kind,
      values = [declaration, .list specifiers, source, .str kind] ∧
      Place.declaration.Admits declaration := by
  obtain _ | ⟨hdeclaration, _ | ⟨⟨specifiers, rfl, -⟩, _ | ⟨-, _ | ⟨⟨kind, rfl⟩, ⟨⟩⟩⟩⟩⟩ := h
  exact ⟨_, specifiers, _, kind, rfl, hdeclaration⟩

end Kind.Holds

/-! ### Well-built trees -/

/-- The nodes that stand directly in a field. -/
def Tree.nodes : Tree → List Tree
  | .list items => items.filter isNode
  | t => [t].filter isNode

/-- A node that holds what a node of its kind holds, and of which all nodes below do so too. -/
inductive Tree.WellBuilt : Tree → Prop where
  | plain {type : String} (lines : Lines) (htype : Kind.ofName? type = none) :
      WellBuilt (.plain type lines)
  | modelled {kind : Kind} (lines : Lines) {values : List Tree} (hholds : kind.Holds values)
      (hparts : ∀ v ∈ values, ∀ u ∈ v.nodes, WellBuilt u) :
      WellBuilt (.modelled kind lines values)

namespace Tree

variable {t : Tree} {p : Place}

theorem WellBuilt.isNode (h : t.WellBuilt) : t.isNode = true := by
  cases h <;> rfl

/-- A node stands for itself in a field. -/
theorem nodes_of_isNode (h : t.isNode = true) : t.nodes = [t] := by
  cases t with
  | node shape attributes => exact List.filter_eq_self.mpr (by simpa using h)
  | _ => exact absurd h (by simp [Tree.isNode])

theorem mem_nodes_of_isNode (h : t.isNode = true) : t ∈ t.nodes := by
  rw [nodes_of_isNode h]
  exact List.mem_singleton_self t

theorem mem_nodes_list {ts : List Tree} : t ∈ (Tree.list ts).nodes ↔ t ∈ ts ∧ t.isNode = true :=
  List.mem_filter

/-- What stands in a place of a well-built node is well built, unless there is nothing. -/
theorem wellBuilt_of_admits (h : p.Admits t) (hparts : ∀ u ∈ t.nodes, u.WellBuilt) :
    t = null ∨ t.WellBuilt :=
  h.eq_null_or_isNode.imp_right fun hnode => hparts t (mem_nodes_of_isNode hnode)

/-- A well-built tree that says it is of a kind is a node of the kind, with what its fields hold. -/
theorem WellBuilt.exists_of_hasType (h : t.WellBuilt) (kind : Kind)
    (htype : t.hasType kind.name = true) : ∃ lines values, t = Tree.modelled kind lines values ∧
      kind.Holds values ∧ ∀ v ∈ values, ∀ u ∈ v.nodes, u.WellBuilt := by
  cases h with
  | plain lines hplain =>
    rw [hasType_plain hplain] at htype
    exact absurd htype (by decide)
  | @modelled kind' lines values hholds hparts =>
    rw [hasType_modelled, decide_eq_true_eq] at htype
    subst htype
    exact ⟨lines, values, rfl, hholds, hparts⟩

/-! ### Well-built trees are regular -/

/-- What stands in a field is regular if the nodes there are. -/
theorem regular_of_admits {content : Content} (h : content.Admits t)
    (hparts : ∀ u ∈ t.nodes, u.Regular) : t.Regular := by
  have hplace : ∀ {p : Place} {u : Tree}, p.Admits u → (u.isNode = true → u.Regular) →
      u.Regular := by
    intro p u hu hnode
    rcases hu.eq_null_or_isNode with rfl | hisNode
    · exact .null
    · exact hnode hisNode
  have hlist : ∀ {p : Place} {ts : List Tree}, (∀ u ∈ ts, p.Admits u) →
      (∀ u ∈ (Tree.list ts).nodes, u.Regular) → (Tree.list ts).Regular := fun hts hnodes =>
    .list (fun u hu _ => (hts u hu).ne_list) fun u hu =>
      hplace (hts u hu) fun hnode => hnodes u (mem_nodes_list.mpr ⟨hu, hnode⟩)
  cases content with
  | text =>
    obtain ⟨value, rfl⟩ := h
    exact .str value
  | truth =>
    obtain ⟨value, rfl⟩ := h
    exact .bool value
  | one p => exact hplace h fun hnode => hparts t (mem_nodes_of_isNode hnode)
  | many p =>
    obtain ⟨ts, rfl, hts⟩ := h
    exact hlist hts hparts
  | numbered p =>
    obtain ⟨ts, rfl, hts, -⟩ := h
    exact hlist hts hparts

/-- Where no modelled node but a name or a text may stand, there is no pattern. -/
theorem patternsInField_of_names (hkinds : ∀ kind ∈ p.kinds, kind = identifier ∨ kind = stringLiteral)
    (h : p.Admits t) (hparts : ∀ u ∈ t.nodes, u.WellBuilt) : t.patternsInField = [] := by
  rcases wellBuilt_of_admits h hparts with rfl | hbuilt
  · rfl
  · cases hbuilt with
    | plain lines htype => exact objectPatterns_plain htype
    | @modelled kind lines values hholds _ =>
      rcases hkinds kind h with rfl | rfl
      · obtain ⟨text, rfl⟩ := hholds.exists_name
        rfl
      · obtain ⟨text, rfl⟩ := hholds.exists_literal
        rfl

end Tree

/-- A node that holds what its kind holds takes what a regular node takes. -/
theorem Kind.Holds.takes {kind : Kind} {values : List Tree} (h : kind.Holds values)
    (hparts : ∀ v ∈ values, ∀ u ∈ v.nodes, u.WellBuilt) : kind.Takes values := by
  refine ⟨h.length_eq, ?_⟩
  cases kind with
  | identifier => exact h.exists_name
  | stringLiteral => exact h.exists_literal
  | objectPattern =>
    obtain ⟨entries, rfl, hentries, hlength⟩ := h.exists_entries
    exact ⟨entries, rfl, hlength, fun e he => (hentries e he).isNode rfl⟩
  | objectProperty =>
    obtain ⟨key, value, shorthand, computed, rfl, hkey⟩ := h.exists_property
    exact ⟨key, value, shorthand, computed, rfl,
      Tree.patternsInField_of_names (by decide) hkey (hparts key List.mem_cons_self)⟩
  | _ => trivial

/-- Well-built trees are regular nodes. -/
theorem Tree.WellBuilt.isRegularNode {t : Tree} (h : t.WellBuilt) : Syntax.IsRegularNode t := by
  refine ⟨?_, h.isNode⟩
  induction h with
  | plain lines htype => exact .plain lines htype
  | modelled lines hholds hparts ih =>
    refine .modelled lines (hholds.takes hparts) fun v hv => ?_
    obtain ⟨content, -, hcontent⟩ := exists_of_forall₂ hholds hv
    exact regular_of_admits hcontent (ih v hv)

end NamedExports
