import NamedExports.Proofs.Program.Regular

/-!
# Lines of modelled programs

A node of a modelled program does not always take its lines from the syntax that stands in its place:
the name and the value of a shorthand property are one piece of syntax, a property with a default is
the default as well, a parameter is its pattern or the default around it, and the specifiers of an
export are pulled up out of their clause.  The lines nest all the same.  If the rows of a piece of
syntax nest (`Syntax.Spanning`), the lines of every node that it is converted to lie within those of
the node above (`Tree.NestsIn`), conversion by conversion up to the whole program
(`Syntax.nestsIn_toProgram`).
-/

namespace NamedExports

namespace Tree

/-! ### Lines that nest -/

/-- Some lines lie within others. -/
structure Lines.Within (inner outer : Lines) : Prop where
  first_le : outer.first ≤ inner.first
  le_last : inner.last ≤ outer.last

namespace Lines.Within

variable {inner middle outer : Lines}

theorem refl (lines : Lines) : lines.Within lines :=
  ⟨le_refl _, le_refl _⟩

theorem trans (h : inner.Within middle) (h' : middle.Within outer) : inner.Within outer :=
  ⟨h'.first_le.trans h.first_le, h.le_last.trans h'.le_last⟩

end Lines.Within

/-- Lines that count from one, and do not end before they begin. -/
structure Lines.Proper (lines : Lines) : Prop where
  one_le_first : 1 ≤ lines.first
  first_le_last : lines.first ≤ lines.last

/-- The lines that a node says it covers, if it says so. -/
def lines? (t : Tree) : Option Lines :=
  match t.attr? "start_line", t.attr? "end_line" with
  | some (int first), some (int last) => some ⟨first, last⟩
  | _, _ => none

/-- All objects in a value are nodes that lie within some lines, and those in each of them lie within
its own. -/
inductive NestsIn : Lines → Tree → Prop where
  | null {outer : Lines} : NestsIn outer .null
  | bool {outer : Lines} (value : Bool) : NestsIn outer (.bool value)
  | int {outer : Lines} (value : Int) : NestsIn outer (.int value)
  | str {outer : Lines} (value : String) : NestsIn outer (.str value)
  | list {outer : Lines} {items : List Tree} (h : ∀ t ∈ items, NestsIn outer t) :
      NestsIn outer (.list items)
  | node {outer lines : Lines} {shape : Shape} {attributes : List (String × Tree)}
      (hnode : shape.isNode = true) (hlines : (Tree.node shape attributes).lines? = some lines)
      (hproper : lines.Proper) (hwithin : lines.Within outer)
      (h : ∀ a ∈ attributes, NestsIn lines a.2) : NestsIn outer (.node shape attributes)

variable {inner outer lines : Lines} {t : Tree}

/-- What nests in some lines nests in wider ones. -/
theorem NestsIn.widen (h : NestsIn inner t) (hwithin : inner.Within outer) : NestsIn outer t := by
  induction h generalizing outer with
  | null => exact .null
  | bool value => exact .bool value
  | int value => exact .int value
  | str value => exact .str value
  | list _ ih => exact .list fun t ht => ih t ht hwithin
  | node hnode hlines hproper hinner h =>
    exact .node hnode hlines hproper (hinner.trans hwithin) h

/-- The attributes that every node has hold no nodes. -/
theorem nestsIn_header {type : String} {a : String × Tree} (ha : a ∈ header type lines) :
    NestsIn outer a.2 := by
  simp only [header, List.mem_cons, List.not_mem_nil, or_false] at ha
  rcases ha with rfl | rfl | rfl
  · exact .str type
  · exact .int _
  · exact .int _

/-- The lines of a node are what its two attributes hold. -/
theorem lines?_eq_some : t.lines? = some lines ↔
    t.attr? "start_line" = some (int lines.first) ∧ t.attr? "end_line" = some (int lines.last) := by
  constructor
  · intro h
    unfold lines? at h
    split at h
    next hfirst hlast =>
      cases h
      exact ⟨hfirst, hlast⟩
    next => cases h
  · rintro ⟨hfirst, hlast⟩
    unfold lines?
    rw [hfirst, hlast]

theorem lines?_plain (type : String) (lines : Lines) : (plain type lines).lines? = some lines := rfl

theorem lines?_modelled (kind : Kind) (lines : Lines) (values : List Tree) :
    (modelled kind lines values).lines? = some lines := rfl

theorem nestsIn_plain (type : String) (hproper : lines.Proper) : NestsIn lines (plain type lines) :=
  .node rfl (lines?_plain type lines) hproper (.refl lines) fun _ ha => nestsIn_header ha

/-- A node nests in its lines if the values of its fields do. -/
theorem nestsIn_modelled {kind : Kind} {values : List Tree} (hproper : lines.Proper)
    (h : values.Forall (NestsIn lines)) : NestsIn lines (modelled kind lines values) := by
  refine .node rfl (lines?_modelled kind lines values) hproper (.refl lines) fun a ha => ?_
  rcases List.mem_append.mp ha with ha | ha
  · exact nestsIn_header ha
  · exact List.forall_iff_forall_mem.mp h a.2 (List.of_mem_zip ha).2

end Tree

namespace Syntax

open NamedExports.Tree (NestsIn)

/-- The rows of a node do not end before they begin, and those of the nodes directly below lie between
them. -/
structure Spanning (n : Syntax) : Prop where
  first_le_last : n.rows.first ≤ n.rows.last
  children : ∀ c ∈ n.children, n.rows.first ≤ c.rows.first ∧ c.rows.last ≤ n.rows.last

instance (n : Syntax) : Decidable n.Spanning :=
  decidable_of_iff (n.rows.first ≤ n.rows.last ∧
      ∀ c ∈ n.children, n.rows.first ≤ c.rows.first ∧ c.rows.last ≤ n.rows.last)
    ⟨fun h => ⟨h.1, h.2⟩, fun h => ⟨h.first_le_last, h.children⟩⟩

variable {n c : Syntax} {n? : Option Syntax} {lines : Tree.Lines} {t : Tree}

theorem Spanning.proper (h : n.Spanning) : n.lines.Proper := by
  have hrows := h.first_le_last
  constructor <;> simp only [Syntax.lines] <;> omega

theorem Spanning.within (h : n.Spanning) (hc : c ∈ n.children) : c.lines.Within n.lines := by
  obtain ⟨hfirst, hlast⟩ := h.children c hc
  constructor <;> simp only [Syntax.lines] <;> omega

/-! ### Parts of syntax -/

theorem nestsIn_toPlain (h : n.Spanning) : NestsIn n.lines n.toPlain :=
  Tree.nestsIn_plain n.kind h.proper

theorem nestsIn_toIdentifier (h : n.Spanning) (ht : n.toIdentifier = .ok t) : NestsIn n.lines t := by
  obtain ⟨text, -, rfl⟩ := toIdentifier_eq_ok.mp ht
  exact Tree.nestsIn_modelled h.proper (.str text)

theorem nestsIn_toStringLiteral (h : n.Spanning) (ht : n.toStringLiteral = .ok t) :
    NestsIn n.lines t := by
  obtain ⟨text, -, hpure⟩ := Built.bind_eq_ok.mp ht
  rw [← Built.pure_eq_ok.mp hpure]
  exact Tree.nestsIn_modelled h.proper (.str _)

/-- What a part below a node is converted to nests in the lines of the node, if it nests in its own. -/
theorem nestsIn_of_part {f : Syntax → Built Tree} {f? : Option Syntax → Built Tree}
    (hnone : f? none = pure .null) (hsome : ∀ c, f? (some c) = f c) (hn : n.Spanning)
    (h : ∀ c ∈ n.children, ∀ t, f c = .ok t → NestsIn c.lines t)
    (hbelow : ∀ c, n? = some c → c ∈ n.children) (ht : f? n? = .ok t) : NestsIn n.lines t := by
  cases n? with
  | none =>
    rw [hnone] at ht
    rw [← Built.pure_eq_ok.mp ht]
    exact .null
  | some c =>
    rw [hsome] at ht
    have hc := hbelow c rfl
    exact (h c hc t ht).widen (hn.within hc)

/-- A list of what parts below a node are converted to nests in the lines of the node, if each of them
nests in its own. -/
theorem nestsIn_of_parts {f : Syntax → Built Tree} {cs : List Syntax} {ts : List Tree}
    (hn : n.Spanning) (h : ∀ c ∈ n.children, ∀ t, f c = .ok t → NestsIn c.lines t)
    (hbelow : ∀ c ∈ cs, c ∈ n.children) (hts : List.Forall₂ (fun c t => f c = .ok t) cs ts) :
    NestsIn n.lines (.list ts) := by
  refine .list fun t ht => ?_
  obtain ⟨c, hc, hct⟩ := Built.exists_of_mem_mapM (Built.mapM_eq_ok_iff.mpr hts) ht
  exact (h c (hbelow c hc) t hct).widen (hn.within (hbelow c hc))

/-- What stands for a value nests in the lines of the node that it is below. -/
theorem nestsIn_toPlain? (hn : n.Everywhere Spanning) (field : String) :
    NestsIn n.lines (toPlain? (n.child? field)) := by
  cases hc : n.child? field with
  | none => exact .null
  | some c =>
    have hbelow := mem_children_of_child? hc
    exact (nestsIn_toPlain (hn.of_mem_children hbelow).here).widen (hn.here.within hbelow)

theorem nestsIn_toKey (h : n.Spanning) (ht : n.toKey = .ok t) : NestsIn n.lines t := by
  unfold toKey at ht
  split at ht
  · exact nestsIn_toIdentifier h ht
  · exact nestsIn_toStringLiteral h ht
  · rw [← Built.pure_eq_ok.mp ht]
    exact nestsIn_toPlain h

theorem nestsIn_toKey? (hn : n.Everywhere Spanning) {field : String}
    (ht : toKey? (n.child? field) = .ok t) : NestsIn n.lines t :=
  nestsIn_of_part rfl (fun _ => rfl) hn.here (fun _ hc _ => nestsIn_toKey (hn.of_mem_children hc).here)
    (fun _ => mem_children_of_child?) ht

/-- The key of a property with a default has its own lines, or those of the whole property. -/
theorem nestsIn_toDefaultedKey (hn : n.Everywhere Spanning) {field : String}
    (ht : toDefaultedKey n (n.child? field) = .ok t) : NestsIn n.lines t := by
  cases hc : n.child? field with
  | none =>
    rw [hc] at ht
    rw [← Built.pure_eq_ok.mp ht]
    exact Tree.nestsIn_plain _ hn.here.proper
  | some c =>
    rw [hc] at ht
    unfold toDefaultedKey at ht
    dsimp only at ht
    split at ht
    · have hbelow := mem_children_of_child? hc
      exact (nestsIn_toIdentifier (hn.of_mem_children hbelow).here ht).widen (hn.here.within hbelow)
    · rw [← Built.pure_eq_ok.mp ht]
      exact Tree.nestsIn_plain _ hn.here.proper

/-- A pattern with a default nests in the lines of a node if the pattern does. -/
theorem nestsIn_defaulted (hn : n.Everywhere Spanning) {left : Tree} (hleft : NestsIn n.lines left)
    (field : String) : NestsIn n.lines (defaulted n.lines left (n.child? field)) :=
  Tree.nestsIn_modelled hn.here.proper ⟨hleft, nestsIn_toPlain? hn field⟩

/-! ### Patterns -/

/-- A pattern that may be missing below a node nests in the lines of the node. -/
theorem nestsIn_toPattern?_of (hn : n.Spanning)
    (h : ∀ c ∈ n.children, ∀ t, c.toPattern = .ok t → NestsIn c.lines t)
    (hbelow : ∀ c, n? = some c → c ∈ n.children) (ht : toPattern? n? = .ok t) : NestsIn n.lines t :=
  nestsIn_of_part rfl (fun _ => rfl) hn h hbelow ht

/-- A pattern nests in its lines if the patterns and entries below it do. -/
theorem nestsIn_toPattern_step (hn : n.Everywhere Spanning)
    (hpattern : ∀ c ∈ n.children, ∀ t, c.toPattern = .ok t → NestsIn c.lines t)
    (hmember : ∀ c ∈ n.children, ∀ t, c.toMember = .ok t → NestsIn c.lines t)
    (ht : n.toPattern = .ok t) : NestsIn n.lines t := by
  have hproper := hn.here.proper
  cases patternIs_of_toPattern ht with
  | name hname htext => exact Tree.nestsIn_modelled hproper (.str _)
  | object hkind hentries =>
    exact Tree.nestsIn_modelled hproper
      (nestsIn_of_parts hn.here hmember (fun _ => mem_children_of_mem_parts) hentries)
  | array hkind helements =>
    exact Tree.nestsIn_modelled hproper
      (nestsIn_of_parts hn.here hpattern (fun _ => mem_children_of_mem_parts) helements)
  | assignment hkind hleft =>
    exact nestsIn_defaulted hn
      (nestsIn_toPattern?_of hn.here hpattern (fun _ => mem_children_of_child?) hleft) "right"
  | rest hkind hargument =>
    exact Tree.nestsIn_modelled hproper (nestsIn_toPattern?_of hn.here hpattern
      (fun _ hc => mem_children_of_mem_parts (List.mem_of_head? hc)) hargument)
  | other hname hkind => exact nestsIn_toPlain hn.here

/-- A property nests in its lines if its key and its value do. -/
theorem nestsIn_property (hn : n.Spanning) {key value : Tree} {shorthand computed : Bool}
    (hkey : NestsIn n.lines key) (hvalue : NestsIn n.lines value) :
    NestsIn n.lines (.modelled .objectProperty n.lines
      [key, value, .bool shorthand, .bool computed]) :=
  Tree.nestsIn_modelled hn.proper ⟨hkey, hvalue, .bool shorthand, .bool computed⟩

/-- An entry of an object pattern nests in its lines if the patterns below it, and the entry as a
pattern, do. -/
theorem nestsIn_toMember_step (hn : n.Everywhere Spanning)
    (hpattern : ∀ c ∈ n.children, ∀ t, c.toPattern = .ok t → NestsIn c.lines t)
    (hself : ∀ t, n.toPattern = .ok t → NestsIn n.lines t) (ht : n.toMember = .ok t) :
    NestsIn n.lines t := by
  have hpattern? : ∀ {field : String} {t : Tree}, toPattern? (n.child? field) = .ok t →
      NestsIn n.lines t := fun ht =>
    nestsIn_toPattern?_of hn.here hpattern (fun _ => mem_children_of_child?) ht
  cases memberIs_of_toMember ht with
  | pair hkind hkey hvalue =>
    exact nestsIn_property hn.here (nestsIn_toKey? hn hkey) (hpattern? hvalue)
  | @shorthand text hkind htext =>
    -- the name and the value are one piece of syntax, which is the whole property
    have hidentifier : NestsIn n.lines (.modelled .identifier n.lines [.str text]) :=
      Tree.nestsIn_modelled hn.here.proper (.str text)
    exact nestsIn_property hn.here hidentifier hidentifier
  | defaulted hkind hkey hleft =>
    exact nestsIn_property hn.here (nestsIn_toDefaultedKey hn hkey)
      (nestsIn_defaulted hn (hpattern? hleft) "right")
  | rest hkind h => exact hself t h
  | other hkind => exact nestsIn_toPlain hn.here

/-- Patterns and entries of object patterns nest in their lines. -/
theorem nestsIn_of_everywhere (hn : n.Everywhere Spanning) :
    (∀ t, n.toPattern = .ok t → NestsIn n.lines t) ∧
      ∀ t, n.toMember = .ok t → NestsIn n.lines t := by
  induction hn with
  | @intro n here below ih =>
    have hn : n.Everywhere Spanning := .intro here below
    have hpattern : ∀ t, n.toPattern = .ok t → NestsIn n.lines t := fun t =>
      nestsIn_toPattern_step hn (fun c hc => (ih c hc).1) fun c hc => (ih c hc).2
    exact ⟨hpattern, fun t => nestsIn_toMember_step hn (fun c hc => (ih c hc).1) hpattern⟩

theorem nestsIn_toPattern? (hn : n.Everywhere Spanning) {field : String}
    (ht : toPattern? (n.child? field) = .ok t) : NestsIn n.lines t :=
  nestsIn_toPattern?_of hn.here (fun _ hc => (nestsIn_of_everywhere (hn.of_mem_children hc)).1)
    (fun _ => mem_children_of_child?) ht

/-! ### Declarations -/

/-- A parameter has the lines of its pattern, or its own with a default. -/
theorem nestsIn_toParameter (hn : n.Everywhere Spanning) (ht : n.toParameter = .ok t) :
    NestsIn n.lines t := by
  unfold toParameter at ht
  split at ht
  · obtain ⟨pattern, hpattern, hdefault⟩ := Built.bind_eq_ok.mp ht
    have hnests := nestsIn_toPattern? hn hpattern
    cases hvalue : n.child? "value" with
    | none =>
      rw [hvalue] at hdefault
      rw [← Built.pure_eq_ok.mp hdefault]
      exact hnests
    | some value =>
      rw [hvalue] at hdefault
      rw [← Built.pure_eq_ok.mp hdefault, ← hvalue]
      exact nestsIn_defaulted hn hnests "value"
  · exact (nestsIn_of_everywhere hn).1 t ht

theorem nestsIn_toParameters (hn : n.Everywhere Spanning) {ts : List Tree}
    (hts : n.toParameters = .ok ts) : NestsIn n.lines (.list ts) :=
  nestsIn_of_parts hn.here (fun _ hc _ => nestsIn_toParameter (hn.of_mem_children hc))
    (fun _ => mem_children_of_mem_parts) (Built.mapM_eq_ok_iff.mp hts)

theorem nestsIn_toParameters? (hn : n.Everywhere Spanning) {field : String} {ts : List Tree}
    (hts : toParameters? (n.child? field) = .ok ts) : NestsIn n.lines (.list ts) := by
  cases hc : n.child? field with
  | none =>
    rw [hc] at hts
    rw [← Built.pure_eq_ok.mp hts]
    exact .list fun t ht => absurd ht List.not_mem_nil
  | some c =>
    rw [hc] at hts
    have hbelow := mem_children_of_child? hc
    exact (nestsIn_toParameters (hn.of_mem_children hbelow) hts).widen (hn.here.within hbelow)

theorem nestsIn_toDeclarator (hn : n.Everywhere Spanning) (ht : n.toDeclarator = .ok t) :
    NestsIn n.lines t := by
  obtain ⟨binding, hbinding, rfl⟩ := exists_of_toDeclarator ht
  exact Tree.nestsIn_modelled hn.here.proper
    ⟨nestsIn_toPattern? hn hbinding, nestsIn_toPlain? hn "value"⟩

theorem nestsIn_toDeclaration (hn : n.Everywhere Spanning) (ht : n.toDeclaration = .ok t) :
    NestsIn n.lines t := by
  cases declarationIs_of_toDeclaration ht with
  | function _ hid hparams =>
    have hname := nestsIn_of_part rfl (fun _ => rfl) hn.here
      (fun _ hc _ => nestsIn_toIdentifier (hn.of_mem_children hc).here)
      (fun _ => mem_children_of_child?) hid
    exact Tree.nestsIn_modelled hn.here.proper
      ⟨hname, nestsIn_toParameters? hn hparams, .bool _, .bool _⟩
  | @binding word _ _ _ hdeclared =>
    have hdeclarators := nestsIn_of_parts hn.here
      (fun _ hc _ => nestsIn_toDeclarator (hn.of_mem_children hc))
      (fun _ hc => mem_children_of_mem_parts (List.mem_of_mem_filter hc)) hdeclared
    exact Tree.nestsIn_modelled hn.here.proper ⟨.str word, hdeclarators⟩
  | other => exact nestsIn_toPlain hn.here

/-! ### Statements -/

theorem nestsIn_toExportName (h : n.Spanning) (ht : n.toExportName = .ok t) : NestsIn n.lines t := by
  unfold toExportName at ht
  split at ht
  · exact nestsIn_toStringLiteral h ht
  · exact nestsIn_toIdentifier h ht

/-- A name in an export clause that may be missing below a node nests in the lines of the node. -/
theorem nestsIn_toExportName? (hn : n.Everywhere Spanning)
    (hbelow : ∀ c, n? = some c → c ∈ n.children) (ht : toExportName? n? = .ok t) :
    NestsIn n.lines t :=
  nestsIn_of_part rfl (fun _ => rfl) hn.here
    (fun _ hc _ => nestsIn_toExportName (hn.of_mem_children hc).here) hbelow ht

theorem nestsIn_toSpecifier (hn : n.Everywhere Spanning) (ht : n.toSpecifier = .ok t) :
    NestsIn n.lines t := by
  obtain ⟨name, exported, hname, hexported, rfl⟩ := exists_of_toSpecifier ht
  have hother : ∀ c, (n.child? "alias").or (n.child? "name") = some c → c ∈ n.children := by
    intro c hc
    rcases Option.or_eq_some_iff.mp hc with hc | ⟨-, hc⟩ <;> exact mem_children_of_child? hc
  exact Tree.nestsIn_modelled hn.here.proper
    ⟨nestsIn_toExportName? hn (fun _ => mem_children_of_child?) hname,
      nestsIn_toExportName? hn hother hexported⟩

/-- The specifiers of a clause nest in the lines of the clause. -/
theorem nestsIn_toSpecifiers (hn : n.Everywhere Spanning) {ts : List Tree}
    (hts : n.toSpecifiers = .ok ts) : NestsIn n.lines (.list ts) := by
  unfold toSpecifiers at hts
  split at hts
  · exact nestsIn_of_parts hn.here (fun _ hc _ => nestsIn_toSpecifier (hn.of_mem_children hc))
      (fun _ hc => mem_children_of_mem_parts (List.mem_of_mem_filter hc))
      (Built.mapM_eq_ok_iff.mp hts)
  · obtain ⟨exported, hexported, hpure⟩ := Built.bind_eq_ok.mp hts
    have hname := nestsIn_toExportName? hn
      (fun _ hc => mem_children_of_mem_parts (List.mem_of_head? hc)) hexported
    rw [← Built.pure_eq_ok.mp hpure]
    exact .list fun t ht => List.mem_singleton.mp ht ▸ Tree.nestsIn_modelled hn.here.proper hname
  · rw [← Built.pure_eq_ok.mp hts]
    exact .list fun t ht => absurd ht List.not_mem_nil

theorem nestsIn_toNamedExport (hn : n.Everywhere Spanning) (ht : n.toNamedExport = .ok t) :
    NestsIn n.lines t := by
  obtain ⟨declaration, specifiers, source, kind, hdeclaration, hspecifiers, hsource, rfl⟩ :=
    exists_of_toNamedExport ht
  have hdeclares : NestsIn n.lines declaration := nestsIn_of_part rfl (fun _ => rfl) hn.here
    (fun _ hc _ => nestsIn_toDeclaration (hn.of_mem_children hc))
    (fun _ => mem_children_of_child?) hdeclaration
  -- the specifiers lie within the clauses that they are pulled up from
  have hspecifies : NestsIn n.lines (.list specifiers.flatten) := by
    refine .list fun t ht => ?_
    obtain ⟨ts, hts, ht⟩ := List.mem_flatten.mp ht
    obtain ⟨c, hc, hct⟩ := Built.exists_of_mem_mapM (Built.mapM_eq_ok_iff.mpr hspecifiers) hts
    have hbelow := mem_children_of_mem_parts hc
    cases nestsIn_toSpecifiers (hn.of_mem_children hbelow) hct with
    | list h => exact (h t ht).widen (hn.here.within hbelow)
  have hcomes : NestsIn n.lines source := nestsIn_of_part rfl (fun _ => rfl) hn.here
    (fun _ hc _ => nestsIn_toStringLiteral (hn.of_mem_children hc).here)
    (fun _ => mem_children_of_child?) hsource
  exact Tree.nestsIn_modelled hn.here.proper ⟨hdeclares, hspecifies, hcomes, .str kind⟩

theorem nestsIn_toStatement (hn : n.Everywhere Spanning) (ht : n.toStatement = .ok t) :
    NestsIn n.lines t := by
  cases hexport : n.isNamedExport with
  | true =>
    rw [toStatement_namedExport hexport] at ht
    exact nestsIn_toNamedExport hn ht
  | false =>
    obtain ⟨type, hplain, -⟩ := toStatement_other hexport
    cases ht.symm.trans hplain
    exact Tree.nestsIn_plain type hn.here.proper

/-- A program that is modelled from syntax whose rows nest is a node, and its lines nest. -/
theorem nestsIn_toProgram (hn : n.Everywhere Spanning) (ht : n.toProgram = .ok t) :
    t.isNode = true ∧ NestsIn n.lines t := by
  obtain ⟨statements, hstatements, rfl⟩ := exists_of_toProgram ht
  have hbody : NestsIn n.lines (.list statements) := nestsIn_of_parts hn.here
    (fun _ hc _ => nestsIn_toStatement (hn.of_mem_children hc))
    (fun _ => mem_children_of_mem_parts) hstatements
  exact ⟨rfl, Tree.nestsIn_modelled hn.here.proper hbody⟩

end Syntax

end NamedExports
