import NamedExports.Proofs.Program.Analysis
import NamedExports.Proofs.Strip.Account
import NamedExports.Proofs.Strip.Compose
import NamedExports.Proofs.Strip.Unshared

/-!
# Stripping programs again

A program can be stripped if it shares nothing, its body is a list of nodes, and its object patterns
have lists of entries whose names can be compared (`Program.Strippable`); whatever else hangs in it
does not matter.  Stripping such a program succeeds and leaves a program that can be stripped
(`Program.Strippable.strip`).  So programs can be stripped again and again, and what is left in the
end depends on the names of all strips together, not on their order
(`Program.Strippable.strips_compose`).

Programs that are modelled from modules can be stripped (`Module.strippable_program`).
-/

namespace NamedExports

variable {σ : Type}

/-! ### Names -/

section Names

variable {names others : List String}

namespace Strip

theorem isAmong_congr (h : ∀ name, name ∈ names ↔ name ∈ others) : isAmong names = isAmong others := by
  funext t
  cases t with
  | str name =>
    have hcontains : names.contains name = others.contains name := by
      rw [Bool.eq_iff_iff, List.contains_iff_mem, List.contains_iff_mem, h]
    exact congrArg Except.ok hcontains
  | _ => rfl

theorem binds_congr (h : ∀ name, name ∈ names ↔ name ∈ others) : binds names = binds others := by
  unfold binds
  rw [isAmong_congr h]

theorem properties_congr (h : ∀ name, name ∈ names ↔ name ∈ others) (p : PathId) (steps index : ℕ) :
    (properties names p steps index : Edit σ Unit) = properties others p steps index := by
  induction steps generalizing index with
  | zero => rfl
  | succ steps ih =>
    unfold properties
    simp only [binds_congr h, ih]

theorem visitor_congr (h : ∀ name, name ∈ names ↔ name ∈ others) :
    (visitor names : Visitor σ) = visitor others := by
  unfold visitor pattern
  simp only [properties_congr h]

end Strip

namespace Edit

theorem stripStatements_congr (h : ∀ name, name ∈ names ↔ name ∈ others) (ps : List PathId) :
    (stripStatements names ps : Edit σ ℕ) = stripStatements others ps := by
  induction ps with
  | nil => rfl
  | cons p ps ih =>
    unfold stripStatements stripStatement stripBelow
    rw [ih, Strip.visitor_congr h]

end Edit

/-- Neither the order nor the repetition of names matters to stripping. -/
theorem Program.strip_congr (h : ∀ name, name ∈ names ↔ name ∈ others) (p : Program) :
    p.strip names = p.strip others := by
  unfold strip Edit.stripProgram
  simp only [Edit.stripStatements_congr h]

end Names

/-! ### Statements -/

namespace Tree

variable {first second both : List String}

theorem stripStatement_stripStatement (h : ∀ name, name ∈ both ↔ name ∈ first ∨ name ∈ second)
    (t : Tree) : (t.stripStatement first).stripStatement second = t.stripStatement both := by
  cases htype : t.hasType namedExportType with
  | true =>
    have htype' : (t.stripStatement first).hasType namedExportType = true := by
      rw [hasType_stripStatement, htype]
    rw [stripStatement_of_export htype', stripStatement_of_export htype,
      stripStatement_of_export htype, stripBelow_stripBelow h]
  | false =>
    unfold stripStatement
    simp [htype]

theorem entryTotal_stripStatement_le (names : List String) (t : Tree) :
    (t.stripStatement names).entryTotal ≤ t.entryTotal := by
  unfold stripStatement
  split
  · exact entryTotal_stripBelow_le names t
  · exact le_rfl

/-- What a statement loses when it is stripped twice it loses when it is stripped of all names. -/
theorem lost_add_lost (h : ∀ name, name ∈ both ↔ name ∈ first ∨ name ∈ second) (t : Tree) :
    t.lost first + (t.stripStatement first).lost second = t.lost both := by
  have hfirst := entryTotal_stripStatement_le first t
  have hsecond := entryTotal_stripStatement_le second (t.stripStatement first)
  rw [stripStatement_stripStatement h] at hsecond
  unfold lost
  rw [stripStatement_stripStatement h]
  omega

theorem sum_lost_add_sum_lost (h : ∀ name, name ∈ both ↔ name ∈ first ∨ name ∈ second)
    (statements : List Tree) : (statements.map (lost first)).sum +
      ((statements.map (stripStatement first)).map (lost second)).sum =
        (statements.map (lost both)).sum := by
  induction statements with
  | nil => rfl
  | cons t ts ih =>
    simp only [List.map_cons, List.sum_cons, ← lost_add_lost h t, ← ih]
    omega

/-- A list with each item changed; what is no list stays as it is. -/
def mapItems (f : Tree → Tree) : Tree → Tree
  | list items => list (items.map f)
  | t => t

/-- A program with its statements stripped. -/
def stripBody (names : List String) : Tree → Tree
  | node shape attributes => node shape (attributes.map fun a =>
      (a.1, if a.1 = "body" then a.2.mapItems (stripStatement names) else a.2))
  | t => t

theorem stripBody_stripBody (h : ∀ name, name ∈ both ↔ name ∈ first ∨ name ∈ second) (t : Tree) :
    (t.stripBody first).stripBody second = t.stripBody both := by
  cases t with
  | node shape attributes =>
    unfold stripBody
    dsimp only
    rw [List.map_map]
    refine congrArg (node shape) (List.map_congr_left fun a _ => congrArg (Prod.mk a.1) ?_)
    dsimp only [Function.comp_apply]
    by_cases hname : a.1 = "body"
    · simp only [if_pos hname]
      cases a.2 with
      | list items =>
        refine congrArg list ?_
        rw [List.map_map]
        exact List.map_congr_left fun t _ => stripStatement_stripStatement h t
      | _ => rfl
    · simp only [if_neg hname]
  | _ => rfl

theorem statements_stripBody (names : List String) (t : Tree) :
    (t.stripBody names).statements = t.statements.map (stripStatement names) := by
  cases t with
  | node shape attributes =>
    unfold statements get attr? stripBody
    dsimp only
    rw [lookup_map fun name (v : Tree) =>
      if name = "body" then v.mapItems (stripStatement names) else v]
    cases attributes.lookup "body" with
    | none => rfl
    | some v => cases v <;> rfl
  | _ => rfl

end Tree

/-! ### Stripping the same names again -/

namespace Store

variable {s : Store} {names others : List String} {X : Set Ref} {r q : Ref}

/-- What an object of a store still holds in its fields, when some objects have been stripped, it
held there. -/
theorem child_of_stripIn {o' : Obj} {c : Ref} (ho' : (s.stripIn names X).obj? r = some o')
    (hc : (s.stripIn names X).Child o' c) : ∃ o, s.obj? r = some o ∧ s.Child o c ∧
      (r ∈ X → s.Child (s.stripObj names o) c) := by
  rw [obj?_stripIn, Option.map_eq_some_iff] at ho'
  obtain ⟨o, ho, rfl⟩ := ho'
  obtain ⟨hatom, hnode⟩ := hc
  rw [isNode_stripIn] at hnode
  by_cases hr : r ∈ X
  · rw [if_pos hr] at hatom
    exact ⟨o, ho, ⟨fieldAtoms_stripObj_subset o hatom, hnode⟩, fun _ => ⟨hatom, hnode⟩⟩
  · rw [if_neg hr] at hatom
    exact ⟨o, ho, ⟨hatom, hnode⟩, fun h => absurd h hr⟩

/-- What is entered from a stripped object was entered when the object was. -/
theorem Entered.of_stripIn (h : (s.stripIn names X).Entered others r q) (hr : r ∈ X)
    (hclosed : ∀ t ∈ X, ∀ c, s.Entered names t c → c ∈ X) : q ∈ X := by
  induction h with
  | self => exact hr
  | step ho' hc _ ih =>
    obtain ⟨o, ho, -, hchild⟩ :=
      child_of_stripIn ho' ⟨fieldAtoms_stripObj_subset _ hc.1, hc.2⟩
    exact ih (hclosed _ hr _ (.step ho (hchild hr) (.self _)))

/-- What is entered when statements are stripped again was entered when they were stripped. -/
theorem enteredByStatements_stripIn_subset (values : List Atom) :
    (s.stripIn names (s.enteredByStatements names values)).enteredByStatements others values ⊆
      s.enteredByStatements names values := by
  rintro q ⟨a, ha, htype, r, o', rfl, ho', c, hc, hnode, hentered⟩
  obtain ⟨o, ho, hchild, -⟩ := child_of_stripIn ho' ⟨hc, hnode⟩
  refine hentered.of_stripIn ⟨.ref r, ha, ?_, r, o, rfl, ho, c, hchild.1, hchild.2, .self c⟩ ?_
  · rwa [hasType_tree, attr?_stripIn_of_ne _ _ (by decide), ← hasType_tree] at htype
  · rintro t ⟨b, hb, htype, u, o, hu, ho, e, he, hnode, ht⟩ c hc
    exact ⟨b, hb, htype, u, o, hu, ho, e, he, hnode, ht.trans hc⟩

/-- Objects that have been stripped are not changed by being stripped of the same or fewer names. -/
theorem stripIn_stripIn {Y : Set Ref} (h : ∀ name ∈ others, name ∈ names) (hY : Y ⊆ X) :
    (s.stripIn names X).stripIn others Y = s.stripIn names X := by
  refine ext_obj? fun r => ?_
  by_cases hr : r ∈ Y
  · rw [obj?_stripIn_of_mem hr, obj?_stripIn_of_mem (hY hr), Option.map_map]
    refine congrArg (fun f => (s.obj? r).map f) (funext fun o => ?_)
    rw [Function.comp_apply, (alikeButEntries_stripIn X).stripObj_eq, stripObj_stripObj h]
  · rw [obj?_stripIn_of_not_mem hr]

end Store

/-! ### Programs that can be stripped -/

namespace Program

/-- A program that can be stripped, whatever else hangs in it: it shares nothing, its body is a list
of nodes, and its object patterns have lists of entries, of which the names that are compared are
texts or null. -/
structure Strippable (p : Program) : Prop where
  wellFormed : p.store.WellFormed
  unshared : p.Unshared
  isProgram : p.store.shape? p.root = some (.modelled .program)
  body : ∃ values, p.store.attr? p.root "body" = some (.items values) ∧
    ∀ a ∈ values, p.store.isNode a = true
  patterns : ∀ q ∈ p.store.region p.root, p.store.isNode (.ref q) = true → p.store.Strippable q

variable {p : Program} {names : List String}

/-- The statements of a program, as they are in its store. -/
def body (p : Program) : List Atom :=
  p.store.entries p.root "body"

/-- A program that can be stripped as a labelled tree, with its body. -/
theorem Strippable.exists_labelled (hp : p.Strippable) :
    ∃ r held ts, p.root = .ref r ∧ p.store.Has (.record r (.modelled .program) held) ∧
      (Labelled.record r (.modelled .program) held).refs.Nodup ∧
      (held.map Prod.fst).Nodup ∧ ("body", .many ts) ∈ held ∧ ts.map Labelled.atom = p.body ∧
      ∀ t ∈ ts, t.isNode = true := by
  obtain ⟨t, hhas, hatom, hrefs⟩ := hp.unshared
  have hnode : t.isNode = true := by
    rw [← hhas.isNode_atom, hatom, Store.isNode, hp.isProgram]
    rfl
  obtain ⟨r, shape, held, rfl, -⟩ := Labelled.exists_record_of_isNode hnode
  have hroot : p.root = .ref r := hatom.symm
  have ho := hhas.obj?_record
  obtain ⟨values, hvalues, hnodes⟩ := hp.body
  have hshape := hp.isProgram
  rw [hroot, Store.shape?_ref ho] at hshape
  cases hshape
  have hnames : (held.map Prod.fst).Nodup := by
    have hnodup := (hp.wellFormed.obj ho).1.nodup rfl
    rwa [List.map_map] at hnodup
  have hentries : p.body = values := Store.entries_of_attr? hvalues
  rw [hroot, Store.attr?_ref ho] at hvalues
  change (held.map fun a => (a.1, Labelled.toValue a.2)).lookup "body" = _ at hvalues
  rw [lookup_map_snd] at hvalues
  obtain ⟨h, hlookup, hitems⟩ := Option.map_eq_some_iff.mp hvalues
  cases h with
  | one t => cases hitems
  | many ts =>
    have hts : ts.map Labelled.atom = values := by
      cases hitems
      rfl
    have hmem := mem_of_lookup hlookup
    refine ⟨r, held, ts, hroot, hhas, hrefs, hnames, hmem, hts.trans hentries.symm, fun t ht => ?_⟩
    rw [← (hhas.of_mem_record hmem ht).isNode_atom]
    exact hnodes _ (hts ▸ List.mem_map.mpr ⟨t, ht, rfl⟩)

/-- The statements of a program that can be stripped share nothing, and can be stripped below. -/
theorem Strippable.statements (hp : p.Strippable) (names : List String) :
    (∀ a ∈ p.body, p.store.StrippableBelow names a) ∧
      p.body.Pairwise fun a b => Disjoint (p.store.region a) (p.store.region b) := by
  obtain ⟨r, held, ts, hroot, hhas, hrefs, -, hmem, hbody, hnodes⟩ := hp.exists_labelled
  have hts : ∀ t ∈ ts, p.store.Has t := fun t ht => hhas.of_mem_record hmem ht
  rw [Labelled.refs_record] at hrefs
  have hnodup := (List.nodup_flatMap.mp (List.nodup_cons.mp hrefs).2).1 _ hmem
  rw [← hbody]
  refine ⟨fun a ha => ?_, Store.pairwise_disjoint_region hts hnodup⟩
  obtain ⟨t, ht, rfl⟩ := List.mem_map.mp ha
  refine ⟨(hts t ht).isNode_atom.trans (hnodes t ht), fun q hq => hp.patterns q ?_,
    (hts t ht).separate names ((List.nodup_flatMap.mp hnodup).1 t ht) (hnodes t ht)⟩
  rw [hroot]
  refine Store.region_subset hhas.obj?_record (List.mem_flatMap.mpr
    ⟨("body", Labelled.toValue (.many ts)), List.mem_map.mpr ⟨_, hmem, rfl⟩, ?_⟩) hq
  exact List.mem_map.mpr ⟨t, ht, rfl⟩

/-- What is stripped in a program hangs in no other attribute of it than the body. -/
theorem Strippable.disjoint_region (hp : p.Strippable) {r : Ref} {shape : Shape}
    {attributes : List (String × Value)} (hroot : p.root = .ref r)
    (ho : p.store.obj? r = some (.record shape attributes)) {a : String × Value}
    (ha : a ∈ attributes) (hname : a.1 ≠ "body") {b : Atom} (hb : b ∈ a.2.atoms) :
    Disjoint (p.store.region b) (p.store.enteredByStatements names p.body) := by
  obtain ⟨r', held, ts, hroot', hhas, hrefs, -, hmem, hbody, -⟩ := hp.exists_labelled
  cases hroot.symm.trans hroot'
  cases ho.symm.trans hhas.obj?_record
  obtain ⟨c, hc, rfl⟩ := List.mem_map.mp ha
  rw [Labelled.atoms_toValue] at hb
  obtain ⟨u, hu, rfl⟩ := List.mem_map.mp hb
  refine Set.disjoint_left.mpr fun q hq => ?_
  rintro ⟨d, hd, hentered⟩
  rw [← hbody] at hd
  obtain ⟨t, ht, rfl⟩ := List.mem_map.mp hd
  have hqu := (hhas.of_mem_record hc hu).region_subset q hq
  have hqt := (hhas.of_mem_record hmem ht).region_subset q
    (Store.enteredByStatement_subset hentered)
  rw [Labelled.refs_record] at hrefs
  have hsame := eq_of_nodup_flatMap (List.nodup_cons.mp hrefs).2 hc hmem
    (List.mem_flatMap.mpr ⟨u, hu, hqu⟩) (List.mem_flatMap.mpr ⟨t, ht, hqt⟩)
  exact hname (congrArg Prod.fst hsame)

/-- A program that can be stripped still can when some objects have been stripped. -/
theorem Strippable.stripIn (hp : p.Strippable) (names : List String) (X : Set Ref) :
    Strippable { p with store := p.store.stripIn names X } where
  wellFormed := Store.wellFormed_stripIn hp.wellFormed X
  unshared := by
    obtain ⟨r, held, -, hroot, hhas, -⟩ := hp.exists_labelled
    exact hp.unshared.stripIn names hroot hhas.obj?_record X
  isProgram := (Store.shape?_stripIn X p.root).trans hp.isProgram
  body := by
    obtain ⟨values, hvalues, hnodes⟩ := hp.body
    refine ⟨values, (Store.attr?_stripIn_of_ne X p.root (by decide)).trans hvalues, fun a ha => ?_⟩
    exact (Store.isNode_stripIn X a).trans (hnodes a ha)
  patterns q hq hnode :=
    (hp.patterns q (Store.region_stripIn_subset hq)
      ((Store.isNode_stripIn X _).symm.trans hnode)).stripIn X

/-- The store of a program after some names have been stripped from its statements. -/
noncomputable def stripped (p : Program) (names : List String) : Program :=
  { p with store := p.store.stripIn names (p.store.enteredByStatements names p.body) }

theorem body_stripped (names : List String) : (p.stripped names).body = p.body := by
  unfold body Store.entries stripped
  rw [Store.attr?_stripIn_of_ne _ _ (by decide)]

/-- A program that can be stripped, as it is in its store. -/
theorem Strippable.exists_record (hp : p.Strippable) : ∃ r attributes, p.root = .ref r ∧
    p.store.obj? r = some (.record (.modelled .program) attributes) ∧
    (∀ a ∈ attributes, a.1 = "body" → a.2 = .items p.body) ∧
    attributes.lookup "body" = some (.items p.body) := by
  obtain ⟨r, held, ts, hroot, hhas, -, hnames, hmem, hbody, -⟩ := hp.exists_labelled
  have hlookup : (held.map fun a => (a.1, Labelled.toValue a.2)).lookup "body" =
      some (.items p.body) := by
    rw [lookup_map_snd, lookup_of_mem hnames hmem, Option.map_some, ← hbody]
    rfl
  refine ⟨r, _, hroot, hhas.obj?_record, fun a ha hname => ?_, hlookup⟩
  have hnodup : ((held.map fun a => (a.1, Labelled.toValue a.2)).map Prod.fst).Nodup := by
    rwa [List.map_map]
  have hfound := lookup_of_mem hnodup ha
  rw [hname, hlookup, Option.some.injEq] at hfound
  exact hfound.symm

theorem Strippable.statements_tree (hp : p.Strippable) :
    p.tree.statements = p.body.map p.store.tree := by
  obtain ⟨r, attributes, hroot, ho, -, hlookup⟩ := hp.exists_record
  unfold Tree.statements Tree.get tree
  rw [hroot, Store.tree_ref ho, Obj.attr?_toTree]
  show (match ((attributes.lookup "body").map (Value.toTree p.store.tree)).getD .null with
    | .list items => items
    | _ => []) = _
  rw [hlookup]
  rfl

/-- Stripping a program that can be stripped succeeds, strips its statements one by one and leaves
all else as it was, tells how many entries the statements have lost, and leaves a program that can
be stripped. -/
theorem Strippable.strip (hp : p.Strippable) (names : List String) :
    p.strip names = (.ok (p.tree.statements.map (Tree.lost names)).sum, p.stripped names) ∧
      (p.stripped names).Strippable ∧ (p.stripped names).tree = p.tree.stripBody names ∧
      ∀ a ∈ p.body, (p.stripped names).store.tree a = (p.store.tree a).stripStatement names := by
  obtain ⟨r, attributes, hroot, ho, hattributes, hlookup⟩ := hp.exists_record
  obtain ⟨hvalues, hshare⟩ := hp.statements names
  have htrees : ∀ a ∈ p.body,
      (p.stripped names).store.tree a = (p.store.tree a).stripStatement names := by
    have hmap := Store.trees_stripIn_enteredByStatements hp.wellFormed hvalues hshare
    rw [List.map_map] at hmap
    exact List.map_inj_left.mp hmap
  refine ⟨?_, hp.stripIn names _, ?_, htrees⟩
  · rw [hp.statements_tree]
    exact strip_eq names hp.wellFormed hroot ho hlookup hvalues hshare
  · have ho' : (p.stripped names).store.obj? r = some (.record (.modelled .program) attributes) :=
      (Store.obj?_stripIn_of_not_mem (not_mem_enteredByStatements names ho hlookup)).trans ho
    have hroot' : (p.stripped names).root = .ref r := hroot
    unfold tree
    rw [hroot, hroot', Store.tree_ref ho, Store.tree_ref ho']
    unfold Obj.toTree Tree.stripBody
    dsimp only
    rw [List.map_map]
    refine congrArg (Tree.node _) (List.map_congr_left fun a ha => congrArg (Prod.mk a.1) ?_)
    dsimp only
    split
    next hname =>
      rw [hattributes a ha hname]
      refine congrArg Tree.list ?_
      rw [List.map_map]
      exact List.map_congr_left htrees
    next hname =>
      exact Value.toTree_congr fun b hb =>
        Store.tree_stripIn_of_disjoint (hp.disjoint_region hroot ho ha hname hb)

/-- A program that has been stripped is not changed by being stripped of the same or fewer names. -/
theorem stripped_stripped {others : List String} (h : ∀ name ∈ others, name ∈ names) :
    (p.stripped names).stripped others = p.stripped names := by
  have hsubset : (p.stripped names).store.enteredByStatements others (p.stripped names).body ⊆
      p.store.enteredByStatements names p.body := by
    rw [body_stripped]
    exact Store.enteredByStatements_stripIn_subset p.body
  exact congrArg (Program.mk · p.root) (Store.stripIn_stripIn h hsubset)

/-- Stripping some names and then others: it succeeds, and comes to stripping all of them. -/
theorem Strippable.strip_strip (hp : p.Strippable) {first second both : List String}
    (h : ∀ name, name ∈ both ↔ name ∈ first ∨ name ∈ second) :
    ∃ a b, p.strip first = (.ok a, p.stripped first) ∧
      (p.stripped first).strip second = (.ok b, (p.stripped first).stripped second) ∧
      ((p.stripped first).stripped second).tree = (p.stripped both).tree ∧
      p.strip both = (.ok (a + b), p.stripped both) := by
  obtain ⟨hfirst, hp', htree, -⟩ := hp.strip first
  obtain ⟨hsecond, -, htree', -⟩ := hp'.strip second
  obtain ⟨hboth, -, htreeBoth, -⟩ := hp.strip both
  refine ⟨_, _, hfirst, hsecond, ?_, ?_⟩
  · rw [htree', htree, htreeBoth, Tree.stripBody_stripBody h]
  · rw [hboth, htree, Tree.statements_stripBody, Tree.sum_lost_add_sum_lost h]

/-- A program that lies in its store as it was loaded there can be stripped. -/
theorem Intact.strippable {lines : Tree.Lines} {statements : List Tree}
    (h : p.Intact lines statements) : p.Strippable := by
  obtain ⟨r, values, hroot, ho, hvalues, -⟩ := h.body
  refine ⟨h.fitted.wellFormed, h.unshared, ?_, ⟨values, ?_, fun a ha => ?_⟩,
    fun q _ _ => h.fitted.strippable q⟩
  · rw [hroot, Store.shape?_ref ho]
  · rw [hroot, Store.attr?_ref ho]
    rfl
  · rw [← Store.isNode_tree]
    exact (h.wellBuilt _ (hvalues ▸ List.mem_map.mpr ⟨a, ha, rfl⟩)).isRegularNode.2

end Program

/-- A program that is modelled from a module is intact, if no construct is called like a kind of the
model (and no node has more children than a computer could hold). -/
theorem Module.exists_intact_program {m : Module} {p : Program} (hp : m.program = .ok p)
    (hm : m.root.Everywhere Syntax.Ordinary) : ∃ statements, p.Intact m.root.lines statements := by
  obtain ⟨t, ht, htp⟩ := Built.bind_eq_ok.mp hp
  have hlegible : m.root.Everywhere (Syntax.Legible False) := hm.imp fun n hn => ⟨hn, False.elim⟩
  obtain ⟨statements, rfl, hfilled⟩ := (Syntax.gives_toProgram hlegible).sort t ht
  rw [← Built.pure_eq_ok.mp htp]
  exact ⟨statements, Program.intact_ofTree m.root.lines hfilled⟩

theorem Module.strippable_program {m : Module} {p : Program} (hp : m.program = .ok p)
    (hm : m.root.Everywhere Syntax.Ordinary) : p.Strippable := by
  obtain ⟨statements, hintact⟩ := exists_intact_program hp hm
  exact hintact.strippable

namespace Program

variable {p : Program}

/-- Strips compose and commute.  A program that can be stripped can be stripped of some names and
then of others, in either order, or of all of them at once.  This gives the same program, and the
numbers of entries that went in the two steps add up to the number that goes at once.  Stripping the
same or fewer names once more finds nothing and changes nothing, and names count by what they are,
whatever their order and however often they are repeated. -/
theorem Strippable.strips_compose (hp : p.Strippable) {first second both : List String}
    (h : ∀ name, name ∈ both ↔ name ∈ first ∨ name ∈ second) :
    ∃ p₁ p₂ p₁₂ p₂₁ q a b c d e, p.strip first = (.ok a, p₁) ∧ p₁.strip second = (.ok b, p₁₂) ∧
      p.strip second = (.ok c, p₂) ∧ p₂.strip first = (.ok d, p₂₁) ∧ p.strip both = (.ok e, q) ∧
      p₁₂.tree = q.tree ∧ p₂₁.tree = q.tree ∧ a + b = e ∧ c + d = e ∧
      ((∀ name ∈ second, name ∈ first) → b = 0 ∧ p₁₂ = p₁) ∧
      ∀ others, (∀ name, name ∈ others ↔ name ∈ first) → p.strip others = (.ok a, p₁) := by
  obtain ⟨a, b, hfirst, hsecond, htree, hboth⟩ := hp.strip_strip h
  have hswap : ∀ name, name ∈ both ↔ name ∈ second ∨ name ∈ first :=
    fun name => (h name).trans or_comm
  obtain ⟨c, d, hsecond', hfirst', htree', hboth'⟩ := hp.strip_strip hswap
  have hsum : c + d = a + b := by simpa using congrArg Prod.fst (hboth'.symm.trans hboth)
  refine ⟨_, _, _, _, _, a, b, c, d, a + b, hfirst, hsecond, hsecond', hfirst', hboth, htree, htree',
    rfl, hsum, fun hsub => ⟨?_, stripped_stripped hsub⟩, fun others hothers => ?_⟩
  · -- the names of both steps are those of the first
    have hsame : p.strip both = p.strip first := strip_congr (fun name => (h name).trans
      (or_iff_left_of_imp (hsub name))) p
    have hcount : a + b = a := by
      simpa using congrArg Prod.fst (hboth.symm.trans (hsame.trans hfirst))
    omega
  · rw [strip_congr hothers p, hfirst]

/-- Of a pattern of two names one can be dropped after the other, or both at once. -/
theorem strips_compose_pairModule : ∃ p p₁ p₂ p₁₂ p₂₁ q,
    Module.pairModule.program = .ok p ∧ p.Strippable ∧
      p.strip ["a"] = (.ok 1, p₁) ∧ p₁.strip ["b"] = (.ok 1, p₁₂) ∧
      p.strip ["b"] = (.ok 1, p₂) ∧ p₂.strip ["a"] = (.ok 1, p₂₁) ∧
      p.strip ["b", "a", "b"] = (.ok 2, q) ∧ p₁₂.tree = q.tree ∧ p₂₁.tree = q.tree := by
  have hprogram := Module.program_pairModule
  have hp := Module.strippable_program hprogram (by decide +kernel)
  have hcount (names : List String) : ((Program.ofTree
      (.modelled .program ⟨1, 1⟩ [.list [Module.pairExport]])).strip names).1 =
        .ok ([Module.pairExport].map (Tree.lost names)).sum := by
    rw [(hp.strip names).1, tree_ofTree]
    rfl
  have hnames : ∀ name, name ∈ ["b", "a", "b"] ↔ name ∈ ["a"] ∨ name ∈ ["b"] := by
    intro name
    simp only [List.mem_cons, List.not_mem_nil, or_false]
    tauto
  obtain ⟨p₁, p₂, p₁₂, p₂₁, q, a, b, c, d, e, hfirst, hsecond, hfirst', hsecond', hboth, htree,
    htree', hsum, hsum', -, -⟩ := hp.strips_compose hnames
  have ha : a = 1 := Except.ok.inj ((congrArg Prod.fst hfirst).symm.trans (hcount _))
  have hc : c = 1 := Except.ok.inj ((congrArg Prod.fst hfirst').symm.trans (hcount _))
  have he : e = 2 := Except.ok.inj ((congrArg Prod.fst hboth).symm.trans (hcount _))
  obtain rfl : b = 1 := by omega
  obtain rfl : d = 1 := by omega
  subst ha hc he
  exact ⟨_, p₁, p₂, p₁₂, p₂₁, q, hprogram, hp, hfirst, hsecond, hfirst', hsecond', hboth, htree,
    htree'⟩

end Program

end NamedExports
