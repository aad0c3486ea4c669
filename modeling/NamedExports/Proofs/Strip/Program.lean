import Mathlib.Data.List.Pairwise
import NamedExports.Proofs.Strip.Count
import NamedExports.Proofs.Strip.Loaded

/-!
# Stripping programs

A program is stripped statement by statement.  The statements of a loaded program share nothing, so
stripping one of them leaves the others as they were, those still to be stripped and those already
done (`Edit.run_stripStatements`).  In the end every statement is stripped as it would be alone, and
what went is counted right by comparing how many entries a statement has before and after
(`Program.strip_ofTree`).
-/

namespace NamedExports

variable {σ : Type}

namespace Tree

/-- A statement of a stripped program: named exports are stripped, all others stay. -/
def stripStatement (names : List String) (t : Tree) : Tree :=
  if t.hasType namedExportType then t.stripBelow names else t

theorem stripStatement_of_export {names : List String} {t : Tree}
    (h : t.hasType namedExportType = true) : t.stripStatement names = t.stripBelow names :=
  if_pos h

/-- A stripped statement is a named export if the statement is one. -/
@[simp] theorem hasType_stripStatement (names : List String) (t : Tree) (type : String) :
    (t.stripStatement names).hasType type = t.hasType type := by
  unfold stripStatement
  split
  · rw [stripBelow_eq_stripFields, hasType_stripFields]
  · rfl

/-- The number of entries that go when a statement is stripped. -/
def lost (names : List String) (t : Tree) : ℕ :=
  t.entryTotal - (t.stripStatement names).entryTotal

end Tree

namespace Store

variable {s : Store} {names : List String} {X Y : Set Ref} {a : Atom}

/-! ### Parts of a store that are stripped one by one -/

/-- What is entered below a value hangs below it. -/
theorem enteredBelow_subset : s.enteredBelow names a ⊆ s.region a := by
  rintro q ⟨r, o, rfl, ho, c, hc, -, hq⟩
  refine mem_region_ref.mpr (.head ⟨o, ho, ?_⟩ hq.reaches)
  exact Obj.mem_refs.mpr (Obj.fieldAtoms_subset hc)

/-- Stripping lets nothing hang where it did not hang before. -/
theorem region_stripIn_subset : (s.stripIn names X).region a ⊆ s.region a := by
  rintro q ⟨r, rfl, hq⟩
  refine ⟨r, rfl, ?_⟩
  induction hq with
  | refl => exact .refl
  | tail _ hstep ih =>
    obtain ⟨o, ho, hmem⟩ := hstep
    exact .tail ih (holds_of_obj?_stripIn ho hmem)

/-- What is stripped elsewhere does not show in a value. -/
theorem tree_stripIn_union (h : Disjoint (s.region a) X) :
    (s.stripIn names (X ∪ Y)).tree a = (s.stripIn names Y).tree a := by
  refine tree_congr fun q hq => ?_
  rw [Set.union_comm]
  exact obj?_stripIn_union (Set.disjoint_left.mp h (region_stripIn_subset hq))

/-- What is entered when a statement is stripped: nothing, if it is no named export. -/
def enteredByStatement (s : Store) (names : List String) (a : Atom) : Set Ref :=
  {q | (s.tree a).hasType Tree.namedExportType = true ∧ q ∈ s.enteredBelow names a}

/-- What is entered when some statements are stripped. -/
def enteredByStatements (s : Store) (names : List String) (values : List Atom) : Set Ref :=
  {q | ∃ a ∈ values, q ∈ s.enteredByStatement names a}

theorem enteredByStatement_subset : s.enteredByStatement names a ⊆ s.region a :=
  fun _ hq => enteredBelow_subset hq.2

theorem enteredByStatement_of_export (h : (s.tree a).hasType Tree.namedExportType = true) :
    s.enteredByStatement names a = s.enteredBelow names a := by
  ext q
  exact ⟨fun hq => hq.2, fun hq => ⟨h, hq⟩⟩

theorem enteredByStatement_of_other (h : (s.tree a).hasType Tree.namedExportType = false) :
    s.enteredByStatement names a = ∅ := by
  ext q
  simp [enteredByStatement, h]

theorem enteredByStatements_nil : s.enteredByStatements names [] = ∅ := by
  ext q
  simp [enteredByStatements]

theorem enteredByStatements_cons (values : List Atom) :
    s.enteredByStatements names (a :: values) =
      s.enteredByStatement names a ∪ s.enteredByStatements names values := by
  ext q
  simp [enteredByStatements]

/-- A node below which stripping succeeds and comes to the recursive filter. -/
structure StrippableBelow (s : Store) (names : List String) (a : Atom) : Prop where
  isNode : s.isNode a = true
  strippable : ∀ q ∈ s.region a, s.isNode (.ref q) = true → s.Strippable q
  separate : s.Separate (s.enteredBelow names a) a

/-- A statement is written out stripped once it has been stripped, whatever has been stripped
elsewhere. -/
theorem tree_stripIn_enteredByStatement (hs : s.WellFormed) (ha : s.StrippableBelow names a)
    (h : Disjoint (s.region a) X) :
    (s.stripIn names (X ∪ s.enteredByStatement names a)).tree a =
      (s.tree a).stripStatement names := by
  obtain ⟨r, -, -, rfl, -⟩ := exists_record_of_isNode ha.isNode
  rw [tree_stripIn_union h]
  unfold Tree.stripStatement
  cases htype : (s.tree (.ref r)).hasType Tree.namedExportType with
  | true =>
    rw [if_pos rfl, enteredByStatement_of_export htype]
    exact tree_stripIn_enteredBelow hs ha.isNode ha.separate
  | false =>
    rw [if_neg Bool.false_ne_true, enteredByStatement_of_other htype, stripIn_empty]

end Store

namespace Tree

variable {names : List String}

/-- The entries that go when a statement is stripped: none, if it is no named export. -/
def boundByStatement (names : List String) (t : Tree) : List Tree :=
  if t.hasType namedExportType then t.bound names else []

/-- What goes when some statements are stripped goes from the named exports among them. -/
theorem flatMap_boundByStatement (names : List String) (statements : List Tree) :
    statements.flatMap (boundByStatement names) =
      (statements.filter (·.hasType namedExportType)).flatMap (bound names) := by
  have hothers : ∀ t ∈ statements, t.hasType namedExportType = false →
      boundByStatement names t = [] := by
    intro t _ htype
    unfold boundByStatement
    rw [htype]
    rfl
  rw [← flatMap_filter_of_nil hothers]
  refine List.flatMap_congr fun t ht => ?_
  unfold boundByStatement
  rw [if_pos (List.mem_filter.mp ht).2]

/-- As many entries go from a regular statement as bind one of the names. -/
theorem lost_eq_length_boundByStatement {t : Tree} (h : Syntax.IsRegularNode t) :
    t.lost names = (t.boundByStatement names).length := by
  unfold lost boundByStatement stripStatement
  cases htype : t.hasType namedExportType with
  | false => exact Nat.sub_self _
  | true =>
    obtain ⟨tally, before, after, htally, -, -, hcount, hcount', hdropped⟩ :=
      exists_tally names h htype
    rw [if_pos rfl, if_pos rfl, ← dropped_of_tally htally, entryTotal_of_countProperties hcount,
      entryTotal_of_countProperties hcount', ← hdropped, Nat.add_sub_cancel_left]

end Tree

namespace Edit

variable {s : Store} {names : List String} {X : Set Ref} {w : Workspace σ} {p : PathId} {a : Atom}

/-- The number of entries of a value that has object patterns with lists of entries. -/
theorem run_countProperties {t : Tree} {count : ℕ} (ht : w.store.tree a = t)
    (hcount : t.countProperties = .ok count) : (countProperties a).run w = .ok count w := by
  unfold countProperties
  rw [EStateM.run_bind, run_store]
  dsimp only
  rw [ht, hcount, run_ofExcept_ok]

/-- The type of a node is the one that it is written out with. -/
theorem run_typeOf_node (hs : w.store.WellFormed) (hnode : w.store.isNode a = true) :
    ∃ type : Tree, (typeOf a).run w = .ok type w ∧
      ∀ text, type.isText text = (w.store.tree a).hasType text := by
  obtain ⟨r, shape, attributes, rfl, ho, hshape⟩ := Store.exists_record_of_isNode hnode
  obtain ⟨v, hv⟩ := hs.exists_type ho hshape
  refine ⟨v.toTree w.store.tree, run_typeOf hv, fun text => ?_⟩
  unfold Tree.hasType Tree.get
  rw [Store.attr?_tree, hv]
  rfl

/-- Stripping a statement that shares nothing with what has been stripped already: it is stripped if
it is a named export, and the result is the number of entries that it has lost. -/
theorem run_stripStatement (hs : s.WellFormed) (ha : s.StrippableBelow names a)
    (hstore : w.store = s.stripIn names X) (hpath : (w.path p).node = a)
    (hheld : (w.path p).removed = false) (hX : Disjoint (s.region a) X) :
    ∃ w', (stripStatement names p).run w = .ok ((s.tree a).lost names) w' ∧
      w'.store = s.stripIn names (X ∪ s.enteredByStatement names a) ∧ w.KeepsPaths w' := by
  have hbefore : w.store.tree a = s.tree a := by
    rw [hstore, Store.tree_stripIn_of_disjoint hX]
  obtain ⟨type, htypeOf, htype⟩ := run_typeOf_node (w := w) (a := a)
    (by rw [hstore]; exact Store.wellFormed_stripIn hs X)
    (by rw [hstore, Store.isNode_stripIn, ha.isNode])
  unfold Tree.lost
  cases hexport : (s.tree a).hasType Tree.namedExportType with
  | false =>
    refine ⟨w, ?_, ?_, .refl w⟩
    · unfold stripStatement Tree.stripStatement
      simp only [EStateM.run_bind, run_path, hpath, htypeOf, htype, hbefore, hexport,
        Bool.false_eq_true, if_false, EStateM.run_pure, Nat.sub_self]
    · rw [hstore, Store.enteredByStatement_of_other hexport, Set.union_empty]
  | true =>
    obtain ⟨r, shape, attributes, rfl, ho, -⟩ := Store.exists_record_of_isNode ha.isNode
    have hr : r ∉ X := Set.disjoint_left.mp hX (Store.self_mem_region r)
    have hlegible := Store.legible_of_strippable names ho
      fun q hq => ha.strippable q (Store.mem_region_ref.mpr hq)
    obtain ⟨w', hrun, hstore', hkeeps, -⟩ := (Strip.run_stripBelow names hs hstore
      ((Store.obj?_stripIn_of_not_mem hr).trans ho) hpath ha.isNode hheld).success hlegible
    have hstrips : w'.store = s.stripIn names (X ∪ s.enteredByStatement names (.ref r)) := by
      rw [hstore', Store.enteredByStatement_of_export hexport, Store.enteredBelow_ref ho]
    have hafter : w'.store.tree (.ref r) = (s.tree (.ref r)).stripStatement names := by
      rw [hstrips, Store.tree_stripIn_enteredByStatement hs ha hX]
    -- the entries are counted in what is written out, before stripping and after it
    have hcount := Store.countProperties_tree hs ha.isNode ha.strippable
    have hcount' : (w'.store.tree (.ref r)).countProperties =
        .ok (w'.store.tree (.ref r)).entryTotal := by
      rw [hstrips]
      exact Store.countProperties_tree (Store.wellFormed_stripIn hs _)
        (by rw [Store.isNode_stripIn, ha.isNode]) fun q hq hnode =>
          (ha.strippable q (Store.region_stripIn_subset hq)
            (by rwa [Store.isNode_stripIn] at hnode)).stripIn _
    rw [hafter] at hcount'
    refine ⟨w', ?_, hstrips, hkeeps⟩
    unfold stripStatement
    simp only [EStateM.run_bind, run_path, hpath, htypeOf, htype, hbefore, hexport, if_true,
      run_countProperties hbefore hcount, hrun, run_countProperties hafter hcount',
      EStateM.run_pure]

/-- Some paths lead to some values and have removed none of them. -/
def Lead (w : Workspace σ) (ps : List PathId) (values : List Atom) : Prop :=
  List.Forall₂ (fun p a => w.Knows p ∧ (w.path p).node = a ∧ (w.path p).removed = false) ps values

theorem Lead.of_keepsPaths {w' : Workspace σ} {ps : List PathId} {values : List Atom}
    (h : Lead w ps values) (hkeeps : w.KeepsPaths w') : Lead w' ps values := by
  refine List.Forall₂.imp (fun p a hp => ?_) h
  obtain ⟨hknown, hpath⟩ := hkeeps p hp.1
  rw [hpath]
  exact ⟨hknown, hp.2⟩

/-- The paths to the entries of a list lead to them. -/
theorem run_get_list_lead {list : String} {values : List Atom}
    (hlist : list.startsWith "_" = false) (hdot : '.' ∉ list.toList)
    (hattr : w.store.attr? (w.path p).node list = some (.items values)) :
    ∃ ps w', (get p list).run w = .ok (.many ps) w' ∧ w'.store = w.store ∧ Lead w' ps values := by
  obtain ⟨ps, w', hrun, hstore, -, -, hlength, hentries⟩ := run_get_list hlist hdot hattr
  refine ⟨ps, w', hrun, hstore, List.forall₂_iff_get.mpr ⟨hlength, fun k hps hvalues => ?_⟩⟩
  obtain ⟨q, hq, hpath, hknown, -⟩ := hentries k _ (List.getElem?_eq_getElem hvalues)
  have hget : ps.get ⟨k, hps⟩ = q :=
    Option.some.inj ((List.getElem?_eq_getElem hps).symm.trans hq)
  rw [hget, hpath]
  exact ⟨hknown, rfl, rfl⟩

/-- Stripping statements that share nothing, neither with each other nor with what has been stripped
already. -/
theorem run_stripStatements (names : List String) (hs : s.WellFormed) {values : List Atom}
    {ps : List PathId} (hstore : w.store = s.stripIn names X) (hpaths : Lead w ps values)
    (hvalues : ∀ a ∈ values, s.StrippableBelow names a)
    (hshare : values.Pairwise fun a b => Disjoint (s.region a) (s.region b))
    (hX : ∀ a ∈ values, Disjoint (s.region a) X) :
    ∃ w', (stripStatements names ps).run w =
        .ok ((values.map s.tree).map (Tree.lost names)).sum w' ∧
      w'.store = s.stripIn names (X ∪ s.enteredByStatements names values) := by
  induction values generalizing ps X w with
  | nil =>
    cases hpaths
    refine ⟨w, rfl, ?_⟩
    rw [Store.enteredByStatements_nil, Set.union_empty, hstore]
  | cons a values ih =>
    cases hpaths with
    | @cons p _ ps _ hp hpaths =>
      obtain ⟨hfirst, hrest⟩ := List.pairwise_cons.mp hshare
      obtain ⟨w₁, hrun, hstore₁, hkeeps⟩ := run_stripStatement hs (hvalues a List.mem_cons_self)
        hstore hp.2.1 hp.2.2 (hX a List.mem_cons_self)
      have hX₁ : ∀ b ∈ values, Disjoint (s.region b) (X ∪ s.enteredByStatement names a) := by
        intro b hb
        refine Set.disjoint_union_right.mpr ⟨hX b (List.mem_cons_of_mem _ hb), ?_⟩
        exact ((hfirst b hb).mono_left Store.enteredByStatement_subset).symm
      obtain ⟨w', hrun', hstore'⟩ := ih hstore₁ (Lead.of_keepsPaths hpaths hkeeps)
        (fun b hb => hvalues b (List.mem_cons_of_mem _ hb)) hrest hX₁
      refine ⟨w', ?_, ?_⟩
      · unfold stripStatements
        simp only [EStateM.run_bind, hrun, hrun', EStateM.run_pure, List.map_cons, List.sum_cons]
      · rw [hstore', Store.enteredByStatements_cons, Set.union_assoc]

end Edit

namespace Store

variable {s : Store} {names : List String}

/-- After all statements have been stripped, each of them is written out stripped. -/
theorem trees_stripIn_enteredByStatements (hs : s.WellFormed) {values : List Atom}
    (hvalues : ∀ a ∈ values, s.StrippableBelow names a)
    (hshare : values.Pairwise fun a b => Disjoint (s.region a) (s.region b)) :
    values.map (s.stripIn names (s.enteredByStatements names values)).tree =
      (values.map s.tree).map (Tree.stripStatement names) := by
  rw [List.map_map]
  refine List.map_congr_left fun a ha => ?_
  -- what is entered splits into what hangs below the statement and what does not
  have hsplit : s.enteredByStatements names values =
      (s.enteredByStatements names values \ s.region a) ∪ s.enteredByStatement names a := by
    ext q
    constructor
    · rintro ⟨b, hb, hq⟩
      by_cases hregion : q ∈ s.region a
      · by_cases hab : a = b
        · exact Or.inr (hab ▸ hq)
        · have hsymm : Std.Symm fun a b => Disjoint (s.region a) (s.region b) :=
            ⟨fun _ _ h => h.symm⟩
          have hapart := hshare.forall ha hb hab
          exact absurd (enteredByStatement_subset hq) (Set.disjoint_left.mp hapart hregion)
      · exact Or.inl ⟨⟨b, hb, hq⟩, hregion⟩
    · rintro (⟨hq, -⟩ | hq)
      · exact hq
      · exact ⟨a, ha, hq⟩
  rw [hsplit]
  exact tree_stripIn_enteredByStatement hs (hvalues a ha)
    (Set.disjoint_left.mpr fun q hq hrest => hrest.2 hq)

/-- The program that the statements are loaded for holds them in its one field, and they share
nothing. -/
theorem exists_ofTree_program (lines : Tree.Lines) (statements : List Tree) :
    ∃ r values, (ofTree (.modelled .program lines [.list statements])).2 = .ref r ∧
      (ofTree (.modelled .program lines [.list statements])).1.obj? r =
        some (.record (.modelled .program)
          (header Kind.program.name lines ++ [("body", .items values)])) ∧
      values.map (ofTree (.modelled .program lines [.list statements])).1.tree = statements ∧
      values.Pairwise fun a b =>
        Disjoint ((ofTree (.modelled .program lines [.list statements])).1.region a)
          ((ofTree (.modelled .program lines [.list statements])).1.region b) := by
  have hload := loadsItems_addItems empty statements
  set s₁ := (empty.addItems statements).1 with hs₁
  set values := (empty.addItems statements).2 with hvalues
  set o : Obj := .record (.modelled .program)
    (header Kind.program.name lines ++ [("body", .items values)]) with ho
  have hofTree : ofTree (.modelled .program lines [.list statements]) =
      ((s₁.add o).1, .ref (s₁.add o).2) := rfl
  have hrefs : ∀ r ∈ o.refs, r.index < s₁.size := by
    intro r hr
    have hmem : Atom.ref r ∈ values := by
      simpa [ho, Obj.atoms, header, Value.atoms] using Obj.mem_refs.mp hr
    exact (hload.between _ hmem).refs_lt r (by simp)
  have hgrow : s₁.Extends (s₁.add o).1 := extends_add s₁ o
  rw [hofTree]
  refine ⟨_, values, rfl, obj?_add hrefs, ?_, ?_⟩
  · rw [← hload.trees_eq]
    refine List.map_congr_left fun a ha => ?_
    exact hgrow.tree_eq (hload.between a ha).refs_lt
  · refine hload.disjoint.imp_of_mem fun {a b} ha hb hab => ?_
    rw [hgrow.region_eq (hload.between a ha).refs_lt, hgrow.region_eq (hload.between b hb).refs_lt]
    exact hab

end Store

namespace Program

variable {p : Program} {lines : Tree.Lines} {statements : List Tree}

/-- Stripping a program of statements that share nothing succeeds, strips the statements one by one,
and tells how many entries they have lost. -/
theorem strip_eq (names : List String) {p : Program} (hs : p.store.WellFormed) {r : Ref} {o : Obj}
    (hroot : p.root = .ref r) (ho : p.store.obj? r = some o) {values : List Atom}
    (hbody : o.attr? "body" = some (.items values))
    (hvalues : ∀ a ∈ values, p.store.StrippableBelow names a)
    (hshare : values.Pairwise fun a b => Disjoint (p.store.region a) (p.store.region b)) :
    p.strip names = (.ok ((values.map p.store.tree).map (Tree.lost names)).sum,
      { p with store := p.store.stripIn names (p.store.enteredByStatements names values) }) := by
  obtain ⟨s, root⟩ := p
  dsimp only at hroot ho hvalues hshare ⊢
  subst hroot
  obtain ⟨ps, w, hget, hw, hlead⟩ := Edit.run_get_list_lead
    (w := (Workspace.ofStore s ()).addPath (.start (.ref r))) (p := ⟨0⟩)
    (by decide +kernel) (by decide) ((Store.attr?_ref ho "body").trans hbody)
  obtain ⟨w', hstrip, hw'⟩ := Edit.run_stripStatements names (X := ∅) hs
    (by rw [hw, Store.stripIn_empty]; rfl) hlead hvalues hshare fun a _ => Set.disjoint_empty _
  have hrun : (Edit.stripProgram names (.ref r)).run (Workspace.ofStore s ()) =
      .ok ((values.map s.tree).map (Tree.lost names)).sum w' := by
    have hnew : (Workspace.ofStore s ()).nextPath = ⟨0⟩ := rfl
    unfold Edit.stripProgram
    simp only [EStateM.run_bind, Edit.run_newPath, hnew, hget, hstrip]
  rw [Set.empty_union] at hw'
  unfold Program.strip
  simp only [hrun, hw']

/-- The program itself hangs below none of its statements. -/
theorem not_mem_enteredByStatements {s : Store} (names : List String) {r : Ref} {o : Obj}
    (ho : s.obj? r = some o) {values : List Atom} (hbody : o.attr? "body" = some (.items values)) :
    r ∉ s.enteredByStatements names values := by
  rintro ⟨a, ha, hq⟩
  exact Store.not_mem_region ho (Obj.atoms_subset_of_attr? hbody ha)
    (Store.enteredByStatement_subset hq)

/-- A program with some statements lies in its store as it was loaded there: all objects fit, and
the statements share nothing. -/
structure LaidOut (p : Program) (lines : Tree.Lines) (statements : List Tree) : Prop where
  fitted : p.store.Fitted
  body : ∃ r values, p.root = .ref r ∧
    p.store.obj? r = some (.record (.modelled .program)
      (Store.header Kind.program.name lines ++ [("body", .items values)])) ∧
    values.map p.store.tree = statements ∧
    values.Pairwise fun a b => Disjoint (p.store.region a) (p.store.region b)

/-- A program of regular statements is laid out when it is loaded. -/
theorem laidOut_ofTree (lines : Tree.Lines) (h : ∀ t ∈ statements, Syntax.IsRegularNode t) :
    (Program.ofTree (.modelled .program lines [.list statements])).LaidOut lines statements := by
  have hregular : (Tree.modelled .program lines [.list statements]).Regular :=
    (Syntax.isRegularNode_ofList ⟨rfl, trivial⟩ h).1
  exact ⟨Store.fitted_empty.addTree _ hregular (by simp [Tree.modelled]),
    Store.exists_ofTree_program lines statements⟩

/-- A program that is laid out is written out with its statements. -/
theorem LaidOut.tree_eq (h : p.LaidOut lines statements) :
    p.tree = .modelled .program lines [.list statements] := by
  obtain ⟨r, values, hroot, ho, rfl, -⟩ := h.body
  unfold Program.tree
  rw [hroot, Store.tree_ref ho]
  simp [Obj.toTree, Value.toTree, Store.header, Tree.modelled, Tree.header, Kind.fields]

/-- Stripping a program that is laid out, with regular statements, succeeds, strips the statements
one by one, tells how many entries went, and leaves the program laid out. -/
theorem LaidOut.strip (h : p.LaidOut lines statements) (names : List String)
    (hregular : ∀ t ∈ statements, Syntax.IsRegularNode t) :
    ∃ X, p.strip names = (.ok (statements.flatMap (Tree.boundByStatement names)).length,
        { p with store := p.store.stripIn names X }) ∧
      LaidOut { p with store := p.store.stripIn names X } lines
        (statements.map (Tree.stripStatement names)) := by
  obtain ⟨s, root⟩ := p
  obtain ⟨r, values, hroot, ho, rfl, hshare⟩ := h.body
  dsimp only at hroot ho hregular hshare ⊢
  subst hroot
  have hs : s.Fitted := h.fitted
  have hvalues : ∀ a ∈ values, s.StrippableBelow names a := fun a ha =>
    { isNode := by rw [← Store.isNode_tree]; exact (hregular _ (List.mem_map.mpr ⟨a, ha, rfl⟩)).2
      strippable := fun q _ _ => hs.strippable q
      separate := hs.separate _ _ }
  have hlost : ((values.map s.tree).map (Tree.lost names)).sum =
      ((values.map s.tree).flatMap (Tree.boundByStatement names)).length := by
    rw [List.length_flatMap]
    exact congrArg List.sum (List.map_congr_left fun t ht =>
      Tree.lost_eq_length_boundByStatement (hregular t ht))
  rw [← hlost]
  refine ⟨s.enteredByStatements names values,
    strip_eq names hs.wellFormed rfl ho rfl hvalues hshare, hs.stripIn _, r, values, rfl,
    (Store.obj?_stripIn_of_not_mem (not_mem_enteredByStatements names ho rfl)).trans ho,
    Store.trees_stripIn_enteredByStatements hs.wellFormed hvalues hshare, ?_⟩
  exact hshare.imp fun hab =>
    hab.mono Store.region_stripIn_subset Store.region_stripIn_subset

end Program

end NamedExports
