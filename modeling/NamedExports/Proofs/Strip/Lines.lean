import NamedExports.Proofs.Program.Analysis
import NamedExports.Proofs.Program.Lines
import NamedExports.Proofs.Walk.Coverage

/-!
# Lines of stripped programs

Where the lines of a tree nest, the lines of every node enclose those of all nodes below it
(`Tree.NestsIn.framed`).  It stays so when objects are removed from the tree, in whatever place
(`Workspace.Steps.nestsIn`), because the lines of a node are no objects, and stripping a program
removes nothing but objects, even if it stops at a fault (`Program.StripsTo.nests`).

So the lines that are reported, of a match as of what remains of a statement, enclose everything that
is reported with them (`Module.lines_nest`).
-/

namespace NamedExports

variable {σ : Type}

namespace Tree

variable {outer lines : Lines} {t u q program : Tree}

/-! ### Nodes below a node -/

/-- A node covers some lines, and all nodes at or below it lie within them. -/
structure Framed (t : Tree) (lines : Lines) : Prop where
  lines?_eq : t.lines? = some lines
  proper : lines.Proper
  below : ∀ u, Relation.ReflTransGen HasPart t u → ∃ inner, u.lines? = some inner ∧ inner.Within lines

/-- A node of which the lines nest has lines of its own, in which it nests. -/
theorem NestsIn.exists_lines (h : NestsIn outer t) (hnode : t.isNode = true) :
    ∃ lines, t.lines? = some lines ∧ lines.Proper ∧ lines.Within outer ∧ NestsIn lines t := by
  cases h with
  | node hshape hlines hproper hwithin h =>
    exact ⟨_, hlines, hproper, hwithin, .node hshape hlines hproper (.refl _) h⟩
  | _ => cases hnode

/-- What stands in a field is a node if it is an object, and nests if the field does. -/
theorem NestsIn.of_mem_nodes (h : NestsIn outer t) (hu : u ∈ t.nodes) :
    u.isNode = true ∧ NestsIn outer u := by
  cases h with
  | list h =>
    obtain ⟨hmem, hnode⟩ := mem_nodes_list.mp hu
    exact ⟨hnode, h u hmem⟩
  | node hshape hlines hproper hwithin h =>
    obtain ⟨hmem, hnode⟩ := List.mem_filter.mp hu
    rw [List.mem_singleton.mp hmem]
    exact ⟨hshape, .node hshape hlines hproper hwithin h⟩
  | _ => simp [nodes, isNode] at hu

theorem NestsIn.of_hasPart (h : NestsIn outer t) (hpart : t.HasPart u) :
    u.isNode = true ∧ NestsIn outer u := by
  obtain ⟨shape, attributes, rfl, a, ha, hu⟩ := hpart
  cases h with
  | node hshape hlines hproper hwithin h =>
    obtain ⟨hnode, hnests⟩ := (h a ha).of_mem_nodes hu
    exact ⟨hnode, hnests.widen hwithin⟩

/-- All nodes below a node nest in what the node nests in. -/
theorem NestsIn.of_reflTransGen (h : NestsIn outer t) (hnode : t.isNode = true)
    (hbelow : Relation.ReflTransGen HasPart t u) : u.isNode = true ∧ NestsIn outer u := by
  induction hbelow with
  | refl => exact ⟨hnode, h⟩
  | tail _ hpart ih => exact ih.2.of_hasPart hpart

/-- A node of which the lines nest encloses all nodes below it. -/
theorem NestsIn.framed (h : NestsIn outer t) (hnode : t.isNode = true) :
    ∃ lines, t.Framed lines := by
  obtain ⟨lines, hlines, hproper, -, hnests⟩ := h.exists_lines hnode
  refine ⟨lines, hlines, hproper, fun u hu => ?_⟩
  obtain ⟨hnode', hnests'⟩ := hnests.of_reflTransGen hnode hu
  obtain ⟨inner, hinner, -, hwithin, -⟩ := hnests'.exists_lines hnode'
  exact ⟨inner, hinner, hwithin⟩

/-- Object patterns are found in a node or below it. -/
theorem exists_node_of_mem_patternsInField (h : q ∈ t.patternsInField) :
    ∃ u ∈ t.nodes, Relation.ReflTransGen HasPart u q := by
  induction t using Tree.induction with
  | leaf t hlist hnode =>
    rw [patternsInField_of_ne_list hlist] at h
    obtain ⟨shape, attributes, rfl⟩ := exists_node_of_mem_objectPatterns h
    exact absurd rfl (hnode shape attributes)
  | list items ih =>
    change q ∈ patternsInEntries items at h
    rw [patternsInEntries_eq] at h
    obtain ⟨t, ht, hq⟩ := List.mem_flatMap.mp h
    obtain ⟨shape, attributes, rfl⟩ := exists_node_of_mem_objectPatterns hq
    obtain ⟨u, hu, hbelow⟩ := ih _ ht hq
    obtain ⟨hmem, hnode⟩ := List.mem_filter.mp hu
    rw [List.mem_singleton.mp hmem] at hnode hbelow
    exact ⟨_, mem_nodes_list.mpr ⟨ht, hnode⟩, hbelow⟩
  | node shape attributes ih =>
    obtain ⟨hshape, hself | ⟨a, ha, -, hq⟩⟩ := mem_objectPatterns_node.mp h
    · obtain ⟨-, rfl⟩ := hself
      exact ⟨_, mem_nodes_of_isNode hshape, .refl⟩
    · obtain ⟨u, hu, hbelow⟩ := ih a ha hq
      exact ⟨_, mem_nodes_of_isNode hshape, .head ⟨shape, attributes, rfl, a, ha, hu⟩ hbelow⟩

theorem reflTransGen_of_mem_objectPatterns (h : q ∈ t.objectPatterns) :
    Relation.ReflTransGen HasPart t q := by
  obtain ⟨shape, attributes, rfl⟩ := exists_node_of_mem_objectPatterns h
  obtain ⟨u, hu, hbelow⟩ := exists_node_of_mem_patternsInField (t := node shape attributes) h
  rwa [List.mem_singleton.mp (List.mem_of_mem_filter hu)] at hbelow

/-- The named exports of a program hang in it. -/
theorem NestsIn.hasPart_of_mem_namedExports (h : NestsIn outer program)
    (ht : t ∈ program.namedExports) : program.HasPart t := by
  obtain ⟨hmem, htype⟩ := List.mem_filter.mp ht
  unfold statements get at hmem
  cases h with
  | @node _ lines shape attributes _ _ _ _ h =>
    cases hbody : (Tree.node shape attributes).attr? "body" with
    | none => simp [hbody] at hmem
    | some body =>
      rw [hbody, Option.getD_some] at hmem
      cases body with
      | list items =>
        have hattr : ("body", Tree.list items) ∈ attributes := mem_of_lookup hbody
        refine ⟨shape, attributes, rfl, _, hattr, mem_nodes_list.mpr ⟨hmem, ?_⟩⟩
        cases h _ hattr with
        | list h =>
          cases h t hmem with
          | node hshape => exact hshape
          | _ => cases htype
      | _ => exact absurd hmem List.not_mem_nil
  | _ => simp [attr?] at hmem

/-! ### Lines that are reported -/

theorem get_of_lines? (h : t.lines? = some lines) :
    t.get "start_line" = int lines.first ∧ t.get "end_line" = int lines.last := by
  obtain ⟨hfirst, hlast⟩ := lines?_eq_some.mp h
  unfold get
  rw [hfirst, hlast]
  exact ⟨rfl, rfl⟩

/-- What remains is reported of a named export, and of object patterns in it. -/
theorem exists_of_mem_remainders {remaining : List Remainder} {r : Remainder}
    (h : program.remainders = .ok remaining) (hr : r ∈ remaining) :
    ∃ t ∈ program.namedExports, r.first = t.get "start_line" ∧ r.last = t.get "end_line" ∧
      ∀ p ∈ r.patterns, ∃ pattern ∈ t.objectPatterns, p.1 = pattern.get "start_line" := by
  obtain ⟨all, hall, hfilter⟩ := Built.bind_eq_ok.mp h
  rw [← Built.pure_eq_ok.mp hfilter] at hr
  obtain ⟨t, ht, hremainder⟩ := Built.exists_of_mem_mapM hall (List.mem_of_mem_filter hr)
  obtain ⟨patterns, hlabels, hpure⟩ := Built.bind_eq_ok.mp hremainder
  rw [← Built.pure_eq_ok.mp hpure]
  refine ⟨t, ht, rfl, rfl, fun p hp => ?_⟩
  obtain ⟨collected, hcollected, hmapM⟩ := Built.bind_eq_ok.mp hlabels
  obtain ⟨pattern, hpattern, hlabel⟩ := Built.exists_of_mem_mapM hmapM hp
  obtain ⟨labels, -, hpair⟩ := Built.bind_eq_ok.mp hlabel
  rw [← Built.pure_eq_ok.mp hpair]
  exact ⟨pattern, objectPatterns_of_collectPatterns hcollected ▸ hpattern, rfl⟩

end Tree

/-! ### Trees from which objects are removed -/

section Removal

variable {outer : Tree.Lines} {f g : Atom → Tree} {a : Atom} {place : Slot}

/-- What is written out otherwise nests if the single values do. -/
theorem Value.nestsIn_congr {v : Value}
    (hatoms : ∀ b ∈ v.atoms, ∀ outer, (f b).NestsIn outer → (g b).NestsIn outer)
    (h : (v.toTree f).NestsIn outer) : (v.toTree g).NestsIn outer := by
  cases v with
  | atom b => exact hatoms b (List.mem_singleton_self b) outer h
  | items values =>
    cases h with
    | list h =>
      refine .list fun t ht => ?_
      obtain ⟨b, hb, rfl⟩ := List.mem_map.mp ht
      exact hatoms b hb outer (h (f b) (List.mem_map.mpr ⟨b, hb, rfl⟩))

/-- What is left of an attribute nests if the attribute does. -/
theorem Value.nestsIn_emptied {v : Value} (hnull : f .null = .null)
    (h : (v.toTree f).NestsIn outer) : ((Obj.emptied place v).toTree f).NestsIn outer := by
  cases place with
  | nowhere => exact h
  | field name =>
    show (f .null).NestsIn outer
    rw [hnull]
    exact .null
  | entry list index =>
    cases v with
    | atom b => exact h
    | items values =>
      cases h with
      | list h =>
        refine .list fun t ht => ?_
        obtain ⟨b, hb, rfl⟩ := List.mem_map.mp ht
        exact h (f b) (List.mem_map.mpr ⟨b, List.mem_of_mem_eraseIdx hb, rfl⟩)

namespace Obj

variable {o : Obj}

/-- An object that is written out otherwise nests if its single values do, and the numbers among them
are the same. -/
theorem nestsIn_congr
    (hatoms : ∀ b ∈ o.atoms, ∀ outer, (f b).NestsIn outer → (g b).NestsIn outer)
    (hint : ∀ b n, f b = .int n → g b = .int n) (h : (o.toTree f).NestsIn outer) :
    (o.toTree g).NestsIn outer := by
  cases o with
  | sequence values => exact Value.nestsIn_congr (v := .items values) hatoms h
  | record shape attributes =>
    cases h with
    | @node _ lines _ _ hshape hlines hproper hwithin h =>
      have hattr : ∀ name n, ((Obj.record shape attributes).toTree f).attr? name = some (.int n) →
          ((Obj.record shape attributes).toTree g).attr? name = some (.int n) := by
        intro name n hname
        rw [attr?_toTree] at hname ⊢
        obtain ⟨v, hv, hvalue⟩ := Option.map_eq_some_iff.mp hname
        rw [hv, Option.map_some]
        cases v with
        | atom b => exact congrArg some (hint b n hvalue)
        | items values => cases hvalue
      obtain ⟨hfirst, hlast⟩ := Tree.lines?_eq_some.mp hlines
      refine .node hshape (Tree.lines?_eq_some.mpr ⟨hattr _ _ hfirst, hattr _ _ hlast⟩) hproper
        hwithin fun c hc => ?_
      obtain ⟨b, hb, rfl⟩ := List.mem_map.mp hc
      refine Value.nestsIn_congr (fun x hx => hatoms x (List.mem_flatMap.mpr ⟨b, hb, hx⟩)) ?_
      exact h (b.1, b.2.toTree f) (List.mem_map.mpr ⟨b, hb, rfl⟩)

/-- An object out of which something is taken that is no number nests still. -/
theorem nestsIn_without (hat : o.HoldsAt place a) (hnull : f .null = .null)
    (ha : ∀ n, f a ≠ .int n) (h : (o.toTree f).NestsIn outer) :
    ((o.without place).toTree f).NestsIn outer := by
  obtain ⟨name, v, hname, hv, hmem, -⟩ := hat.exists_attribute
  rw [without_eq_mapAttr hname]
  cases o with
  | sequence values => exact h
  | record shape attributes =>
    cases h with
    | @node _ lines _ _ hshape hlines hproper hwithin h =>
      -- the attribute that the place belongs to holds no number
      have hattr : ∀ other n, ((Obj.record shape attributes).toTree f).attr? other = some (.int n) →
          (((Obj.record shape attributes).mapAttr name (emptied place)).toTree f).attr? other =
            some (.int n) := by
        intro other n hother
        rw [attr?_toTree] at hother ⊢
        by_cases hne : other = name
        · subst hne
          rw [hv, Option.map_some, Option.some.injEq] at hother
          cases v with
          | atom b =>
            rw [List.mem_singleton.mp hmem] at ha
            exact absurd hother (ha n)
          | items values => cases hother
        · rw [attr?_mapAttr_of_ne _ _ hne, hother]
      obtain ⟨hfirst, hlast⟩ := Tree.lines?_eq_some.mp hlines
      refine .node hshape (Tree.lines?_eq_some.mpr ⟨hattr _ _ hfirst, hattr _ _ hlast⟩) hproper
        hwithin fun c hc => ?_
      obtain ⟨b', hb', rfl⟩ := List.mem_map.mp hc
      obtain ⟨b, hb, rfl⟩ := List.mem_map.mp hb'
      have hvalue := h (b.1, b.2.toTree f) (List.mem_map.mpr ⟨b, hb, rfl⟩)
      dsimp only at hvalue ⊢
      split
      · exact Value.nestsIn_emptied hnull hvalue
      · exact hvalue

end Obj

/-- The lines of a tree nest still when an object is taken out of it. -/
theorem Store.nestsIn_without {s : Store} {owner r : Ref} {o : Obj} (ho : s.obj? owner = some o)
    (hat : o.HoldsAt place (.ref r)) (h : (s.tree a).NestsIn outer) :
    ((s.without owner place).tree a).NestsIn outer := by
  have hint : ∀ b n, s.tree b = .int n → (s.without owner place).tree b = .int n := by
    intro b n hb
    rw [eq_int_of_tree hb, tree_int]
  induction a using s.atom_induction generalizing outer with
  | plain a hrefs =>
    cases a with
    | ref q => cases hrefs
    | _ => simpa using h
  | ref q ih =>
    by_cases hq : q = owner
    · subst hq
      rw [tree_ref ho] at h
      rw [tree_ref (obj?_without_self ho)]
      have hkept := Obj.nestsIn_congr (fun b hb _ => ih o ho b hb) hint h
      exact Obj.nestsIn_without hat tree_null (fun n hn => nomatch eq_int_of_tree hn) hkept
    · have hsame : (s.without owner place).obj? q = s.obj? q := obj?_without_of_ne hq
      cases ho' : s.obj? q with
      | none =>
        rw [tree_of_obj?_eq_none (hsame.trans ho')]
        exact .null
      | some o' =>
        rw [tree_ref ho'] at h
        rw [tree_ref (hsame.trans ho')]
        exact Obj.nestsIn_congr (fun b hb _ => ih o' ho' b hb) hint h

end Removal

namespace Workspace

variable {w w' : Workspace σ} {a : Atom} {outer : Tree.Lines}

/-- Steps in which only objects are removed keep lines nested. -/
theorem Step.nestsIn (hstep : w.Step Atom.IsObject w') (h : (w.store.tree a).NestsIn outer) :
    (w'.store.tree a).NestsIn outer := by
  cases hstep with
  | note f => exact h
  | take hpath => exact h
  | remove hnode hrun =>
    obtain ⟨r, hr⟩ := hnode
    obtain ⟨-, -, owner, place, ⟨-, -, o, ho, hat⟩, rfl⟩ := Edit.of_run_remove_ok hrun
    rw [hr] at hat
    exact Store.nestsIn_without ho hat h

theorem Steps.nestsIn (hsteps : w.Steps Atom.IsObject w') (h : (w.store.tree a).NestsIn outer) :
    (w'.store.tree a).NestsIn outer := by
  induction hsteps with
  | refl => exact h
  | tail _ hstep ih => exact hstep.nestsIn ih

end Workspace

/-! ### Stripping programs -/

namespace Edit

variable {removable : Atom → Prop} {w : Workspace σ} {p : PathId}

/-- Stripping a statement only removes objects, and counting changes nothing. -/
theorem bySteps_stripStatement (hobjects : ∀ r, removable (.ref r)) (names : List String)
    (p : PathId) : BySteps removable (stripStatement names p) w fun _ _ => True := by
  have hcount : ∀ {a : Atom} {w : Workspace σ},
      BySteps removable (countProperties a) w fun _ w' => w' = w :=
    bySteps_bind_read (run_store _) (bySteps_ofExcept _)
  unfold stripStatement
  refine bySteps_bind_read (run_path w p) ?_
  rcases run_typeOf_or w (w.path p).node with ⟨type, htype⟩ | ⟨-, fault, htype⟩
  · refine bySteps_bind_read htype ?_
    split
    · refine hcount.bind ?_
      rintro before _ - rfl
      refine (bySteps_walkBelow (Strip.onlyRemoves hobjects names _) p).bind fun _ _ _ _ => ?_
      exact hcount.bind fun _ _ _ _ => bySteps_pure trivial
    · exact bySteps_pure trivial
  · exact bySteps_of_error (by rw [EStateM.run_bind, htype])

theorem bySteps_stripStatements (hobjects : ∀ r, removable (.ref r)) (names : List String)
    (ps : List PathId) : BySteps removable (stripStatements names ps) w fun _ _ => True := by
  induction ps generalizing w with
  | nil => exact bySteps_pure trivial
  | cons p ps ih =>
    exact (bySteps_stripStatement hobjects names p).bind fun _ _ _ _ =>
      ih.bind fun _ _ _ _ => bySteps_pure trivial

/-- Stripping a program takes a path to it first. -/
theorem steps_stripProgram (hobjects : ∀ r, removable (.ref r)) (names : List String)
    (program : Atom) (w : Workspace σ) :
    (w.addPath (.start program)).Steps removable (endOf ((stripProgram names program).run w)) := by
  have hp := w.knows_addPath_nextPath (.start program)
  unfold stripProgram
  rw [run_bind_ok (run_newPath w (.start program))]
  suffices hrest : BySteps removable _ (w.addPath (.start program)) fun _ _ => True from hrest.1
  refine (bySteps_get hp "body").bind fun found w' _ _ => ?_
  cases found with
  | one q => exact bySteps_pure trivial
  | many ps => exact bySteps_stripStatements hobjects names ps

end Edit

namespace Program

variable {p p' : Program} {outer : Tree.Lines}

/-- A program is a node, and its lines nest. -/
structure Nests (p : Program) (outer : Tree.Lines) : Prop where
  isNode : p.tree.isNode = true
  nestsIn : p.tree.NestsIn outer

/-- It stays so when the program is stripped, even if stripping stops at a fault. -/
theorem StripsTo.nests (hstep : p.StripsTo p') (h : p.Nests outer) : p'.Nests outer := by
  obtain ⟨names, rfl⟩ := hstep
  have hobjects : ∀ r, Atom.IsObject (.ref r) := fun r => ⟨r, rfl⟩
  have hsteps := Edit.steps_stripProgram hobjects names p.root (Workspace.ofStore p.store ())
  have hstrip : (p.strip names).2 = { p with store := (Edit.endOf
      ((Edit.stripProgram names p.root).run (Workspace.ofStore p.store ()))).store } := by
    unfold strip
    cases (Edit.stripProgram names p.root).run (Workspace.ofStore p.store ()) <;> rfl
  obtain ⟨hnode, hnests⟩ := h
  rw [hstrip]
  refine ⟨?_, Workspace.Steps.nestsIn hsteps hnests⟩
  unfold tree at hnode ⊢
  rw [Store.isNode_tree] at hnode ⊢
  exact ((Workspace.Steps.shrinks hsteps).isNode_eq p.root).trans hnode

theorem nests_of_reflTransGen (hsteps : Relation.ReflTransGen StripsTo p p') (h : p.Nests outer) :
    p'.Nests outer := by
  induction hsteps with
  | refl => exact h
  | tail _ hstep ih => exact hstep.nests ih

end Program

namespace Module

/-- A program that is modelled from a module whose rows nest is a node, and its lines nest. -/
theorem nests_program {m : Module} {p : Program} (hp : m.program = .ok p)
    (hm : m.root.Everywhere Syntax.Spanning) : p.Nests m.root.lines := by
  obtain ⟨t, ht, hpure⟩ := Built.bind_eq_ok.mp hp
  obtain ⟨hnode, hnests⟩ := Syntax.nestsIn_toProgram hm ht
  rw [← Built.pure_eq_ok.mp hpure]
  exact ⟨by rwa [Program.tree_ofTree], by rwa [Program.tree_ofTree]⟩

/-- Line spans nest.  In a program that is modelled from a module whose rows nest, and in what becomes
of it when it is stripped of whatever names, however often, every node covers lines that count from
one, do not end before they begin, and enclose those of all nodes below it.  The lines of a match are
those of a named export, and so are the lines of what remains of a stripped statement.  So they
enclose everything in the export, among it the patterns whose lines are reported with them. -/
theorem lines_nest {m : Module} {p p' : Program} (hp : m.program = .ok p)
    (hm : m.root.Everywhere Syntax.Spanning)
    (hsteps : Relation.ReflTransGen Program.StripsTo p p') :
    (∀ t, Relation.ReflTransGen Tree.HasPart p'.tree t → ∃ lines, t.Framed lines) ∧
    (∀ name found, p'.tree.matchesOf name = .ok found → ∀ entry ∈ found,
      ∃ t ∈ p'.tree.namedExports, ∃ lines : Tree.Lines, t.Framed lines ∧
        entry.first = .int lines.first ∧ entry.last = .int lines.last) ∧
    ∀ remaining, p'.tree.remainders = .ok remaining → ∀ r ∈ remaining,
      ∃ t ∈ p'.tree.namedExports, ∃ lines : Tree.Lines, t.Framed lines ∧
        r.first = .int lines.first ∧ r.last = .int lines.last ∧
        ∀ reported ∈ r.patterns, ∃ pattern inner, Relation.ReflTransGen Tree.HasPart t pattern ∧
          pattern.lines? = some inner ∧ inner.Within lines ∧ reported.1 = .int inner.first := by
  obtain ⟨hnode, hnests⟩ := Program.nests_of_reflTransGen hsteps (nests_program hp hm)
  have hframed : ∀ t, Relation.ReflTransGen Tree.HasPart p'.tree t → ∃ lines, t.Framed lines := by
    intro t ht
    obtain ⟨hnode', hnests'⟩ := hnests.of_reflTransGen hnode ht
    exact hnests'.framed hnode'
  have hexport : ∀ t ∈ p'.tree.namedExports, ∃ lines : Tree.Lines, t.Framed lines ∧
      t.get "start_line" = .int lines.first ∧ t.get "end_line" = .int lines.last := by
    intro t ht
    obtain ⟨lines, hlines⟩ := hframed t (.single (hnests.hasPart_of_mem_namedExports ht))
    exact ⟨lines, hlines, Tree.get_of_lines? hlines.lines?_eq⟩
  refine ⟨hframed, fun name found hfound entry hentry => ?_, fun remaining hremaining r hr => ?_⟩
  · obtain ⟨t, ht, -, hsame⟩ := Tree.exists_of_mem_matchesOf hfound hentry
    obtain ⟨lines, hlines, hfirst, hlast⟩ := hexport t ht
    exact ⟨t, ht, lines, hlines, (congrArg Match.first hsame).trans hfirst,
      (congrArg Match.last hsame).trans hlast⟩
  · obtain ⟨t, ht, hfirst, hlast, hpatterns⟩ := Tree.exists_of_mem_remainders hremaining hr
    obtain ⟨lines, hlines, hstart, hend⟩ := hexport t ht
    refine ⟨t, ht, lines, hlines, hfirst.trans hstart, hlast.trans hend, fun reported hreported => ?_⟩
    obtain ⟨pattern, hpattern, hline⟩ := hpatterns reported hreported
    have hbelow := Tree.reflTransGen_of_mem_objectPatterns hpattern
    obtain ⟨inner, hinner, hwithin⟩ := hlines.below pattern hbelow
    exact ⟨pattern, inner, hbelow, hinner, hwithin, hline.trans (Tree.get_of_lines? hinner).1⟩

/-- The module `export const { a } = b`, with the property in a line of its own. -/
def threeLines : Module where
  root := .node "program" ⟨0, 2⟩ true none (some "")
    [.node "export_statement" ⟨0, 2⟩ true none (some "")
      [.node "lexical_declaration" ⟨0, 2⟩ true (some "declaration") (some "")
        [.node "const" ⟨0, 0⟩ false (some "kind") (some "const") [],
          .node "variable_declarator" ⟨0, 2⟩ true none (some "")
            [.node "object_pattern" ⟨0, 2⟩ true (some "name") (some "")
              [.node "shorthand_property_identifier_pattern" ⟨1, 1⟩ true none (some "a") []],
              .node "identifier" ⟨2, 2⟩ true (some "value") (some "b") []]]]]
  damaged := false

/-- The lines of the module nest after its one property has been dropped. -/
theorem lines_nest_threeLines : ∃ p p', threeLines.program = .ok p ∧
    threeLines.root.Everywhere Syntax.Spanning ∧ Program.StripsTo p p' ∧
    ∀ t, Relation.ReflTransGen Tree.HasPart p'.tree t → ∃ lines, t.Framed lines := by
  have hm : threeLines.root.Everywhere Syntax.Spanning := by decide +kernel
  have hordinary : threeLines.root.Everywhere Syntax.Ordinary := by decide +kernel
  have htexts : threeLines.root.Everywhere fun n => n.text.isSome = true := by decide +kernel
  have hlegible : threeLines.root.Everywhere (Syntax.Legible True) :=
    (hordinary.and htexts).imp fun n hn => ⟨hn.1, fun _ => hn.2⟩
  obtain ⟨t, ht⟩ := (Syntax.gives_toProgram hlegible).total trivial
  have hp : threeLines.program = .ok (.ofTree t) := Built.bind_eq_ok.mpr ⟨t, ht, rfl⟩
  have hstep : Program.StripsTo (.ofTree t) ((Program.ofTree t).strip ["a"]).2 := ⟨["a"], rfl⟩
  exact ⟨_, _, hp, hm, hstep, (lines_nest hp hm (.single hstep)).1⟩

end Module

end NamedExports
