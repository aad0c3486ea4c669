import NamedExports.Proofs.Strip.Pattern
import NamedExports.Proofs.Walk.Running

/-!
# The walk that strips

The walk enters the nodes below a node one after the other and filters the patterns among them.
After each visit the store is the original one with exactly those objects stripped that were
entered so far (`run_visit`).  A visit does not touch the object whose fields are being gone
through, because what is entered comes earlier than what holds it; so the lists that are walked are
those that the walk found.
-/

namespace NamedExports

variable {σ : Type}

namespace Store

variable {s : Store} {names : List String}

theorem wellFormed_stripObj {o : Obj} (h : o.WellFormed) : (s.stripObj names o).WellFormed := by
  unfold stripObj
  split
  · refine h.mapAttr fun v => ?_
    cases v with
    | atom value => exact le_rfl
    | items values => exact List.length_filter_le _ _
  · exact h

/-- Stripping concerns lists only. -/
theorem singles_stripObj (o : Obj) : (s.stripObj names o).singles = o.singles := by
  unfold stripObj
  split
  · cases o with
    | sequence values => rfl
    | record shape attributes =>
      unfold Obj.mapAttr Obj.singles
      dsimp only
      rw [List.flatMap_map]
      refine congrArg (attributes.flatMap ·) (funext fun a => ?_)
      obtain ⟨name, v⟩ := a
      by_cases h : name = "properties" <;> cases v <;> simp [h, Value.filter]
  · rfl

theorem isSequence_stripIn (X : Set Ref) (a : Atom) :
    (s.stripIn names X).isSequence a = s.isSequence a := by
  cases a with
  | ref r =>
    unfold isSequence
    dsimp only
    rw [obj?_stripIn]
    cases s.obj? r with
    | none => rfl
    | some o =>
      cases o with
      | sequence values => simp [stripObj_sequence]
      | record shape attributes =>
        obtain ⟨attributes', h⟩ := stripObj_record s names shape attributes
        by_cases hr : r ∈ X <;> simp [h, hr]
  | _ => rfl

/-- Stripping keeps a store well-formed. -/
theorem wellFormed_stripIn (h : s.WellFormed) (X : Set Ref) :
    (s.stripIn names X).WellFormed := by
  refine ⟨fun o' ho' => ?_, fun o' ho' a ha => ?_⟩ <;>
    obtain ⟨r, hr⟩ := mem_objects_iff.mp ho' <;>
    rw [obj?_stripIn, Option.map_eq_some_iff] at hr <;>
    obtain ⟨o, ho, rfl⟩ := hr
  · split
    · exact wellFormed_stripObj (h.obj ho)
    · exact h.obj ho
  · rw [isSequence_stripIn]
    refine h.lists o (mem_objects_iff.mpr ⟨r, ho⟩) a ?_
    split at ha
    · rwa [singles_stripObj] at ha
    · exact ha

/-- What a stripped object still holds was held by the object. -/
theorem holds_of_obj?_stripIn {X : Set Ref} {r c : Ref} {o : Obj}
    (ho : (s.stripIn names X).obj? r = some o) (hc : c ∈ o.refs) : s.Holds r c := by
  rw [obj?_stripIn, Option.map_eq_some_iff] at ho
  obtain ⟨o₀, ho₀, rfl⟩ := ho
  refine ⟨o₀, ho₀, ?_⟩
  split at hc
  · exact refs_stripObj c hc
  · exact hc

/-- Objects that are stripped in addition do not concern the others. -/
theorem obj?_stripIn_union {X Y : Set Ref} {r : Ref} (h : r ∉ Y) :
    (s.stripIn names (X ∪ Y)).obj? r = (s.stripIn names X).obj? r := by
  by_cases hX : r ∈ X
  · rw [obj?_stripIn_of_mem hX, obj?_stripIn_of_mem (Or.inl hX)]
  · rw [obj?_stripIn_of_not_mem hX, obj?_stripIn_of_not_mem (by simp [hX, h])]

/-- An object that is stripped already is not changed by being stripped of the same or fewer
names. -/
theorem stripObj_stripObj {others : List String} (h : ∀ name ∈ others, name ∈ names) (o : Obj) :
    s.stripObj others (s.stripObj names o) = s.stripObj names o := by
  cases hp : o.isPattern with
  | false => rw [stripObj_of_not_isPattern hp, stripObj_of_not_isPattern hp]
  | true =>
    have hp' : (s.stripObj names o).isPattern = true := by rw [isPattern_stripObj, hp]
    have houter : s.stripObj others (s.stripObj names o) = (s.stripObj names o).mapAttr "properties"
        (·.filter fun entry => !s.binds others entry) := if_pos hp'
    have hinner : s.stripObj names o =
        o.mapAttr "properties" (·.filter fun entry => !s.binds names entry) := if_pos hp
    have hkeep : ∀ entry, (!s.binds names entry) = true → (!s.binds others entry) = true := by
      intro entry hentry
      rw [Bool.not_eq_true'] at hentry ⊢
      exact Bool.eq_false_iff.mpr fun hother => by simp [binds_mono h hother] at hentry
    rw [houter, hinner, Obj.mapAttr_mapAttr]
    simp only [Value.filter_filter_of_imp hkeep]

/-- Stripping one more object of a store, whether it is stripped already or not. -/
theorem eq_stripIn_union_singleton {t : Store} {X : Set Ref} {r : Ref} {o : Obj}
    (ho : s.obj? r = some o) (hr : t.obj? r = some (s.stripObj names o))
    (hother : ∀ q, q ≠ r → t.obj? q = (s.stripIn names X).obj? q) :
    t = s.stripIn names (X ∪ {r}) := by
  refine ext_obj? fun q => ?_
  by_cases hq : q = r
  · subst hq
    rw [hr, obj?_stripIn_of_mem (Or.inr rfl), ho, Option.map_some]
  · rw [hother q hq, obj?_stripIn_union (Y := {r}) hq]

/-- An object is found as it was or stripped. -/
theorem exists_obj?_stripIn (names : List String) (X : Set Ref) {r : Ref} {o : Obj}
    (ho : s.obj? r = some o) :
    ∃ o', (s.stripIn names X).obj? r = some o' ∧
      s.stripObj names o' = s.stripObj names o ∧ o'.isPattern = o.isPattern := by
  by_cases hX : r ∈ X
  · refine ⟨s.stripObj names o, ?_, stripObj_stripObj (fun _ h => h) o, isPattern_stripObj o⟩
    rw [obj?_stripIn_of_mem hX, ho, Option.map_some]
  · refine ⟨o, ?_, rfl, rfl⟩
    rw [obj?_stripIn_of_not_mem hX, ho]

/-- What can be read still can when other objects are stripped, and what cannot be read does not become
readable, since an entry whose name cannot be compared binds nothing. -/
theorem legible_stripIn_iff {X : Set Ref} {r : Ref} :
    (s.stripIn names X).Legible r ↔ s.Legible r := by
  have halike : s.AlikeButEntries (s.stripIn names X) := alikeButEntries_stripIn X
  cases ho : s.obj? r with
  | none =>
    have ho' : (s.stripIn names X).obj? r = none := by rw [obj?_stripIn, ho, Option.map_none]
    unfold Legible
    rw [ho, ho']
    simp
  | some o =>
    by_cases hX : r ∈ X
    · have ho' : (s.stripIn names X).obj? r = some (s.stripObj names o) := by
        rw [obj?_stripIn_of_mem hX, ho, Option.map_some]
      cases hpattern : o.isPattern with
      | false =>
        have hpattern' : (s.stripObj names o).isPattern = false := by
          rw [isPattern_stripObj, hpattern]
        exact iff_of_true (legible_of_not_isPattern ho' hpattern')
          (legible_of_not_isPattern ho hpattern)
      | true =>
        have hattr : (s.stripObj names o).attr? "properties" =
            (o.attr? "properties").map (·.filter fun entry => !s.binds names entry) := by
          rw [stripObj, if_pos hpattern, Obj.attr?_mapAttr_self]
        rw [legible_iff ho' (by rw [isPattern_stripObj, hpattern]), legible_iff ho hpattern, hattr]
        cases o.attr? "properties" with
        | none => simp
        | some v =>
          cases v with
          | atom a => simp [Value.filter]
          | items values =>
            simp only [Option.map_some, Value.filter, Option.some.injEq, reduceCtorEq, exists_false,
              false_or, Value.items.injEq, exists_eq_left', List.mem_filter, halike.comparable_iff]
            constructor
            · intro h entry hentry
              -- an entry that cannot be compared binds nothing, so it has not been dropped
              by_contra hnot
              have hbinds := (exists_fault_of_not_comparable names hnot).2
              exact hnot (h entry ⟨hentry, by rw [hbinds]; rfl⟩)
            · intro h entry hentry
              exact h entry hentry.1
    · have ho' : (s.stripIn names X).obj? r = some o := by
        rw [obj?_stripIn_of_not_mem hX, ho]
      cases hpattern : o.isPattern with
      | false =>
        exact iff_of_true (legible_of_not_isPattern ho' hpattern)
          (legible_of_not_isPattern ho hpattern)
      | true =>
        rw [legible_iff ho' hpattern, legible_iff ho hpattern]
        simp only [halike.comparable_iff]

/-- What can be stripped still can when other objects are stripped. -/
theorem Strippable.stripIn {r : Ref} (h : s.Strippable r) (X : Set Ref) :
    (s.stripIn names X).Strippable r := by
  intro o' ho' hpattern
  rw [obj?_stripIn, Option.map_eq_some_iff] at ho'
  obtain ⟨o, ho, rfl⟩ := ho'
  have halike : s.AlikeButEntries (s.stripIn names X) := alikeButEntries_stripIn X
  by_cases hX : r ∈ X
  · simp only [hX, if_true, isPattern_stripObj] at hpattern ⊢
    obtain ⟨values, hvalues, hsearch⟩ := h o ho hpattern
    refine ⟨values.filter fun entry => !s.binds names entry, ?_, fun entry hentry => ?_⟩
    · rw [stripObj, if_pos hpattern, Obj.attr?_mapAttr_self, hvalues]
      rfl
    · exact halike.searchable (hsearch entry (List.mem_filter.mp hentry).1)
  · simp only [hX, if_false] at hpattern ⊢
    obtain ⟨values, hvalues, hsearch⟩ := h o ho hpattern
    exact ⟨values, hvalues, fun entry hentry => halike.searchable (hsearch entry hentry)⟩

/-! ### What is entered -/

theorem enteredFrom_nil : s.enteredFrom names [] = ∅ := by
  ext q
  simp [enteredFrom]

theorem enteredFrom_append (as bs : List Atom) :
    s.enteredFrom names (as ++ bs) = s.enteredFrom names as ∪ s.enteredFrom names bs := by
  ext q
  constructor
  · rintro ⟨c, hc, hnode, hq⟩
    rcases List.mem_append.mp hc with ha | hb
    · exact Or.inl ⟨c, ha, hnode, hq⟩
    · exact Or.inr ⟨c, hb, hnode, hq⟩
  · rintro (⟨c, hc, hnode, hq⟩ | ⟨c, hc, hnode, hq⟩)
    · exact ⟨c, List.mem_append_left _ hc, hnode, hq⟩
    · exact ⟨c, List.mem_append_right _ hc, hnode, hq⟩

/-- From a node everything is entered that is entered once the node has been. -/
theorem enteredFrom_node {c : Ref} (h : s.isNode (.ref c) = true) :
    s.enteredFrom names [.ref c] = {q | s.Entered names c q} := by
  ext q
  constructor
  · rintro ⟨c', hc', -, hq⟩
    cases List.mem_singleton.mp hc'
    exact hq
  · intro hq
    exact ⟨c, List.mem_singleton_self _, h, hq⟩

/-- From what is no node nothing is entered. -/
theorem enteredFrom_of_not_isNode {a : Atom} (h : s.isNode a = false) :
    s.enteredFrom names [a] = ∅ := by
  ext q
  simp only [Set.mem_empty_iff_false, iff_false]
  rintro ⟨c, hc, hnode, -⟩
  rw [← List.mem_singleton.mp hc, hnode] at h
  exact absurd h (by simp)

/-- Entering a node is entering the node itself and then what it still holds. -/
theorem setOf_entered {r : Ref} {o : Obj} (ho : s.obj? r = some o) :
    {q | s.Entered names r q} =
      {r} ∪ s.enteredFrom names (s.stripObj names o).fieldAtoms := by
  ext q
  constructor
  · intro hq
    cases hq with
    | self => exact Or.inl rfl
    | step ho' hc hq =>
      cases ho.symm.trans ho'
      exact Or.inr ⟨_, hc.1, hc.2, hq⟩
  · rintro (rfl | ⟨c, hc, hnode, hq⟩)
    · exact Entered.self _
    · exact Entered.step ho ⟨hc, hnode⟩ hq

theorem Entered.reaches {r q : Ref} (h : s.Entered names r q) : s.Reaches r q := by
  induction h with
  | self => exact .refl
  | step ho hc _ ih =>
    have hrefs := refs_stripObj _ (Obj.mem_refs.mpr (Obj.fieldAtoms_subset hc.1))
    exact .head ⟨_, ho, hrefs⟩ ih

/-- Only nodes are entered. -/
theorem Entered.isNode {r q : Ref} (h : s.Entered names r q) (hr : s.isNode (.ref r) = true) :
    s.isNode (.ref q) = true := by
  induction h with
  | self => exact hr
  | step _ hc _ ih => exact ih hc.2

/-- Where all nodes can be stripped, everything that is entered can be read. -/
theorem legible_of_strippable (names : List String) {r : Ref} {o : Obj} (ho : s.obj? r = some o)
    (h : ∀ q, s.Reaches r q → s.isNode (.ref q) = true → s.Strippable q) :
    ∀ q ∈ s.enteredFrom names o.fieldAtoms, s.Legible q := by
  rintro q ⟨c, hc, hnode, hq⟩
  have hholds : s.Holds r c := ⟨o, ho, Obj.mem_refs.mpr (Obj.fieldAtoms_subset hc)⟩
  exact (h q (.head hholds hq.reaches) (hq.isNode hnode)).legible

/-- What is entered from an object that comes earlier does not include the object that holds it. -/
theorem not_entered_of_holds {r c : Ref} (h : s.Holds r c) :
    r ∉ {q | s.Entered names c q} := by
  intro hr
  obtain ⟨o, ho, hc⟩ := h
  exact absurd hr.index_le (Nat.not_le.mpr (refs_index_lt ho hc))

end Store

namespace Strip

variable {s : Store} {names : List String} {X Y : Set Ref} {r : Ref} {o : Obj} {p above : PathId}
  {w w₁ : Workspace σ} {m m₁ : Edit σ Unit}

/-- The objects of a set are stripped, and the paths that were held and the notes are as they were. -/
def Stripped (s : Store) (names : List String) (X : Set Ref) (w w' : Workspace σ) : Prop :=
  w'.store = s.stripIn names X ∧ w.KeepsPaths w' ∧ w'.notes = w.notes

/-- An edit that strips the objects of a set, some of which are stripped already, if the others can be
read, and that ends with a fault if one of them cannot. -/
def Strips (s : Store) (names : List String) (X Y : Set Ref) (m : Edit σ Unit)
    (w : Workspace σ) : Prop :=
  m.SucceedsIff w (∀ q ∈ Y, s.Legible q) (Stripped s names (X ∪ Y) w)

/-- What a visit has to do below an object: from any node that the object holds, it strips what is
entered, whatever has been stripped already. -/
def VisitsBelow (s : Store) (names : List String) (r : Ref) (visit : PathId → Edit σ Unit) :
    Prop :=
  ∀ (c : Ref) (X : Set Ref) (w : Workspace σ) (p : PathId), s.Holds r c →
    s.isNode (.ref c) = true → w.store = s.stripIn names X → (w.path p).node = .ref c →
    (w.path p).removed = false →
    Strips s names X {q | s.Entered names c q} (visit p) w

theorem Stripped.trans {w' w'' : Workspace σ} (h : Stripped s names X w w')
    (h' : Stripped s names Y w' w'') : Stripped s names Y w w'' := by
  obtain ⟨-, hkeeps, hnotes⟩ := h
  obtain ⟨hstore, hkeeps', hnotes'⟩ := h'
  exact ⟨hstore, hkeeps.trans hkeeps', hnotes'.trans hnotes⟩

/-- An edit that has nothing left to strip. -/
theorem Strips.of_run_eq_self (hstore : w.store = s.stripIn names X)
    (hrun : m.run w = .ok () w) : Strips s names X ∅ m w := by
  refine ⟨fun _ => ⟨w, hrun, ?_, .refl w, rfl⟩, fun hnot => absurd (by simp) hnot⟩
  rw [Set.union_empty, hstore]

/-- An edit that goes on as another one does from a later workspace. -/
theorem Strips.of_run_eq (h : Strips s names X Y m₁ w₁) (hrun : m.run w = m₁.run w₁)
    (hkeeps : w.KeepsPaths w₁) (hnotes : w₁.notes = w.notes) : Strips s names X Y m w := by
  refine Edit.SucceedsIff.of_run_eq h hrun ?_
  rintro w' ⟨hstore, hkeeps₁, hnotes₁⟩
  exact ⟨hstore, hkeeps.trans hkeeps₁, hnotes₁.trans hnotes⟩

/-- An edit that strips some objects first and then goes on with others. -/
theorem Strips.seq {Z : Set Ref} (h : Strips s names X Y m₁ w₁)
    (hkeeps : w.KeepsPaths w₁) (hnotes : w₁.notes = w.notes)
    (hstop : ∀ fault w', m₁.run w₁ = .error fault w' → m.run w = .error fault w')
    (hgo : ∀ w', m₁.run w₁ = .ok () w' → Stripped s names (X ∪ Y) w₁ w' →
      ∃ m₂ : Edit σ Unit, m.run w = m₂.run w' ∧ Strips s names (X ∪ Y) Z m₂ w') :
    Strips s names X (Y ∪ Z) m w := by
  have hcondition : (∀ q ∈ Y ∪ Z, s.Legible q) ↔ (∀ q ∈ Y, s.Legible q) ∧ ∀ q ∈ Z, s.Legible q := by
    simp only [Set.mem_union, or_imp, forall_and]
  unfold Strips
  rw [hcondition, ← Set.union_assoc]
  refine Edit.SucceedsIff.seq h hstop ?_
  intro w' hrun hstripped
  obtain ⟨m₂, hrest, h₂⟩ := hgo w' hrun hstripped
  have hbefore : Stripped s names (X ∪ Y) w w' :=
    ⟨hstripped.1, hkeeps.trans hstripped.2.1, hstripped.2.2.trans hnotes⟩
  exact ⟨m₂, hrest, Edit.SucceedsIff.of_run_eq h₂ rfl fun w'' => hbefore.trans⟩

/-- The entries of a list that have not been visited yet are visited one by one. -/
theorem run_entries {visit : PathId → Edit σ Unit} {list : String}
    (hvisit : VisitsBelow s names r visit) (rest : List Atom) {before : List Atom}
    (hstore : w.store = s.stripIn names X) (ho : (s.stripIn names X).obj? r = some o)
    (hlist : o.attr? list = some (.items (before ++ rest))) :
    Strips s names X (s.enteredFrom names rest)
      (Walk.entries visit above (.ref r) list rest.length before.length) w := by
  induction rest generalizing before X w with
  | nil =>
    have hend : (w.store.entries (.ref r) list)[before.length]? = none := by
      rw [hstore, Store.entries_of_attr? ((Store.attr?_ref ho list).trans hlist)]
      simp
    rw [Store.enteredFrom_nil]
    exact .of_run_eq_self hstore (Walk.run_entries_end hend)
  | cons a rest ih =>
    have hat : (w.store.entries (.ref r) list)[before.length]? = some a := by
      rw [hstore, Store.entries_of_attr? ((Store.attr?_ref ho list).trans hlist)]
      simp
    have hlist' : o.attr? list = some (.items (before ++ [a] ++ rest)) := by simpa using hlist
    have hsplit : s.enteredFrom names (a :: rest) =
        s.enteredFrom names [a] ∪ s.enteredFrom names rest :=
      Store.enteredFrom_append [a] rest
    have hindex : (before ++ [a]).length = before.length + 1 := by simp
    cases hnode : s.isNode a with
    | false =>
      have hskip : w.store.isNode a = false := by rw [hstore, Store.isNode_stripIn, hnode]
      rw [hsplit, Store.enteredFrom_of_not_isNode hnode, Set.empty_union]
      exact (ih hstore ho hlist').of_run_eq
        (by rw [hindex]; exact Walk.run_entries_skip hat hskip) (.refl w) rfl
    | true =>
      obtain ⟨c, -, -, rfl, -⟩ := Store.exists_record_of_isNode hnode
      have hmem : c ∈ o.refs :=
        Obj.mem_refs.mpr (Obj.atoms_subset_of_attr? hlist (by simp [Value.atoms]))
      have hholds : s.Holds r c := Store.holds_of_obj?_stripIn ho hmem
      have hlive : w.store.isNode (.ref c) = true := by rw [hstore, Store.isNode_stripIn, hnode]
      have hentry := hvisit c X (w.addPath (.ofEntry (.ref c) above list before.length))
        w.nextPath hholds hnode hstore (by simp [Path.ofEntry]) (by simp [Path.ofEntry])
      have ho₁ : (s.stripIn names (X ∪ {q | s.Entered names c q})).obj? r = some o := by
        rw [Store.obj?_stripIn_union (Store.not_entered_of_holds hholds), ho]
      rw [hsplit, Store.enteredFrom_node hnode]
      refine hentry.seq (w.keepsPaths_addPath _) rfl
        (fun fault w' hfault => Walk.run_entries_stop hat hlive hfault) ?_
      rintro w₁ hrun ⟨hstore₁, -, -⟩
      -- the object that holds the list was not touched, so the entry is where it was
      have hkept : (w₁.store.entries (.ref r) list)[before.length]? = some (.ref c) := by
        rw [hstore₁, Store.entries_of_attr? ((Store.attr?_ref ho₁ list).trans hlist)]
        simp
      refine ⟨_, Walk.run_entries_kept hat hlive hrun hkept, ?_⟩
      rw [← hindex]
      exact ih hstore₁ ho₁ hlist'

/-- A field is visited as a whole. -/
theorem run_field (above : PathId) (name : String) {visit : PathId → Edit σ Unit}
    (hvisit : VisitsBelow s names r visit) (hstore : w.store = s.stripIn names X)
    (ho : (s.stripIn names X).obj? r = some o) :
    Strips s names X (s.enteredFrom names (((o.attr? name).map Value.atoms).getD []))
      (Walk.field visit above (.ref r) name) w := by
  have hattr : w.store.attr? (.ref r) name = o.attr? name := by
    rw [hstore, Store.attr?_ref ho]
  cases hv : o.attr? name with
  | none =>
    rw [hv] at hattr
    rw [Option.map_none, Option.getD_none, Store.enteredFrom_nil]
    exact .of_run_eq_self hstore (Walk.run_field_absent hattr)
  | some v =>
    rw [hv] at hattr
    rw [Option.map_some, Option.getD_some]
    cases v with
    | items values =>
      have hlist : o.attr? name = some (.items ([] ++ values)) := hv
      exact (run_entries hvisit values hstore ho hlist).of_run_eq
        (Walk.run_field_items hattr) (.refl w) rfl
    | atom a =>
      unfold Value.atoms
      cases hnode : s.isNode a with
      | false =>
        have hskip : w.store.isNode a = false := by rw [hstore, Store.isNode_stripIn, hnode]
        rw [Store.enteredFrom_of_not_isNode hnode]
        exact .of_run_eq_self hstore (Walk.run_field_skip hattr hskip)
      | true =>
        obtain ⟨c, -, -, rfl, -⟩ := Store.exists_record_of_isNode hnode
        have hmem : c ∈ o.refs :=
          Obj.mem_refs.mpr (Obj.atoms_subset_of_attr? hv (by simp [Value.atoms]))
        have hlive : w.store.isNode (.ref c) = true := by rw [hstore, Store.isNode_stripIn, hnode]
        rw [Store.enteredFrom_node hnode]
        exact (hvisit c X (w.addPath (.ofField (.ref c) above name)) w.nextPath
          (Store.holds_of_obj?_stripIn ho hmem) hnode hstore (by simp [Path.ofField])
          (by simp [Path.ofField])).of_run_eq (Walk.run_field_node hattr hlive)
          (w.keepsPaths_addPath _) rfl

/-- The fields are visited one after the other. -/
theorem run_fields (above : PathId) {visit : PathId → Edit σ Unit}
    (hvisit : VisitsBelow s names r visit)
    (fields : List String) (hstore : w.store = s.stripIn names X)
    (ho : (s.stripIn names X).obj? r = some o) :
    Strips s names X (s.enteredFrom names
        (fields.flatMap fun name => ((o.attr? name).map Value.atoms).getD []))
      (Walk.fields visit above (.ref r) fields) w := by
  induction fields generalizing X w with
  | nil =>
    rw [List.flatMap_nil, Store.enteredFrom_nil]
    exact .of_run_eq_self hstore Walk.run_fields_nil
  | cons name fields ih =>
    have ho₁ : (s.stripIn names (X ∪ s.enteredFrom names
        (((o.attr? name).map Value.atoms).getD []))).obj? r = some o := by
      refine (Store.obj?_stripIn_union ?_).trans ho
      rintro ⟨c, hc, -, hr⟩
      cases hv : o.attr? name with
      | none => simp [hv] at hc
      | some v =>
        have hmem : c ∈ o.refs :=
          Obj.mem_refs.mpr (Obj.atoms_subset_of_attr? hv (by simpa [hv] using hc))
        exact Store.not_entered_of_holds (Store.holds_of_obj?_stripIn ho hmem) hr
    rw [List.flatMap_cons, Store.enteredFrom_append]
    refine (run_field above name hvisit hstore ho).seq (.refl w) rfl
      (fun fault w' hfault => Walk.run_fields_stop hfault) ?_
    rintro w₁ hrun ⟨hstore₁, -, -⟩
    exact ⟨_, Walk.run_fields_cons hrun, ih hstore₁ ho₁⟩

/-- What hangs below a node is stripped by visiting all that its fields hold. -/
theorem run_children {visit : PathId → Edit σ Unit} (hvisit : VisitsBelow s names r visit)
    (hstore : w.store = s.stripIn names X) (ho : (s.stripIn names X).obj? r = some o)
    (hnode : (w.path p).node = .ref r) (hlive : s.isNode (.ref r) = true) :
    Strips s names X (s.enteredFrom names o.fieldAtoms) (Walk.children visit p) w := by
  have hlive' : (s.stripIn names X).isNode (.ref r) = true := by
    rw [Store.isNode_stripIn, hlive]
  obtain ⟨r', shape, attributes, hr', hrecord, hshape⟩ := Store.exists_record_of_isNode hlive'
  cases hr'
  cases ho.symm.trans hrecord
  obtain ⟨fields, hfields⟩ := Shape.exists_fields_of_isNode hshape
  have hatoms : (Obj.record shape attributes).fieldAtoms = fields.flatMap fun name =>
      (((Obj.record shape attributes).attr? name).map Value.atoms).getD [] := by
    show ((shape.fields?.getD []).flatMap fun name => _) = _
    rw [hfields]
    rfl
  have hshape? : w.store.shape? (w.path p).node = some shape := by
    rw [hnode, hstore, Store.shape?_ref hrecord]
  rw [hatoms]
  refine (run_fields p hvisit fields hstore ho).of_run_eq ?_ (.refl w) rfl
  rw [Walk.run_children hshape? hfields, hnode]

/-- What the walk does when it enters and leaves a node of the given type. -/
theorem hooks_visitor (t : Store) (type : Value) :
    Walk.hooks (visitor (σ := σ) names) (type.toTree t.tree) =
      if type = .atom (.str "ObjectPattern") then .onEnter (pattern names) else .none := by
  unfold Walk.hooks visitor
  cases type with
  | items values => rfl
  | atom a =>
    have hwritten := t.writtenAs_tree a
    rw [Value.toTree]
    generalize t.tree a = written at hwritten ⊢
    cases hwritten with
    | str text => simp
    | _ => rfl

/-- Entering a node strips the node itself. -/
theorem run_enter (hs : s.WellFormed) (hstore : w.store = s.stripIn names X)
    (hnode : (w.path p).node = .ref r)
    (hlive : s.isNode (.ref r) = true) {type : Value}
    (htype : s.attr? (.ref r) "type" = some type) :
    Strips s names X {r}
      (Walk.call (Walk.hooks (visitor names) (type.toTree w.store.tree)).enter p) w := by
  obtain ⟨r', shape, attributes, hr', hrecord, -⟩ := Store.exists_record_of_isNode hlive
  cases hr'
  obtain ⟨o, ho⟩ : ∃ o, s.obj? r = some o := ⟨_, hrecord⟩
  obtain ⟨o', ho', hstripped, hsame⟩ := Store.exists_obj?_stripIn names X ho
  have htype' : o.attr? "type" = some type := (Store.attr?_ref ho "type").symm.trans htype
  have hcondition : (∀ q ∈ ({r} : Set Ref), s.Legible q) ↔ s.Legible r := by
    constructor
    · intro h
      exact h r rfl
    · rintro h q rfl
      exact h
  unfold Strips
  rw [hooks_visitor, hcondition]
  by_cases hpattern : type = .atom (.str "ObjectPattern")
  · have hisPattern : o.isPattern = true := by simp [Obj.isPattern, htype', hpattern]
    have halike : s.AlikeButEntries (s.stripIn names X) := Store.alikeButEntries_stripIn X
    have hrun := run_pattern names (hstore ▸ Store.wellFormed_stripIn hs X) hnode
      (by rw [hstore, Store.isNode_stripIn, hlive]) (by rw [hstore, ho'])
      (hsame.trans hisPattern)
    rw [hstore, Store.legible_stripIn_iff] at hrun
    rw [if_pos hpattern]
    refine hrun.of_run_eq rfl ?_
    rintro w' ⟨hother, hr, hkeeps, hnotes⟩
    rw [hstore] at hother hr
    refine ⟨Store.eq_stripIn_union_singleton ho ?_ hother, hkeeps, hnotes⟩
    rw [hr, halike.stripObj_eq, hstripped]
  · have hisPattern : o.isPattern = false := by simp [Obj.isPattern, htype', hpattern]
    have ho'eq : o' = s.stripObj names o := by
      rw [← hstripped, Store.stripObj_of_not_isPattern (hsame.trans hisPattern)]
    rw [if_neg hpattern]
    refine ⟨fun _ => ⟨w, Walk.run_call_none, ?_, .refl w, rfl⟩, fun hnot =>
      absurd (Store.legible_of_not_isPattern ho hisPattern) hnot⟩
    refine hstore.trans (Store.eq_stripIn_union_singleton ho ?_ fun q _ => rfl)
    rw [ho', ho'eq]

/-- A visit strips what is entered from the node that it visits. -/
theorem run_visit (hs : s.WellFormed) {depth : ℕ} (hdepth : r.index < depth)
    (hstore : w.store = s.stripIn names X) (hnode : (w.path p).node = .ref r)
    (hlive : s.isNode (.ref r) = true) (hheld : (w.path p).removed = false) :
    Strips s names X {q | s.Entered names r q}
      (Walk.visit (visitor names) depth p) w := by
  induction depth generalizing r X w p with
  | zero => exact absurd hdepth (Nat.not_lt_zero _)
  | succ depth ih =>
    obtain ⟨r', shape, attributes, hr', hrecord, hshape⟩ := Store.exists_record_of_isNode hlive
    cases hr'
    obtain ⟨o, ho⟩ : ∃ o, s.obj? r = some o := ⟨_, hrecord⟩
    obtain ⟨type, htype⟩ := hs.exists_type hrecord hshape
    have htype' : w.store.attr? (w.path p).node "type" = some type := by
      rw [hnode, hstore, Store.attr?_stripIn_of_ne X _ (by decide), htype]
    have hp : w.Knows p := Workspace.knows_of_node_ne (by rw [hnode]; simp)
    -- below the node the walk does the same one level less deep
    have hvisit : VisitsBelow s names r (Walk.visit (visitor (σ := σ) names) depth) := by
      intro c Y w₂ q hholds hc hstore₂ hq hheld₂
      obtain ⟨o', ho', hmem⟩ := id hholds
      have hlt : c.index < r.index := Store.refs_index_lt ho' hmem
      exact ih (by omega) hstore₂ hq hc hheld₂
    have ho₁ : (s.stripIn names (X ∪ {r})).obj? r = some (s.stripObj names o) := by
      rw [Store.obj?_stripIn_of_mem (Or.inr rfl), ho, Option.map_some]
    rw [Store.setOf_entered ho]
    refine (run_enter hs hstore hnode hlive htype).seq (.refl w) rfl
      (fun fault w' hfault => Walk.run_visit_stop_enter htype' hfault) ?_
    rintro w₁ henter ⟨hstore₁, hkeeps₁, hnotes₁⟩
    obtain ⟨hp₁, hpath₁⟩ := hkeeps₁ p hp
    have hheld₁ : (w₁.path p).removed = false := by rw [hpath₁, hheld]
    have hchildren := run_children hvisit hstore₁ ho₁ (by rw [hpath₁, hnode]) hlive
    refine ⟨_, ?_, hchildren⟩
    -- nothing is done when the node is left, so the visit ends as what hangs below the node does
    cases hbelow : (Walk.children (Walk.visit (visitor names) depth) p).run w₁ with
    | error fault w₂ => exact Walk.run_visit_stop_below htype' henter hheld₁ hbelow
    | ok _ w₂ =>
      obtain ⟨-, -, hkeeps₂, -⟩ := Edit.SucceedsIff.of_ok hchildren hbelow
      have hheld₂ : (w₂.path p).removed = false := by rw [(hkeeps₂ p hp₁).2, hheld₁]
      rw [Walk.run_visit_left htype' henter hheld₁ hbelow hheld₂, hooks_visitor]
      split <;> rfl

/-- Stripping below a node strips what is entered from the nodes that its fields hold, and stops if
that cannot be read. -/
theorem run_stripBelow (names : List String) (hs : s.WellFormed)
    (hstore : w.store = s.stripIn names X) (ho : (s.stripIn names X).obj? r = some o)
    (hnode : (w.path p).node = .ref r) (hlive : s.isNode (.ref r) = true)
    (hheld : (w.path p).removed = false) :
    Strips s names X (s.enteredFrom names o.fieldAtoms) (Edit.stripBelow names p) w := by
  have hvisit : VisitsBelow s names r (Walk.visit (visitor (σ := σ) names) w.store.size) := by
    intro c Y w₁ q hholds hc hstore₁ hq hheld₁
    obtain ⟨t, shape, attributes, ht, hrecord, -⟩ := Store.exists_record_of_isNode hc
    cases ht
    have hlt : c.index < w.store.size := by
      rw [hstore, Store.size_stripIn]
      exact Store.index_lt_size hrecord
    exact run_visit hs hlt hstore₁ hq hc hheld₁
  unfold Edit.stripBelow
  exact (run_children hvisit hstore ho hnode hlive).of_run_eq
    (Edit.run_walkBelow (by rw [hnode]; simp) hheld) (.refl w) rfl

end Strip

end NamedExports
