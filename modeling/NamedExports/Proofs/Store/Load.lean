import Mathlib.Data.Set.BooleanAlgebra
import Mathlib.Order.CompletePartialOrder
import NamedExports.Program.Stored
import NamedExports.Proofs.Store.WellFormed

/-!
# Loaded trees

Putting a tree into a store adds objects behind those that are there and touches none of them
(`Store.Extends`).  What stands for the tree afterwards is written out as the tree again, and all
that hangs below it was added for it (`Store.Loads`); so the parts of a loaded tree share nothing.
-/

namespace NamedExports.Store

variable {s s' s'' : Store}

/-! ### Stores that grow -/

/-- A store has all objects of another one, in the same places. -/
structure Extends (s s' : Store) : Prop where
  size_le : s.size ≤ s'.size
  obj?_eq : ∀ r, r.index < s.size → s'.obj? r = s.obj? r

theorem Extends.refl (s : Store) : s.Extends s :=
  ⟨le_rfl, fun _ _ => rfl⟩

theorem Extends.trans (h : s.Extends s') (h' : s'.Extends s'') : s.Extends s'' := by
  refine ⟨le_trans h.size_le h'.size_le, fun r hr => ?_⟩
  rw [h'.obj?_eq r (lt_of_lt_of_le hr h.size_le), h.obj?_eq r hr]

@[simp] theorem size_add (s : Store) (o : Obj) : (s.add o).1.size = s.size + 1 := by
  simp [size, add]

/-- Adding an object leaves those that are there. -/
theorem extends_add (s : Store) (o : Obj) : s.Extends (s.add o).1 := by
  refine ⟨by rw [size_add]; exact Nat.le_succ _, fun r hr => ?_⟩
  unfold obj? add
  rw [Array.getElem?_push_lt hr, Array.getElem?_eq_getElem hr]

theorem Atom.below_eq {n : ℕ} {a : Atom} (h : ∀ r ∈ a.refs, r.index < n) : a.below n = a := by
  cases a with
  | ref r => simp [Atom.below, h r (by simp)]
  | _ => rfl

/-- An object that refers to nothing later is not cut down. -/
theorem Obj.below_eq {n : ℕ} {o : Obj} (h : ∀ r ∈ o.refs, r.index < n) : o.below n = o := by
  have hatoms : ∀ a ∈ o.atoms, a.below n = a := fun a ha =>
    Atom.below_eq fun r hr => h r (Obj.mem_refs_of_mem_atoms ha hr)
  cases o with
  | sequence values =>
    exact congrArg Obj.sequence ((List.map_congr_left hatoms).trans (List.map_id'' (fun _ => rfl) _))
  | record shape attributes =>
    refine congrArg (Obj.record shape) ?_
    conv_rhs => rw [← List.map_id attributes]
    refine List.map_congr_left fun a ha => ?_
    obtain ⟨name, v⟩ := a
    have hv : ∀ b ∈ v.atoms, b.below n = b := fun b hb =>
      hatoms b (List.mem_flatMap.mpr ⟨(name, v), ha, hb⟩)
    cases v with
    | atom value => simp [Value.below, hv value (by simp [Value.atoms])]
    | items values =>
      have hitems : values.map (Atom.below n) = values :=
        (List.map_congr_left hv).trans (List.map_id'' (fun _ => rfl) _)
      simp [Value.below, hitems]

/-- The added object, which is there as it is if it refers to what is there. -/
theorem obj?_add {o : Obj} (h : ∀ r ∈ o.refs, r.index < s.size) :
    (s.add o).1.obj? ⟨s.size⟩ = some o := by
  have hadded : (s.add o).1.obj? ⟨s.size⟩ = some (o.below s.size) := Array.getElem?_push_size
  rw [hadded, Obj.below_eq h]

/-- Where two stores agree up to some place, an object before it reaches the same in both. -/
theorem Reaches.of_agree {n : ℕ} (h : ∀ r : Ref, r.index < n → s'.obj? r = s.obj? r) {r q : Ref}
    (hr : r.index < n) (hq : s.Reaches r q) : s'.Reaches r q := by
  induction hq with
  | refl => exact .refl
  | @tail b c hb hstep ih =>
    obtain ⟨o, ho, hc⟩ := hstep
    have hlt : b.index < n := lt_of_le_of_lt (Reaches.index_le (s := s) hb) hr
    exact .tail ih ⟨o, (h b hlt).trans ho, hc⟩

/-- A value that refers to what was there already reaches the same objects as before. -/
theorem Extends.region_eq (h : s.Extends s') {a : Atom} (ha : ∀ r ∈ a.refs, r.index < s.size) :
    s'.region a = s.region a := by
  ext q
  constructor
  · rintro ⟨r, rfl, hq⟩
    exact ⟨r, rfl, Reaches.of_agree (fun t ht => (h.obj?_eq t ht).symm) (ha r (by simp)) hq⟩
  · rintro ⟨r, rfl, hq⟩
    exact ⟨r, rfl, Reaches.of_agree h.obj?_eq (ha r (by simp)) hq⟩

/-- A value that refers to what was there already is written out as before. -/
theorem Extends.tree_eq (h : s.Extends s') {a : Atom} (ha : ∀ r ∈ a.refs, r.index < s.size) :
    s'.tree a = s.tree a := by
  refine tree_congr fun q hq => h.obj?_eq q ?_
  obtain ⟨r, rfl, hr⟩ := hq
  exact lt_of_le_of_lt hr.index_le (ha r (by simp))

/-- A value that refers to what was there already has the attributes that it had. -/
theorem Extends.attr?_eq (h : s.Extends s') {a : Atom} (ha : ∀ r ∈ a.refs, r.index < s.size)
    (name : String) : s'.attr? a name = s.attr? a name := by
  cases a with
  | ref r =>
    unfold attr?
    dsimp only
    rw [h.obj?_eq r (ha r (by simp))]
  | _ => rfl

theorem Extends.isNode_eq (h : s.Extends s') {a : Atom} (ha : ∀ r ∈ a.refs, r.index < s.size) :
    s'.isNode a = s.isNode a := by
  cases a with
  | ref r =>
    unfold isNode shape?
    dsimp only
    rw [h.obj?_eq r (ha r (by simp))]
  | _ => rfl

theorem Extends.isSequence_eq (h : s.Extends s') {a : Atom}
    (ha : ∀ r ∈ a.refs, r.index < s.size) : s'.isSequence a = s.isSequence a := by
  cases a with
  | ref r =>
    unfold isSequence
    dsimp only
    rw [h.obj?_eq r (ha r (by simp))]
  | _ => rfl

/-- A list that is an object is written out as a list. -/
theorem exists_list_of_isSequence {a : Atom} (h : s.isSequence a = true) :
    ∃ items, s.tree a = .list items := by
  cases a with
  | ref r =>
    cases ho : s.obj? r with
    | none => simp [isSequence, ho] at h
    | some o =>
      cases o with
      | record shape attributes => simp [isSequence, ho] at h
      | sequence values => exact ⟨values.map s.tree, tree_ref ho⟩
  | _ => simp [isSequence] at h

/-! ### Loading -/

/-- All that hangs below a value has its place from `low` on and before `high`. -/
def Between (s : Store) (low high : ℕ) (a : Atom) : Prop :=
  ∀ q ∈ s.region a, low ≤ q.index ∧ q.index < high

theorem Between.refs_lt {low high : ℕ} {a : Atom} (h : s.Between low high a) :
    ∀ r ∈ a.refs, r.index < high := by
  intro r hr
  rw [Atom.mem_refs.mp hr] at h
  exact (h r (self_mem_region r)).2

theorem between_of_refs_eq_nil {low high : ℕ} {a : Atom} (h : a.refs = []) :
    s.Between low high a := by
  rintro q ⟨r, rfl, -⟩
  simp [Atom.refs] at h

/-- What lies between two places still does when the store grows, and between wider ones too. -/
theorem Between.extend {low high low' high' : ℕ} {a : Atom} (h : s.Between low high a)
    (hs : s.Extends s') (hhigh : high ≤ s.size) (hlow' : low' ≤ low) (hhigh' : high ≤ high') :
    s'.Between low' high' a := by
  intro q hq
  rw [hs.region_eq fun r hr => lt_of_lt_of_le (h.refs_lt r hr) hhigh] at hq
  obtain ⟨hle, hlt⟩ := h q hq
  exact ⟨le_trans hlow' hle, lt_of_lt_of_le hlt hhigh'⟩

/-- What lies in places that do not overlap has nothing in common. -/
theorem Between.disjoint {low middle high : ℕ} {a b : Atom} (ha : s.Between low middle a)
    (hb : s.Between middle high b) : Disjoint (s.region a) (s.region b) := by
  refine Set.disjoint_left.mpr fun q hqa hqb => ?_
  have := (ha q hqa).2
  have := (hb q hqb).1
  omega

/-- A value stands for a tree that was put into a store, with new objects throughout. -/
structure Loads (s s' : Store) (a : Atom) (t : Tree) : Prop where
  grows : s.Extends s'
  tree_eq : s'.tree a = t
  between : s'.Between s.size s'.size a

/-- Values stand for the items of a list that were put into a store one after the other; they share
no objects. -/
structure LoadsItems (s s' : Store) (values : List Atom) (items : List Tree) : Prop where
  grows : s.Extends s'
  trees_eq : values.map s'.tree = items
  between : ∀ a ∈ values, s'.Between s.size s'.size a
  disjoint : values.Pairwise fun a b => Disjoint (s'.region a) (s'.region b)

/-- Attributes stand for the written-out attributes of an object that were put into a store. -/
structure LoadsAttributes (s s' : Store) (attributes : List (String × Value))
    (trees : List (String × Tree)) : Prop where
  grows : s.Extends s'
  trees_eq : (attributes.map fun a => (a.1, a.2.toTree s'.tree)) = trees
  between : ∀ a ∈ attributes, ∀ b ∈ a.2.atoms, s'.Between s.size s'.size b
  lists : ∀ a ∈ attributes, ∀ b, a.2 = .atom b → s'.isSequence b = false

/-- A value that is no object stands for itself. -/
theorem loads_of_refs_eq_nil {a : Atom} {t : Tree} (hrefs : a.refs = []) (ht : s.tree a = t) :
    Loads s s a t :=
  ⟨.refl s, ht, between_of_refs_eq_nil hrefs⟩

/-- An object of which the parts have been put into a store is put there behind them. -/
theorem loads_add {o : Obj} (hs : s.Extends s')
    (hbetween : ∀ a ∈ o.atoms, s'.Between s.size s'.size a) :
    Loads s (s'.add o).1 (.ref (s'.add o).2) (o.toTree s'.tree) := by
  have hrefs : ∀ r ∈ o.refs, r.index < s'.size := fun r hr =>
    (hbetween _ (Obj.mem_refs.mp hr)).refs_lt r (by simp)
  have ho : (s'.add o).1.obj? (s'.add o).2 = some o := obj?_add hrefs
  have hgrow : s'.Extends (s'.add o).1 := extends_add s' o
  refine ⟨hs.trans hgrow, ?_, fun q hq => ?_⟩
  · rw [tree_ref ho]
    exact Obj.toTree_congr fun a ha => hgrow.tree_eq (hbetween a ha).refs_lt
  · rcases (mem_region_iff ho).mp hq with rfl | ⟨a, ha, hq⟩
    · exact ⟨hs.size_le, by rw [size_add]; exact Nat.lt_succ_self _⟩
    · exact (hbetween a ha).extend hgrow le_rfl le_rfl hgrow.size_le q hq

/-- A first item and the items that were put into a store after it. -/
theorem LoadsItems.cons {a : Atom} {t : Tree} {values : List Atom} {items : List Tree}
    (h : Loads s s' a t) (hrest : LoadsItems s' s'' values items) :
    LoadsItems s s'' (a :: values) (t :: items) := by
  have ha : s''.Between s.size s'.size a := h.between.extend hrest.grows le_rfl le_rfl le_rfl
  refine ⟨h.grows.trans hrest.grows, ?_, ?_, ?_⟩
  · rw [List.map_cons, hrest.trees_eq, hrest.grows.tree_eq h.between.refs_lt, h.tree_eq]
  · intro b hb
    rcases List.mem_cons.mp hb with rfl | hb
    · exact h.between.extend hrest.grows le_rfl le_rfl hrest.grows.size_le
    · exact (hrest.between b hb).extend (.refl s'') le_rfl h.grows.size_le le_rfl
  · exact .cons (fun b hb => ha.disjoint (hrest.between b hb)) hrest.disjoint

/-- A first attribute and the attributes that were put into a store after it. -/
theorem LoadsAttributes.cons {name : String} {v : Value} {t : Tree}
    {attributes : List (String × Value)} {trees : List (String × Tree)} (hs : s.Extends s')
    (hv : v.toTree s'.tree = t) (hbetween : ∀ a ∈ v.atoms, s'.Between s.size s'.size a)
    (hlists : ∀ b, v = .atom b → s'.isSequence b = false)
    (hrest : LoadsAttributes s' s'' attributes trees) :
    LoadsAttributes s s'' ((name, v) :: attributes) ((name, t) :: trees) := by
  refine ⟨hs.trans hrest.grows, ?_, ?_, ?_⟩
  · have hv' : v.toTree s''.tree = t := by
      rw [← hv]
      exact Value.toTree_congr fun a ha => hrest.grows.tree_eq (hbetween a ha).refs_lt
    rw [List.map_cons, hrest.trees_eq, hv']
  · intro a ha b hb
    rcases List.mem_cons.mp ha with rfl | ha
    · exact (hbetween b hb).extend hrest.grows le_rfl le_rfl hrest.grows.size_le
    · exact (hrest.between a ha b hb).extend (.refl s'') le_rfl hs.size_le le_rfl
  · intro a ha b hb
    rcases List.mem_cons.mp ha with rfl | ha
    · have hatom : b ∈ v.atoms := by
        rw [show v = .atom b from hb]
        exact List.mem_singleton_self b
      rw [hrest.grows.isSequence_eq (hbetween b hatom).refs_lt]
      exact hlists b hb
    · exact hrest.lists a ha b hb

/-- The same where the attribute is a single value. -/
theorem LoadsAttributes.cons_atom {name : String} {a : Atom} {t : Tree}
    {attributes : List (String × Value)} {trees : List (String × Tree)} (h : Loads s s' a t)
    (ht : ∀ items, t ≠ .list items) (hrest : LoadsAttributes s' s'' attributes trees) :
    LoadsAttributes s s'' ((name, .atom a) :: attributes) ((name, t) :: trees) := by
  refine LoadsAttributes.cons h.grows h.tree_eq (fun b hb => ?_) (fun b hb => ?_) hrest
  · rw [List.mem_singleton.mp hb]
    exact h.between
  · cases hb
    rw [← Bool.not_eq_true]
    intro hsequence
    obtain ⟨items, hitems⟩ := exists_list_of_isSequence hsequence
    exact ht items (h.tree_eq.symm.trans hitems)

mutual

/-- A loaded tree is written out as it was. -/
theorem loads_addTree (s : Store) (t : Tree) : Loads s (s.addTree t).1 (s.addTree t).2 t :=
  match t with
  | .null => loads_of_refs_eq_nil rfl (by simp [addTree])
  | .bool value => loads_of_refs_eq_nil rfl (by simp [addTree])
  | .int value => loads_of_refs_eq_nil rfl (by simp [addTree])
  | .str value => loads_of_refs_eq_nil rfl (by simp [addTree])
  | .list items => by
    have h := loadsItems_addItems s items
    have hadd := loads_add (o := .sequence (s.addItems items).2) h.grows h.between
    unfold Obj.toTree at hadd
    dsimp only at hadd
    rw [h.trees_eq] at hadd
    exact hadd
  | .node shape attributes => by
    have h := loadsAttributes_addAttributes s attributes
    have hadd := loads_add (o := .record shape (s.addAttributes attributes).2) h.grows
      fun a ha => by
        obtain ⟨b, hb, hab⟩ := List.mem_flatMap.mp ha
        exact h.between b hb a hab
    unfold Obj.toTree at hadd
    dsimp only at hadd
    rw [h.trees_eq] at hadd
    exact hadd

/-- Loaded items are written out as they were. -/
theorem loadsItems_addItems (s : Store) (items : List Tree) :
    LoadsItems s (s.addItems items).1 (s.addItems items).2 items :=
  match items with
  | [] => ⟨.refl s, rfl, fun a ha => by simp [addItems] at ha, .nil⟩
  | t :: ts => .cons (loads_addTree s t) (loadsItems_addItems (s.addTree t).1 ts)

/-- Loaded attributes are written out as they were. -/
theorem loadsAttributes_addAttributes (s : Store) (attributes : List (String × Tree)) :
    LoadsAttributes s (s.addAttributes attributes).1 (s.addAttributes attributes).2 attributes :=
  match attributes with
  | [] => ⟨.refl s, rfl, fun a ha => by simp [addAttributes] at ha,
      fun a ha => by simp [addAttributes] at ha⟩
  | (name, .list items) :: rest =>
    have h := loadsItems_addItems s items
    .cons h.grows (congrArg Tree.list h.trees_eq) h.between (fun b hb => by simp at hb)
      (loadsAttributes_addAttributes (s.addItems items).1 rest)
  | (_, .null) :: rest =>
    .cons_atom (loads_addTree s .null) (by simp)
      (loadsAttributes_addAttributes _ rest)
  | (_, .bool value) :: rest =>
    .cons_atom (loads_addTree s (.bool value)) (by simp)
      (loadsAttributes_addAttributes _ rest)
  | (_, .int value) :: rest =>
    .cons_atom (loads_addTree s (.int value)) (by simp)
      (loadsAttributes_addAttributes _ rest)
  | (_, .str value) :: rest =>
    .cons_atom (loads_addTree s (.str value)) (by simp)
      (loadsAttributes_addAttributes _ rest)
  | (_, .node shape attributes) :: rest =>
    .cons_atom (loads_addTree s (.node shape attributes)) (by simp)
      (loadsAttributes_addAttributes _ rest)

end

/-- A tree that is put into a store of its own is written out as it was. -/
theorem tree_ofTree (t : Tree) : (ofTree t).1.tree (ofTree t).2 = t :=
  (loads_addTree empty t).tree_eq

end NamedExports.Store

/-- A program that is given as a tree is written out as the tree. -/
theorem NamedExports.Program.tree_ofTree (t : Tree) : (Program.ofTree t).tree = t :=
  Store.tree_ofTree t
