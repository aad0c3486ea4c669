import Mathlib.Algebra.GroupWithZero.Nat
import NamedExports.Proofs.Export.Patterns
import NamedExports.Proofs.Program.Conversion
import NamedExports.Proofs.Store.Written
import NamedExports.Text.Digits

/-!
# Regular trees

The trees that can be stripped have a form of their own (`Tree.Regular`): every object is a node of
its kind with the fields of the kind, lists hang in fields only, names and texts are texts, the
entries of object patterns are nodes, and nothing that hangs in the key of a property is a pattern.

Syntax is converted to trees of this form if no construct is called like a kind of the model and no
node has more children than can be numbered (`Syntax.Ordinary`).
-/

namespace NamedExports

/-- What the fields of a node of a kind hold. -/
def Kind.Takes (kind : Kind) (values : List Tree) : Prop :=
  values.length = kind.fields.length ∧
    match kind with
    | .identifier | .stringLiteral => ∃ text, values = [.str text]
    | .objectPattern => ∃ entries, values = [.list entries] ∧
        entries.length ≤ 10 ^ Text.maxDigits ∧ ∀ e ∈ entries, e.isNode = true
    | .objectProperty => ∃ key value shorthand computed,
        values = [key, value, .bool shorthand, .bool computed] ∧ key.patternsInField = []
    | _ => True

/-- A tree that syntax can be converted to. -/
inductive Tree.Regular : Tree → Prop where
  | null : Regular .null
  | bool (value : Bool) : Regular (.bool value)
  | int (value : Int) : Regular (.int value)
  | str (value : String) : Regular (.str value)
  | list {items : List Tree} (hflat : ∀ t ∈ items, ∀ ts, t ≠ .list ts)
      (hitems : ∀ t ∈ items, Regular t) : Regular (.list items)
  | plain {type : String} (lines : Lines) (htype : Kind.ofName? type = none) :
      Regular (.plain type lines)
  | modelled {kind : Kind} (lines : Lines) {values : List Tree} (htakes : kind.Takes values)
      (hvalues : ∀ v ∈ values, Regular v) : Regular (.modelled kind lines values)

namespace Tree

variable {t : Tree}

/-- A regular tree that says it is of a kind is a node of the kind. -/
theorem Regular.exists_of_hasType (h : t.Regular) (kind : Kind)
    (htype : t.hasType kind.name = true) : ∃ lines values, t = Tree.modelled kind lines values ∧
      kind.Takes values ∧ ∀ v ∈ values, v.Regular := by
  cases h with
  | null => exact absurd htype (by simp [hasType, get, attr?, isText])
  | bool value => exact absurd htype (by simp [hasType, get, attr?, isText])
  | int value => exact absurd htype (by simp [hasType, get, attr?, isText])
  | str value => exact absurd htype (by simp [hasType, get, attr?, isText])
  | list hflat hitems => exact absurd htype (by simp [hasType, get, attr?, isText])
  | plain lines hplain =>
    rw [hasType_plain hplain] at htype
    exact absurd htype (by decide)
  | @modelled kind' lines values htakes hvalues =>
    rw [hasType_modelled, decide_eq_true_eq] at htype
    subst htype
    exact ⟨lines, values, rfl, htakes, hvalues⟩

/-- A regular object is a node, either plain or of a kind. -/
theorem Regular.node_cases {shape : Shape} {attributes : List (String × Tree)}
    (h : (Tree.node shape attributes).Regular) :
    (shape = .plain ∧ ∃ type lines, attributes = header type lines ∧
      Kind.ofName? type = none) ∨
    (∃ kind lines values, shape = .modelled kind ∧
      attributes = header kind.name lines ++ kind.fields.zip values ∧ kind.Takes values ∧
      ∀ v ∈ values, v.Regular) := by
  generalize ht : Tree.node shape attributes = t at h
  cases h with
  | @plain type lines htype =>
    cases ht
    exact Or.inl ⟨rfl, type, lines, rfl, htype⟩
  | @modelled kind lines values htakes hvalues =>
    cases ht
    exact Or.inr ⟨kind, lines, values, rfl, rfl, htakes, hvalues⟩
  | _ => cases ht

/-- The attributes of a regular object are regular. -/
theorem Regular.of_mem_attributes {shape : Shape} {attributes : List (String × Tree)}
    (h : (Tree.node shape attributes).Regular) : ∀ a ∈ attributes, a.2.Regular := by
  have hheader : ∀ {type lines}, ∀ a ∈ header type lines, a.2.Regular := by
    intro type lines a ha
    simp only [header, List.mem_cons, List.not_mem_nil, or_false] at ha
    rcases ha with rfl | rfl | rfl
    · exact .str type
    · exact .int _
    · exact .int _
  rcases h.node_cases with ⟨-, type, lines, rfl, -⟩ | ⟨kind, lines, values, -, rfl, -, hvalues⟩
  · exact hheader
  · intro a ha
    rcases List.mem_append.mp ha with hmem | hmem
    · exact hheader a hmem
    · exact hvalues a.2 (List.of_mem_zip hmem).2

/-- What an attribute of a regular tree holds is regular. -/
theorem Regular.of_attr? (h : t.Regular) {name : String} {v : Tree}
    (hv : t.attr? name = some v) : v.Regular := by
  cases t with
  | node shape attributes => exact h.of_mem_attributes _ (mem_of_lookup hv)
  | _ => simp [attr?] at hv

/-- The items of a regular list are regular and no lists. -/
theorem Regular.of_list {items : List Tree} (h : (Tree.list items).Regular) :
    ∀ e ∈ items, e.Regular ∧ ∀ ts, e ≠ Tree.list ts := by
  cases h with
  | list hflat hitems => exact fun e he => ⟨hitems e he, hflat e he⟩

/-- A regular identifier has a text as its name. -/
theorem Regular.exists_of_identifier (h : t.Regular)
    (htype : t.hasType "Identifier" = true) :
    ∃ lines text, t = Tree.modelled .identifier lines [Tree.str text] := by
  obtain ⟨lines, values, rfl, ⟨-, text, rfl⟩, -⟩ :=
    h.exists_of_hasType .identifier htype
  exact ⟨lines, text, rfl⟩

/-- A regular string literal has a text as its value. -/
theorem Regular.exists_of_stringLiteral (h : t.Regular)
    (htype : t.hasType "StringLiteral" = true) :
    ∃ lines text, t = Tree.modelled .stringLiteral lines [Tree.str text] := by
  obtain ⟨lines, values, rfl, ⟨-, text, rfl⟩, -⟩ :=
    h.exists_of_hasType .stringLiteral htype
  exact ⟨lines, text, rfl⟩

end Tree

namespace Syntax

/-- Something holds of a node and of all nodes below it. -/
inductive Everywhere (P : Syntax → Prop) : Syntax → Prop where
  | intro {n : Syntax} (here : P n) (below : ∀ c ∈ n.children, Everywhere P c) : Everywhere P n

/-- A node whose construct is not called like a kind of the model, and that has no more children
than can be numbered. -/
structure Ordinary (n : Syntax) : Prop where
  kind_eq_none : Kind.ofName? n.kind = none
  length_le : n.children.length ≤ 10 ^ Text.maxDigits

variable {n : Syntax} {t : Tree} {P : Syntax → Prop}

theorem Everywhere.here (h : n.Everywhere P) : P n := by
  cases h with
  | intro here below => exact here

theorem Everywhere.of_mem_children (h : n.Everywhere P) {c : Syntax} (hc : c ∈ n.children) :
    c.Everywhere P := by
  cases h with
  | intro here below => exact below c hc

theorem Everywhere.imp {Q : Syntax → Prop} (h : n.Everywhere P) (hPQ : ∀ c, P c → Q c) :
    n.Everywhere Q := by
  induction h with
  | intro here _ ih => exact .intro (hPQ _ here) ih

theorem Everywhere.and {Q : Syntax → Prop} (h : n.Everywhere P) (h' : n.Everywhere Q) :
    n.Everywhere fun c => P c ∧ Q c := by
  induction h with
  | intro here _ ih => exact .intro ⟨here, h'.here⟩ fun c hc => ih c hc (h'.of_mem_children hc)

instance (n : Syntax) : Decidable n.Ordinary :=
  decidable_of_iff (Kind.ofName? n.kind = none ∧ n.children.length ≤ 10 ^ Text.maxDigits)
    ⟨fun h => ⟨h.1, h.2⟩, fun h => ⟨h.1, h.2⟩⟩

theorem everywhere_iff {P : Syntax → Prop} {n : Syntax} :
    n.Everywhere P ↔ P n ∧ ∀ c ∈ n.children, c.Everywhere P :=
  ⟨fun h => ⟨h.here, fun _ hc => h.of_mem_children hc⟩, fun h => .intro h.1 h.2⟩

mutual

/-- Whether something holds of a node and of all nodes below it. -/
def decideEverywhere (P : Syntax → Prop) [DecidablePred P] :
    (n : Syntax) → Decidable (n.Everywhere P)
  | .node kind rows named field text cs =>
    have := decideAll P cs
    decidable_of_iff (P (.node kind rows named field text cs) ∧ ∀ c ∈ cs, c.Everywhere P)
      everywhere_iff.symm

/-- Whether something holds of some nodes and of all nodes below them. -/
def decideAll (P : Syntax → Prop) [DecidablePred P] :
    (cs : List Syntax) → Decidable (∀ c ∈ cs, c.Everywhere P)
  | [] => isTrue (by simp)
  | c :: cs =>
    have := decideEverywhere P c
    have := decideAll P cs
    decidable_of_iff (c.Everywhere P ∧ ∀ c ∈ cs, c.Everywhere P) List.forall_mem_cons.symm

end

instance (P : Syntax → Prop) [DecidablePred P] : DecidablePred (Everywhere P) :=
  decideEverywhere P

theorem mem_children_of_mem_parts {c : Syntax} (h : c ∈ n.parts) : c ∈ n.children :=
  (List.mem_filter.mp h).1

theorem mem_children_of_child? {c : Syntax} {field : String} (h : n.child? field = some c) :
    c ∈ n.children :=
  List.mem_of_find?_eq_some h

theorem Everywhere.of_mem_parts (h : n.Everywhere P) {c : Syntax} (hc : c ∈ n.parts) :
    c.Everywhere P :=
  h.of_mem_children (mem_children_of_mem_parts hc)

theorem Everywhere.of_child? (h : n.Everywhere P) {c : Syntax} {field : String}
    (hc : n.child? field = some c) : c.Everywhere P :=
  h.of_mem_children (mem_children_of_child? hc)

/-! ### Nodes -/

/-- A regular tree that is a node, as any part of syntax is converted to. -/
def IsRegularNode (t : Tree) : Prop :=
  t.Regular ∧ t.isNode = true

theorem IsRegularNode.ne_list {ts : List Tree} (h : IsRegularNode t) : t ≠ .list ts := by
  rintro rfl
  exact absurd h.2 (by simp [Tree.isNode])

theorem regular_list {ts : List Tree} (h : ∀ t ∈ ts, IsRegularNode t) : (Tree.list ts).Regular :=
  .list (fun t ht _ => (h t ht).ne_list) fun t ht => (h t ht).1

/-- A node whose one field is a list of nodes. -/
theorem isRegularNode_ofList {kind : Kind} {lines : Tree.Lines} {ts : List Tree}
    (htakes : kind.Takes [.list ts]) (h : ∀ t ∈ ts, IsRegularNode t) :
    IsRegularNode (.modelled kind lines [.list ts]) := by
  refine ⟨.modelled lines htakes fun v hv => ?_, rfl⟩
  rw [List.mem_singleton.mp hv]
  exact regular_list h

end Syntax

end NamedExports
