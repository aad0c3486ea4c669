import NamedExports.Proofs.Program.Regular

/-!
# Syntax that is read in the same way

Only a part of a syntax tree goes into its program.  Whether anything is read at a node depends on
the role in which the conversion comes to it (`Syntax.Role`): the role says whether the text of the
node is read (`Role.reads`), and in which role the nodes below it are looked at, if they are looked
at at all (`Role.inside`).  Two nodes are alike in a role if they differ in what is not read, and in
comments (`Syntax.Alike`).  What a conversion looks up in a node, it finds in a node that is alike as
well, and what it finds there is alike again (`Alike.parts`, `Alike.child?`).
-/

namespace NamedExports

/-! ### Lists that pair up -/

section Paired

variable {α : Type} {R : α → α → Prop} {p : α → Bool} {as as' : List α}

/-- The first items with a property that pairs share pair up. -/
theorem rel_find?_of_forall₂ (h : List.Forall₂ R as as') (hp : ∀ a a', R a a' → p a = p a') :
    Option.Rel (fun a a' => R a a' ∧ p a = true) (as.find? p) (as'.find? p) := by
  induction h with
  | nil => exact .none
  | @cons a a' _ _ ha _ ih =>
    rw [List.find?_cons, List.find?_cons, ← hp a a' ha]
    cases hpa : p a with
    | true => exact .some ⟨ha, hpa⟩
    | false => exact ih

/-- The items with a property that pairs share pair up. -/
theorem forall₂_filter_of_forall₂ (h : List.Forall₂ R as as')
    (hp : ∀ a a', R a a' → p a = p a') :
    List.Forall₂ (fun a a' => R a a' ∧ p a = true) (as.filter p) (as'.filter p) := by
  induction h with
  | nil => exact .nil
  | @cons a a' _ _ ha _ ih =>
    rw [List.filter_cons, List.filter_cons, ← hp a a' ha]
    cases hpa : p a with
    | true => exact .cons ⟨ha, hpa⟩ ih
    | false => exact ih

end Paired

namespace Syntax

variable {n n' c : Syntax}

/-- What holds of a node as soon as it holds of all nodes directly below holds of every node. -/
theorem children_induction {motive : Syntax → Prop}
    (h : ∀ n, (∀ c ∈ n.children, motive c) → motive n) (n : Syntax) : motive n :=
  h n fun c _ => children_induction h c
termination_by sizeOf n
decreasing_by exact sizeOf_lt_of_mem_children ‹_›

/-! ### Roles -/

/-- A comment that hangs in no field. -/
def isComment (n : Syntax) : Bool :=
  n.named && n.kind == "comment" && n.field == none

/-- Whether a node in the place of a parameter says what its pattern is. -/
def isTypedParameter (n : Syntax) : Bool :=
  n.kind == "required_parameter" || n.kind == "optional_parameter"

/-- The roles in which the nodes of a module are looked at. -/
inductive Role where
  /-- The module. -/
  | program
  /-- A statement of the module. -/
  | statement
  /-- What stands directly in an export statement. -/
  | exported
  /-- What stands in an export clause. -/
  | clause
  /-- What stands in a specifier. -/
  | specifier
  /-- What stands in a namespace export. -/
  | name
  /-- What stands in a function declaration. -/
  | functionDeclaration
  /-- What stands in a variable declaration. -/
  | variableDeclaration
  /-- What stands in a declarator. -/
  | declarator
  /-- What stands in a parameter list. -/
  | parameter
  /-- What stands in a parameter that says what its pattern is. -/
  | typedParameter
  /-- A pattern. -/
  | pattern
  /-- An entry of an object pattern. -/
  | member
  /-- What stands in a property with a key and a value. -/
  | pair
  /-- What stands in a pattern or property with a default. -/
  | defaulted
  deriving DecidableEq, Repr

namespace Role

/-- The role of what stands in a pattern. -/
def insidePattern (n : Syntax) : Option Role :=
  match n.kind with
  | "object_pattern" => some member
  | "array_pattern" | "rest_pattern" => some pattern
  | "assignment_pattern" => some defaulted
  | _ => none

/-- The role of what stands in an entry of an object pattern. -/
def insideMember (n : Syntax) : Option Role :=
  match n.kind with
  | "pair_pattern" => some pair
  | "object_assignment_pattern" => some defaulted
  | "rest_pattern" => some pattern
  | _ => none

/-- The role of what stands in a declaration. -/
def insideDeclaration (n : Syntax) : Option Role :=
  if n.isFunction then some functionDeclaration
  else if n.isVariables then some variableDeclaration
  else none

/-- The role of what stands in a node of a role; there is none if nothing in the node is read. -/
def inside (n : Syntax) : Role → Option Role
  | program => some statement
  | statement =>
    if n.kind = "export_statement" ∧ n.namelessExport? = none then some exported else none
  | exported =>
    match n.kind with
    | "export_clause" => some clause
    | "namespace_export" => some name
    | _ => if n.field = some "declaration" then insideDeclaration n else none
  | clause => if n.kind = "export_specifier" then some specifier else none
  | specifier | name => none
  | functionDeclaration => if n.field = some "parameters" then some parameter else none
  | variableDeclaration => if n.kind = "variable_declarator" then some declarator else none
  | declarator => if n.field = some "name" then insidePattern n else none
  | parameter => if n.isTypedParameter then some typedParameter else insidePattern n
  | typedParameter => if n.field = some "pattern" then insidePattern n else none
  | pattern => insidePattern n
  | member => insideMember n
  | pair => if n.field = some "value" then insidePattern n else none
  | defaulted => if n.field = some "left" then insidePattern n else none

/-- Whether the text of a node of a role is read. -/
def reads (n : Syntax) : Role → Bool
  | program | statement | clause => false
  | exported => n.field = some "source"
  | specifier => n.field = some "name" ∨ n.field = some "alias"
  | name => true
  | functionDeclaration => n.field = some "name"
  | variableDeclaration => n.field = some "kind"
  | declarator => n.field = some "name" ∧ n.isName
  | parameter | pattern => n.isName
  | typedParameter => n.field = some "pattern" ∧ n.isName
  | member => n.kind = "shorthand_property_identifier_pattern"
  | pair =>
    n.field = some "value" ∧ n.isName ∨
      n.field = some "key" ∧ (n.kind = "property_identifier" ∨ n.kind = "string")
  | defaulted => n.field = some "left" ∧ n.isName

/-- A role of which the nodes in a field are patterns. -/
def HasPattern (role : Role) (field : String) : Prop :=
  ∀ n : Syntax, n.field = some field →
    role.inside n = insidePattern n ∧ role.reads n = n.isName

theorem hasPattern_declarator : declarator.HasPattern "name" := fun n hn => by
  simp [inside, reads, hn]

theorem hasPattern_typedParameter : typedParameter.HasPattern "pattern" := fun n hn => by
  simp [inside, reads, hn]

theorem hasPattern_pair : pair.HasPattern "value" := fun n hn => by
  simp [inside, reads, hn]

theorem hasPattern_defaulted : defaulted.HasPattern "left" := fun n hn => by
  simp [inside, reads, hn]

end Role

/-- In a node of a role, or in the node itself, a text that is read is not there. -/
inductive Unreadable : Role → Syntax → Prop where
  | itself {role : Role} {n : Syntax} (hreads : role.reads n = true) (htext : n.text = none) :
      Unreadable role n
  | within {role inner : Role} {n c : Syntax} (hinside : role.inside n = some inner)
      (hc : c ∈ n.children) (hcomment : c.isComment = false) (h : Unreadable inner c) :
      Unreadable role n

/-! ### Nodes that are alike -/

/-- Two nodes agree in everything but their text and what stands in them. -/
structure SameHead (n n' : Syntax) : Prop where
  kind : n.kind = n'.kind
  rows : n.rows = n'.rows
  named : n.named = n'.named
  field : n.field = n'.field

mutual

/-- Two nodes are alike in a role: they differ, besides in comments, only in texts that are not read
and in what stands in nodes of which the inside is not read.  Of an export statement the words by
which it is classified count as well. -/
inductive Alike : Role → Syntax → Syntax → Prop where
  | intro {role : Role} {n n' : Syntax} (hhead : n.SameHead n')
      (hclass : role = .statement → n.kind = "export_statement" →
        n.namelessExport? = n'.namelessExport?)
      (htext : role.reads n = true → n.text = n'.text)
      (hinside : ∀ inner, role.inside n = some inner →
        AlikeAll inner n.children n'.children) : Alike role n n'

/-- Lists of nodes that are alike one by one, comments left out. -/
inductive AlikeAll : Role → List Syntax → List Syntax → Prop where
  | nil {role : Role} : AlikeAll role [] []
  | left {role : Role} {c : Syntax} {cs cs' : List Syntax} (hc : c.isComment = true)
      (h : AlikeAll role cs cs') : AlikeAll role (c :: cs) cs'
  | right {role : Role} {c' : Syntax} {cs cs' : List Syntax} (hc : c'.isComment = true)
      (h : AlikeAll role cs cs') : AlikeAll role cs (c' :: cs')
  | cons {role : Role} {c c' : Syntax} {cs cs' : List Syntax} (hc : c.isComment = false)
      (hhead : Alike role c c') (h : AlikeAll role cs cs') : AlikeAll role (c :: cs) (c' :: cs')

end

namespace SameHead

theorem isName_eq (h : n.SameHead n') : n.isName = n'.isName := by
  simp only [isName, h.kind]

theorem lines_eq (h : n.SameHead n') : n.lines = n'.lines := by
  simp only [lines, h.rows]

theorem toPlain_eq (h : n.SameHead n') : n.toPlain = n'.toPlain := by
  simp only [toPlain, h.kind, h.lines_eq]

theorem isComment_eq (h : n.SameHead n') : n.isComment = n'.isComment := by
  simp only [isComment, h.kind, h.named, h.field]

theorem isPart_eq (h : n.SameHead n') :
    (n.named && n.kind != "comment") = (n'.named && n'.kind != "comment") := by
  rw [h.kind, h.named]

end SameHead

variable {role inner : Role}

namespace Alike

theorem head (h : Alike role n n') : n.SameHead n' := by
  cases h with
  | intro hhead => exact hhead

theorem text_eq (h : Alike role n n') (hreads : role.reads n = true) : n.text = n'.text := by
  cases h with
  | intro _ _ htext => exact htext hreads

theorem children (h : Alike role n n') (hinside : role.inside n = some inner) :
    AlikeAll inner n.children n'.children := by
  cases h with
  | intro _ _ _ hchildren => exact hchildren inner hinside

/-- Nodes are alike if they begin alike and nothing of them is read. -/
theorem of_unread (hhead : n.SameHead n') (hrole : role ≠ .statement)
    (hreads : role.reads n = false) (hinside : role.inside n = none) : Alike role n n' :=
  .intro hhead (fun h => absurd h hrole) (fun h => absurd h (by simp [hreads]))
    fun _ h => absurd h (by simp [hinside])

/-- Nodes are alike if they begin alike and what stands in them is alike. -/
theorem of_children (hhead : n.SameHead n') (hreads : role.reads n = false)
    (hclass : role = .statement → n.namelessExport? = n'.namelessExport?)
    (hinside : role.inside n = some inner) (h : AlikeAll inner n.children n'.children) :
    Alike role n n' :=
  .intro hhead (fun hrole _ => hclass hrole) (fun h => absurd h (by simp [hreads]))
    fun _ hinner => Option.some.inj (hinside.symm.trans hinner) ▸ h

theorem namelessExport?_eq (h : Alike .statement n n') (hkind : n.kind = "export_statement") :
    n.namelessExport? = n'.namelessExport? := by
  cases h with
  | intro _ hclass => exact hclass rfl hkind

/-- Nodes that are alike in a role are alike in any other role in which no more is read. -/
theorem of_role {role' : Role} (h : Alike role n n') (hrole : role' ≠ .statement)
    (hreads : role'.reads n = role.reads n) (hinside : role'.inside n = role.inside n) :
    Alike role' n n' :=
  .intro h.head (fun heq => absurd heq hrole) (fun hr => h.text_eq (hreads ▸ hr))
    fun _ hi => h.children (hinside ▸ hi)

end Alike

theorem Unreadable.of_role {role' : Role} (h : n.Unreadable role')
    (hreads : role'.reads n = role.reads n) (hinside : role'.inside n = role.inside n) :
    n.Unreadable role := by
  cases h with
  | itself hr htext => exact .itself (hreads ▸ hr) htext
  | within hi hc hcomment h => exact .within (hinside ▸ hi) hc hcomment h

/-- Children that are alike, comments left out, pair up. -/
theorem AlikeAll.forall₂ {cs cs' : List Syntax} : AlikeAll role cs cs' →
    List.Forall₂ (Alike role) (cs.filter fun c => !c.isComment) (cs'.filter fun c => !c.isComment)
  | .nil => .nil
  | .left hc h => by
    rw [List.filter_cons_of_neg (by simp [hc])]
    exact h.forall₂
  | .right hc h => by
    rw [List.filter_cons_of_neg (by simp [hc])]
    exact h.forall₂
  | .cons hc hhead h => by
    have hc' : _ = false := hhead.head.isComment_eq ▸ hc
    rw [List.filter_cons_of_pos (by simp [hc]), List.filter_cons_of_pos (by simp [hc'])]
    exact .cons hhead h.forall₂

/-- Comments can be put before nodes that are alike. -/
theorem AlikeAll.append {as as' cs cs' : List Syntax} (h : AlikeAll role cs cs')
    (has : ∀ c ∈ as, c.isComment = true) (has' : ∀ c ∈ as', c.isComment = true) :
    AlikeAll role (as ++ cs) (as' ++ cs') := by
  have hright : AlikeAll role cs (as' ++ cs') := by
    induction as' with
    | nil => exact h
    | cons c as' ih =>
      rw [List.forall_mem_cons] at has'
      exact .right has'.1 (ih has'.2)
  induction as with
  | nil => exact hright
  | cons c as ih =>
    rw [List.forall_mem_cons] at has
    exact .left has.1 (ih has.2)

/-- A node below a node of a role, and the node that it is alike to. -/
structure Counterpart (role inner : Role) (n c c' : Syntax) : Prop where
  inside : role.inside n = some inner
  mem : c ∈ n.children
  notComment : c.isComment = false
  alike : Alike inner c c'

namespace Alike

theorem counterparts (h : Alike role n n') (hinside : role.inside n = some inner) :
    List.Forall₂ (Counterpart role inner n)
      (n.children.filter fun c => !c.isComment) (n'.children.filter fun c => !c.isComment) := by
  have hmem : ∀ c ∈ n.children.filter fun c => !c.isComment,
      c ∈ n.children ∧ c.isComment = false := fun c hc => by
    simpa using List.mem_filter.mp hc
  exact ((List.forall₂_and_left _ _).mpr ⟨hmem, (h.children hinside).forall₂⟩).imp
    fun c c' hc => ⟨hinside, hc.1.1, hc.1.2, hc.2⟩

/-- The parts of nodes that are alike pair up. -/
theorem parts (h : Alike role n n') (hinside : role.inside n = some inner) :
    List.Forall₂ (Counterpart role inner n) n.parts n'.parts := by
  have hparts : ∀ m : Syntax, m.parts = (m.children.filter fun c => !c.isComment).filter
      fun c => c.named && c.kind != "comment" := by
    intro m
    rw [List.filter_filter]
    refine List.filter_congr fun c _ => ?_
    cases c.named <;> cases h : c.kind == "comment" <;> simp [isComment, bne, h]
  rw [hparts, hparts]
  exact (forall₂_filter_of_forall₂ (h.counterparts hinside)
    fun c c' hc => hc.alike.head.isPart_eq).imp fun c c' hc => hc.1

/-- The parts of a kind of nodes that are alike pair up. -/
theorem partsOfKind (h : Alike role n n') (hinside : role.inside n = some inner) (kind : String) :
    List.Forall₂ (fun c c' => Counterpart role inner n c c' ∧ c.kind = kind)
      (n.parts.filter fun c => c.kind == kind) (n'.parts.filter fun c => c.kind == kind) := by
  have hparts := forall₂_filter_of_forall₂ (p := fun c => c.kind == kind) (h.parts hinside)
    fun c c' hc => by rw [hc.alike.head.kind]
  simpa only [beq_iff_eq] using hparts

/-- The nodes in a field of nodes that are alike pair up. -/
theorem child? (h : Alike role n n') (hinside : role.inside n = some inner) (field : String) :
    Option.Rel (fun c c' => Counterpart role inner n c c' ∧ c.field = some field)
      (n.child? field) (n'.child? field) := by
  have hchild : ∀ m : Syntax, m.child? field =
      (m.children.filter fun c => !c.isComment).find? fun c => c.field == some field := by
    intro m
    rw [List.find?_filter]
    refine congrArg (fun p => List.find? p m.children) (funext fun c => ?_)
    cases hfield : c.field == some field with
    | true => simp [isComment, beq_iff_eq.mp hfield]
    | false => simp
  have hrel := rel_find?_of_forall₂ (p := fun c => c.field == some field)
    (h.counterparts hinside) fun c c' hc => by rw [hc.alike.head.field]
  rw [hchild, hchild]
  simpa only [beq_iff_eq] using hrel

/-- Whether a node of some kind stands directly in it is the same for nodes that are alike. -/
theorem any_eq (h : Alike role n n') (hinside : role.inside n = some inner) {p : Syntax → Bool}
    (hcomment : ∀ c, c.isComment = true → p c = false)
    (hp : ∀ c c', c.SameHead c' → p c = p c') : n.children.any p = n'.children.any p := by
  have hany : ∀ m : Syntax, m.children.any p =
      (m.children.filter fun c => !c.isComment).any p := by
    intro m
    rw [List.any_filter]
    refine congrArg (fun q => List.any m.children q) (funext fun c => ?_)
    cases hc : c.isComment with
    | true => simp [hcomment c hc]
    | false => simp
  rw [hany, hany]
  refine (any_of_forall₂ (h.counterparts hinside) fun c _ c' hc => ?_).symm
  exact (hp c c' hc.alike.head).symm

theorem hasToken_eq (h : Alike role n n') (hinside : role.inside n = some inner) (word : String) :
    n.hasToken word = n'.hasToken word :=
  h.any_eq hinside (fun c hc => by simp_all [isComment]) fun c c' hc => by
    rw [hc.named, hc.kind]

end Alike

/-- What only depends on how the node in a field begins is the same for nodes that are alike. -/
theorem Alike.child?_congr {β : Type} (h : Alike role n n') (hinside : role.inside n = some inner)
    {f : Option Syntax → β} (hf : ∀ c c', SameHead c c' → f (some c) = f (some c'))
    (field : String) : f (n.child? field) = f (n'.child? field) := by
  have hrel := h.child? hinside field
  generalize n.child? field = c?, n'.child? field = c?' at hrel ⊢
  cases hrel with
  | some hc => exact hf _ _ hc.1.alike.head
  | none => rfl

theorem Alike.toPlain?_eq (h : Alike role n n') (hinside : role.inside n = some inner)
    (field : String) : toPlain? (n.child? field) = toPlain? (n'.child? field) :=
  h.child?_congr hinside (fun _ _ hc => hc.toPlain_eq) field

theorem Alike.isComputed_eq (h : Alike role n n') (hinside : role.inside n = some inner)
    (field : String) : isComputed (n.child? field) = isComputed (n'.child? field) :=
  h.child?_congr hinside (fun _ _ hc => congrArg (· == _) hc.kind) field

theorem Alike.isTypeOnly_eq (h : Alike role n n') (hinside : role.inside n = some inner)
    (field : String) : isTypeOnly (n.child? field) = isTypeOnly (n'.child? field) :=
  h.child?_congr hinside (fun _ _ hc => congrArg (fun kind => kind == _ || kind == _) hc.kind) field

end Syntax

end NamedExports
