import NamedExports.Proofs.Program.Building

/-!
# The names that patterns bind

A pattern binds names.  They can be read off the syntax (`Syntax.bindingNames`), and off the nodes
that the syntax is converted to (`Tree.boundNames`).  The conversion goes over the entries of object
patterns by another table than over patterns, wraps defaults, keeps keys and lets parts be missing;
through all of this no name is lost, doubled or taken from a key, at any depth
(`Syntax.boundNames_of_conversion`).

Names and conversion are compared by `Built.Gives`, function by function: what a conversion gives
binds the names that the syntax says, and it gives something if the texts can be read.  Nothing is
asked of the kinds of the constructs.
-/

namespace NamedExports

open Kind

/-! ### Names in nodes -/

/-- The field of a node by which it binds names; the name of an identifier is no field of this
sort. -/
def Kind.bindingField? : Kind → Option String
  | restElement => some "argument"
  | assignmentPattern => some "left"
  | arrayPattern => some "elements"
  | objectProperty => some "value"
  | objectPattern => some "properties"
  | _ => none

namespace Tree

mutual

/-- The names that a value binds, in order: an identifier its name, any other pattern those in the
field by which it binds names, a list those of its items. -/
def boundNames : Tree → List String
  | list items => boundNamesOfItems items
  | node (.modelled kind) attributes =>
    if kind = .identifier then
      match attributes.lookup "name" with
      | some (str name) => [name]
      | _ => []
    else boundNamesOfField kind.bindingField? attributes
  | _ => []

/-- The names that the items of a list bind. -/
def boundNamesOfItems : List Tree → List String
  | [] => []
  | t :: ts => boundNames t ++ boundNamesOfItems ts

/-- The names that are bound in one of some attributes. -/
def boundNamesOfField (field? : Option String) : List (String × Tree) → List String
  | [] => []
  | (name, t) :: rest =>
    if some name = field? then boundNames t else boundNamesOfField field? rest

end

variable {lines : Lines} {t u : Tree} {ts : List Tree}

theorem boundNames_list : (list ts).boundNames = ts.flatMap boundNames := by
  show boundNamesOfItems ts = _
  induction ts with
  | nil => rfl
  | cons t ts ih => rw [boundNamesOfItems, ih, List.flatMap_cons]

@[simp] theorem boundNames_null : null.boundNames = [] := rfl

@[simp] theorem boundNames_plain {type : String} : (plain type lines).boundNames = [] := rfl

@[simp] theorem boundNames_identifier {name : String} :
    (modelled .identifier lines [str name]).boundNames = [name] := rfl

@[simp] theorem boundNames_rest : (modelled .restElement lines [t]).boundNames = t.boundNames := rfl

@[simp] theorem boundNames_property {key : Tree} {shorthand computed : Bool} :
    (modelled .objectProperty lines [key, t, bool shorthand, bool computed]).boundNames =
      t.boundNames := rfl

@[simp] theorem boundNames_assignment :
    (modelled .assignmentPattern lines [t, u]).boundNames = t.boundNames := rfl

@[simp] theorem boundNames_array :
    (modelled .arrayPattern lines [list ts]).boundNames = ts.flatMap boundNames :=
  boundNames_list

@[simp] theorem boundNames_object :
    (modelled .objectPattern lines [list ts]).boundNames = ts.flatMap boundNames :=
  boundNames_list

end Tree

namespace Syntax

/-! ### Names in syntax -/

mutual

/-- The names that a node binds in the place of a pattern, in order. -/
def bindingNames (n : Syntax) : List String :=
  match n.kind with
  | "identifier" | "shorthand_property_identifier_pattern" => n.text.toList
  | "array_pattern" => n.parts.attach.flatMap fun c =>
    have := sizeOf_lt_of_mem_parts c.2
    c.1.bindingNames
  | "object_pattern" => n.parts.attach.flatMap fun c =>
    have := sizeOf_lt_of_mem_parts c.2
    c.1.memberNames
  | "assignment_pattern" =>
    match h : n.child? "left" with
    | some c =>
      have := sizeOf_lt_of_child? h
      c.bindingNames
    | none => []
  | "rest_pattern" =>
    match h : n.parts with
    | c :: _ =>
      have := sizeOf_lt_of_mem_parts (h ▸ List.mem_cons_self : c ∈ n.parts)
      c.bindingNames
    | [] => []
  | _ => []
termination_by (sizeOf n, 0)
decreasing_by
  all_goals exact Prod.Lex.left _ _ this

/-- The names that a node binds in the place of an entry of an object pattern, in order: a property
those of its value, never that of its key. -/
def memberNames (n : Syntax) : List String :=
  match n.kind with
  | "pair_pattern" =>
    match h : n.child? "value" with
    | some c =>
      have := sizeOf_lt_of_child? h
      c.bindingNames
    | none => []
  | "object_assignment_pattern" =>
    match h : n.child? "left" with
    | some c =>
      have := sizeOf_lt_of_child? h
      c.bindingNames
    | none => []
  | "shorthand_property_identifier_pattern" => n.text.toList
  | "rest_pattern" => n.bindingNames
  | _ => []
termination_by (sizeOf n, 1)
decreasing_by
  all_goals first
    | exact Prod.Lex.left _ _ this
    | exact Prod.Lex.right _ Nat.zero_lt_one

end

/-- The names of a pattern that may be missing. -/
def bindingNames? (n? : Option Syntax) : List String :=
  n?.toList.flatMap bindingNames

/-- The names that a parameter binds: those of its pattern. -/
def parameterNames (n : Syntax) : List String :=
  if n.kind = "required_parameter" ∨ n.kind = "optional_parameter" then
    bindingNames? (n.child? "pattern")
  else n.bindingNames

variable {readable : Prop} {n : Syntax} {n? : Option Syntax}

theorem bindingNames_of_isName (h : n.isName = true) : n.bindingNames = n.text.toList := by
  unfold bindingNames
  rcases (Bool.or_eq_true _ _).mp h with hkind | hkind <;>
  · rw [beq_iff_eq] at hkind
    simp only [hkind]

theorem bindingNames_array (h : n.kind = "array_pattern") :
    n.bindingNames = n.parts.flatMap bindingNames := by
  unfold bindingNames
  simp only [h]
  rw [List.flatMap_def, List.attach_map_val, ← List.flatMap_def]

theorem bindingNames_object (h : n.kind = "object_pattern") :
    n.bindingNames = n.parts.flatMap memberNames := by
  unfold bindingNames
  simp only [h]
  rw [List.flatMap_def, List.attach_map_val, ← List.flatMap_def]

theorem bindingNames_assignment (h : n.kind = "assignment_pattern") :
    n.bindingNames = bindingNames? (n.child? "left") := by
  unfold bindingNames
  simp only [h]
  split <;> rename_i heq <;> rw [heq] <;> simp [bindingNames?]

theorem bindingNames_rest (h : n.kind = "rest_pattern") :
    n.bindingNames = bindingNames? n.parts.head? := by
  unfold bindingNames
  simp only [h]
  split <;> rename_i heq <;> rw [heq] <;> simp [bindingNames?]

theorem bindingNames_other (hname : n.isName = false) (h : n.kind ∉ nestedKinds) :
    n.bindingNames = [] := by
  unfold bindingNames
  split <;> simp_all [isName, nestedKinds]

theorem memberNames_pair (h : n.kind = "pair_pattern") :
    n.memberNames = bindingNames? (n.child? "value") := by
  unfold memberNames
  simp only [h]
  split <;> rename_i heq <;> rw [heq] <;> simp [bindingNames?]

theorem memberNames_defaulted (h : n.kind = "object_assignment_pattern") :
    n.memberNames = bindingNames? (n.child? "left") := by
  unfold memberNames
  simp only [h]
  split <;> rename_i heq <;> rw [heq] <;> simp [bindingNames?]

theorem memberNames_shorthand (h : n.kind = "shorthand_property_identifier_pattern") :
    n.memberNames = n.text.toList := by
  unfold memberNames
  simp only [h]

theorem memberNames_rest (h : n.kind = "rest_pattern") : n.memberNames = n.bindingNames := by
  unfold memberNames
  simp only [h]

theorem memberNames_other (h : n.kind ∉ memberKinds) : n.memberNames = [] := by
  unfold memberNames
  split <;> simp_all [memberKinds]

/-! ### Names and conversion -/

/-- Lists of which every item is converted to something that binds its names. -/
theorem gives_flatMap {f : Syntax → Built Tree} {names : Syntax → List String} {cs : List Syntax}
    (h : ∀ c ∈ cs, (f c).Gives readable fun t => t.boundNames = names c) :
    (cs.mapM f).Gives readable fun ts => ts.flatMap Tree.boundNames = cs.flatMap names := by
  induction cs with
  | nil => exact .pure rfl
  | cons c cs ih =>
    rw [List.mapM_cons]
    refine (h c List.mem_cons_self).bind fun t ht => ?_
    refine (ih fun c' hc' => h c' (List.mem_cons_of_mem _ hc')).bind fun ts hts => .pure ?_
    rw [List.flatMap_cons, List.flatMap_cons, ht, hts]

/-- A text is read if all texts can be, and it is the text of the node. -/
theorem gives_text (hn : readable → n.text.isSome = true) :
    n.readText.Gives readable fun text => n.text = some text := by
  refine ⟨fun text h => readText_eq_ok.mp h, fun hreadable => ?_⟩
  obtain ⟨text, htext⟩ := Option.isSome_iff_exists.mp (hn hreadable)
  exact ⟨text, readText_eq_ok.mpr htext⟩

/-- An identifier binds the text of the node. -/
theorem gives_boundNames_identifier (hn : readable → n.text.isSome = true) :
    n.toIdentifier.Gives readable fun t => t.boundNames = n.text.toList :=
  (gives_text hn).bind fun text htext => .pure (by rw [htext]; rfl)

/-- A key is converted, whatever names stand in it. -/
theorem gives_key (hn : ∀ c, n? = some c → readable → c.text.isSome = true) :
    (toKey? n?).Gives readable fun _ => True := by
  cases n? with
  | none => exact .pure trivial
  | some c =>
    show c.toKey.Gives readable _
    unfold toKey
    split
    · exact (gives_text (hn c rfl)).bind fun _ _ => .pure trivial
    · exact (gives_text (hn c rfl)).bind fun _ _ => .pure trivial
    · exact .pure trivial

/-- So is the key of a property with a default. -/
theorem gives_defaultedKey (hn : ∀ c, n? = some c → readable → c.text.isSome = true) :
    (toDefaultedKey n n?).Gives readable fun _ => True := by
  cases n? with
  | none => exact .pure trivial
  | some c =>
    unfold toDefaultedKey
    dsimp only
    split
    · exact (gives_text (hn c rfl)).bind fun _ _ => .pure trivial
    · exact .pure trivial

/-- A pattern that may be missing binds its names if the pattern does. -/
theorem gives_boundNames?
    (h : ∀ c, n? = some c → c.toPattern.Gives readable fun t => t.boundNames = c.bindingNames) :
    (toPattern? n?).Gives readable fun t => t.boundNames = bindingNames? n? := by
  cases n? with
  | none => exact .pure rfl
  | some c =>
    refine (h c rfl).imp fun t ht => ?_
    rw [ht]
    simp [bindingNames?]

/-- A pattern with a default binds the names of the pattern. -/
theorem boundNames_defaulted (lines : Tree.Lines) (left : Tree) (right : Option Syntax) :
    (defaulted lines left right).boundNames = left.boundNames :=
  Tree.boundNames_assignment

/-- A pattern binds its names if the patterns and entries below it do. -/
theorem gives_bindingNames_step (hn : readable → n.text.isSome = true)
    (hpattern : ∀ c ∈ n.children, c.toPattern.Gives readable fun t => t.boundNames = c.bindingNames)
    (hmember : ∀ c ∈ n.children, c.toMember.Gives readable fun t => t.boundNames = c.memberNames) :
    n.toPattern.Gives readable fun t => t.boundNames = n.bindingNames := by
  cases hname : n.isName with
  | true =>
    rw [toPattern_of_isName hname, bindingNames_of_isName hname]
    exact gives_boundNames_identifier hn
  | false =>
    by_cases hobject : n.kind = "object_pattern"
    · rw [toPattern_object hobject, bindingNames_object hobject]
      refine (gives_flatMap fun c hc => hmember c (mem_children_of_mem_parts hc)).bind
        fun entries hentries => .pure ?_
      rw [Tree.boundNames_object, hentries]
    by_cases harray : n.kind = "array_pattern"
    · rw [toPattern_array harray, bindingNames_array harray]
      refine (gives_flatMap fun c hc => hpattern c (mem_children_of_mem_parts hc)).bind
        fun elements helements => .pure ?_
      rw [Tree.boundNames_array, helements]
    by_cases hassignment : n.kind = "assignment_pattern"
    · rw [toPattern_assignment hassignment, bindingNames_assignment hassignment]
      refine (gives_boundNames? fun c hc => hpattern c (mem_children_of_child? hc)).bind
        fun left hleft => .pure ?_
      rw [boundNames_defaulted, hleft]
    by_cases hrest : n.kind = "rest_pattern"
    · rw [toPattern_rest hrest, bindingNames_rest hrest]
      refine (gives_boundNames? fun c hc =>
        hpattern c (mem_children_of_mem_parts (List.mem_of_head? hc))).bind
          fun argument hargument => .pure ?_
      rw [Tree.boundNames_rest, hargument]
    have hkind : n.kind ∉ nestedKinds := by
      simp [nestedKinds, hobject, harray, hassignment, hrest]
    rw [toPattern_other hname hkind, bindingNames_other hname hkind]
    exact .pure rfl

/-- An entry of an object pattern binds its names if the patterns below it, and the entry as a
pattern, do. -/
theorem gives_memberNames_step (hn : readable → n.text.isSome = true)
    (hchildren : ∀ c ∈ n.children, readable → c.text.isSome = true)
    (hpattern : ∀ c ∈ n.children, c.toPattern.Gives readable fun t => t.boundNames = c.bindingNames)
    (hself : n.toPattern.Gives readable fun t => t.boundNames = n.bindingNames) :
    n.toMember.Gives readable fun t => t.boundNames = n.memberNames := by
  have hchild : ∀ field c, n.child? field = some c → readable → c.text.isSome = true :=
    fun field c hc => hchildren c (mem_children_of_child? hc)
  have hpattern? : ∀ field, (toPattern? (n.child? field)).Gives readable
      fun t => t.boundNames = bindingNames? (n.child? field) := fun field =>
    gives_boundNames? fun c hc => hpattern c (mem_children_of_child? hc)
  by_cases hpair : n.kind = "pair_pattern"
  · rw [toMember_pair hpair, memberNames_pair hpair]
    refine (hpattern? "value").bind fun value hvalue =>
      (gives_key (hchild "key")).bind fun key _ => .pure ?_
    rw [Tree.boundNames_property, hvalue]
  by_cases hshorthand : n.kind = "shorthand_property_identifier_pattern"
  · rw [toMember_shorthand hshorthand, memberNames_shorthand hshorthand]
    refine (gives_boundNames_identifier hn).bind fun key _ =>
      (gives_boundNames_identifier hn).bind fun value hvalue => .pure ?_
    rw [Tree.boundNames_property, hvalue]
  by_cases hdefaulted : n.kind = "object_assignment_pattern"
  · rw [toMember_defaulted hdefaulted, memberNames_defaulted hdefaulted]
    refine (gives_defaultedKey (hchild "left")).bind fun key _ =>
      (hpattern? "left").bind fun left hleft => .pure ?_
    rw [Tree.boundNames_property, boundNames_defaulted, hleft]
  by_cases hrest : n.kind = "rest_pattern"
  · rw [toMember_rest hrest, memberNames_rest hrest]
    exact hself
  have hkind : n.kind ∉ memberKinds := by
    simp [memberKinds, hpair, hshorthand, hdefaulted, hrest]
  rw [toMember_other hkind, memberNames_other hkind]
  exact .pure rfl

/-- Patterns and entries of object patterns bind their names. -/
theorem gives_names (hn : n.Everywhere fun c => readable → c.text.isSome = true) :
    (n.toPattern.Gives readable fun t => t.boundNames = n.bindingNames) ∧
      n.toMember.Gives readable fun t => t.boundNames = n.memberNames := by
  induction hn with
  | @intro n here below ih =>
    have hpattern := gives_bindingNames_step here (fun c hc => (ih c hc).1) fun c hc => (ih c hc).2
    exact ⟨hpattern, gives_memberNames_step here (fun c hc => (below c hc).here)
      (fun c hc => (ih c hc).1) hpattern⟩

/-- A parameter binds the names of its pattern. -/
theorem gives_parameterNames (hn : n.Everywhere fun c => readable → c.text.isSome = true) :
    n.toParameter.Gives readable fun t => t.boundNames = n.parameterNames := by
  unfold toParameter parameterNames
  split
  · refine (gives_boundNames? fun c hc => (gives_names (hn.of_child? hc)).1).bind
      fun pattern hpattern => ?_
    cases n.child? "value" with
    | none => exact .pure hpattern
    | some value =>
      refine .pure ?_
      rw [boundNames_defaulted, hpattern]
  · exact (gives_names hn).1

/-- No name is lost when patterns are converted.  If all texts in a piece of syntax can be read, it
can be converted as a pattern, as the parameters of a function and as a declarator.  The pattern,
the parameters and what the declarator binds then bind the names that the syntax says, in their
order and as often. -/
theorem boundNames_of_conversion (hn : n.Everywhere fun c => c.text.isSome = true) :
    (∃ t, n.toPattern = .ok t ∧ t.boundNames = n.bindingNames) ∧
      (∃ ts, n.toParameters = .ok ts ∧
        ts.flatMap Tree.boundNames = n.parts.flatMap parameterNames) ∧
      ∃ t, n.toDeclarator = .ok t ∧
        (t.get "id").boundNames = bindingNames? (n.child? "name") := by
  have hreadable : n.Everywhere fun c => True → c.text.isSome = true := hn.imp fun _ hc _ => hc
  have hpattern := (gives_names hreadable).1
  have hparameters : n.toParameters.Gives True fun ts =>
      ts.flatMap Tree.boundNames = n.parts.flatMap parameterNames :=
    gives_flatMap fun c hc => gives_parameterNames (hreadable.of_mem_parts hc)
  have hdeclarator : n.toDeclarator.Gives True fun t =>
      (t.get "id").boundNames = bindingNames? (n.child? "name") :=
    (gives_boundNames? fun c hc => (gives_names (hreadable.of_child? hc)).1).bind
      fun binding hbinding => .pure hbinding
  obtain ⟨t, ht⟩ := hpattern.total trivial
  obtain ⟨ts, hts⟩ := hparameters.total trivial
  obtain ⟨d, hd⟩ := hdeclarator.total trivial
  exact ⟨⟨t, ht, hpattern.sort t ht⟩, ⟨ts, hts, hparameters.sort ts hts⟩,
    d, hd, hdeclarator.sort d hd⟩

/-- A named piece of syntax with some text. -/
def worded (kind : String) (field : Option String) (text : String) (children : List Syntax) :
    Syntax :=
  .node kind ⟨0, 0⟩ true field (some text) children

/-- The pattern `[x, ...y]`, by which a property is taken apart. -/
def nestedArray : Syntax :=
  worded "array_pattern" (some "value") "[x, ...y]"
    [worded "identifier" none "x" [],
      worded "rest_pattern" none "...y" [worded "identifier" none "y" []]]

/-- The pattern `{ k: [x, ...y], z = 1, ...r }`. -/
def nestedPattern : Syntax :=
  worded "object_pattern" (some "pattern") "{ k: [x, ...y], z = 1, ...r }"
    [worded "pair_pattern" none "k: [x, ...y]"
      [worded "property_identifier" (some "key") "k" [], nestedArray],
      worded "object_assignment_pattern" none "z = 1"
        [worded "shorthand_property_identifier_pattern" (some "left") "z" [],
          worded "number" (some "right") "1" []],
      worded "rest_pattern" none "...r" [worded "identifier" none "r" []]]

/-- The parameters `({ k: [x, ...y], z = 1, ...r }, x)`. -/
def nestedParameters : Syntax :=
  worded "formal_parameters" none "({ k: [x, ...y], z = 1, ...r }, x)"
    [worded "required_parameter" none "{ k: [x, ...y], z = 1, ...r }" [nestedPattern],
      worded "required_parameter" none "x" [worded "identifier" (some "pattern") "x" []]]

theorem bindingNames_worded (field : Option String) (text : String) :
    (worded "identifier" field text []).bindingNames = [text] :=
  bindingNames_of_isName rfl

theorem bindingNames_worded_rest (text name : String) :
    (worded "rest_pattern" none text [worded "identifier" none name []]).bindingNames = [name] := by
  rw [bindingNames_rest rfl]
  show (worded "identifier" none name []).bindingNames ++ [] = _
  rw [bindingNames_worded]
  rfl

theorem bindingNames_nestedArray : nestedArray.bindingNames = ["x", "y"] := by
  rw [nestedArray, bindingNames_array rfl]
  show bindingNames _ ++ (bindingNames _ ++ []) = _
  rw [bindingNames_worded, bindingNames_worded_rest]
  rfl

theorem bindingNames_nestedPattern : nestedPattern.bindingNames = ["x", "y", "z", "r"] := by
  rw [nestedPattern, bindingNames_object rfl]
  show memberNames _ ++ (memberNames _ ++ (memberNames _ ++ [])) = _
  rw [memberNames_pair rfl, memberNames_defaulted rfl, memberNames_rest rfl]
  show (nestedArray.bindingNames ++ []) ++ ((bindingNames _ ++ []) ++ (bindingNames _ ++ [])) = _
  rw [bindingNames_nestedArray, bindingNames_of_isName rfl, bindingNames_worded_rest]
  rfl

/-- The parameters bind these names in this order, the repeated one twice. -/
theorem boundNames_of_conversion_nestedParameters :
    (nestedParameters.Everywhere fun c => c.text.isSome = true) ∧
      ∃ ts, nestedParameters.toParameters = .ok ts ∧
        ts.flatMap Tree.boundNames = ["x", "y", "z", "r", "x"] := by
  have htexts : nestedParameters.Everywhere fun c => c.text.isSome = true := by decide +kernel
  obtain ⟨-, ⟨ts, hts, hnames⟩, -⟩ := boundNames_of_conversion htexts
  refine ⟨htexts, ts, hts, hnames.trans ?_⟩
  show (nestedPattern.bindingNames ++ []) ++ ((bindingNames _ ++ []) ++ []) = _
  rw [bindingNames_nestedPattern, bindingNames_worded]
  rfl

end Syntax

end NamedExports
