import NamedExports.Proofs.Program.Alike
import NamedExports.Proofs.Program.Building
import NamedExports.Program.Stored

/-!
# What a program is read from

Modules that are alike have the same program, or none of them has one, and then some text that is
read is not there (`Module.program_of_alike`).  So neither comments nor texts that are no valid
UTF-8, where nothing is read, make a difference.  Each conversion gives the same for nodes that are
alike, from the outcomes for the nodes below (`Built.Agree`).
-/

namespace NamedExports

/-! ### Outcomes that agree -/

/-- Two outcomes are the same, and it is known what is to blame if they are a fault. -/
structure Built.Agree {α : Type} (blame : Prop) (x x' : Built α) : Prop where
  eq : x = x'
  blame : x = .error .notText → blame

namespace Built.Agree

variable {α β : Type} {blame blame' : Prop} {x x' : Built α}

theorem pure (a : α) : Agree blame (Pure.pure a) (Pure.pure a) :=
  ⟨rfl, fun h => nomatch h⟩

theorem imp (h : Agree blame x x') (hblame : blame → blame') : Agree blame' x x' :=
  ⟨h.eq, fun hx => hblame (h.blame hx)⟩

theorem bind {f f' : α → Built β} (h : Agree blame x x') (hf : ∀ a, Agree blame (f a) (f' a)) :
    Agree blame (x >>= f) (x' >>= f') := by
  obtain ⟨rfl, hblame⟩ := h
  cases x with
  | ok a => exact hf a
  | error fault => exact ⟨rfl, fun _ => hblame rfl⟩

/-- Lists that are converted item by item to the same. -/
theorem mapM {f : α → Built β} {as as' : List α}
    (h : List.Forall₂ (fun a a' => Agree blame (f a) (f a')) as as') :
    Agree blame (as.mapM f) (as'.mapM f) := by
  induction h with
  | nil => exact .pure []
  | cons hhead _ ih =>
    rw [List.mapM_cons, List.mapM_cons]
    exact hhead.bind fun b => ih.bind fun bs => .pure (b :: bs)

/-- What may be missing is converted to the same if it is when it is there. -/
theorem option {R : α → α → Prop} {f? : Option α → Built β} {a? a?' : Option α}
    (h : Option.Rel R a? a?') (hnone : ∃ b, f? none = Pure.pure b)
    (hsome : ∀ a a', R a a' → Agree blame (f? (some a)) (f? (some a'))) :
    Agree blame (f? a?) (f? a?') := by
  cases h with
  | some ha => exact hsome _ _ ha
  | none =>
    obtain ⟨b, hb⟩ := hnone
    rw [hb]
    exact .pure b

end Built.Agree

namespace Syntax

variable {n n' c : Syntax} {role inner : Role}

/-- What is to blame in a node below is to blame in the node. -/
theorem Counterpart.agree {α : Type} {c' : Syntax} {x x' : Built α}
    (h : Counterpart role inner n c c') (hx : Built.Agree (c.Unreadable inner) x x') :
    Built.Agree (n.Unreadable role) x x' :=
  hx.imp fun hc => .within h.inside h.mem h.notComment hc

/-- What is read at a field agrees if it does for all nodes that are alike and have the field. -/
theorem Alike.agree_child? {α : Type} {f : Option Syntax → Built α} (h : Alike role n n')
    (hinside : role.inside n = some inner) (field : String) (hnone : ∃ a, f none = .ok a)
    (hsome : ∀ c c', Counterpart role inner n c c' → c.field = some field →
      Built.Agree (c.Unreadable inner) (f (some c)) (f (some c'))) :
    Built.Agree (n.Unreadable role) (f (n.child? field)) (f (n'.child? field)) :=
  .option (h.child? hinside field) hnone fun c c' hc => hc.1.agree (hsome c c' hc.1 hc.2)

/-- What is read at the parts of a kind agrees if it does for all nodes of the kind that are
alike. -/
theorem Alike.agree_partsOfKind {α : Type} {f : Syntax → Built α} (h : Alike role n n')
    (hinside : role.inside n = some inner) (kind : String)
    (hf : ∀ c c', Alike inner c c' → c.kind = kind → Built.Agree (c.Unreadable inner) (f c) (f c')) :
    Built.Agree (n.Unreadable role) ((n.parts.filter fun c => c.kind == kind).mapM f)
      ((n'.parts.filter fun c => c.kind == kind).mapM f) :=
  .mapM ((h.partsOfKind hinside kind).imp fun c c' hc => hc.1.agree (hf c c' hc.1.alike hc.2))

/-! ### Names and texts -/

theorem Alike.agree_readText (h : Alike role n n') (hreads : role.reads n = true) :
    Built.Agree (n.Unreadable role) n.readText n'.readText := by
  refine ⟨by unfold readText; rw [h.text_eq hreads], fun hfault => .itself hreads ?_⟩
  unfold readText at hfault
  cases htext : n.text with
  | none => rfl
  | some text =>
    rw [htext] at hfault
    cases hfault

theorem Alike.agree_toIdentifier (h : Alike role n n') (hreads : role.reads n = true) :
    Built.Agree (n.Unreadable role) n.toIdentifier n'.toIdentifier := by
  unfold toIdentifier
  rw [h.head.lines_eq]
  exact (h.agree_readText hreads).bind fun text => .pure _

theorem Alike.agree_toStringLiteral (h : Alike role n n') (hreads : role.reads n = true) :
    Built.Agree (n.Unreadable role) n.toStringLiteral n'.toStringLiteral := by
  unfold toStringLiteral
  rw [h.head.lines_eq]
  exact (h.agree_readText hreads).bind fun text => .pure _

theorem Alike.agree_toPlain (h : Alike role n n') {blame : Prop} :
    Built.Agree blame (.ok n.toPlain) (.ok n'.toPlain) := by
  rw [h.head.toPlain_eq]
  exact .pure _

/-- The key of a property. -/
theorem Alike.agree_toKey (h : Alike .pair n n') (hfield : n.field = some "key") :
    Built.Agree (n.Unreadable .pair) n.toKey n'.toKey := by
  unfold toKey
  rw [← h.head.kind]
  split
  next hkind => exact h.agree_toIdentifier (by simp [Role.reads, hfield, hkind])
  next hkind => exact h.agree_toStringLiteral (by simp [Role.reads, hfield, hkind])
  next => exact h.agree_toPlain

/-- The key of a property with a default, which stands in a property that is alike. -/
theorem agree_toDefaultedKey (hhead : n.SameHead n') {c? c?' : Option Syntax}
    (h : Option.Rel (fun c c' => Counterpart role .defaulted n c c' ∧ c.field = some "left")
      c? c?') :
    Built.Agree (n.Unreadable role) (toDefaultedKey n c?) (toDefaultedKey n' c?') := by
  cases h with
  | none =>
    unfold toDefaultedKey
    rw [hhead.lines_eq]
    exact .pure _
  | @some c c' h =>
    obtain ⟨hc, hfield⟩ := h
    unfold toDefaultedKey
    dsimp only
    rw [← hc.alike.head.kind, hhead.lines_eq]
    split
    next hkind =>
      exact hc.agree (hc.alike.agree_toIdentifier (by simp [Role.reads, hfield, isName, hkind]))
    next => exact .pure _

/-! ### Patterns -/

/-- The pattern in a field is converted to the same, if the nodes below are. -/
theorem Alike.agree_toPattern?_of (h : Alike role n n') (hinside : role.inside n = some inner)
    {field : String} (hpattern : inner.HasPattern field)
    (ih : ∀ c ∈ n.children, ∀ c', Alike .pattern c c' →
      Built.Agree (c.Unreadable .pattern) c.toPattern c'.toPattern) :
    Built.Agree (n.Unreadable role) (toPattern? (n.child? field)) (toPattern? (n'.child? field)) := by
  refine h.agree_child? hinside field ⟨.null, rfl⟩ fun c c' hc hfield => ?_
  obtain ⟨hin, hreads⟩ := hpattern c hfield
  exact (ih c hc.mem c' (hc.alike.of_role (by decide) hreads.symm hin.symm)).imp
    fun hblame => hblame.of_role hreads.symm hin.symm

/-- A rest element is converted to the same, if the patterns below it are. -/
theorem Alike.agree_toPattern_rest (h : Alike role n n') (hkind : n.kind = "rest_pattern")
    (hinside : role.inside n = some .pattern)
    (hpattern : ∀ c ∈ n.children, ∀ c', Alike .pattern c c' →
      Built.Agree (c.Unreadable .pattern) c.toPattern c'.toPattern) :
    Built.Agree (n.Unreadable role) n.toPattern n'.toPattern := by
  rw [toPattern_rest hkind, toPattern_rest (h.head.kind ▸ hkind), h.head.lines_eq]
  refine Built.Agree.bind ?_ fun argument => .pure _
  have hparts := h.parts hinside
  generalize n.parts = cs, n'.parts = cs' at hparts ⊢
  cases hparts with
  | nil => exact .pure Tree.null
  | cons hc _ => exact hc.agree (hpattern _ hc.mem _ hc.alike)

/-- A pattern is converted to the same, if the patterns and entries below it are. -/
theorem Alike.agree_toPattern_step (h : Alike .pattern n n')
    (hpattern : ∀ c ∈ n.children, ∀ c', Alike .pattern c c' →
      Built.Agree (c.Unreadable .pattern) c.toPattern c'.toPattern)
    (hmember : ∀ c ∈ n.children, ∀ c', Alike .member c c' →
      Built.Agree (c.Unreadable .member) c.toMember c'.toMember) :
    Built.Agree (n.Unreadable .pattern) n.toPattern n'.toPattern := by
  have hkind := h.head.kind
  cases hname : n.isName with
  | true =>
    rw [toPattern_of_isName hname, toPattern_of_isName (h.head.isName_eq ▸ hname)]
    exact h.agree_toIdentifier hname
  | false =>
    by_cases hobject : n.kind = "object_pattern"
    · -- alike nodes have alike children, as far as the conversion gives them a role
      have hin : Role.pattern.inside n = some .member := by
        simp [Role.inside, Role.insidePattern, hobject]
      rw [toPattern_object hobject, toPattern_object (hkind ▸ hobject), h.head.lines_eq]
      refine (Built.Agree.mapM ?_).bind fun entries => .pure _
      exact (h.parts hin).imp fun c c' hc => hc.agree (hmember c hc.mem c' hc.alike)
    by_cases harray : n.kind = "array_pattern"
    · have hin : Role.pattern.inside n = some .pattern := by
        simp [Role.inside, Role.insidePattern, harray]
      rw [toPattern_array harray, toPattern_array (hkind ▸ harray), h.head.lines_eq]
      refine (Built.Agree.mapM ?_).bind fun elements => .pure _
      exact (h.parts hin).imp fun c c' hc => hc.agree (hpattern c hc.mem c' hc.alike)
    by_cases hassignment : n.kind = "assignment_pattern"
    · have hin : Role.pattern.inside n = some .defaulted := by
        simp [Role.inside, Role.insidePattern, hassignment]
      rw [toPattern_assignment hassignment, toPattern_assignment (hkind ▸ hassignment),
        h.head.lines_eq]
      unfold defaulted
      rw [h.toPlain?_eq hin]
      exact (h.agree_toPattern?_of hin Role.hasPattern_defaulted hpattern).bind
        fun left => .pure _
    by_cases hrest : n.kind = "rest_pattern"
    · exact h.agree_toPattern_rest hrest (by simp [Role.inside, Role.insidePattern, hrest]) hpattern
    have hother : n.kind ∉ nestedKinds := by
      simp [nestedKinds, hobject, harray, hassignment, hrest]
    rw [toPattern_other hname hother, toPattern_other (h.head.isName_eq ▸ hname) (hkind ▸ hother)]
    exact h.agree_toPlain

/-- An entry of an object pattern is converted to the same, if the patterns below it are. -/
theorem Alike.agree_toMember_step (h : Alike .member n n')
    (hpattern : ∀ c ∈ n.children, ∀ c', Alike .pattern c c' →
      Built.Agree (c.Unreadable .pattern) c.toPattern c'.toPattern) :
    Built.Agree (n.Unreadable .member) n.toMember n'.toMember := by
  have hkind := h.head.kind
  by_cases hpair : n.kind = "pair_pattern"
  · have hin : Role.member.inside n = some .pair := by
      simp [Role.inside, Role.insideMember, hpair]
    have hkey : Built.Agree (n.Unreadable .member) (toKey? (n.child? "key"))
        (toKey? (n'.child? "key")) :=
      h.agree_child? hin "key" ⟨.null, rfl⟩ fun c c' hc hfield => hc.alike.agree_toKey hfield
    rw [toMember_pair hpair, toMember_pair (hkind ▸ hpair), h.head.lines_eq,
      h.isComputed_eq hin]
    exact (h.agree_toPattern?_of hin Role.hasPattern_pair hpattern).bind fun value =>
      hkey.bind fun key => .pure _
  by_cases hshorthand : n.kind = "shorthand_property_identifier_pattern"
  · have hname := h.agree_toIdentifier (by simp [Role.reads, hshorthand])
    rw [toMember_shorthand hshorthand, toMember_shorthand (hkind ▸ hshorthand), h.head.lines_eq]
    exact hname.bind fun key => hname.bind fun value => .pure _
  by_cases hdefaulted : n.kind = "object_assignment_pattern"
  · have hin : Role.member.inside n = some .defaulted := by
      simp [Role.inside, Role.insideMember, hdefaulted]
    rw [toMember_defaulted hdefaulted, toMember_defaulted (hkind ▸ hdefaulted), h.head.lines_eq]
    unfold defaulted
    rw [h.toPlain?_eq hin]
    exact (agree_toDefaultedKey h.head (h.child? hin "left")).bind fun key =>
      (h.agree_toPattern?_of hin Role.hasPattern_defaulted hpattern).bind fun left => .pure _
  by_cases hrest : n.kind = "rest_pattern"
  · rw [toMember_rest hrest, toMember_rest (hkind ▸ hrest)]
    exact h.agree_toPattern_rest hrest (by simp [Role.inside, Role.insideMember, hrest]) hpattern
  have hother : n.kind ∉ memberKinds := by
    simp [memberKinds, hpair, hshorthand, hdefaulted, hrest]
  rw [toMember_other hother, toMember_other (hkind ▸ hother)]
  exact h.agree_toPlain

/-- Patterns and entries of object patterns that are alike are converted to the same. -/
theorem agree_of_alike (n : Syntax) : ∀ n',
    (Alike .pattern n n' → Built.Agree (n.Unreadable .pattern) n.toPattern n'.toPattern) ∧
    (Alike .member n n' → Built.Agree (n.Unreadable .member) n.toMember n'.toMember) := by
  induction n using children_induction with
  | h n ih =>
    have hpattern := fun c hc c' => (ih c hc c').1
    exact fun n' => ⟨fun h => h.agree_toPattern_step hpattern fun c hc c' => (ih c hc c').2,
      fun h => h.agree_toMember_step hpattern⟩

theorem Alike.agree_toPattern (h : Alike .pattern n n') :
    Built.Agree (n.Unreadable .pattern) n.toPattern n'.toPattern :=
  (agree_of_alike n n').1 h

/-- The pattern in a field is converted to the same. -/
theorem Alike.agree_toPattern? (h : Alike role n n') (hinside : role.inside n = some inner)
    {field : String} (hpattern : inner.HasPattern field) :
    Built.Agree (n.Unreadable role) (toPattern? (n.child? field)) (toPattern? (n'.child? field)) :=
  h.agree_toPattern?_of hinside hpattern fun _ _ _ hc => hc.agree_toPattern

/-! ### Declarations -/

/-- A parameter is converted to the same. -/
theorem Alike.agree_toParameter (h : Alike .parameter n n') :
    Built.Agree (n.Unreadable .parameter) n.toParameter n'.toParameter := by
  have hkind := h.head.kind
  unfold toParameter
  rw [← hkind]
  split
  next htyped =>
    have hin : Role.parameter.inside n = some .typedParameter := by
      simp [Role.inside, isTypedParameter, htyped]
    refine (h.agree_toPattern? hin Role.hasPattern_typedParameter).bind fun pattern => ?_
    have hrel := h.child? hin "value"
    generalize n.child? "value" = value?, n'.child? "value" = value?' at hrel ⊢
    cases hrel with
    | none => exact .pure pattern
    | some hc =>
      have hplain : toPlain? (some _) = toPlain? (some _) := hc.1.alike.head.toPlain_eq
      dsimp only
      unfold defaulted
      rw [h.head.lines_eq, hplain]
      exact .pure _
  next htyped =>
    have htyped' : n.isTypedParameter = false := by simpa [isTypedParameter] using htyped
    have hin : Role.pattern.inside n = Role.parameter.inside n := by
      simp [Role.inside, htyped']
    have hpattern : Alike .pattern n n' := h.of_role (by decide) rfl hin
    exact hpattern.agree_toPattern.imp fun hblame => hblame.of_role rfl hin

/-- A function declaration that is exported is converted to the same. -/
theorem Alike.agree_toFunction (h : Alike role n n')
    (hinside : role.inside n = some .functionDeclaration) :
    Built.Agree (n.Unreadable role) n.toFunction n'.toFunction := by
  have hname : Built.Agree (n.Unreadable role) (toIdentifier? (n.child? "name"))
      (toIdentifier? (n'.child? "name")) :=
    h.agree_child? hinside "name" ⟨.null, rfl⟩ fun c c' hc hfield =>
      hc.alike.agree_toIdentifier (by simp [Role.reads, hfield])
  have hparameters : Built.Agree (n.Unreadable role) (toParameters? (n.child? "parameters"))
      (toParameters? (n'.child? "parameters")) := by
    refine h.agree_child? hinside "parameters" ⟨[], rfl⟩ fun c c' hc hfield => ?_
    have hin : Role.functionDeclaration.inside c = some .parameter := by
      simp [Role.inside, hfield]
    exact .mapM ((hc.alike.parts hin).imp fun d d' hd => hd.agree hd.alike.agree_toParameter)
  have hasync : (n.children.any fun c => c.kind == "async") =
      n'.children.any fun c => c.kind == "async" :=
    h.any_eq hinside (fun c hc => by simp_all [isComment]) fun c c' hc => by rw [hc.kind]
  unfold toFunction
  rw [h.head.lines_eq, h.head.kind, hasync]
  exact hname.bind fun id => hparameters.bind fun params => .pure _

/-- A declarator is converted to the same. -/
theorem Alike.agree_toDeclarator (h : Alike role n n')
    (hinside : role.inside n = some .declarator) :
    Built.Agree (n.Unreadable role) n.toDeclarator n'.toDeclarator := by
  unfold toDeclarator
  rw [h.head.lines_eq, h.toPlain?_eq hinside]
  exact (h.agree_toPattern? hinside Role.hasPattern_declarator).bind fun binding => .pure _

/-- A variable declaration that is exported is converted to the same. -/
theorem Alike.agree_toVariables (h : Alike role n n')
    (hinside : role.inside n = some .variableDeclaration) :
    Built.Agree (n.Unreadable role) n.toVariables n'.toVariables := by
  have hword : Built.Agree (n.Unreadable role) (toDeclarationWord (n.child? "kind"))
      (toDeclarationWord (n'.child? "kind")) :=
    h.agree_child? hinside "kind" ⟨"var", rfl⟩ fun c c' hc hfield =>
      hc.alike.agree_readText (by simp [Role.reads, hfield])
  have hdeclarators : Built.Agree (n.Unreadable role)
      ((n.parts.filter fun c => c.kind == "variable_declarator").mapM toDeclarator)
      ((n'.parts.filter fun c => c.kind == "variable_declarator").mapM toDeclarator) :=
    h.agree_partsOfKind hinside _ fun c c' hc hkind =>
      hc.agree_toDeclarator (by simp [Role.inside, hkind])
  unfold toVariables
  rw [h.head.lines_eq]
  exact hword.bind fun word => hdeclarators.bind fun declared => .pure _

/-- The declaration in an export statement is converted to the same. -/
theorem Alike.agree_toDeclaration (h : Alike .exported n n')
    (hfield : n.field = some "declaration") :
    Built.Agree (n.Unreadable .exported) n.toDeclaration n'.toDeclaration := by
  have hin : n.isFunction = true ∨ n.isVariables = true →
      Role.exported.inside n = Role.insideDeclaration n := by
    intro hkind
    simp only [isFunction, isVariables, Bool.or_eq_true, beq_iff_eq] at hkind
    rcases hkind with (hkind | hkind) | hkind | hkind <;> simp [Role.inside, hkind, hfield]
  have hfunction' : n'.isFunction = n.isFunction := by simp only [isFunction, h.head.kind]
  have hvariables' : n'.isVariables = n.isVariables := by simp only [isVariables, h.head.kind]
  cases hfunction : n.isFunction with
  | true =>
    rw [toDeclaration_function hfunction, toDeclaration_function (hfunction' ▸ hfunction)]
    exact h.agree_toFunction (by simp [hin (Or.inl hfunction), Role.insideDeclaration, hfunction])
  | false =>
    cases hvariables : n.isVariables with
    | true =>
      rw [toDeclaration_variables hvariables, toDeclaration_variables (hvariables' ▸ hvariables)]
      exact h.agree_toVariables
        (by simp [hin (Or.inr hvariables), Role.insideDeclaration, hfunction, hvariables])
    | false =>
      rw [toDeclaration_other hfunction hvariables,
        toDeclaration_other (hfunction' ▸ hfunction) (hvariables' ▸ hvariables)]
      exact h.agree_toPlain

/-! ### Export statements -/

/-- A name in an export clause is converted to the same. -/
theorem Alike.agree_toExportName (h : Alike role n n') (hreads : role.reads n = true) :
    Built.Agree (n.Unreadable role) n.toExportName n'.toExportName := by
  unfold toExportName
  rw [← h.head.kind]
  split
  · exact h.agree_toStringLiteral hreads
  · exact h.agree_toIdentifier hreads

/-- A specifier is converted to the same. -/
theorem Alike.agree_toSpecifier (h : Alike role n n')
    (hinside : role.inside n = some .specifier) :
    Built.Agree (n.Unreadable role) n.toSpecifier n'.toSpecifier := by
  have hread : ∀ {c c' : Syntax}, Counterpart role .specifier n c c' →
      c.field = some "name" ∨ c.field = some "alias" →
      Built.Agree (n.Unreadable role) c.toExportName c'.toExportName := fun hc hfield =>
    hc.agree (hc.alike.agree_toExportName (by simpa [Role.reads] using hfield))
  have hlocal : Built.Agree (n.Unreadable role) (toExportName? (n.child? "name"))
      (toExportName? (n'.child? "name")) :=
    .option (h.child? hinside "name") ⟨.null, rfl⟩ fun c c' hc => hread hc.1 (Or.inl hc.2)
  have hexported : Built.Agree (n.Unreadable role)
      (toExportName? ((n.child? "alias").or (n.child? "name")))
      (toExportName? ((n'.child? "alias").or (n'.child? "name"))) := by
    have halias := h.child? hinside "alias"
    generalize n.child? "alias" = c?, n'.child? "alias" = c?' at halias ⊢
    cases halias with
    | some hc => exact hread hc.1 (Or.inr hc.2)
    | none => exact hlocal
  unfold toSpecifier
  rw [h.head.lines_eq]
  exact hlocal.bind fun name => hexported.bind fun exported => .pure _

/-- A part of an export statement is converted to the same specifiers. -/
theorem Alike.agree_toSpecifiers (h : Alike .exported n n') :
    Built.Agree (n.Unreadable .exported) n.toSpecifiers n'.toSpecifiers := by
  unfold toSpecifiers
  rw [← h.head.kind]
  split
  next hkind =>
    have hin : Role.exported.inside n = some .clause := by simp [Role.inside, hkind]
    exact h.agree_partsOfKind hin _ fun c c' hc hkind =>
      hc.agree_toSpecifier (by simp [Role.inside, hkind])
  next hkind =>
    have hin : Role.exported.inside n = some .name := by simp [Role.inside, hkind]
    rw [h.head.lines_eq]
    refine Built.Agree.bind ?_ fun name => .pure _
    have hparts := h.parts hin
    generalize n.parts = cs, n'.parts = cs' at hparts ⊢
    cases hparts with
    | nil => exact .pure Tree.null
    | cons hc _ => exact hc.agree (hc.alike.agree_toExportName rfl)
  next => exact .pure []

/-- An export statement with the names it exports is converted to the same. -/
theorem Alike.agree_toNamedExport (h : Alike role n n')
    (hinside : role.inside n = some .exported) :
    Built.Agree (n.Unreadable role) n.toNamedExport n'.toNamedExport := by
  have hspecifiers : Built.Agree (n.Unreadable role) (n.parts.mapM toSpecifiers)
      (n'.parts.mapM toSpecifiers) :=
    .mapM ((h.parts hinside).imp fun c c' hc => hc.agree hc.alike.agree_toSpecifiers)
  have hdeclaration : Built.Agree (n.Unreadable role) (toDeclaration? (n.child? "declaration"))
      (toDeclaration? (n'.child? "declaration")) :=
    h.agree_child? hinside "declaration" ⟨.null, rfl⟩ fun c c' hc hfield =>
      hc.alike.agree_toDeclaration hfield
  have hsource : Built.Agree (n.Unreadable role) (toSource? (n.child? "source"))
      (toSource? (n'.child? "source")) :=
    h.agree_child? hinside "source" ⟨.null, rfl⟩ fun c c' hc hfield =>
      hc.alike.agree_toStringLiteral (by simp [Role.reads, hfield])
  unfold toNamedExport
  dsimp only
  rw [h.head.lines_eq, h.hasToken_eq hinside, h.isTypeOnly_eq hinside]
  exact hspecifiers.bind fun specifiers => hdeclaration.bind fun declaration =>
    hsource.bind fun source => .pure _

/-- A statement is converted to the same. -/
theorem Alike.agree_toStatement (h : Alike .statement n n') :
    Built.Agree (n.Unreadable .statement) n.toStatement n'.toStatement := by
  unfold toStatement
  rw [← h.head.kind]
  split
  next hkind =>
    rw [← h.namelessExport?_eq hkind, h.head.lines_eq]
    cases hclass : n.namelessExport? with
    | some type => exact .pure _
    | none => exact h.agree_toNamedExport (by simp [Role.inside, hkind, hclass])
  next => exact h.agree_toPlain

/-- A module is converted to the same. -/
theorem Alike.agree_toProgram (h : Alike .program n n') :
    Built.Agree (n.Unreadable .program) n.toProgram n'.toProgram := by
  have hstatements : Built.Agree (n.Unreadable .program) (n.parts.mapM toStatement)
      (n'.parts.mapM toStatement) :=
    .mapM ((h.parts rfl).imp fun c c' hc => hc.agree hc.alike.agree_toStatement)
  unfold toProgram
  rw [h.head.lines_eq]
  exact hstatements.bind fun statements => .pure _

end Syntax

/-- The program of a module depends on what is read and on nothing else: modules that differ only in
comments, in texts that are not read and in what stands in nodes of which the inside is not read
have the same program; or none of them has one, and then a text that is read is not there. -/
theorem Module.program_of_alike {m m' : Module} (h : Syntax.Alike .program m.root m'.root) :
    (∃ p, m.program = .ok p ∧ m'.program = .ok p) ∨
      (m.program = .error .notText ∧ m'.program = .error .notText ∧
        m.root.Unreadable .program) := by
  have hagree : Built.Agree (m.root.Unreadable .program) m.program m'.program :=
    h.agree_toProgram.bind fun t => .pure _
  cases hp : m.program with
  | ok p => exact Or.inl ⟨p, rfl, hagree.eq ▸ hp⟩
  | error fault =>
    cases fault
    exact Or.inr ⟨rfl, hagree.eq ▸ hp, hagree.blame hp⟩

/-- A named node that covers the first row. -/
def namedSyntax (kind : String) (field : Option String) (text : Option String)
    (children : List Syntax) : Syntax :=
  .node kind ⟨0, 0⟩ true field text children

/-- A comment. -/
def commentSyntax : Syntax :=
  namedSyntax "comment" none (some "/* */") []

/-- A module of a class and the export `const { a = 1 } = b`, with some comments at the beginning
of every construct.  The name in the pattern has a text of its own; all other texts are one, and the
class, the default and what the variables are initialised with have some content. -/
def annotatedModule (comments : List Syntax) (text : Option String) (content : List Syntax) :
    Module where
  root := namedSyntax "program" none text <| comments ++
    [namedSyntax "class_declaration" none text content,
      namedSyntax "export_statement" none text <| comments ++
        [namedSyntax "lexical_declaration" (some "declaration") text <| comments ++
          [namedSyntax "variable_declarator" none text <| comments ++
            [namedSyntax "object_pattern" (some "name") text <| comments ++
              [namedSyntax "object_assignment_pattern" none text <| comments ++
                [namedSyntax "shorthand_property_identifier_pattern" (some "left") (some "a") [],
                  namedSyntax "number" (some "right") text content]],
              namedSyntax "identifier" (some "value") text content]]]]
  damaged := false

/-- The module with comments is read like the one without, whatever the other texts are. -/
theorem alike_annotatedModule :
    Syntax.Alike .program (annotatedModule [] (some "") []).root
      (annotatedModule [commentSyntax] none [commentSyntax]).root := by
  have hcomments : ∀ {role : Syntax.Role} {cs cs' : List Syntax}, Syntax.AlikeAll role cs cs' →
      Syntax.AlikeAll role ([] ++ cs) ([commentSyntax] ++ cs') := fun h =>
    h.append (by decide) (by decide)
  have hnode : ∀ {role inner : Syntax.Role} {kind : String} {field : Option String}
      {cs cs' : List Syntax}, role ≠ .statement →
      role.reads (namedSyntax kind field (some "") ([] ++ cs)) = false →
      role.inside (namedSyntax kind field (some "") ([] ++ cs)) = some inner →
      Syntax.AlikeAll inner cs cs' →
      Syntax.Alike role (namedSyntax kind field (some "") ([] ++ cs))
        (namedSyntax kind field none ([commentSyntax] ++ cs')) :=
    fun hrole hreads hinside h => .of_children ⟨rfl, rfl, rfl, rfl⟩ hreads
      (fun hstatement => absurd hstatement hrole) hinside (hcomments h)
  have hunread : ∀ {role : Syntax.Role} {kind : String} {field : Option String},
      role ≠ .statement → role.reads (namedSyntax kind field (some "") []) = false →
      role.inside (namedSyntax kind field (some "") []) = none →
      Syntax.Alike role (namedSyntax kind field (some "") [])
        (namedSyntax kind field none [commentSyntax]) :=
    fun hrole hreads hinside => .of_unread ⟨rfl, rfl, rfl, rfl⟩ hrole hreads hinside
  have hname : Syntax.Alike .defaulted
      (namedSyntax "shorthand_property_identifier_pattern" (some "left") (some "a") [])
      (namedSyntax "shorthand_property_identifier_pattern" (some "left") (some "a") []) :=
    .intro ⟨rfl, rfl, rfl, rfl⟩ (fun h => absurd h (by decide)) (fun _ => rfl) fun _ _ => .nil
  have hclass : Syntax.Alike .statement (namedSyntax "class_declaration" none (some "") [])
      (namedSyntax "class_declaration" none none [commentSyntax]) :=
    .intro ⟨rfl, rfl, rfl, rfl⟩ (fun _ h => absurd h (by decide)) (fun h => absurd h (by decide))
      fun inner h => absurd h (by cases inner <;> decide)
  refine hnode (by decide) rfl rfl (.cons rfl hclass (.cons rfl ?_ .nil))
  refine .of_children ⟨rfl, rfl, rfl, rfl⟩ rfl (fun _ => by decide) rfl
    (hcomments (.cons rfl ?_ .nil))
  refine hnode (by decide) rfl rfl (.cons rfl ?_ .nil)
  refine hnode (by decide) rfl rfl
    (.cons rfl ?_ (.cons rfl (hunread (by decide) rfl rfl) .nil))
  refine hnode (by decide) rfl rfl (.cons rfl ?_ .nil)
  exact hnode (by decide) rfl rfl
    (.cons rfl hname (.cons rfl (hunread (by decide) rfl rfl) .nil))

/-- What is exported without comments is exported with them, and so is what is exported when no
text can be read besides the names. -/
theorem Module.program_of_alike_annotatedModule :
    Syntax.Alike .program (annotatedModule [] (some "") []).root
      (annotatedModule [commentSyntax] none [commentSyntax]).root ∧
    ∃ p, (annotatedModule [] (some "") []).program = .ok p ∧
      (annotatedModule [commentSyntax] none [commentSyntax]).program = .ok p := by
  refine ⟨alike_annotatedModule, ?_⟩
  rcases Module.program_of_alike alike_annotatedModule with h | ⟨hfault, -, -⟩
  · exact h
  have hlegible : (annotatedModule [] (some "") []).root.Everywhere (Syntax.Legible True) := by
    have hordinary : (annotatedModule [] (some "") []).root.Everywhere Syntax.Ordinary := by
      decide +kernel
    have htexts : (annotatedModule [] (some "") []).root.Everywhere
        fun n => n.text.isSome = true := by
      decide +kernel
    exact (hordinary.and htexts).imp fun n hn => ⟨hn.1, fun _ => hn.2⟩
  obtain ⟨t, ht⟩ := (Syntax.gives_toProgram hlegible).total trivial
  have hprogram : (annotatedModule [] (some "") []).program = .ok (.ofTree t) :=
    Built.bind_eq_ok.mpr ⟨t, ht, rfl⟩
  rw [hfault] at hprogram
  cases hprogram

end NamedExports
