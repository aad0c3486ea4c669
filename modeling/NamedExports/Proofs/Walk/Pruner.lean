import NamedExports.Proofs.Store.Labelled
import NamedExports.Walk.Basic

/-!
# Visitors that remove what they visit

A pruner says, for each type of node, what is recorded when a node is entered and when it is left,
and whether the node is removed then.  Both may depend on the node as it stands at that moment.
`Pruner.visitor` is the visitor that does so in a walk.  `Pruner.prune` is the same as a function of
the tree alone: it goes through the tree as it was given and builds what is left of it.
-/

namespace NamedExports

variable {ε : Type}

/-- A node is entered before what hangs below it is visited, and left afterwards. -/
inductive Phase where
  | enter
  | exit
  deriving DecidableEq, Repr

/-- Something recorded of a node. -/
structure Event (ε : Type) where
  phase : Phase
  node : Atom
  content : ε

/-- What is recorded of a node, and whether it is removed. -/
structure Callback (ε : Type) where
  content : Atom → Tree → ε
  removes : Atom → Tree → Bool

/-- What is done when nodes of each type are entered and when they are left, if anything. -/
abbrev Pruner (ε : Type) := Phase → String → Option (Callback ε)

/-- Does at a path what a callback says. -/
def Callback.run (c : Callback ε) (phase : Phase) (p : PathId) : Edit (List (Event ε)) Unit := do
  let node := (← Edit.path p).node
  let t := (← Edit.store).tree node
  Edit.note (· ++ [⟨phase, node, c.content node t⟩])
  if c.removes node t then Edit.remove p

namespace Pruner

/-- The visitor that does what a pruner says. -/
def visitor (v : Pruner ε) : Visitor (List (Event ε)) := fun type =>
  { enter := (v .enter type).map fun c => c.run .enter
    exit := (v .exit type).map fun c => c.run .exit }

/-! ### The same on trees -/

/-- What is done in a phase at a node, by its type. -/
def callback? (v : Pruner ε) (phase : Phase) (t : Labelled) : Option (Callback ε) :=
  match t.toTree.get "type" with
  | .str type => v phase type
  | _ => none

/-- What is recorded of a node, as it stands now. -/
def events (v : Pruner ε) (phase : Phase) (t now : Labelled) : List (Event ε) :=
  match v.callback? phase t with
  | some c => [⟨phase, now.atom, c.content now.atom now.toTree⟩]
  | none => []

/-- Whether a node is removed, as it stands now. -/
def removes (v : Pruner ε) (phase : Phase) (t now : Labelled) : Bool :=
  match v.callback? phase t with
  | some c => c.removes now.atom now.toTree
  | none => false

mutual

/-- What is recorded at and below a value, and what is left of the value, if anything.  What hangs
below a node that is removed when it is entered goes unvisited. -/
def prune (v : Pruner ε) : Labelled → List (Event ε) × Option Labelled
  | .record r shape attributes =>
    let t := .record r shape attributes
    if shape.isNode then
      if v.removes .enter t t then (v.events .enter t t, none)
      else
        let below := pruneAttributes v (shape.fields?.getD []) attributes
        let left := .record r shape below.2
        (v.events .enter t t ++ below.1 ++ v.events .exit t left,
          if v.removes .exit t left then none else some left)
    else ([], some t)
  | t => ([], some t)

/-- The entries of a list one after the other; what is removed is left out. -/
def pruneItems (v : Pruner ε) : List Labelled → List (Event ε) × List Labelled
  | [] => ([], [])
  | t :: ts =>
    let first := prune v t
    let rest := pruneItems v ts
    (first.1 ++ rest.1, first.2.toList ++ rest.2)

/-- The attributes of a node one after the other.  Only fields are looked into; a field whose value
is removed is set to null. -/
def pruneAttributes (v : Pruner ε) (fields : List String) :
    List (String × Held Labelled) → List (Event ε) × List (String × Held Labelled)
  | [] => ([], [])
  | (name, .one t) :: attributes =>
    let rest := pruneAttributes v fields attributes
    if name ∈ fields then
      let first := prune v t
      (first.1 ++ rest.1, (name, .one (first.2.getD .null)) :: rest.2)
    else (rest.1, (name, .one t) :: rest.2)
  | (name, .many ts) :: attributes =>
    let rest := pruneAttributes v fields attributes
    if name ∈ fields then
      let first := pruneItems v ts
      (first.1 ++ rest.1, (name, .many first.2) :: rest.2)
    else (rest.1, (name, .many ts) :: rest.2)

end

/-- What is recorded below a node, and what is left of the node. -/
def pruneBelow (v : Pruner ε) : Labelled → List (Event ε) × Labelled
  | .record r shape attributes =>
    let below := pruneAttributes v (shape.fields?.getD []) attributes
    (below.1, .record r shape below.2)
  | t => ([], t)

mutual

/-- The nodes at and below a value that are entered, as they were given: each before those below it,
and none below a node that is removed when it is entered. -/
def entered (v : Pruner ε) : Labelled → List Labelled
  | .record r shape attributes =>
    let t := .record r shape attributes
    if shape.isNode then
      t :: (if v.removes .enter t t then []
        else enteredInAttributes v (shape.fields?.getD []) attributes)
    else []
  | _ => []

/-- The nodes that are entered in the entries of a list. -/
def enteredInItems (v : Pruner ε) : List Labelled → List Labelled
  | [] => []
  | t :: ts => entered v t ++ enteredInItems v ts

/-- The nodes that are entered in the fields of a node. -/
def enteredInAttributes (v : Pruner ε) (fields : List String) :
    List (String × Held Labelled) → List Labelled
  | [] => []
  | (name, .one t) :: rest =>
    (if name ∈ fields then entered v t else []) ++ enteredInAttributes v fields rest
  | (name, .many ts) :: rest =>
    (if name ∈ fields then enteredInItems v ts else []) ++ enteredInAttributes v fields rest

end

/-- What is left of what an attribute holds, and what is recorded in it, if it is a field. -/
def pruneHeld (v : Pruner ε) : Held Labelled → List (Event ε) × Held Labelled
  | .one t => ((v.prune t).1, .one ((v.prune t).2.getD .null))
  | .many ts => ((v.pruneItems ts).1, .many (v.pruneItems ts).2)

variable {v : Pruner ε} {t t' : Labelled} {fields : List String}

theorem prune_record {r : Ref} {shape : Shape} {attributes : List (String × Held Labelled)}
    (hnode : shape.isNode = true) : v.prune (.record r shape attributes) =
      if v.removes .enter (.record r shape attributes) (.record r shape attributes) then
        (v.events .enter (.record r shape attributes) (.record r shape attributes), none)
      else
        (v.events .enter (.record r shape attributes) (.record r shape attributes) ++
            (v.pruneBelow (.record r shape attributes)).1 ++
            v.events .exit (.record r shape attributes)
              (v.pruneBelow (.record r shape attributes)).2,
          if v.removes .exit (.record r shape attributes)
            (v.pruneBelow (.record r shape attributes)).2 then none
          else some (v.pruneBelow (.record r shape attributes)).2) := by
  rw [prune, hnode]
  rfl

/-- What is no node stays and has nothing recorded. -/
theorem prune_of_not_isNode (h : t.isNode = false) : v.prune t = ([], some t) := by
  cases t with
  | record r shape attributes =>
    rw [prune, show shape.isNode = false from h]
    rfl
  | _ => rfl

theorem pruneAttributes_cons (name : String) (h : Held Labelled)
    (rest : List (String × Held Labelled)) :
    v.pruneAttributes fields ((name, h) :: rest) =
      if name ∈ fields then ((v.pruneHeld h).1 ++ (v.pruneAttributes fields rest).1,
        (name, (v.pruneHeld h).2) :: (v.pruneAttributes fields rest).2)
      else ((v.pruneAttributes fields rest).1, (name, h) :: (v.pruneAttributes fields rest).2) := by
  cases h <;> rw [pruneAttributes] <;> rfl

/-- Attributes that are no fields are passed over. -/
theorem pruneAttributes_append {before rest : List (String × Held Labelled)}
    (h : ∀ a ∈ before, a.1 ∉ fields) : v.pruneAttributes fields (before ++ rest) =
      ((v.pruneAttributes fields rest).1, before ++ (v.pruneAttributes fields rest).2) := by
  induction before with
  | nil => rfl
  | cons a before ih =>
    rw [List.cons_append, pruneAttributes_cons, if_neg (h a List.mem_cons_self),
      ih fun b hb => h b (List.mem_cons_of_mem _ hb)]
    rfl

/-! ### What is left -/

theorem pruneBelow_record (r : Ref) (shape : Shape) (attributes : List (String × Held Labelled)) :
    v.pruneBelow (.record r shape attributes) =
      ((v.pruneAttributes (shape.fields?.getD []) attributes).1,
        .record r shape (v.pruneAttributes (shape.fields?.getD []) attributes).2) :=
  rfl

/-- A value that is left is as it was, or is a node and what is left below it. -/
theorem eq_of_prune (h : (v.prune t).2 = some t') :
    t.isNode = false ∧ t' = t ∨ t.isNode = true ∧ t' = (v.pruneBelow t).2 := by
  cases hnode : t.isNode with
  | false =>
    rw [prune_of_not_isNode hnode, Option.some.injEq] at h
    exact Or.inl ⟨rfl, h.symm⟩
  | true =>
    obtain ⟨r, shape, attributes, rfl, hshape⟩ := Labelled.exists_record_of_isNode hnode
    rw [prune_record hshape] at h
    split at h
    · cases h
    · dsimp only at h
      split at h
      · cases h
      · exact Or.inr ⟨rfl, (Option.some.inj h).symm⟩

/-- What is left of a value starts with the same object. -/
theorem atom_of_prune (h : (v.prune t).2 = some t') : t'.atom = t.atom := by
  rcases eq_of_prune h with ⟨-, rfl⟩ | ⟨hnode, rfl⟩
  · rfl
  · obtain ⟨r, shape, attributes, rfl, -⟩ := Labelled.exists_record_of_isNode hnode
    rfl

theorem atom_pruneBelow (v : Pruner ε) (t : Labelled) : (v.pruneBelow t).2.atom = t.atom := by
  cases t <;> rfl

/-- Nothing moves: what is left of a value has some of its objects, in their order. -/
def Shrinks (v : Pruner ε) (t : Labelled) : Prop :=
  ∀ t', (v.prune t).2 = some t' → t'.refs.Sublist t.refs

theorem sublist_pruneItems {ts : List Labelled} (h : ∀ t ∈ ts, v.Shrinks t) :
    ((v.pruneItems ts).2.flatMap Labelled.refs).Sublist (ts.flatMap Labelled.refs) := by
  induction ts with
  | nil => exact .refl _
  | cons t ts ih =>
    rw [pruneItems, List.flatMap_append, List.flatMap_cons]
    refine List.Sublist.append ?_ (ih fun u hu => h u (List.mem_cons_of_mem _ hu))
    cases hleft : (v.prune t).2 with
    | none => exact List.nil_sublist _
    | some t' => simpa using h t List.mem_cons_self t' hleft

theorem sublist_pruneHeld {h : Held Labelled} (hshrink : ∀ t ∈ h.toList, v.Shrinks t) :
    ((v.pruneHeld h).2.toList.flatMap Labelled.refs).Sublist (h.toList.flatMap Labelled.refs) := by
  cases h with
  | many ts => exact sublist_pruneItems hshrink
  | one t =>
    cases hleft : (v.prune t).2 with
    | none =>
      simp only [pruneHeld, hleft, Option.getD_none, Held.toList]
      exact List.nil_sublist _
    | some t' =>
      simpa [pruneHeld, hleft, Held.toList] using hshrink t (List.mem_singleton_self t) t' hleft

theorem sublist_pruneAttributes {attributes : List (String × Held Labelled)}
    (h : ∀ a ∈ attributes, ∀ t ∈ a.2.toList, v.Shrinks t) :
    ((v.pruneAttributes fields attributes).2.flatMap fun a =>
        a.2.toList.flatMap Labelled.refs).Sublist
      (attributes.flatMap fun a => a.2.toList.flatMap Labelled.refs) := by
  induction attributes with
  | nil => exact .refl _
  | cons a rest ih =>
    have hrest := ih fun b hb => h b (List.mem_cons_of_mem _ hb)
    obtain ⟨name, held⟩ := a
    rw [pruneAttributes_cons]
    split
    · exact .append (sublist_pruneHeld (h _ List.mem_cons_self)) hrest
    · exact .append (.refl _) hrest

theorem shrinks (v : Pruner ε) (t : Labelled) : v.Shrinks t := by
  induction t with
  | value a plain =>
    intro t' h
    rw [(Option.some.inj h).symm]
  | sequence r items ih =>
    intro t' h
    rw [(Option.some.inj h).symm]
  | record r shape attributes ih =>
    intro t' h
    rcases eq_of_prune h with ⟨-, rfl⟩ | ⟨-, rfl⟩
    · exact .refl _
    · rw [pruneBelow_record, Labelled.refs_record, Labelled.refs_record]
      exact (sublist_pruneAttributes ih).cons_cons r

theorem sublist_pruneBelow (v : Pruner ε) (t : Labelled) :
    (v.pruneBelow t).2.refs.Sublist t.refs := by
  cases t with
  | record r shape attributes =>
    rw [pruneBelow_record, Labelled.refs_record, Labelled.refs_record]
    exact (sublist_pruneAttributes fun a _ u _ => v.shrinks u).cons_cons r
  | _ => exact .refl _

/-! ### What is entered -/

/-- The nodes below a node that are entered. -/
def enteredBelow (v : Pruner ε) : Labelled → List Labelled
  | .record _ shape attributes => v.enteredInAttributes (shape.fields?.getD []) attributes
  | _ => []

/-- What is recorded when some nodes are entered, one after the other. -/
def enterEvents (v : Pruner ε) (ts : List Labelled) : List (Event ε) :=
  ts.flatMap fun t => v.events .enter t t

theorem enterEvents_append (ts us : List Labelled) :
    v.enterEvents (ts ++ us) = v.enterEvents ts ++ v.enterEvents us :=
  List.flatMap_append

/-- The events that were recorded when nodes were entered. -/
def entering (events : List (Event ε)) : List (Event ε) :=
  events.filter fun e => e.phase = .enter

theorem entering_append (es es' : List (Event ε)) :
    entering (es ++ es') = entering es ++ entering es' :=
  List.filter_append _ _

theorem entering_events_enter (t now : Labelled) :
    entering (v.events .enter t now) = v.events .enter t now := by
  unfold entering events
  split <;> simp

theorem entering_events_exit (t now : Labelled) : entering (v.events .exit t now) = [] := by
  unfold entering events
  split <;> simp

/-- Entering is recorded of the nodes that are entered, of each of them once, and of no others. -/
def EntersOnce (v : Pruner ε) (t : Labelled) : Prop :=
  entering (v.prune t).1 = v.enterEvents (v.entered t)

theorem enteredInAttributes_cons (name : String) (h : Held Labelled)
    (rest : List (String × Held Labelled)) :
    v.enteredInAttributes fields ((name, h) :: rest) =
      (if name ∈ fields then v.enteredInItems h.toList else []) ++
        v.enteredInAttributes fields rest := by
  cases h with
  | one t =>
    rw [enteredInAttributes]
    simp [Held.toList, enteredInItems]
  | many ts => rw [enteredInAttributes, Held.toList]

theorem entering_pruneItems {ts : List Labelled} (h : ∀ t ∈ ts, v.EntersOnce t) :
    entering (v.pruneItems ts).1 = v.enterEvents (v.enteredInItems ts) := by
  induction ts with
  | nil => rfl
  | cons t ts ih =>
    rw [pruneItems, enteredInItems, entering_append, enterEvents_append, h t List.mem_cons_self,
      ih fun u hu => h u (List.mem_cons_of_mem _ hu)]

theorem entering_pruneHeld {h : Held Labelled} (honce : ∀ t ∈ h.toList, v.EntersOnce t) :
    entering (v.pruneHeld h).1 = v.enterEvents (v.enteredInItems h.toList) := by
  cases h with
  | many ts => exact entering_pruneItems honce
  | one t =>
    have ht := honce t (List.mem_singleton_self t)
    rw [Held.toList, enteredInItems, enteredInItems, List.append_nil]
    exact ht

theorem entering_pruneAttributes (fields : List String)
    {attributes : List (String × Held Labelled)}
    (h : ∀ a ∈ attributes, ∀ t ∈ a.2.toList, v.EntersOnce t) :
    entering (v.pruneAttributes fields attributes).1 =
      v.enterEvents (v.enteredInAttributes fields attributes) := by
  induction attributes with
  | nil => rfl
  | cons a rest ih =>
    have hrest := ih fun b hb => h b (List.mem_cons_of_mem _ hb)
    obtain ⟨name, held⟩ := a
    rw [pruneAttributes_cons, enteredInAttributes_cons]
    split
    · rw [entering_append, enterEvents_append, entering_pruneHeld (h _ List.mem_cons_self), hrest]
    · exact hrest

theorem entersOnce (v : Pruner ε) (t : Labelled) : v.EntersOnce t := by
  induction t with
  | value a plain => rfl
  | sequence r items ih => rfl
  | record r shape attributes ih =>
    unfold EntersOnce
    cases hshape : shape.isNode with
    | false =>
      rw [prune_of_not_isNode (t := .record r shape attributes) hshape, entered, hshape]
      rfl
    | true =>
      have hbelow := entering_pruneAttributes (shape.fields?.getD []) ih
      rw [prune_record hshape, entered, hshape, if_pos rfl]
      cases hremoves : v.removes .enter (.record r shape attributes)
          (.record r shape attributes) with
      | true =>
        rw [if_pos rfl, if_pos rfl, entering_events_enter]
        simp [enterEvents]
      | false =>
        rw [if_neg Bool.false_ne_true, if_neg Bool.false_ne_true, pruneBelow_record,
          entering_append, entering_append, entering_events_enter, entering_events_exit, hbelow,
          List.append_nil]
        simp [enterEvents]

/-- The nodes that are entered below a node, in terms of what is recorded. -/
theorem entering_pruneBelow (v : Pruner ε) (t : Labelled) :
    entering (v.pruneBelow t).1 = v.enterEvents (v.enteredBelow t) := by
  cases t with
  | record r shape attributes => exact entering_pruneAttributes _ fun a _ u _ => v.entersOnce u
  | _ => rfl

/-- The nodes that are entered are objects of the tree, in their order. -/
def EntersObjects (v : Pruner ε) (t : Labelled) : Prop :=
  ((v.entered t).map Labelled.atom).Sublist (t.refs.map Atom.ref)

theorem sublist_enteredInItems {ts : List Labelled} (h : ∀ t ∈ ts, v.EntersObjects t) :
    ((v.enteredInItems ts).map Labelled.atom).Sublist
      ((ts.flatMap Labelled.refs).map Atom.ref) := by
  induction ts with
  | nil => exact .refl _
  | cons t ts ih =>
    rw [enteredInItems, List.map_append, List.flatMap_cons, List.map_append]
    exact .append (h t List.mem_cons_self) (ih fun u hu => h u (List.mem_cons_of_mem _ hu))

theorem sublist_enteredInAttributes {attributes : List (String × Held Labelled)}
    (h : ∀ a ∈ attributes, ∀ t ∈ a.2.toList, v.EntersObjects t) :
    ((v.enteredInAttributes fields attributes).map Labelled.atom).Sublist
      ((attributes.flatMap fun a => a.2.toList.flatMap Labelled.refs).map Atom.ref) := by
  induction attributes with
  | nil => exact .refl _
  | cons a rest ih =>
    have hrest := ih fun b hb => h b (List.mem_cons_of_mem _ hb)
    obtain ⟨name, held⟩ := a
    rw [enteredInAttributes_cons, List.map_append, List.flatMap_cons, List.map_append]
    refine .append ?_ hrest
    split
    · exact sublist_enteredInItems (h _ List.mem_cons_self)
    · exact List.nil_sublist _

theorem entersObjects (v : Pruner ε) (t : Labelled) : v.EntersObjects t := by
  induction t with
  | value a plain => exact List.nil_sublist _
  | sequence r items ih => exact List.nil_sublist _
  | record r shape attributes ih =>
    unfold EntersObjects
    rw [entered, Labelled.refs_record]
    cases shape.isNode with
    | false => exact List.nil_sublist _
    | true =>
      rw [if_pos rfl, List.map_cons, List.map_cons]
      refine List.Sublist.cons_cons _ ?_
      split
      · exact List.nil_sublist _
      · exact sublist_enteredInAttributes ih

/-- Where no object hangs twice, no node is entered twice. -/
theorem nodup_entered (h : t.refs.Nodup) : ((v.entered t).map Labelled.atom).Nodup :=
  (h.map fun _ _ heq => Atom.ref.inj heq).sublist (v.entersObjects t)

theorem nodup_enteredBelow (h : t.refs.Nodup) : ((v.enteredBelow t).map Labelled.atom).Nodup := by
  cases t with
  | record r shape attributes =>
    rw [Labelled.refs_record] at h
    exact (h.of_cons.map fun _ _ heq => Atom.ref.inj heq).sublist
      (sublist_enteredInAttributes fun a _ u _ => v.entersObjects u)
  | _ => exact List.nodup_nil

end Pruner

end NamedExports
