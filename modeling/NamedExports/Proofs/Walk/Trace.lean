import NamedExports.Proofs.Path.Step
import NamedExports.Proofs.Walk.Pruner
import NamedExports.Proofs.Walk.Running

/-!
# Traces of walks

The rules of a walk without any bound on its length (`Walk.Runs`): what a walk does from a workspace
on, the calls of hooks that it makes, the turns that it takes through lists, and how it ends.  If the
hooks of a visitor do nothing but remove nodes through held paths (`Visitor.OnlyRemoves`), a walk is
a sequence of steps (`Walk.Runs.steps`), and the bounded walk is the walk without bounds
(`Walk.runs_visit`): lists get no longer while they are walked, so every visit brings the end of a
list nearer, although the index does not always move.  There is no other walk by these rules
(`Walk.Runs.unique`).
-/

namespace NamedExports

variable {σ : Type}

/-- What is done in a phase. -/
def Hooks.at (h : Hooks σ) : Phase → Option (PathId → Edit σ Unit)
  | .enter => h.enter
  | .exit => h.exit

/-- The hooks of a visitor do nothing to a workspace but steps in which values of some kind are
removed.  This is asked of the workspaces only that such steps lead to, and of paths to nodes. -/
def Visitor.OnlyRemoves (v : Visitor σ) (removable : Atom → Prop) (start : Workspace σ) : Prop :=
  ∀ w, start.Steps removable w → ∀ p, w.Knows p → w.store.isNode (w.path p).node = true →
    ∀ type phase f, (v type).at phase = some f → w.Steps removable (Edit.endOf ((f p).run w))

namespace Walk

/-- How a walk ends. -/
abbrev Outcome (σ : Type) := EStateM.Result Fault (Workspace σ) Unit

/-- A point of a walk at which the hook of a phase is called, if the visitor has one.  The hooks of a
visit are those of the type that the node has when the visit begins. -/
structure Call (σ : Type) where
  phase : Phase
  path : PathId
  type : Tree
  before : Workspace σ

namespace Call

/-- The node at which a hook is called. -/
def node (c : Call σ) : Atom := (c.before.path c.path).node

/-- The hook that is called. -/
def hook (v : Visitor σ) (c : Call σ) : Option (PathId → Edit σ Unit) := (hooks v c.type).at c.phase

/-- What comes of the call. -/
def outcome (v : Visitor σ) (c : Call σ) : Outcome σ := (call (c.hook v) c.path).run c.before

end Call

/-- The visit of one entry of a list, with the store before and after it. -/
structure Turn where
  owner : Atom
  list : String
  index : ℕ
  before : Store
  after : Store

/-- What a walk has to do. -/
inductive Task where
  | visit (p : PathId)
  | children (p : PathId)
  | fields (above : PathId) (owner : Atom) (names : List String)
  | field (above : PathId) (owner : Atom) (name : String)
  | entries (above : PathId) (owner : Atom) (list : String) (index : ℕ)

/-- A walk looks no further at a path after a fault, or if the path has removed its node. -/
def Halts (p : PathId) : Outcome σ → Prop
  | .error _ _ => True
  | .ok _ w => (w.path p).removed = true

/-- The index at which a list is looked at after the visit of an entry. -/
def nextIndex (s : Store) (owner : Atom) (list : String) (index : ℕ) (value : Atom) : ℕ :=
  if (s.entries owner list)[index]? = some value then index + 1 else index

/-- What a walk does, the calls and the turns that it makes on the way, and how it ends. -/
inductive Runs (v : Visitor σ) :
    Task → Workspace σ → List (Call σ) → List Turn → Outcome σ → Prop
  | untyped {p : PathId} {w : Workspace σ} {fault : Fault}
      (htype : (Edit.typeOf (w.path p).node).run w = .error fault w) :
      Runs v (.visit p) w [] [] (.error fault w)
  | entered {p : PathId} {w : Workspace σ} {type : Tree} {r : Outcome σ}
      (htype : (Edit.typeOf (w.path p).node).run w = .ok type w)
      (henter : Call.outcome v ⟨.enter, p, type, w⟩ = r) (hhalts : Halts p r) :
      Runs v (.visit p) w [⟨.enter, p, type, w⟩] [] r
  | halted {p : PathId} {w w₁ : Workspace σ} {type : Tree} {calls : List (Call σ)}
      {turns : List Turn} {r : Outcome σ}
      (htype : (Edit.typeOf (w.path p).node).run w = .ok type w)
      (henter : Call.outcome v ⟨.enter, p, type, w⟩ = .ok () w₁)
      (hlive : (w₁.path p).removed = false) (hbelow : Runs v (.children p) w₁ calls turns r)
      (hhalts : Halts p r) :
      Runs v (.visit p) w (⟨.enter, p, type, w⟩ :: calls) turns r
  | left {p : PathId} {w w₁ w₂ : Workspace σ} {type : Tree} {calls : List (Call σ)}
      {turns : List Turn}
      (htype : (Edit.typeOf (w.path p).node).run w = .ok type w)
      (henter : Call.outcome v ⟨.enter, p, type, w⟩ = .ok () w₁)
      (hlive : (w₁.path p).removed = false)
      (hbelow : Runs v (.children p) w₁ calls turns (.ok () w₂))
      (hleft : (w₂.path p).removed = false) :
      Runs v (.visit p) w (⟨.enter, p, type, w⟩ :: (calls ++ [⟨.exit, p, type, w₂⟩])) turns
        (Call.outcome v ⟨.exit, p, type, w₂⟩)
  | no_node {p : PathId} {w : Workspace σ} (hnode : w.store.isNode (w.path p).node = false) :
      Runs v (.children p) w [] [] (.error .notNode w)
  | children {p : PathId} {w : Workspace σ} {shape : Shape} {names : List String}
      {calls : List (Call σ)} {turns : List Turn} {r : Outcome σ}
      (hshape : w.store.shape? (w.path p).node = some shape) (hnames : shape.fields? = some names)
      (hfields : Runs v (.fields p (w.path p).node names) w calls turns r) :
      Runs v (.children p) w calls turns r
  | fields_nil {above : PathId} {owner : Atom} {w : Workspace σ} :
      Runs v (.fields above owner []) w [] [] (.ok () w)
  | fields_stop {above : PathId} {owner : Atom} {name : String} {names : List String}
      {w w' : Workspace σ} {calls : List (Call σ)} {turns : List Turn} {fault : Fault}
      (hfield : Runs v (.field above owner name) w calls turns (.error fault w')) :
      Runs v (.fields above owner (name :: names)) w calls turns (.error fault w')
  | fields_cons {above : PathId} {owner : Atom} {name : String} {names : List String}
      {w w' : Workspace σ} {calls calls' : List (Call σ)} {turns turns' : List Turn} {r : Outcome σ}
      (hfield : Runs v (.field above owner name) w calls turns (.ok () w'))
      (hrest : Runs v (.fields above owner names) w' calls' turns' r) :
      Runs v (.fields above owner (name :: names)) w (calls ++ calls') (turns ++ turns') r
  | field_absent {above : PathId} {owner : Atom} {name : String} {w : Workspace σ}
      (hattr : w.store.attr? owner name = none) :
      Runs v (.field above owner name) w [] [] (.ok () w)
  | field_skip {above : PathId} {owner : Atom} {name : String} {w : Workspace σ} {value : Atom}
      (hattr : w.store.attr? owner name = some (.atom value))
      (hnode : w.store.isNode value = false) :
      Runs v (.field above owner name) w [] [] (.ok () w)
  | field_node {above : PathId} {owner : Atom} {name : String} {w : Workspace σ} {value : Atom}
      {calls : List (Call σ)} {turns : List Turn} {r : Outcome σ}
      (hattr : w.store.attr? owner name = some (.atom value)) (hnode : w.store.isNode value = true)
      (hvisit : Runs v (.visit w.nextPath) (w.addPath (.ofField value above name)) calls turns r) :
      Runs v (.field above owner name) w calls turns r
  | field_items {above : PathId} {owner : Atom} {name : String} {w : Workspace σ}
      {values : List Atom} {calls : List (Call σ)} {turns : List Turn} {r : Outcome σ}
      (hattr : w.store.attr? owner name = some (.items values))
      (hentries : Runs v (.entries above owner name 0) w calls turns r) :
      Runs v (.field above owner name) w calls turns r
  | entries_end {above : PathId} {owner : Atom} {list : String} {index : ℕ} {w : Workspace σ}
      (hindex : (w.store.entries owner list)[index]? = none) :
      Runs v (.entries above owner list index) w [] [] (.ok () w)
  | entries_skip {above : PathId} {owner : Atom} {list : String} {index : ℕ} {w : Workspace σ}
      {value : Atom} {calls : List (Call σ)} {turns : List Turn} {r : Outcome σ}
      (hindex : (w.store.entries owner list)[index]? = some value)
      (hnode : w.store.isNode value = false)
      (hrest : Runs v (.entries above owner list (index + 1)) w calls turns r) :
      Runs v (.entries above owner list index) w calls turns r
  | entries_stop {above : PathId} {owner : Atom} {list : String} {index : ℕ} {w w' : Workspace σ}
      {value : Atom} {calls : List (Call σ)} {turns : List Turn} {fault : Fault}
      (hindex : (w.store.entries owner list)[index]? = some value)
      (hnode : w.store.isNode value = true)
      (hvisit : Runs v (.visit w.nextPath) (w.addPath (.ofEntry value above list index)) calls turns
        (.error fault w')) :
      Runs v (.entries above owner list index) w calls turns (.error fault w')
  | entries_next {above : PathId} {owner : Atom} {list : String} {index : ℕ} {w w' : Workspace σ}
      {value : Atom} {calls calls' : List (Call σ)} {turns turns' : List Turn} {r : Outcome σ}
      (hindex : (w.store.entries owner list)[index]? = some value)
      (hnode : w.store.isNode value = true)
      (hvisit : Runs v (.visit w.nextPath) (w.addPath (.ofEntry value above list index)) calls turns
        (.ok () w'))
      (hrest : Runs v (.entries above owner list (nextIndex w'.store owner list index value)) w'
        calls' turns' r) :
      Runs v (.entries above owner list index) w (calls ++ calls')
        (turns ++ ⟨owner, list, index, w.store, w'.store⟩ :: turns') r

/-! ### The rules leave no choice -/

theorem isNode_of_fields {s : Store} {a : Atom} {shape : Shape} {names : List String}
    (hshape : s.shape? a = some shape) (hnames : shape.fields? = some names) :
    s.isNode a = true := by
  unfold Store.isNode
  rw [hshape]
  cases shape with
  | loose => cases hnames
  | _ => rfl

/-- From a workspace on there is one walk at most. -/
theorem Runs.unique {v : Visitor σ} {task : Task} {w : Workspace σ} {calls calls' : List (Call σ)}
    {turns turns' : List Turn} {r r' : Outcome σ} (h : Runs v task w calls turns r)
    (h' : Runs v task w calls' turns' r') : calls = calls' ∧ turns = turns' ∧ r = r' := by
  -- two rules for one task contradict each other, in the store or in how the call ends
  induction h generalizing calls' turns' r' with
  | untyped htype => cases h' <;> grind
  | entered htype henter hhalts => cases h' <;> grind [Halts]
  | halted htype henter hlive hbelow hhalts ih => cases h' <;> grind [Halts]
  | left htype henter hlive hbelow hleft ih => cases h' <;> grind [Halts]
  | no_node hnode => cases h' <;> grind [isNode_of_fields]
  | children hshape hnames hfields ih => cases h' <;> grind [isNode_of_fields]
  | fields_nil =>
    cases h'
    exact ⟨rfl, rfl, rfl⟩
  | fields_stop hfield ih => cases h' <;> grind
  | fields_cons hfield hrest ih ihrest => cases h' <;> grind
  | field_absent hattr => cases h' <;> grind
  | field_skip hattr hnode => cases h' <;> grind
  | field_node hattr hnode hvisit ih => cases h' <;> grind
  | field_items hattr hentries ih => cases h' <;> grind
  | entries_end hindex => cases h' <;> grind
  | entries_skip hindex hnode hrest ih => cases h' <;> grind
  | entries_stop hindex hnode hvisit ih => cases h' <;> grind
  | entries_next hindex hnode hvisit hrest ih ihrest => cases h' <;> grind

/-! ### A walk is a sequence of steps -/

/-- The paths that a task is about are held. -/
def Task.Held (w : Workspace σ) : Task → Prop
  | .visit p => w.Knows p ∧ w.store.isNode (w.path p).node = true
  | .children p => w.Knows p
  | .fields above owner _ => w.Knows above ∧ (w.path above).node = owner
  | .field above owner _ => w.Knows above ∧ (w.path above).node = owner
  | .entries above owner _ _ => w.Knows above ∧ (w.path above).node = owner

section Steps

variable {v : Visitor σ} {removable : Atom → Prop} {start w w' : Workspace σ} {p above : PathId}
  {owner value : Atom} {name list : String} {index : ℕ} {task : Task} {calls : List (Call σ)}
  {turns : List Turn} {r : Outcome σ}

/-- What a call does is a sequence of steps. -/
theorem steps_call (hv : v.OnlyRemoves removable start) (hw : start.Steps removable w)
    (hheld : (Task.visit p).Held w) (phase : Phase) (type : Tree) :
    w.Steps removable (Edit.endOf (Call.outcome v ⟨phase, p, type, w⟩)) := by
  unfold Call.outcome Call.hook call
  dsimp only
  cases hhook : (hooks v type).at phase with
  | none => exact .refl
  | some f =>
    cases type with
    | str text => exact hv w hw p hheld.1 hheld.2 text phase f hhook
    | _ => cases phase <;> cases hhook

theorem steps_of_call_ok (hv : v.OnlyRemoves removable start) (hw : start.Steps removable w)
    (hheld : (Task.visit p).Held w) {phase : Phase} {type : Tree}
    (hcall : Call.outcome v ⟨phase, p, type, w⟩ = .ok () w') : w.Steps removable w' := by
  have hsteps := steps_call hv hw hheld phase type
  rw [hcall] at hsteps
  exact hsteps

/-- A node stays a node, and a held path stays at it. -/
theorem held_visit (hsteps : w.Steps removable w') (h : (Task.visit p).Held w) :
    (Task.visit p).Held w' := by
  refine ⟨hsteps.knows h.1, ?_⟩
  rw [hsteps.node_eq h.1, hsteps.shrinks.isNode_eq, h.2]

/-- The path to an entry is offered, and the entry can be visited through it. -/
theorem step_entry (removable : Atom → Prop)
    (hindex : (w.store.entries owner list)[index]? = some value)
    (habove : w.Knows above ∧ (w.path above).node = owner) :
    w.Step removable (w.addPath (.ofEntry value above list index)) := by
  obtain ⟨hknown, rfl⟩ := habove
  exact .take (.entry hknown hindex)

theorem step_field (removable : Atom → Prop)
    (hattr : w.store.attr? owner name = some (.atom value))
    (habove : w.Knows above ∧ (w.path above).node = owner) :
    w.Step removable (w.addPath (.ofField value above name)) := by
  obtain ⟨hknown, rfl⟩ := habove
  exact .take (.field hknown hattr)

theorem held_nextPath {path : Path} (hnode : w.store.isNode path.node = true) :
    (Task.visit w.nextPath).Held (w.addPath path) := by
  refine ⟨w.knows_addPath_nextPath path, ?_⟩
  rw [w.path_addPath_nextPath path]
  exact hnode

/-- The path above stays at the owner of a list. -/
theorem held_above (hsteps : w.Steps removable w')
    (habove : w.Knows above ∧ (w.path above).node = owner) :
    w'.Knows above ∧ (w'.path above).node = owner :=
  ⟨hsteps.knows habove.1, (hsteps.node_eq habove.1).trans habove.2⟩

/-- A walk is a sequence of steps if what the hooks do is. -/
theorem Runs.steps (hv : v.OnlyRemoves removable start) (h : Runs v task w calls turns r)
    (hw : start.Steps removable w) (hheld : task.Held w) : w.Steps removable (Edit.endOf r) := by
  induction h with
  | untyped htype => exact .refl
  | entered htype henter hhalts =>
    rw [← henter]
    exact steps_call hv hw hheld .enter _
  | halted htype henter hlive hbelow hhalts ih =>
    have hcall := steps_of_call_ok hv hw hheld henter
    exact hcall.trans (ih (hw.trans hcall) (Workspace.Steps.knows hcall hheld.1))
  | left htype henter hlive hbelow hleft ih =>
    have hcall := steps_of_call_ok hv hw hheld henter
    have hchildren := hcall.trans (ih (hw.trans hcall) (Workspace.Steps.knows hcall hheld.1))
    have hheld' := held_visit hchildren hheld
    exact hchildren.trans (steps_call hv (hw.trans hchildren) hheld' .exit _)
  | no_node hnode => exact .refl
  | children hshape hnames hfields ih => exact ih hw ⟨hheld, rfl⟩
  | fields_nil => exact .refl
  | fields_stop hfield ih => exact ih hw hheld
  | fields_cons hfield hrest ih ihrest =>
    have hsteps := ih hw hheld
    exact hsteps.trans (ihrest (hw.trans hsteps) (held_above hsteps hheld))
  | field_absent hattr => exact .refl
  | field_skip hattr hnode => exact .refl
  | field_node hattr hnode hvisit ih =>
    have htake := step_field removable hattr hheld
    exact .head htake (ih (hw.tail htake) (held_nextPath hnode))
  | field_items hattr hentries ih => exact ih hw hheld
  | entries_end hindex => exact .refl
  | entries_skip hindex hnode hrest ih => exact ih hw hheld
  | entries_stop hindex hnode hvisit ih =>
    have htake := step_entry removable hindex hheld
    exact .head htake (ih (hw.tail htake) (held_nextPath hnode))
  | entries_next hindex hnode hvisit hrest ih ihrest =>
    have htake := step_entry removable hindex hheld
    have hsteps := Relation.ReflTransGen.head htake (ih (hw.tail htake) (held_nextPath hnode))
    exact hsteps.trans (ihrest (hw.trans hsteps) (held_above hsteps hheld))

/-- What is done at an entry, from the look at the list on, is a sequence of steps. -/
theorem Runs.steps_entry (hv : v.OnlyRemoves removable start) (hw : start.Steps removable w)
    (habove : w.Knows above ∧ (w.path above).node = owner)
    (hindex : (w.store.entries owner list)[index]? = some value)
    (hnode : w.store.isNode value = true)
    (h : Runs v (.visit w.nextPath) (w.addPath (.ofEntry value above list index)) calls turns r) :
    w.Steps removable (Edit.endOf r) := by
  have htake := step_entry removable hindex habove
  exact .head htake (h.steps hv (hw.tail htake) (held_nextPath hnode))

end Steps

/-! ### Bounds that are enough -/

section Bounds

variable {v : Visitor σ} {removable : Atom → Prop} {start w : Workspace σ} {p above : PathId}
  {owner value : Atom} {name list : String} {index depth : ℕ}

/-- What of a list is still to be looked at after a visit is part of what was to be looked at. -/
theorem drop_nextIndex_sublist {s s' : Store} (h : s.ShrinksTo s')
    (hindex : (s.entries owner list)[index]? = some value) :
    ((s'.entries owner list).drop (nextIndex s' owner list index value)).Sublist
      ((s.entries owner list).drop (index + 1)) := by
  have hsub := h.entries_sublist owner list
  unfold nextIndex
  by_cases hkept : (s'.entries owner list)[index]? = some value
  · rw [if_pos hkept]
    exact hsub.drop (index + 1)
  · rw [if_neg hkept]
    obtain ⟨hlt, hget⟩ := List.getElem?_eq_some_iff.mp hindex
    have hdrop := hsub.drop index
    rw [← List.getElem_cons_drop hlt, hget] at hdrop
    -- the entry is not the next one any more, so what is next came after it
    rcases List.sublist_cons_iff.mp hdrop with hrest | ⟨rest, heq, -⟩
    · exact hrest
    · refine absurd ?_ hkept
      rw [← List.head?_drop, heq, List.head?_cons]

/-- A visit that is given enough depth follows the rules of the walk without bounds. -/
def Follows (v : Visitor σ) (removable : Atom → Prop) (start : Workspace σ) (depth : ℕ)
    (visit : PathId → Edit σ Unit) : Prop :=
  ∀ p w, start.Steps removable w → (Task.visit p).Held w →
    (∀ q ∈ (w.path p).node.refs, q.index < depth) →
    ∃ calls turns, Runs v (.visit p) w calls turns ((visit p).run w)

variable {visit : PathId → Edit σ Unit}

theorem runs_entries (hv : v.OnlyRemoves removable start)
    (hvisit : Follows v removable start depth visit) (visits index : ℕ)
    (hw : start.Steps removable w) (hheld : w.Knows above ∧ (w.path above).node = owner)
    (hdepth : ∀ a ∈ w.store.entries owner list, ∀ q ∈ a.refs, q.index < depth)
    (hvisits : ((w.store.entries owner list).drop index).length ≤ visits) :
    ∃ calls turns, Runs v (.entries above owner list index) w calls turns
      ((entries visit above owner list visits index).run w) := by
  -- the index never moves left, so with each visit fewer entries are ahead
  induction visits generalizing index w with
  | zero =>
    have hindex : (w.store.entries owner list)[index]? = none := by
      rw [List.length_drop] at hvisits
      exact List.getElem?_eq_none (by omega)
    exact ⟨[], [], .entries_end hindex⟩
  | succ visits ih =>
    cases hindex : (w.store.entries owner list)[index]? with
    | none =>
      rw [run_entries_end hindex]
      exact ⟨[], [], .entries_end hindex⟩
    | some value =>
      have hlt : ((w.store.entries owner list).drop (index + 1)).length ≤ visits := by
        obtain ⟨hlt, -⟩ := List.getElem?_eq_some_iff.mp hindex
        rw [List.length_drop] at hvisits ⊢
        omega
      cases hnode : w.store.isNode value with
      | false =>
        rw [run_entries_skip hindex hnode]
        obtain ⟨calls, turns, hrest⟩ := ih (index + 1) hw hheld hdepth hlt
        exact ⟨calls, turns, .entries_skip hindex hnode hrest⟩
      | true =>
        have htake := step_entry removable hindex hheld
        obtain ⟨calls, turns, hruns⟩ := hvisit w.nextPath _ (hw.tail htake) (held_nextPath hnode)
          (by
            rw [w.path_addPath_nextPath]
            exact hdepth value (List.mem_of_getElem? hindex))
        cases hrun : (visit w.nextPath).run (w.addPath (.ofEntry value above list index)) with
        | error fault w' =>
          rw [hrun] at hruns
          rw [run_entries_stop hindex hnode hrun]
          exact ⟨calls, turns, .entries_stop hindex hnode hruns⟩
        | ok _ w' =>
          rw [hrun] at hruns
          have hsteps : w.Steps removable w' := hruns.steps_entry hv hw hheld hindex hnode
          have hshrinks := Workspace.Steps.shrinks hsteps
          have hrest : (entries visit above owner list (visits + 1) index).run w =
              (entries visit above owner list visits
                (nextIndex w'.store owner list index value)).run w' := by
            unfold nextIndex
            split
            · exact run_entries_kept hindex hnode hrun ‹_›
            · exact run_entries_gone hindex hnode hrun ‹_›
          obtain ⟨calls', turns', hruns'⟩ := ih (nextIndex w'.store owner list index value)
            (hw.trans hsteps) (held_above hsteps hheld)
            (fun a ha => hdepth a ((hshrinks.entries_sublist owner list).subset ha))
            ((drop_nextIndex_sublist hshrinks hindex).length_le.trans hlt)
          rw [hrest]
          exact ⟨_, _, .entries_next hindex hnode hruns hruns'⟩

/-- What an object holds comes before the object. -/
theorem index_lt_of_attr? {s : Store} {v : Value} (hattr : s.attr? owner name = some v)
    (hdepth : ∀ q ∈ owner.refs, q.index < depth + 1) : ∀ q ∈ v.refs, q.index < depth := by
  obtain ⟨r, o, rfl, ho, hv⟩ := Store.exists_obj_of_attr? hattr
  intro q hq
  rw [Value.refs_eq] at hq
  obtain ⟨a, ha, hq⟩ := List.mem_flatMap.mp hq
  have hlt := Store.refs_index_lt ho (Obj.mem_refs_of_mem_atoms (Obj.atoms_subset_of_attr? hv ha) hq)
  have hr := hdepth r (Atom.mem_refs.mpr rfl)
  omega

theorem runs_field (hv : v.OnlyRemoves removable start)
    (hvisit : Follows v removable start depth visit) (hw : start.Steps removable w)
    (hheld : w.Knows above ∧ (w.path above).node = owner)
    (hdepth : ∀ q ∈ owner.refs, q.index < depth + 1) :
    ∃ calls turns, Runs v (.field above owner name) w calls turns
      ((field visit above owner name).run w) := by
  cases hattr : w.store.attr? owner name with
  | none =>
    rw [run_field_absent hattr]
    exact ⟨[], [], .field_absent hattr⟩
  | some u =>
    have hbelow := index_lt_of_attr? hattr hdepth
    cases u with
    | items values =>
      have hentries := Store.entries_of_attr? hattr
      rw [run_field_items hattr]
      obtain ⟨calls, turns, hruns⟩ : ∃ calls turns, Runs v (.entries above owner name 0) w calls
          turns ((entries visit above owner name values.length 0).run w) :=
        runs_entries hv hvisit values.length 0 hw hheld
        (fun a ha q hq => hbelow q (List.mem_flatMap.mpr ⟨a, hentries ▸ ha, hq⟩))
        (by rw [hentries, List.drop_zero])
      exact ⟨calls, turns, .field_items hattr hruns⟩
    | atom value =>
      cases hnode : w.store.isNode value with
      | false =>
        rw [run_field_skip hattr hnode]
        exact ⟨[], [], .field_skip hattr hnode⟩
      | true =>
        rw [run_field_node hattr hnode]
        obtain ⟨calls, turns, hruns⟩ := hvisit w.nextPath _ (hw.tail (step_field _ hattr hheld))
          (held_nextPath hnode) (by rwa [w.path_addPath_nextPath])
        exact ⟨calls, turns, .field_node hattr hnode hruns⟩

theorem runs_fields (hv : v.OnlyRemoves removable start)
    (hvisit : Follows v removable start depth visit) (names : List String)
    (hw : start.Steps removable w) (hheld : w.Knows above ∧ (w.path above).node = owner)
    (hdepth : ∀ q ∈ owner.refs, q.index < depth + 1) :
    ∃ calls turns, Runs v (.fields above owner names) w calls turns
      ((fields visit above owner names).run w) := by
  induction names generalizing w with
  | nil => exact ⟨[], [], .fields_nil⟩
  | cons name names ih =>
    obtain ⟨calls, turns, hruns⟩ : ∃ calls turns, Runs v (.field above owner name) w calls turns
        ((field visit above owner name).run w) := runs_field hv hvisit hw hheld hdepth
    cases hrun : (field visit above owner name).run w with
    | error fault w' =>
      rw [hrun] at hruns
      rw [run_fields_stop hrun]
      exact ⟨calls, turns, .fields_stop hruns⟩
    | ok _ w' =>
      rw [hrun] at hruns
      have hsteps := hruns.steps hv hw hheld
      obtain ⟨calls', turns', hruns'⟩ := ih (hw.trans hsteps) (held_above hsteps hheld)
      rw [run_fields_cons hrun]
      exact ⟨_, _, .fields_cons hruns hruns'⟩

theorem runs_children (hv : v.OnlyRemoves removable start)
    (hvisit : Follows v removable start depth visit) (hw : start.Steps removable w)
    (hp : w.Knows p) (hdepth : ∀ q ∈ (w.path p).node.refs, q.index < depth + 1) :
    ∃ calls turns, Runs v (.children p) w calls turns ((children visit p).run w) := by
  cases hnode : w.store.isNode (w.path p).node with
  | false =>
    rw [run_children_of_not_isNode hnode]
    exact ⟨[], [], .no_node hnode⟩
  | true =>
    obtain ⟨r, shape, attributes, hr, ho, hshape⟩ := Store.exists_record_of_isNode hnode
    obtain ⟨names, hnames⟩ := Shape.exists_fields_of_isNode hshape
    have hshape? : w.store.shape? (w.path p).node = some shape := by
      rw [hr]
      exact Store.shape?_ref ho
    rw [run_children hshape? hnames]
    obtain ⟨calls, turns, hruns⟩ := runs_fields hv hvisit names hw ⟨hp, rfl⟩ hdepth
    exact ⟨calls, turns, .children hshape? hnames hruns⟩

/-- A visit calls the hook for entering, looks below the node and calls the hook for leaving, as long
as there is no fault and the path has not removed the node. -/
theorem run_visit {type : Tree} (htype : (Edit.typeOf (w.path p).node).run w = .ok type w) :
    (Walk.visit v (depth + 1) p).run w =
      match Call.outcome v ⟨.enter, p, type, w⟩ with
      | .error fault w₁ => .error fault w₁
      | .ok _ w₁ =>
        if (w₁.path p).removed then .ok () w₁
        else match (children (Walk.visit v depth) p).run w₁ with
          | .error fault w₂ => .error fault w₂
          | .ok _ w₂ =>
            if (w₂.path p).removed then .ok () w₂ else Call.outcome v ⟨.exit, p, type, w₂⟩ := by
  unfold Walk.visit
  simp only [EStateM.run_bind, Edit.run_path, htype]
  have henter : (call (hooks v type).enter p).run w = Call.outcome v ⟨.enter, p, type, w⟩ := rfl
  rw [henter]
  cases Call.outcome v ⟨.enter, p, type, w⟩ with
  | error fault w₁ => rfl
  | ok _ w₁ =>
    dsimp only
    cases (w₁.path p).removed with
    | true => rfl
    | false =>
      simp only [Bool.false_eq_true, if_false, EStateM.run_bind]
      cases (children (Walk.visit v depth) p).run w₁ with
      | error fault w₂ => rfl
      | ok _ w₂ =>
        dsimp only
        rw [Edit.run_path]
        dsimp only
        cases (w₂.path p).removed <;> rfl

theorem run_visit_untyped {fault : Fault}
    (htype : (Edit.typeOf (w.path p).node).run w = .error fault w) :
    (Walk.visit v (depth + 1) p).run w = .error fault w := by
  unfold Walk.visit
  simp only [EStateM.run_bind, Edit.run_path, htype]

/-- A visit that may go as deep as the index of its node is a visit without bounds. -/
theorem runs_visit (hv : v.OnlyRemoves removable start) (depth : ℕ) :
    Follows v removable start depth (Walk.visit v depth) := by
  -- an object comes after what hangs in it, so what is below the node needs less depth
  induction depth with
  | zero =>
    intro p w _ hheld hdepth
    obtain ⟨r, shape, attributes, hr, -⟩ := Store.exists_record_of_isNode hheld.2
    exact absurd (hdepth r (hr ▸ Atom.mem_refs.mpr rfl)) (Nat.not_lt_zero _)
  | succ depth ih =>
    intro p w hw hheld hdepth
    rcases Edit.run_typeOf_or w (w.path p).node with ⟨type, htype⟩ | ⟨-, fault, htype⟩
    · cases henter : Call.outcome v ⟨.enter, p, type, w⟩ with
      | error fault w₁ =>
        rw [run_visit htype, henter]
        exact ⟨_, _, .entered htype henter trivial⟩
      | ok _ w₁ =>
        have hcall := steps_of_call_ok hv hw hheld henter
        have hknown := Workspace.Steps.knows hcall hheld.1
        rw [run_visit htype, henter]
        dsimp only
        cases hlive : (w₁.path p).removed with
        | true => exact ⟨_, _, .entered htype henter hlive⟩
        | false =>
          obtain ⟨calls, turns, hbelow⟩ := runs_children hv ih (hw.trans hcall) hknown
            (by rwa [Workspace.Steps.node_eq hcall hheld.1])
          cases hchildren : (children (Walk.visit v depth) p).run w₁ with
          | error fault w₂ =>
            rw [hchildren] at hbelow
            exact ⟨_, _, .halted htype henter hlive hbelow trivial⟩
          | ok _ w₂ =>
            rw [hchildren] at hbelow
            dsimp only
            cases hleft : (w₂.path p).removed with
            | true => exact ⟨_, _, .halted htype henter hlive hbelow hleft⟩
            | false => exact ⟨_, _, .left htype henter hlive hbelow hleft⟩
    · rw [run_visit_untyped htype]
      exact ⟨[], [], .untyped htype⟩

end Bounds

end Walk

/-! ### Walks from a value and below a path -/

namespace Edit

variable {v : Visitor σ} {removable : Atom → Prop} {w : Workspace σ} {p : PathId} {node : Atom}

theorem index_lt_of_isNode {s : Store} (h : s.isNode node = true) :
    ∀ q ∈ node.refs, q.index < s.size := by
  obtain ⟨r, shape, attributes, rfl, ho, -⟩ := Store.exists_record_of_isNode h
  intro q hq
  cases Atom.mem_refs.mp hq
  exact Store.index_lt_size ho

/-- A walk of a node follows the rules of the walk without bounds. -/
theorem runs_walk (hv : v.OnlyRemoves removable (w.addPath (.start node)))
    (hnode : w.store.isNode node = true) :
    ∃ calls turns, Walk.Runs v (.visit w.nextPath) (w.addPath (.start node)) calls turns
      ((walk v node).run w) := by
  rw [run_walk]
  refine Walk.runs_visit hv _ w.nextPath _ .refl (Walk.held_nextPath hnode) fun q hq => ?_
  rw [w.path_addPath_nextPath] at hq
  exact Nat.lt_succ_of_lt (index_lt_of_isNode hnode q hq)

/-- So does a walk below a path. -/
theorem runs_walkBelow (hv : v.OnlyRemoves removable w) (hp : (w.path p).node ≠ .null)
    (hlive : (w.path p).removed = false) :
    ∃ calls turns, Walk.Runs v (.children p) w calls turns ((walkBelow v p).run w) := by
  rw [run_walkBelow hp hlive]
  cases hnode : w.store.isNode (w.path p).node with
  | false =>
    rw [Walk.run_children_of_not_isNode hnode]
    exact ⟨[], [], .no_node hnode⟩
  | true =>
    exact Walk.runs_children hv (Walk.runs_visit hv _) .refl (Workspace.knows_of_node_ne hp)
      fun q hq => Nat.lt_succ_of_lt (index_lt_of_isNode hnode q hq)

end Edit

end NamedExports
