import NamedExports.Export.Strip
import NamedExports.Proofs.Path.Resolve
import NamedExports.Proofs.Walk.Trace
import NamedExports.Walk.Script

/-!
# Visitors that only remove

Scripts and the stripping of object patterns do nothing but remove nodes through held paths
(`Script.removesAnywhere`, `Strip.removesAnywhere`), and so do whole walks whose visitors do nothing else
(`Edit.bySteps_walk`, `Edit.bySteps_walkBelow`).  What is removed by stripping is always an object
(`Strip.onlyRemoves`).
-/

namespace NamedExports

variable {σ : Type}

/-- Values of all kinds. -/
def anyValue (_ : Atom) : Prop := True

/-- The hooks of a visitor do nothing but remove, whatever the value of the path is at which they are
called. -/
def Visitor.RemovesAnywhere (v : Visitor σ) (start : Workspace σ) : Prop :=
  ∀ w, start.Steps anyValue w → ∀ p, w.Knows p → ∀ type phase f, (v type).at phase = some f →
    Edit.BySteps anyValue (f p) w fun _ _ => True

theorem Visitor.RemovesAnywhere.onlyRemoves {v : Visitor σ} {start : Workspace σ}
    (h : v.RemovesAnywhere start) : v.OnlyRemoves anyValue start :=
  fun w hw p hp _ type phase f hf => (h w hw p hp type phase f hf).1

/-! ### Scripts -/

namespace Script

open Edit

variable {w : Workspace (List Event)} {p : PathId}

theorem bySteps_removeFound {found : Found} :
    BySteps anyValue (removeFound found) w fun _ _ => True := by
  unfold removeFound
  cases found with
  | one p => exact bySteps_remove fun _ => trivial
  | many ps => exact bySteps_throw _

/-- What is removed by an action is removed through a held path. -/
theorem bySteps_act (phase : String) (hclosed : w.Closed) (hp : w.Knows p) (action : Action) :
    BySteps anyValue (act phase p action) w fun _ _ => True := by
  cases action with
  | log =>
    unfold act
    refine bySteps_bind_read (run_path w p) (bySteps_bind_read (run_store w) ?_)
    rcases run_typeOf_or w (w.path p).node with ⟨type, htype⟩ | ⟨-, fault, htype⟩
    · exact bySteps_bind_read htype (bySteps_note _)
    · exact bySteps_of_error (by rw [EStateM.run_bind, htype])
  | remove => exact bySteps_remove fun _ => trivial
  | removeAbove =>
    unfold act
    refine bySteps_bind_read (run_path w p) ?_
    cases (w.path p).above with
    | some above => exact bySteps_remove fun _ => trivial
    | none => exact bySteps_throw _
  | removeAt dotted => exact (bySteps_get hp dotted).bind fun _ _ _ _ => bySteps_removeFound
  | removeNeighbour distance =>
    unfold act
    refine bySteps_bind_read (run_path w p) ?_
    split
    · rename_i above list index habove hslot
      exact (bySteps_get (hclosed p hp above habove) _).bind fun _ _ _ _ => bySteps_removeFound
    · exact bySteps_throw _
    · exact bySteps_throw _

/-- The instructions of a phase are done one after the other. -/
theorem bySteps_run (phase : String) (instructions : List Instruction) (hclosed : w.Closed)
    (hp : w.Knows p) : BySteps anyValue (run phase instructions p) w fun _ _ => True := by
  induction instructions generalizing w with
  | nil => exact bySteps_pure trivial
  | cons i is ih =>
    have hrest : ∀ w', w.Steps anyValue w' → BySteps anyValue (run phase is p) w' fun _ _ => True :=
      fun w' hsteps => ih (hsteps.closed hclosed) (hsteps.knows hp)
    have hact : BySteps anyValue (do act phase p i.action; run phase is p) w fun _ _ => True :=
      (bySteps_act phase hclosed hp i.action).bind fun _ w' hsteps _ => hrest w' hsteps
    unfold run
    cases i.onlyAt with
    | none => exact hact
    | some wanted =>
      refine bySteps_bind_read (run_store w) (bySteps_bind_read (run_path w p) ?_)
      dsimp only
      split
      · exact hact
      · exact hrest w .refl

/-- Scripts only remove. -/
theorem removesAnywhere (handlers : List (String × Handler)) {start : Workspace (List Event)}
    (hclosed : start.Closed) : (visitor handlers).RemovesAnywhere start := by
  intro w hw p hp type phase f hf
  have hclosed' := Workspace.Steps.closed hw hclosed
  unfold visitor at hf
  cases hlookup : handlers.lookup type with
  | none =>
    rw [hlookup] at hf
    cases phase <;> cases hf
  | some h =>
    rw [hlookup] at hf
    cases phase with
    | enter =>
      cases hf
      exact bySteps_run h.enterPhase h.enter hclosed' hp
    | exit =>
      cases hf
      exact bySteps_run "exit" h.exit hclosed' hp

end Script

/-! ### Stripping -/

namespace Strip

open Edit

variable {removable : Atom → Prop} {w : Workspace σ} {p : PathId}

/-- What binds a name is an object. -/
theorem exists_ref_of_binds {s : Store} {names : List String} {entry : Atom}
    (h : binds names (s.tree entry) = .ok true) : ∃ r, entry = .ref r := by
  cases entry with
  | ref r => exact ⟨r, rfl⟩
  | _ => simp [binds, Tree.hasType, Tree.get, Tree.attr?, Tree.isText] at h

/-- Stripping a pattern only removes entries of it that are objects. -/
theorem bySteps_properties (hobjects : ∀ r, removable (.ref r)) (names : List String)
    (steps index : ℕ) (hp : w.Knows p) :
    BySteps removable (properties names p steps index) w fun _ _ => True := by
  induction steps generalizing w index with
  | zero => exact bySteps_pure trivial
  | succ steps ih =>
    unfold properties
    refine bySteps_bind_read (run_path w p) (bySteps_bind_read (run_store w) ?_)
    split
    · exact bySteps_pure trivial
    · rename_i entry hentry
      cases hbinds : binds names (w.store.tree entry) with
      | error fault => exact bySteps_throw fault
      | ok drops =>
        refine bySteps_bind_read rfl ?_
        cases drops with
        | false => exact ih (index + 1) hp
        | true =>
          obtain ⟨r, rfl⟩ := exists_ref_of_binds hbinds
          obtain ⟨q, -, hlist⟩ := Store.exists_items_of_entries hentry
          -- the path of the entry leads to the entry
          have hget : BySteps removable (get p s!"properties.{index}") w fun found w' =>
              found.Known w' ∧ found.Shows w' (.atom (.ref r)) := by
            rw [Text.properties_entry]
            obtain ⟨hsteps, hknown⟩ : BySteps removable
              (get p ("properties" ++ "." ++ toString index)) w Found.Known := bySteps_get hp _
            refine ⟨hsteps, fun found w' hrun => ⟨hknown found w' hrun, ?_⟩⟩
            exact shows_of_run_get_entry (by decide +kernel) (by decide) hlist hentry hrun
          refine hget.bind fun found w₁ hsteps hfound => ?_
          obtain ⟨hknown, q, rfl, hnode⟩ := hfound
          refine (bySteps_remove fun _ => hnode ▸ hobjects r).bind fun _ w₂ hsteps' _ => ?_
          exact ih index (hsteps'.knows (hsteps.knows hp))

theorem bySteps_pattern (hobjects : ∀ r, removable (.ref r)) (names : List String)
    (hp : w.Knows p) : BySteps removable (pattern names p) w fun _ _ => True := by
  unfold pattern
  refine bySteps_bind_read (run_store w) (bySteps_bind_read (run_path w p) ?_)
  refine (bySteps_ofExcept _).bind ?_
  rintro count _ - rfl
  exact bySteps_properties hobjects names count 0 hp

/-- The one hook of the visitor that strips. -/
theorem bySteps_hook (hobjects : ∀ r, removable (.ref r)) {names : List String} (hp : w.Knows p)
    {type : String} {phase : Phase} {f : PathId → Edit σ Unit}
    (hf : (visitor names type).at phase = some f) : BySteps removable (f p) w fun _ _ => True := by
  unfold visitor at hf
  split at hf
  · cases phase with
    | enter =>
      cases hf
      exact bySteps_pattern hobjects names hp
    | exit => cases hf
  · cases phase <;> cases hf

/-- Stripping only removes. -/
theorem removesAnywhere (names : List String) (start : Workspace σ) :
    (visitor names).RemovesAnywhere start :=
  fun _ _ _ hp _ _ _ hf => bySteps_hook (fun _ => trivial) hp hf

/-- Stripping only removes objects. -/
theorem onlyRemoves (hobjects : ∀ r, removable (.ref r)) (names : List String)
    (start : Workspace σ) : (visitor names).OnlyRemoves removable start :=
  fun _ _ _ hp _ _ _ _ hf => (bySteps_hook hobjects hp hf).1

end Strip

/-! ### Walks -/

namespace Edit

variable {v : Visitor σ} {w : Workspace σ} {p : PathId}

/-- A visit of what is no node calls the hook for entering at most. -/
theorem bySteps_visit_of_not_isNode (hv : v.RemovesAnywhere w) (hp : w.Knows p)
    (hnode : w.store.isNode (w.path p).node = false) (depth : ℕ) :
    BySteps anyValue (Walk.visit v (depth + 1) p) w fun _ _ => True := by
  refine ⟨?_, fun _ _ _ => trivial⟩
  rcases run_typeOf_or w (w.path p).node with ⟨type, htype⟩ | ⟨-, fault, htype⟩
  · have hcall : w.Steps anyValue (endOf (Walk.Call.outcome v ⟨.enter, p, type, w⟩)) := by
      unfold Walk.Call.outcome Walk.Call.hook Walk.call
      dsimp only
      cases hhook : (Walk.hooks v type).at .enter with
      | none => exact .refl
      | some f =>
        cases type with
        | str text => exact (hv w .refl p hp text .enter f hhook).1
        | _ => cases hhook
    rw [Walk.run_visit htype]
    cases henter : Walk.Call.outcome v ⟨.enter, p, type, w⟩ with
    | error fault w₁ =>
      rw [henter] at hcall
      exact hcall
    | ok _ w₁ =>
      -- the call makes no node of it, so the walk finds no fields below it
      rw [henter] at hcall
      change w.Steps anyValue w₁ at hcall
      have hnode₁ : w₁.store.isNode (w₁.path p).node = false := by
        rw [Workspace.Steps.node_eq hcall hp, (Workspace.Steps.shrinks hcall).isNode_eq, hnode]
      dsimp only
      rw [Walk.run_children_of_not_isNode hnode₁]
      cases (w₁.path p).removed <;> exact hcall
  · rw [Walk.run_visit_untyped htype]
    exact .refl

/-- A walk of the value of a held path goes by steps if the visitor only removes. -/
theorem bySteps_walk (hp : w.Knows p)
    (hv : v.RemovesAnywhere (w.addPath (.start (w.path p).node))) :
    BySteps anyValue (walk v (w.path p).node) w fun _ _ => True := by
  refine ⟨?_, fun _ _ _ => trivial⟩
  have htake : w.Step anyValue (w.addPath (.start (w.path p).node)) := .take (.start hp)
  cases hnode : w.store.isNode (w.path p).node with
  | true =>
    obtain ⟨calls, turns, hruns⟩ := runs_walk hv.onlyRemoves hnode
    exact .head htake (hruns.steps hv.onlyRemoves .refl (Walk.held_nextPath hnode))
  | false =>
    rw [run_walk]
    refine .head htake (bySteps_visit_of_not_isNode hv (w.knows_addPath_nextPath _) ?_ _).1
    rw [w.path_addPath_nextPath]
    exact hnode

/-- So does a walk below a held path. -/
theorem bySteps_walkBelow {removable : Atom → Prop} (hv : v.OnlyRemoves removable w) (p : PathId) :
    BySteps removable (walkBelow v p) w fun _ _ => True := by
  refine ⟨?_, fun _ _ _ => trivial⟩
  by_cases hgo : (w.path p).node = .null ∨ (w.path p).removed = true
  · rw [run_walkBelow_stop hgo]
    exact .refl
  · push Not at hgo
    obtain ⟨hnode, hlive⟩ := hgo
    obtain ⟨calls, turns, hruns⟩ := runs_walkBelow hv hnode (by simpa using hlive)
    exact hruns.steps hv .refl (Workspace.knows_of_node_ne hnode)

end Edit

end NamedExports
