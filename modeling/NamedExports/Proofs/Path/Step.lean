import Mathlib.Logic.Relation
import NamedExports.Path.Get
import NamedExports.Proofs.Path.Removal

/-!
# Steps with held paths

Three things happen to a workspace whose paths are held: notes are changed, new paths are taken to
what hangs below held ones, and nodes are removed through held paths.  Whatever is done through
paths is a sequence of such steps (`Workspace.Steps`).  The store only shrinks on the way, and a held
path leads to the same value in the same list or field, however many steps later
(`Workspace.Steps.ages`).

An edit goes by steps if running it is such a sequence, whether it succeeds or not
(`Edit.BySteps`); following dotted paths is one (`Edit.bySteps_get`).
-/

namespace NamedExports

variable {σ : Type}

/-- A path later on: the same but for the index, and for having removed its node. -/
structure Path.Ages (path path' : Path) : Prop where
  node : path'.node = path.node
  above : path'.above = path.above
  slot : path'.slot.unindexed = path.slot.unindexed
  removed : path.removed = true → path'.removed = true

namespace Path.Ages

theorem refl (path : Path) : path.Ages path :=
  ⟨rfl, rfl, rfl, id⟩

theorem trans {path path' path'' : Path} (h : path.Ages path') (h' : path'.Ages path'') :
    path.Ages path'' :=
  ⟨h'.node.trans h.node, h'.above.trans h.above, h'.slot.trans h.slot, h'.removed ∘ h.removed⟩

end Path.Ages

namespace Workspace

/-! ### Steps -/

/-- The paths that can be taken while some are held. -/
inductive Offers (w : Workspace σ) : Path → Prop
  /-- To the value of a held path, for itself. -/
  | start {p : PathId} (hp : w.Knows p) : w.Offers (.start (w.path p).node)
  /-- To nothing. -/
  | missing {above : Option PathId} (h : ∀ p ∈ above, w.Knows p) : w.Offers (.missing above)
  /-- To what a field of the value of a held path holds. -/
  | field {p : PathId} {name : String} {value : Atom} (hp : w.Knows p)
      (hattr : w.store.attr? (w.path p).node name = some (.atom value)) :
      w.Offers (.ofField value p name)
  /-- To an entry of a list of the value of a held path. -/
  | entry {p : PathId} {list : String} {index : ℕ} {value : Atom} (hp : w.Knows p)
      (hindex : (w.store.entries (w.path p).node list)[index]? = some value) :
      w.Offers (.ofEntry value p list index)

/-- What is done with held paths, where values of some kind are removed only. -/
inductive Step (removable : Atom → Prop) : Workspace σ → Workspace σ → Prop
  | note (w : Workspace σ) (f : σ → σ) : Step removable w { w with notes := f w.notes }
  | take {w : Workspace σ} {path : Path} (h : w.Offers path) : Step removable w (w.addPath path)
  | remove {w w' : Workspace σ} {p : PathId} (hnode : removable (w.path p).node)
      (h : (Edit.remove p).run w = .ok () w') : Step removable w w'

/-- Any number of steps. -/
abbrev Steps (removable : Atom → Prop) : Workspace σ → Workspace σ → Prop :=
  Relation.ReflTransGen (Step removable)

variable {removable removable' : Atom → Prop} {w w' : Workspace σ} {p : PathId} {q : Ref}

/-- A step through which fewer kinds of values can be removed is a step. -/
theorem Step.mono (h : ∀ a, removable a → removable' a) (hstep : w.Step removable w') :
    w.Step removable' w' := by
  cases hstep with
  | note f => exact .note w f
  | take hpath => exact .take hpath
  | remove hnode hrun => exact .remove (h _ hnode) hrun

theorem Steps.mono (h : ∀ a, removable a → removable' a) (hsteps : w.Steps removable w') :
    w.Steps removable' w' :=
  Relation.ReflTransGen.mono (fun _ _ => Step.mono h) _ _ hsteps

/-- Steps make the store shrink. -/
theorem Step.shrinks (h : w.Step removable w') : w.store.ShrinksTo w'.store := by
  cases h with
  | note f => exact .refl _
  | take hpath => exact .refl _
  | remove hnode hrun =>
    obtain ⟨-, -, owner, place, ⟨-, -, o, ho, hat⟩, rfl⟩ := Edit.of_run_remove_ok hrun
    exact Store.shrinksTo_without ho hat

theorem Steps.shrinks (h : w.Steps removable w') : w.store.ShrinksTo w'.store := by
  induction h with
  | refl => exact .refl _
  | tail _ hstep ih => exact ih.trans hstep.shrinks

/-- Without a removal the tree stays, and so do the held paths. -/
theorem Steps.store_eq (h : w.Steps (fun _ => False) w') : w'.store = w.store := by
  induction h with
  | refl => rfl
  | tail _ hstep ih =>
    cases hstep with
    | note f => exact ih
    | take hpath => exact ih
    | remove hnode hrun => exact hnode.elim

theorem Steps.keepsPaths (h : w.Steps (fun _ => False) w') : w.KeepsPaths w' := by
  induction h with
  | refl => exact .refl w
  | @tail w₁ _ _ hstep ih =>
    cases hstep with
    | note f => exact ih
    | take hpath => exact ih.trans (w₁.keepsPaths_addPath _)
    | remove hnode hrun => exact hnode.elim

/-- Held paths stay held. -/
theorem Step.knows (h : w.Step removable w') (hp : w.Knows p) : w'.Knows p := by
  cases h with
  | note f => exact hp
  | take hpath => exact (w.keepsPaths_addPath _ p hp).1
  | remove hnode hrun =>
    obtain ⟨-, -, owner, place, -, rfl⟩ := Edit.of_run_remove_ok hrun
    exact knows_removing.mpr hp

theorem Steps.knows (h : w.Steps removable w') (hp : w.Knows p) : w'.Knows p := by
  induction h with
  | refl => exact hp
  | tail _ hstep ih => exact hstep.knows ih

/-- Held paths lead where they led. -/
theorem Step.ages (h : w.Step removable w') (hp : w.Knows p) : (w.path p).Ages (w'.path p) := by
  cases h with
  | note f => exact .refl _
  | take hpath =>
    rw [(w.keepsPaths_addPath _ p hp).2]
    exact .refl _
  | @remove _ q hnode hrun =>
    obtain ⟨-, -, owner, place, hat, rfl⟩ := Edit.of_run_remove_ok hrun
    by_cases hpq : p = q
    · subst hpq
      rw [path_removing_self hp]
      exact ⟨rfl, rfl, hat.slot, fun _ => rfl⟩
    · rw [path_removing_of_ne hpq]
      exact .refl _

theorem Steps.ages (h : w.Steps removable w') (hp : w.Knows p) : (w.path p).Ages (w'.path p) := by
  induction h with
  | refl => exact .refl _
  | tail hsteps hstep ih => exact ih.trans (hstep.ages (Steps.knows hsteps hp))

theorem Steps.node_eq (h : w.Steps removable w') (hp : w.Knows p) :
    (w'.path p).node = (w.path p).node :=
  (h.ages hp).node

/-- The value above a held path stays, if the path above is held too. -/
theorem Steps.parent_eq (h : w.Steps removable w') (hp : w.Knows p)
    (habove : ∀ q ∈ (w.path p).above, w.Knows q) : w'.parent p = w.parent p := by
  unfold parent
  rw [(h.ages hp).above]
  cases hq : (w.path p).above with
  | none => rfl
  | some q => exact h.node_eq (habove q hq)

/-- The paths above held paths are held. -/
def Closed (w : Workspace σ) : Prop :=
  ∀ p, w.Knows p → ∀ q ∈ (w.path p).above, w.Knows q

/-- In a workspace without paths there is nothing to hold. -/
theorem closed_ofStore (s : Store) (notes : σ) : (Workspace.ofStore s notes).Closed :=
  fun _ hp => absurd hp (Nat.not_lt_zero _)

/-- A path that is held once another one has been taken was held before, or is that one. -/
theorem knows_of_addPath {path : Path} (hp : (w.addPath path).Knows p) :
    w.Knows p ∨ p = w.nextPath := by
  by_cases hold : w.Knows p
  · exact Or.inl hold
  · have hlt : p.index < (w.paths.push path).size := hp
    rw [Array.size_push] at hlt
    have hge : w.paths.size ≤ p.index := Nat.le_of_not_lt hold
    obtain ⟨index⟩ := p
    exact Or.inr (congrArg PathId.mk (by simp only at hlt hge; omega))

/-- A path whose path above is held can be taken. -/
theorem Closed.addPath (h : w.Closed) {path : Path} (hpath : ∀ q ∈ path.above, w.Knows q) :
    (w.addPath path).Closed := by
  intro p hp q hq
  rcases knows_of_addPath hp with hold | rfl
  · rw [(w.keepsPaths_addPath path p hold).2] at hq
    exact (w.keepsPaths_addPath path q (h p hold q hq)).1
  · rw [w.path_addPath_nextPath] at hq
    exact (w.keepsPaths_addPath path q (hpath q hq)).1

/-- The path above an offered path is held. -/
theorem Offers.knows_above {path : Path} (h : w.Offers path) : ∀ q ∈ path.above, w.Knows q := by
  cases h with
  | start hp => exact fun q hq => by cases hq
  | missing h => exact h
  | field hp hattr => exact fun q hq => Option.some.inj hq ▸ hp
  | entry hp hindex => exact fun q hq => Option.some.inj hq ▸ hp

theorem Step.closed (h : w.Step removable w') (hw : w.Closed) : w'.Closed := by
  cases h with
  | note f => exact hw
  | take hpath => exact hw.addPath hpath.knows_above
  | @remove _ q hnode hrun =>
    intro p hp r hr
    have hstep : w.Step removable w' := .remove hnode hrun
    obtain ⟨-, -, owner, place, -, rfl⟩ := Edit.of_run_remove_ok hrun
    have hknown := knows_removing.mp hp
    rw [(hstep.ages hknown).above] at hr
    exact knows_removing.mpr (hw p hknown r hr)

theorem Steps.closed (h : w.Steps removable w') (hw : w.Closed) : w'.Closed := by
  induction h with
  | refl => exact hw
  | tail _ hstep ih => exact hstep.closed ih

/-- A path that has removed its node has taken it out of the place where it hung. -/
theorem Steps.gone_of_removed {objects : List Ref} {owner : Ref} (h : w.Steps removable w')
    (hunshared : w.store.Unshared objects) (hp : w.Knows p) (hnode : (w.path p).node = .ref q)
    (habove : ∀ q ∈ (w.path p).above, w.Knows q) (hparent : w.parent p = .ref owner)
    (howner : owner ∈ objects) (hlive : (w.path p).removed = false)
    (hremoved : (w'.path p).removed = true) : w'.store.Gone objects q := by
  induction h with
  | refl =>
    rw [hlive] at hremoved
    cases hremoved
  | @tail w₁ w₂ hsteps hstep ih =>
    by_cases hbefore : (w₁.path p).removed = true
    · exact (ih hbefore).shrink hstep.shrinks
    · -- the step is the removal through the path
      have hknown := Steps.knows hsteps hp
      cases hstep with
      | note f => exact absurd hremoved hbefore
      | take hpath =>
        rw [(w₁.keepsPaths_addPath _ p hknown).2] at hremoved
        exact absurd hremoved hbefore
      | @remove _ other hremovable hrun =>
        obtain ⟨-, -, owner', place, ⟨hparent', -, o, ho, hat⟩, rfl⟩ := Edit.of_run_remove_ok hrun
        by_cases hother : p = other
        · subst hother
          rw [Steps.parent_eq hsteps hp habove, hparent] at hparent'
          cases hparent'
          rw [Steps.node_eq hsteps hp, hnode] at hat
          exact (hunshared.shrink (Steps.shrinks hsteps)).gone_without howner ho hat
        · rw [path_removing_of_ne hother] at hremoved
          exact absurd hremoved hbefore

end Workspace

/-- What has been found is held. -/
def Found.Known (found : Found) (w : Workspace σ) : Prop :=
  match found with
  | .one p => w.Knows p
  | .many ps => ∀ p ∈ ps, w.Knows p

/-! ### Edits that go by steps -/

/-- The workspace with which an edit has ended. -/
def Edit.endOf {α : Type} : EStateM.Result Fault (Workspace σ) α → Workspace σ
  | .ok _ w => w
  | .error _ w => w

namespace Edit

variable {α β : Type} {removable : Atom → Prop} {w w' : Workspace σ} {p : PathId}

/-- Running an edit is a number of steps, after which something holds if the edit has succeeded. -/
def BySteps (removable : Atom → Prop) (x : Edit σ α) (w : Workspace σ)
    (after : α → Workspace σ → Prop) : Prop :=
  w.Steps removable (endOf (x.run w)) ∧ ∀ a w', x.run w = .ok a w' → after a w'

variable {x : Edit σ α} {f : α → Edit σ β} {after : α → Workspace σ → Prop}
  {last : β → Workspace σ → Prop}

/-- An edit that only reads. -/
theorem bySteps_of_run {a : α} (h : x.run w = .ok a w) (ha : after a w) :
    BySteps removable x w after := by
  refine ⟨?_, fun b w' hb => ?_⟩
  · rw [h]
    exact .refl
  · rw [h] at hb
    cases hb
    exact ha

theorem bySteps_pure {a : α} (ha : after a w) : BySteps removable (pure a : Edit σ α) w after :=
  bySteps_of_run rfl ha

theorem bySteps_throw (fault : Fault) : BySteps removable (throw fault : Edit σ α) w after :=
  ⟨.refl, fun _ _ h => by cases h⟩

/-- An edit that fails without having changed anything. -/
theorem bySteps_of_error {fault : Fault} (h : x.run w = .error fault w) :
    BySteps removable x w after := by
  refine ⟨?_, fun a w' hrun => ?_⟩
  · rw [h]
    exact .refl
  · rw [h] at hrun
    cases hrun

theorem bySteps_ofExcept (value : Except Fault α) :
    BySteps removable (ofExcept value : Edit σ α) w fun _ w' => w' = w := by
  cases value with
  | ok a => exact bySteps_pure rfl
  | error fault => exact bySteps_throw fault

/-- A single step. -/
theorem bySteps_of_step {a : α} (h : x.run w = .ok a w') (hstep : w.Step removable w')
    (ha : after a w') : BySteps removable x w after := by
  refine ⟨?_, fun b w'' hb => ?_⟩
  · rw [h]
    exact .single hstep
  · rw [h] at hb
    cases hb
    exact ha

/-- An edit that has succeeded has gone by steps. -/
theorem BySteps.of_run_ok {a : α} (h : BySteps removable x w after) (hrun : x.run w = .ok a w') :
    w.Steps removable w' ∧ after a w' := by
  obtain ⟨hsteps, hafter⟩ := h
  rw [hrun] at hsteps
  exact ⟨hsteps, hafter a w' hrun⟩

/-- One edit after the other. -/
theorem BySteps.bind (h : BySteps removable x w after)
    (hf : ∀ a w', w.Steps removable w' → after a w' → BySteps removable (f a) w' last) :
    BySteps removable (x >>= f) w last := by
  obtain ⟨hsteps, hafter⟩ := h
  unfold BySteps
  rw [EStateM.run_bind]
  cases hrun : x.run w with
  | error fault w' =>
    rw [hrun] at hsteps
    exact ⟨hsteps, fun _ _ h => by cases h⟩
  | ok a w' =>
    rw [hrun] at hsteps
    obtain ⟨hrest, hfinally⟩ := hf a w' hsteps (hafter a w' hrun)
    exact ⟨hsteps.trans hrest, hfinally⟩

/-- What is read leaves the workspace as it is. -/
theorem bySteps_bind_read {a : α} (h : x.run w = .ok a w) (hf : BySteps removable (f a) w last) :
    BySteps removable (x >>= f) w last := by
  unfold BySteps
  rw [run_bind_ok h]
  exact hf

/-! ### Removing, noting and following -/

/-- Removing through a path is one step, or none if it is refused. -/
theorem bySteps_remove (hnode : (w.path p).node ≠ .null → removable (w.path p).node) :
    BySteps removable (remove p) w fun _ _ => True := by
  refine ⟨?_, fun _ _ _ => trivial⟩
  cases hrun : (remove p).run w with
  | ok a w' => exact .single (.remove (hnode (of_run_remove_ok hrun).2.1) hrun)
  | error fault w' =>
    rw [of_run_remove_error hrun]
    exact .refl

theorem bySteps_note (g : σ → σ) : BySteps removable (note g) w fun _ _ => True :=
  bySteps_of_step (run_note w g) (.note w g) trivial

theorem bySteps_newPath {path : Path} (h : w.Offers path) :
    BySteps removable (newPath path) w fun p w' => w'.Knows p ∧ w'.path p = path :=
  bySteps_of_step (run_newPath w path) (.take h)
    ⟨w.knows_addPath_nextPath path, w.path_addPath_nextPath path⟩

/-- The paths of the entries of a list are taken one after the other. -/
theorem bySteps_entryPaths {list : String} (values : List Atom) (first : ℕ) (hp : w.Knows p)
    (hentries : ∀ k value, values[k]? = some value →
      (w.store.entries (w.path p).node list)[first + k]? = some value) :
    BySteps removable (entryPaths p list first values) w fun ps w' => ∀ q ∈ ps, w'.Knows q := by
  induction values generalizing first w with
  | nil => exact bySteps_pure fun _ hq => absurd hq List.not_mem_nil
  | cons value values ih =>
    have hfirst : w.Offers (.ofEntry value p list first) := .entry hp (hentries 0 value rfl)
    have hnew : BySteps removable (newPath (.ofEntry value p list first)) w fun q w' =>
        w' = w.addPath (.ofEntry value p list first) ∧ q = w.nextPath :=
      bySteps_of_step (run_newPath w _) (.take hfirst) ⟨rfl, rfl⟩
    refine hnew.bind ?_
    rintro _ _ - ⟨rfl, rfl⟩
    obtain ⟨hp', hpath⟩ := w.keepsPaths_addPath (.ofEntry value p list first) p hp
    refine (ih (first + 1) hp' fun k other hk => ?_).bind fun ps w' hsteps hps => ?_
    · rw [hpath, Workspace.store_addPath, Nat.add_assoc, Nat.add_comm 1 k]
      exact hentries (k + 1) other hk
    · refine bySteps_pure (List.forall_mem_cons.mpr ⟨?_, hps⟩)
      exact hsteps.knows (w.knows_addPath_nextPath _)

/-- What a part leads to is offered. -/
theorem bySteps_step (hp : w.Knows p) (part : String) :
    BySteps removable (step p part) w Found.Known := by
  have hone : ∀ path, w.Offers path →
      BySteps removable (do return Found.one (← newPath path)) w Found.Known :=
    fun path hpath => (bySteps_newPath hpath).bind fun q w' _ hq => bySteps_pure hq.1
  have hmissing : w.Offers (.missing (some p)) := .missing fun q hq => Option.some.inj hq ▸ hp
  unfold step
  refine bySteps_bind_read (run_path w p) (bySteps_bind_read (run_store w) ?_)
  split
  · exact hone _ hmissing
  · split
    · exact hone _ hmissing
    · exact hone _ (.field hp ‹_›)
    · rename_i values hattr
      refine (bySteps_entryPaths values 0 hp fun k value hk => ?_).bind fun ps w' _ hps =>
        bySteps_pure hps
      rw [Nat.zero_add]
      unfold Store.entries
      rw [hattr]
      exact hk

/-- Following parts only takes paths. -/
theorem bySteps_follow (found : Found) (parts : List String) (hfound : found.Known w) :
    BySteps removable (follow found parts) w Found.Known := by
  induction parts generalizing found w with
  | nil =>
    unfold follow
    exact bySteps_pure hfound
  | cons part parts ih =>
    cases found with
    | one p =>
      unfold follow
      exact (bySteps_step hfound part).bind fun next w' _ hnext => ih next hnext
    | many ps =>
      have hchoose : BySteps removable (choose ps part : Edit σ (Option PathId)) w
          fun chosen w' => w' = w ∧ ∀ q ∈ chosen, w.Knows q := by
        unfold choose
        split
        · exact bySteps_pure ⟨rfl, fun q hq => by cases hq⟩
        · exact bySteps_throw _
        · exact bySteps_throw _
        · exact bySteps_pure ⟨rfl, fun q hq => hfound q (List.mem_of_getElem? hq)⟩
      unfold follow
      refine hchoose.bind ?_
      rintro chosen _ - ⟨rfl, hknown⟩
      cases chosen with
      | none => exact (bySteps_newPath (.missing hknown)).bind fun q w' _ hq => bySteps_pure hq.1
      | some q => exact ih (.one q) (hknown q rfl)

/-- Following a dotted path only takes paths. -/
theorem bySteps_get (hp : w.Knows p) (dotted : String) :
    BySteps removable (get p dotted) w Found.Known :=
  bySteps_follow (.one p) (Text.dotted dotted) hp

end Edit

end NamedExports
