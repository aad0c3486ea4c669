import NamedExports.Proofs.Path.Entry
import NamedExports.Proofs.Path.Step

/-!
# Trails

What can be seen of a path, when identities are left aside, is the value it leads to, its place, and
the same of the paths above it, step by step (`Workspace.trail`).  What a dotted path leads to depends
on nothing else than the tree and the trail of the path that it is followed from
(`Edit.agree_follow`), so it makes no difference when it is followed, or what other paths have been
taken in the meantime.
-/

namespace NamedExports

variable {σ : Type}

/-- What can be seen of a single path. -/
structure Sight where
  node : Atom
  slot : Slot
  removed : Bool
  deriving DecidableEq

/-- What can be seen of a path and of the paths above it, by their distance. -/
abbrev Trail := ℕ → Option Sight

namespace Trail

/-- A path that is seen so, below one with the given trail if there is one. -/
def below (sight : Sight) (above : Option Trail) : Trail
  | 0 => some sight
  | k + 1 => above.bind (· k)

/-- A path to nothing that has no place, below so many more of them. -/
def hollow (n : ℕ) : Trail := fun k =>
  if k ≤ n then some ⟨.null, .nowhere, false⟩ else none

theorem hollow_zero : hollow 0 = below ⟨.null, .nowhere, false⟩ none := by
  funext k
  cases k with
  | zero => rfl
  | succ k => rfl

theorem hollow_succ (n : ℕ) : hollow (n + 1) = below ⟨.null, .nowhere, false⟩ (some (hollow n)) := by
  funext k
  cases k with
  | zero => rfl
  | succ k => simp [hollow, below]

end Trail

/-- What can be seen of a path by itself. -/
def Path.sight (path : Path) : Sight where
  node := path.node
  slot := path.slot
  removed := path.removed

namespace Workspace

variable {w w' : Workspace σ} {p p' q : PathId}

/-- What can be seen of a path and of the paths above it. -/
def trail (w : Workspace σ) (p : PathId) : Trail
  | 0 => some (w.path p).sight
  | k + 1 => (w.path p).above.bind fun above => w.trail above k

theorem trail_eq_below (w : Workspace σ) (p : PathId) :
    w.trail p = .below (w.path p).sight ((w.path p).above.map w.trail) := by
  funext k
  cases k with
  | zero => rfl
  | succ k =>
    unfold trail Trail.below
    cases (w.path p).above <;> rfl

theorem sight_eq_of_trail_eq (h : w.trail p = w'.trail p') :
    (w.path p).sight = (w'.path p').sight :=
  Option.some.inj (congrFun h 0)

/-- Paths with the same trail lead to the same value. -/
theorem node_eq_of_trail_eq (h : w.trail p = w'.trail p') :
    (w.path p).node = (w'.path p').node :=
  congrArg Sight.node (sight_eq_of_trail_eq h)

/-- The same value lies above them. -/
theorem parent_eq_of_trail_eq (h : w.trail p = w'.trail p') : w.parent p = w'.parent p' := by
  have habove := congrFun h 1
  unfold trail at habove
  unfold parent
  cases hp : (w.path p).above with
  | none =>
    cases hp' : (w'.path p').above with
    | none => rfl
    | some above' =>
      rw [hp, hp'] at habove
      cases habove
  | some above =>
    cases hp' : (w'.path p').above with
    | none =>
      rw [hp, hp'] at habove
      cases habove
    | some above' =>
      rw [hp, hp'] at habove
      exact congrArg Sight.node (Option.some.inj habove)

/-- Trails stay as long as the paths do. -/
theorem KeepsPaths.trail_eq (h : w.KeepsPaths w') (hclosed : w.Closed) (hp : w.Knows p) :
    w'.trail p = w.trail p := by
  funext k
  induction k generalizing p with
  | zero =>
    unfold trail
    rw [(h p hp).2]
  | succ k ih =>
    unfold trail
    rw [(h p hp).2]
    cases habove : (w.path p).above with
    | none => rfl
    | some above => exact ih (hclosed p hp above habove)

/-- The trail of a path that has been taken below a held one. -/
theorem KeepsPaths.trail_below (h : w.KeepsPaths w') (hclosed : w.Closed) (hp : w.Knows p)
    {path : Path} (hq : w'.path q = path) (habove : path.above = some p) :
    w'.trail q = .below path.sight (some (w.trail p)) := by
  rw [trail_eq_below, hq, habove, Option.map_some, h.trail_eq hclosed hp]

/-- A path to nothing without a path above it. -/
theorem trail_of_missing (hq : w.path q = .missing none) : w.trail q = .hollow 0 := by
  rw [trail_eq_below, hq, Trail.hollow_zero]
  rfl

theorem trail_addPath_missing : (w.addPath (.missing none)).trail w.nextPath = .hollow 0 :=
  trail_of_missing (w.path_addPath_nextPath _)

end Workspace

/-- The same has been found, identities left aside. -/
def Found.Agrees (w w' : Workspace σ) : Found → Found → Prop
  | .one p, .one p' => w.trail p = w'.trail p'
  | .many ps, .many ps' => List.Forall₂ (fun p p' => w.trail p = w'.trail p') ps ps'
  | _, _ => False

namespace Edit

open Workspace

variable {w w' : Workspace σ} {p p' : PathId} {found found' : Found}

/-- Two ways of finding something end alike: the same is found, or there is the same fault. -/
inductive Agree : EStateM.Result Fault (Workspace σ) Found →
    EStateM.Result Fault (Workspace σ) Found → Prop
  | ok {found found' : Found} {w w' : Workspace σ} (h : found.Agrees w w' found') :
      Agree (.ok found w) (.ok found' w')
  | error (fault : Fault) (w w' : Workspace σ) : Agree (.error fault w) (.error fault w')

/-! ### Following parts from paths with the same trail -/

/-- A new path below a held one is seen as what it is, below what the held one is seen as. -/
theorem agree_addPath (hclosed : w.Closed) (hclosed' : w'.Closed) (hp : w.Knows p)
    (hp' : w'.Knows p') (htrail : w.trail p = w'.trail p') {path path' : Path}
    (habove : path.above = some p) (habove' : path'.above = some p')
    (hsight : path.sight = path'.sight) :
    Agree (.ok (.one w.nextPath) (w.addPath path)) (.ok (.one w'.nextPath) (w'.addPath path')) := by
  have hnew := (w.keepsPaths_addPath path).trail_below hclosed hp (w.path_addPath_nextPath path)
    habove
  have hnew' := (w'.keepsPaths_addPath path').trail_below hclosed' hp'
    (w'.path_addPath_nextPath path') habove'
  refine .ok ?_
  show (w.addPath path).trail w.nextPath = (w'.addPath path').trail w'.nextPath
  rw [hnew, hnew', hsight, htrail]

/-- A single part leads to the same from paths with the same trail. -/
theorem agree_step (hstore : w.store = w'.store) (hclosed : w.Closed) (hclosed' : w'.Closed)
    (hp : w.Knows p) (hp' : w'.Knows p') (htrail : w.trail p = w'.trail p') (part : String) :
    Agree ((step p part).run w) ((step p' part).run w') := by
  have hattr' : w'.store.attr? (w'.path p').node part = w.store.attr? (w.path p).node part := by
    rw [hstore, node_eq_of_trail_eq htrail]
  by_cases hmissing : part.startsWith "_" = true ∨ w.store.attr? (w.path p).node part = none
  · rw [run_step_missing hmissing, run_step_missing (by rwa [hattr'])]
    exact agree_addPath hclosed hclosed' hp hp' htrail rfl rfl rfl
  · push Not at hmissing
    obtain ⟨hpart, hsome⟩ := hmissing
    have hpart : part.startsWith "_" = false := by simpa using hpart
    obtain ⟨v, hattr⟩ := Option.ne_none_iff_exists'.mp hsome
    rw [hattr] at hattr'
    cases v with
    | atom value =>
      rw [run_step_field hpart hattr, run_step_field hpart hattr']
      exact agree_addPath hclosed hclosed' hp hp' htrail rfl rfl rfl
    | items values =>
      -- the lists are the same, and each entry is one path further below the same trail
      obtain ⟨ps, w₁, hrun, -, -, hkeeps, hlength, hentries⟩ :=
        run_entryPaths p part values 0 w
      obtain ⟨ps', w₁', hrun', -, -, hkeeps', hlength', hentries'⟩ :=
        run_entryPaths p' part values 0 w'
      rw [run_step_items hpart hattr hrun, run_step_items hpart hattr' hrun']
      refine .ok (List.forall₂_iff_get.mpr ⟨hlength.trans hlength'.symm, fun k hk hk' => ?_⟩)
      have hvalue := List.getElem?_eq_getElem (hlength ▸ hk)
      obtain ⟨q, hq, hpath, -⟩ := hentries k _ hvalue
      obtain ⟨q', hq', hpath', -⟩ := hentries' k _ hvalue
      have hget : ps.get ⟨k, hk⟩ = q :=
        Option.some.inj ((List.getElem?_eq_getElem hk).symm.trans hq)
      have hget' : ps'.get ⟨k, hk'⟩ = q' :=
        Option.some.inj ((List.getElem?_eq_getElem hk').symm.trans hq')
      rw [hget, hget', hkeeps.trail_below hclosed hp hpath rfl,
        hkeeps'.trail_below hclosed' hp' hpath' rfl, htrail]
      rfl

/-- Parts lead to the same from paths with the same trail. -/
theorem agree_follow (parts : List String) (hstore : w.store = w'.store) (hclosed : w.Closed)
    (hclosed' : w'.Closed) (hknown : found.Known w) (hknown' : found'.Known w')
    (h : found.Agrees w w' found') :
    Agree ((follow found parts).run w) ((follow found' parts).run w') := by
  induction parts generalizing found found' w w' with
  | nil =>
    unfold follow
    exact .ok h
  | cons part parts ih =>
    cases found with
    | one p =>
      cases found' with
      | many ps' => exact h.elim
      | one p' =>
        have hstep := agree_step hstore hclosed hclosed' hknown hknown' h part
        rw [run_follow_one, run_follow_one]
        generalize hrun : (step p part).run w = r at hstep
        generalize hrun' : (step p' part).run w' = r' at hstep
        cases hstep with
        | error fault w₁ w₁' => exact .error fault w₁ w₁'
        | @ok next next' w₁ w₁' hagrees =>
          obtain ⟨hsteps, hnext⟩ := (bySteps_step hknown part).of_run_ok hrun
          obtain ⟨hsteps', hnext'⟩ := (bySteps_step hknown' part).of_run_ok hrun'
          have hstore₁ : w₁.store = w₁'.store := by
            rw [Steps.store_eq hsteps, Steps.store_eq hsteps', hstore]
          exact ih hstore₁ (Steps.closed hsteps hclosed) (Steps.closed hsteps' hclosed') hnext
            hnext' hagrees
    | many ps =>
      cases found' with
      | one p' => exact h.elim
      | many ps' =>
        have hnothing : (Found.one w.nextPath).Agrees (w.addPath (.missing none))
            (w'.addPath (.missing none)) (.one w'.nextPath) :=
          trail_addPath_missing.trans trail_addPath_missing.symm
        rw [run_follow_many, run_follow_many, run_choose, run_choose]
        cases Text.readIndex part with
        | none => exact .ok hnothing
        | unreadable => exact .error _ w w'
        | tooLong digits => exact .error _ w w'
        | index n =>
          dsimp only
          obtain ⟨hlength, htrails⟩ := List.forall₂_iff_get.mp h
          by_cases hn : n < ps.length
          · have hn' : n < ps'.length := hlength ▸ hn
            rw [List.getElem?_eq_getElem hn, List.getElem?_eq_getElem hn']
            exact ih hstore hclosed hclosed' (hknown _ (List.getElem_mem hn))
              (hknown' _ (List.getElem_mem hn')) (htrails n hn hn')
          · rw [List.getElem?_eq_none (by omega), List.getElem?_eq_none (by omega)]
            exact .ok hnothing

end Edit

end NamedExports
