import NamedExports.Path.Get
import NamedExports.Proofs.Path.Running
import NamedExports.Proofs.Text.Index

/-!
# Getting fields and entries

A dotted path that names a list and an index of it leads to the entry that stands there
(`run_get_entry`); a path that names the list alone leads to all of its entries, in their order
(`run_get_list`), and one that names another field leads to what the field holds (`run_get_field`).
All of them take new paths and leave everything else as it is.
-/

namespace NamedExports.Edit

variable {σ : Type} {w : Workspace σ}

/-- The paths of the entries of a list are taken one after the other. -/
theorem run_entryPaths (above : PathId) (list : String) (values : List Atom) (first : ℕ)
    (w : Workspace σ) :
    ∃ ps w', (entryPaths above list first values).run w = .ok ps w' ∧
      w'.store = w.store ∧ w'.notes = w.notes ∧ w.KeepsPaths w' ∧
      ps.length = values.length ∧
      ∀ (k : ℕ) (value : Atom), values[k]? = some value → ∃ q, ps[k]? = some q ∧
        w'.path q = .ofEntry value above list (first + k) ∧ w'.Knows q ∧ ¬ w.Knows q := by
  induction values generalizing first w with
  | nil => exact ⟨[], w, rfl, rfl, rfl, .refl w, rfl, fun k value h => by simp at h⟩
  | cons value values ih =>
    set w₁ := w.addPath (.ofEntry value above list first)
    obtain ⟨ps, w', hrun, hstore, hnotes, hkeeps, hlength, hentries⟩ := ih (first + 1) w₁
    have hkeeps₁ : w.KeepsPaths w₁ := w.keepsPaths_addPath _
    refine ⟨w.nextPath :: ps, w', ?_, hstore, hnotes, hkeeps₁.trans hkeeps, by simp [hlength], ?_⟩
    · unfold entryPaths
      rw [EStateM.run_bind, run_newPath]
      dsimp only
      rw [EStateM.run_bind, hrun]
      rfl
    · intro k other hk
      cases k with
      | zero =>
        -- the first path is the new one, and the later ones leave it alone
        have hother : value = other := by simpa using hk
        subst hother
        obtain ⟨hknown, hpath⟩ := hkeeps w.nextPath (w.knows_addPath_nextPath _)
        exact ⟨w.nextPath, rfl, hpath.trans (w.path_addPath_nextPath _), hknown,
          w.not_knows_nextPath⟩
      | succ k =>
        obtain ⟨q, hq, hpath, hknown, hnew⟩ := hentries k other (by simpa using hk)
        refine ⟨q, by simpa using hq, ?_, hknown, fun hold => hnew (hkeeps₁ q hold).1⟩
        rw [hpath, Nat.add_assoc, Nat.add_comm 1 k]

/-- A name that begins with an underscore, or that the value has no attribute of, leads to nothing. -/
theorem run_step_missing {p : PathId} {part : String}
    (h : part.startsWith "_" = true ∨ w.store.attr? (w.path p).node part = none) :
    (step p part).run w = .ok (.one w.nextPath) (w.addPath (.missing (some p))) := by
  unfold step
  rw [EStateM.run_bind, run_path]
  dsimp only
  rw [EStateM.run_bind, run_store]
  dsimp only
  split
  · rfl
  next hpart =>
    rw [h.resolve_left hpart]
    rfl

/-- The name of a field that is no list leads to what the field holds. -/
theorem run_step_field {p : PathId} {name : String} {value : Atom}
    (hname : name.startsWith "_" = false)
    (hattr : w.store.attr? (w.path p).node name = some (.atom value)) :
    (step p name).run w = .ok (.one w.nextPath) (w.addPath (.ofField value p name)) := by
  unfold step
  simp only [EStateM.run_bind, run_path, run_store, hname, Bool.false_eq_true, if_false, hattr,
    run_newPath, EStateM.run_pure]

/-- The name of a list leads to the paths of its entries. -/
theorem run_step_items {p : PathId} {list : String} {values : List Atom} {ps : List PathId}
    {w' : Workspace σ} (hlist : list.startsWith "_" = false)
    (hattr : w.store.attr? (w.path p).node list = some (.items values))
    (hrun : (entryPaths p list 0 values).run w = .ok ps w') :
    (step p list).run w = .ok (.many ps) w' := by
  unfold step
  simp only [EStateM.run_bind, run_path, run_store, hlist, Bool.false_eq_true, if_false, hattr,
    hrun, EStateM.run_pure]

/-- A field that is no list is led to by its name. -/
theorem run_get_field {p : PathId} {name : String} {value : Atom}
    (hname : name.startsWith "_" = false) (hdot : '.' ∉ name.toList)
    (hattr : w.store.attr? (w.path p).node name = some (.atom value)) :
    (get p name).run w = .ok (.one w.nextPath) (w.addPath (.ofField value p name)) := by
  unfold get
  rw [Text.dotted_of_no_dot hdot]
  unfold follow
  rw [EStateM.run_bind, run_step_field hname hattr]
  rfl

/-- A part chooses the path at the index that it says, if it says one. -/
theorem run_choose (paths : List PathId) (part : String) (w : Workspace σ) :
    (choose paths part : Edit σ (Option PathId)).run w =
      match Text.readIndex part with
      | .none => .ok none w
      | .unreadable => .error (.badIndex part) w
      | .tooLong digits => .error (.longIndex digits) w
      | .index n => .ok paths[n]? w := by
  unfold choose
  cases Text.readIndex part <;> rfl

/-- From one path the first part is a step, and the others are followed from what it leads to. -/
theorem run_follow_one (p : PathId) (part : String) (parts : List String) (w : Workspace σ) :
    (follow (.one p) (part :: parts)).run w =
      match (step p part).run w with
      | .ok found w₁ => (follow found parts).run w₁
      | .error fault w₁ => .error fault w₁ := by
  conv_lhs => unfold follow
  rw [EStateM.run_bind]
  cases (step p part).run w <;> rfl

/-- From several paths the first part chooses one, from which the others are followed. -/
theorem run_follow_many (paths : List PathId) (part : String) (parts : List String)
    (w : Workspace σ) :
    (follow (.many paths) (part :: parts)).run w =
      match (choose paths part : Edit σ (Option PathId)).run w with
      | .ok (some p) w₁ => (follow (.one p) parts).run w₁
      | .ok none w₁ => .ok (.one w₁.nextPath) (w₁.addPath (.missing none))
      | .error fault w₁ => .error fault w₁ := by
  conv_lhs => unfold follow
  rw [EStateM.run_bind]
  cases (choose paths part : Edit σ (Option PathId)).run w with
  | error fault w₁ => rfl
  | ok chosen w₁ => cases chosen <;> rfl

/-- A list is led to by its name: one path for each entry. -/
theorem run_get_list {p : PathId} {list : String} {values : List Atom}
    (hlist : list.startsWith "_" = false) (hdot : '.' ∉ list.toList)
    (hattr : w.store.attr? (w.path p).node list = some (.items values)) :
    ∃ ps w', (get p list).run w = .ok (.many ps) w' ∧
      w'.store = w.store ∧ w'.notes = w.notes ∧ w.KeepsPaths w' ∧
      ps.length = values.length ∧
      ∀ (k : ℕ) (value : Atom), values[k]? = some value → ∃ q, ps[k]? = some q ∧
        w'.path q = .ofEntry value p list k ∧ w'.Knows q ∧ ¬ w.Knows q := by
  obtain ⟨ps, w', hrun, hstore, hnotes, hkeeps, hlength, hentries⟩ :=
    run_entryPaths p list values 0 w
  refine ⟨ps, w', ?_, hstore, hnotes, hkeeps, hlength, fun k value hk => ?_⟩
  · unfold get
    rw [Text.dotted_of_no_dot hdot]
    unfold follow
    rw [EStateM.run_bind, run_step_items hlist hattr hrun]
    rfl
  · obtain ⟨q, hq, hpath, hknown, hnew⟩ := hentries k value hk
    exact ⟨q, hq, by rw [hpath, Nat.zero_add], hknown, hnew⟩

/-- An entry is led to by the list and its index. -/
theorem run_get_entry {p : PathId} {list : String} {values : List Atom} {k : ℕ} {value : Atom}
    (hlist : list.startsWith "_" = false) (hdot : '.' ∉ list.toList)
    (hattr : w.store.attr? (w.path p).node list = some (.items values))
    (hk : values[k]? = some value) (hbound : k < 10 ^ Text.maxDigits) :
    ∃ q w', (get p (list ++ "." ++ toString k)).run w = .ok (.one q) w' ∧
      w'.store = w.store ∧ w'.notes = w.notes ∧ w.KeepsPaths w' ∧
      w'.path q = .ofEntry value p list k ∧ w'.Knows q ∧ ¬ w.Knows q := by
  obtain ⟨ps, w', hrun, hstore, hnotes, hkeeps, -, hentries⟩ := run_entryPaths p list values 0 w
  obtain ⟨q, hq, hpath, hknown, hnew⟩ := hentries k value hk
  refine ⟨q, w', ?_, hstore, hnotes, hkeeps, by rw [hpath, Nat.zero_add], hknown, hnew⟩
  have hchoose : (choose ps (toString k) : Edit σ (Option PathId)).run w' = .ok (some q) w' := by
    unfold choose
    rw [Text.readIndex_toString hbound]
    dsimp only
    rw [hq]
    rfl
  unfold get
  rw [Text.dotted_entry hdot]
  unfold follow
  rw [EStateM.run_bind, run_step_items hlist hattr hrun]
  dsimp only
  unfold follow
  rw [EStateM.run_bind, hchoose]
  rfl

/-- An index that is beyond the end of the list leads to nothing. -/
theorem run_get_absent {p : PathId} {list : String} {values : List Atom} {k : ℕ}
    (hlist : list.startsWith "_" = false) (hdot : '.' ∉ list.toList)
    (hattr : w.store.attr? (w.path p).node list = some (.items values))
    (hk : values.length ≤ k) (hbound : k < 10 ^ Text.maxDigits) :
    ∃ q w', (get p (list ++ "." ++ toString k)).run w = .ok (.one q) w' ∧
      w'.path q = .missing none := by
  obtain ⟨ps, w', hrun, -, -, -, hlength, -⟩ := run_entryPaths p list values 0 w
  refine ⟨_, _, ?_, w'.path_addPath_nextPath _⟩
  unfold get
  rw [Text.dotted_entry hdot, run_follow_one, run_step_items hlist hattr hrun]
  dsimp only
  rw [run_follow_many, run_choose, Text.readIndex_toString hbound]
  dsimp only
  rw [List.getElem?_eq_none (hlength.trans_le hk)]

end NamedExports.Edit
