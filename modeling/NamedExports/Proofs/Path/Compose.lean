import NamedExports.Node.Load
import NamedExports.Proofs.Path.Trail

/-!
# Dotted paths one after the other

A dotted path that is two paths with a dot between them leads to what the second one leads to from
where the first one leads.  If the first one ends at a list, the second one begins with the index of
an entry.  This is so because parts are followed one by one, with one exception: when an entry is
chosen that a list does not have, the rest of the path is not looked at any more, and what comes out
is a path to nothing without a path above it (`run_follow_append`).  From such a path the rest leads
to nothing as well, but with one more path above it for each part (`run_follow_hollow`).

So it depends on whether there is a path above what the first path leads to whether the two ways
agree in all that can be seen (`get_composes`).
-/

namespace NamedExports

variable {σ : Type}

namespace Text

/-- A first part with the rest of a dotted path, if there is a rest. -/
def joined (first : String) : Option String → String
  | none => first
  | some rest => first ++ "." ++ rest

/-- Every dotted path has a first part. -/
theorem exists_joined (path : String) :
    ∃ first rest, '.' ∉ first.toList ∧ path = joined first rest := by
  by_cases hdot : '.' ∈ path.toList
  · obtain ⟨cs, ds, hsplit, hcs⟩ := List.eq_append_cons_of_mem hdot
    refine ⟨String.ofList cs, some (String.ofList ds), by simpa using hcs, ?_⟩
    rw [← String.toList_inj, hsplit]
    simp [joined]
  · exact ⟨path, none, hdot, rfl⟩

theorem dotted_joined {first : String} (hdot : '.' ∉ first.toList) (rest : Option String) :
    dotted (joined first rest) = first :: (rest.map dotted).getD [] := by
  cases rest with
  | none => exact dotted_of_no_dot hdot
  | some rest =>
    unfold joined
    rw [dotted_append, dotted_of_no_dot hdot]
    rfl

end Text

/-- There is a path above everything that has been found. -/
def Found.Hangs (found : Found) (w : Workspace σ) : Prop :=
  match found with
  | .one p => (w.path p).above ≠ none
  | .many ps => ∀ p ∈ ps, (w.path p).above ≠ none

namespace Edit

open Workspace

variable {w w₁ : Workspace σ} {p q : PathId} {found found₁ : Found}

/-! ### Following parts from where others lead -/

/-- What a part leads to hangs below the path that it is followed from. -/
theorem hangs_of_run_step {part : String} (hrun : (step p part).run w = .ok found w₁) :
    found.Hangs w₁ := by
  by_cases hmissing : part.startsWith "_" = true ∨ w.store.attr? (w.path p).node part = none
  · rw [run_step_missing hmissing] at hrun
    cases hrun
    show ((w.addPath _).path w.nextPath).above ≠ none
    rw [path_addPath_nextPath]
    exact nofun
  · push Not at hmissing
    obtain ⟨hpart, hsome⟩ := hmissing
    have hpart : part.startsWith "_" = false := by simpa using hpart
    obtain ⟨v, hattr⟩ := Option.ne_none_iff_exists'.mp hsome
    cases v with
    | atom value =>
      rw [run_step_field hpart hattr] at hrun
      cases hrun
      show ((w.addPath _).path w.nextPath).above ≠ none
      rw [path_addPath_nextPath]
      exact nofun
    | items values =>
      obtain ⟨ps, w', hentriesRun, -, -, -, hlength, hentries⟩ := run_entryPaths p part values 0 w
      rw [run_step_items hpart hattr hentriesRun] at hrun
      cases hrun
      intro e he
      obtain ⟨k, hk, rfl⟩ := List.getElem_of_mem he
      obtain ⟨e', he', hpath, -⟩ := hentries k _ (List.getElem?_eq_getElem (hlength ▸ hk))
      cases (List.getElem?_eq_getElem hk).symm.trans he'
      rw [hpath]
      exact nofun

/-- Following parts and then others: the first ones end with a fault, or the others are followed from
where the first ones lead, or the first ones end at an entry that is not there. -/
theorem run_follow_append (xs ys : List String) (hfound : found.Hangs w) :
    (∃ fault w₁, (follow found xs).run w = .error fault w₁ ∧
      (follow found (xs ++ ys)).run w = .error fault w₁) ∨
    (∃ found₁ w₁, (follow found xs).run w = .ok found₁ w₁ ∧ found₁.Hangs w₁ ∧
      (follow found (xs ++ ys)).run w = (follow found₁ ys).run w₁) ∨
    ∃ q w₁, (follow found xs).run w = .ok (.one q) w₁ ∧ w₁.path q = .missing none ∧
      (follow found (xs ++ ys)).run w = .ok (.one q) w₁ := by
  induction xs generalizing found w with
  | nil =>
    have hdone : (follow found []).run w = .ok found w := by
      unfold follow
      rfl
    exact Or.inr (Or.inl ⟨found, w, hdone, hfound, rfl⟩)
  | cons part xs ih =>
    rw [List.cons_append]
    cases found with
    | one p =>
      rw [run_follow_one, run_follow_one]
      cases hstep : (step p part).run w with
      | error fault w₁ => exact Or.inl ⟨fault, w₁, rfl, rfl⟩
      | ok next w₁ => exact ih (hangs_of_run_step hstep)
    | many ps =>
      rw [run_follow_many, run_follow_many, run_choose]
      cases Text.readIndex part with
      | none => exact Or.inr (Or.inr ⟨_, _, rfl, w.path_addPath_nextPath _, rfl⟩)
      | unreadable => exact Or.inl ⟨_, _, rfl, rfl⟩
      | tooLong digits => exact Or.inl ⟨_, _, rfl, rfl⟩
      | index n =>
        dsimp only
        cases hchosen : ps[n]? with
        | none => exact Or.inr (Or.inr ⟨_, _, rfl, w.path_addPath_nextPath _, rfl⟩)
        | some e => exact ih (hfound e (List.mem_of_getElem? hchosen))

/-- The same for dotted paths. -/
theorem run_get_append (p : PathId) (a b : String) (w : Workspace σ) :
    (∃ fault w₁, (get p a).run w = .error fault w₁ ∧
      (get p (a ++ "." ++ b)).run w = .error fault w₁) ∨
    (∃ found₁ w₁, (get p a).run w = .ok found₁ w₁ ∧ found₁.Hangs w₁ ∧
      (get p (a ++ "." ++ b)).run w = (follow found₁ (Text.dotted b)).run w₁) ∨
    ∃ q w₁, (get p a).run w = .ok (.one q) w₁ ∧ w₁.path q = .missing none ∧
      (get p (a ++ "." ++ b)).run w = .ok (.one q) w₁ := by
  unfold get
  rw [Text.dotted_append]
  cases hparts : Text.dotted a with
  | nil => exact absurd hparts (Text.dotted_ne_nil a)
  | cons part parts =>
    rw [List.cons_append, run_follow_one, run_follow_one]
    cases hstep : (step p part).run w with
    | error fault w₁ => exact Or.inl ⟨fault, w₁, rfl, rfl⟩
    | ok next w₁ => exact run_follow_append parts _ (hangs_of_run_step hstep)

/-- If there is a path above what the first dotted path leads to, the second one is followed from
there. -/
theorem run_get_append_of_hangs {a : String} (hrun : (get p a).run w = .ok found₁ w₁)
    (hhangs : found₁.Hangs w₁) (b : String) :
    (get p (a ++ "." ++ b)).run w = (follow found₁ (Text.dotted b)).run w₁ := by
  rcases run_get_append p a b w with ⟨fault, w', hfirst, -⟩ | ⟨found', w', hfirst, -, hboth⟩ |
    ⟨q, w', hfirst, hmissing, -⟩ <;> cases hrun.symm.trans hfirst
  · exact hboth
  · exact absurd (congrArg Path.above hmissing) hhangs

/-- If there is none, the first dotted path leads to nothing, and the second one is not looked at. -/
theorem run_get_append_of_not_hangs {a : String} (hrun : (get p a).run w = .ok found₁ w₁)
    (hhangs : ¬ found₁.Hangs w₁) :
    ∃ q, found₁ = .one q ∧ w₁.path q = .missing none ∧
      ∀ b, (get p (a ++ "." ++ b)).run w = .ok found₁ w₁ := by
  have hmissing : ∀ b, ∃ q, found₁ = .one q ∧ w₁.path q = .missing none ∧
      (get p (a ++ "." ++ b)).run w = .ok found₁ w₁ := by
    intro b
    rcases run_get_append p a b w with ⟨fault, w', hfirst, -⟩ | ⟨found', w', hfirst, hhangs', -⟩ |
      ⟨q, w', hfirst, hmissing, hboth⟩ <;> cases hrun.symm.trans hfirst
    · exact absurd hhangs' hhangs
    · exact ⟨q, rfl, hmissing, hboth⟩
  obtain ⟨q, hfound, hpath, -⟩ := hmissing ""
  refine ⟨q, hfound, hpath, fun b => ?_⟩
  obtain ⟨-, -, -, hboth⟩ := hmissing b
  exact hboth

/-- From nothing every part leads to nothing, one path further below. -/
theorem run_follow_hollow (parts : List String) {n : ℕ} (hclosed : w.Closed) (hp : w.Knows p)
    (htrail : w.trail p = .hollow n) :
    ∃ q w', (follow (.one p) parts).run w = .ok (.one q) w' ∧
      w'.trail q = .hollow (n + parts.length) := by
  induction parts generalizing p w n with
  | nil =>
    refine ⟨p, w, ?_, htrail⟩
    unfold follow
    rfl
  | cons part parts ih =>
    have hnull : (w.path p).node = .null := by
      have hsight : some (w.path p).sight = some ⟨.null, .nowhere, false⟩ := congrFun htrail 0
      exact congrArg Sight.node (Option.some.inj hsight)
    have hattr : w.store.attr? (w.path p).node part = none := by
      rw [hnull]
      rfl
    have hstep := run_step_missing (Or.inr hattr)
    have hnext : (w.addPath (.missing (some p))).trail w.nextPath = .hollow (n + 1) := by
      rw [(w.keepsPaths_addPath _).trail_below hclosed hp (w.path_addPath_nextPath _) rfl, htrail,
        Trail.hollow_succ]
      rfl
    have hclosed' : (w.addPath (.missing (some p))).Closed :=
      hclosed.addPath fun above habove => Option.some.inj habove ▸ hp
    obtain ⟨q, w', hrun, htrail'⟩ := ih hclosed' (w.knows_addPath_nextPath _) hnext
    refine ⟨q, w', ?_, ?_⟩
    · rw [run_follow_one, hstep]
      exact hrun
    · rw [htrail', List.length_cons]
      congr 1
      omega

/-- So a dotted path that is followed from an entry that is not there leads to nothing, as many paths
further below as it has parts. -/
theorem run_get_below_missing (hclosed : w.Closed) (hp : w.Knows p) {a : String}
    (hrun : (get p a).run w = .ok (.one q) w₁) (hmissing : w₁.path q = .missing none) (b : String) :
    ∃ q' w', (get q b).run w₁ = .ok (.one q') w' ∧
      w'.trail q' = .hollow (Text.dotted b).length := by
  have hget : w.Steps (fun _ => False) w₁ ∧ w₁.Knows q := (bySteps_get hp a).of_run_ok hrun
  obtain ⟨q', w', hrest, htrail⟩ := run_follow_hollow (Text.dotted b)
    (Steps.closed hget.1 hclosed) hget.2 (trail_of_missing hmissing)
  rw [Nat.zero_add] at htrail
  exact ⟨q', w', hrest, htrail⟩

/-! ### Entries by the first part -/

/-- What the rest of a dotted path leads to from the entry that its first part chooses. -/
def pick (ps : List PathId) (first : String) (rest : Option String) : Edit σ Found := do
  match ← choose ps first with
  | some p =>
    match rest with
    | none => return .one p
    | some rest => get p rest
  | none => return .one (← newPath (.missing none))

theorem run_pick (ps : List PathId) {first : String} (hdot : '.' ∉ first.toList)
    (rest : Option String) (w : Workspace σ) :
    (pick ps first rest).run w =
      (follow (.many ps) (Text.dotted (Text.joined first rest))).run w := by
  rw [Text.dotted_joined hdot, run_follow_many]
  unfold pick
  rw [EStateM.run_bind]
  cases (choose ps first : Edit σ (Option PathId)).run w with
  | error fault w₁ => rfl
  | ok chosen w₁ =>
    cases chosen with
    | none => rfl
    | some e =>
      cases rest with
      | none =>
        dsimp only
        unfold follow
        rfl
      | some rest => rfl

/-- A first part that is no index of an entry leads to nothing. -/
theorem run_pick_missing {ps : List PathId} {first : String}
    (h : Text.readIndex first = .none ∨ ∃ n, Text.readIndex first = .index n ∧ ps.length ≤ n)
    (rest : Option String) (w : Workspace σ) :
    (pick ps first rest).run w = .ok (.one w.nextPath) (w.addPath (.missing none)) := by
  have hchoose : (choose ps first : Edit σ (Option PathId)).run w = .ok none w := by
    rw [run_choose]
    rcases h with h | ⟨n, h, hn⟩
    · rw [h]
    · rw [h, ← List.getElem?_eq_none hn]
  unfold pick
  rw [EStateM.run_bind, hchoose]
  rfl

/-! ### The law -/

theorem Agree.exists_one {r : EStateM.Result Fault (Workspace σ) Found}
    (h : Agree r (.ok (.one q) w)) : ∃ q' w', r = .ok (.one q') w' ∧ w'.trail q' = w.trail q := by
  cases h with
  | @ok found _ w' _ hagrees =>
    cases found with
    | one q' => exact ⟨q', w', rfl, hagrees⟩
    | many ps => exact hagrees.elim

/-- A dotted path that is two paths with a dot between them leads to what the second one leads to from
where the first one leads, whenever it is followed while the tree is the same.  Only if the first one
leads to a path with no path above it, because a list did not have the entry that was asked for, the
two ways differ, in the number of empty paths above the empty one that both lead to. -/
theorem get_composes (hclosed : w.Closed) (hp : w.Knows p) (a b : String) :
    (∀ q w₁, (get p a).run w = .ok (.one q) w₁ → (w₁.path q).above ≠ none →
      ∀ w₂, w.Steps (fun _ => False) w₂ →
        Agree ((get p (a ++ "." ++ b)).run w₂) ((get q b).run w₁)) ∧
    (∀ q w₁, (get p a).run w = .ok (.one q) w₁ → (w₁.path q).above = none →
      w₁.trail q = .hollow 0 ∧
      (∃ q' w', (get q b).run w₁ = .ok (.one q') w' ∧
        w'.trail q' = .hollow (Text.dotted b).length) ∧
      ∀ w₂, w.Steps (fun _ => False) w₂ →
        ∃ q₂ w', (get p (a ++ "." ++ b)).run w₂ = .ok (.one q₂) w' ∧ w'.trail q₂ = .hollow 0) ∧
    ∀ ps w₁, (get p a).run w = .ok (.many ps) w₁ →
      ∃ first rest, '.' ∉ first.toList ∧ b = Text.joined first rest ∧
        ∀ w₂, w.Steps (fun _ => False) w₂ →
          Agree ((get p (a ++ "." ++ b)).run w₂) ((pick ps first rest).run w₁) ∧
          ((Text.readIndex first = .none ∨
              ∃ n, Text.readIndex first = .index n ∧ ps.length ≤ n) →
            ∃ q₂ w', (get p (a ++ "." ++ b)).run w₂ = .ok (.one q₂) w' ∧
              w'.trail q₂ = .hollow 0) := by
  -- it does not matter when a dotted path is followed
  have hlater : ∀ w₂, w.Steps (fun _ => False) w₂ → ∀ dotted,
      Agree ((get p dotted).run w₂) ((get p dotted).run w) := by
    intro w₂ hsteps dotted
    have htrail : w₂.trail p = w.trail p := (Steps.keepsPaths hsteps).trail_eq hclosed hp
    exact agree_follow _ (Steps.store_eq hsteps) (Steps.closed hsteps hclosed) hclosed
      (Steps.knows hsteps hp) hp htrail
  refine ⟨?_, ?_, ?_⟩
  · intro q w₁ hrun habove w₂ hsteps
    have hagree := hlater w₂ hsteps (a ++ "." ++ b)
    rw [run_get_append_of_hangs hrun habove b] at hagree
    exact hagree
  · intro q w₁ hrun habove
    have hhangs : ¬ (Found.one q).Hangs w₁ := fun h => h habove
    obtain ⟨_, hq, hmissing, hboth⟩ := run_get_append_of_not_hangs hrun hhangs
    cases hq
    have htrail : w₁.trail q = .hollow 0 := trail_of_missing hmissing
    refine ⟨htrail, run_get_below_missing hclosed hp hrun hmissing b, fun w₂ hsteps => ?_⟩
    have hagree := hlater w₂ hsteps (a ++ "." ++ b)
    rw [hboth b] at hagree
    obtain ⟨q₂, w', hrun₂, htrail₂⟩ := hagree.exists_one
    exact ⟨q₂, w', hrun₂, htrail₂.trans htrail⟩
  · intro ps w₁ hrun
    obtain ⟨first, rest, hdot, hb⟩ := Text.exists_joined b
    refine ⟨first, rest, hdot, hb, fun w₂ hsteps => ?_⟩
    have hhangs : (Found.many ps).Hangs w₁ := by
      by_contra hnot
      obtain ⟨q, hq, -⟩ := run_get_append_of_not_hangs hrun hnot
      cases hq
    have hagree := hlater w₂ hsteps (a ++ "." ++ b)
    rw [run_get_append_of_hangs hrun hhangs b, hb, ← run_pick ps hdot, ← hb] at hagree
    refine ⟨hagree, fun hnone => ?_⟩
    rw [run_pick_missing hnone] at hagree
    obtain ⟨q₂, w', hrun₂, htrail₂⟩ := hagree.exists_one
    exact ⟨q₂, w', hrun₂, htrail₂.trans trail_addPath_missing⟩

/-- An array pattern with one element, the identifier `a`, and a path to it. -/
def oneElement : Workspace Unit :=
  let (s, element) := Store.empty.addModelled .identifier ⟨0, 0⟩ [("name", .atom (.str "a"))]
  let (s, pattern) := s.addModelled .arrayPattern ⟨0, 0⟩ [("elements", .items [.ref element])]
  (Workspace.ofStore s ()).addPath (.start (.ref pattern))

theorem closed_oneElement : oneElement.Closed :=
  (closed_ofStore _ ()).addPath fun _ h => by cases h

theorem attr?_oneElement :
    oneElement.store.attr? (oneElement.path ⟨0⟩).node "elements" = some (.items [.ref ⟨0⟩]) := by
  decide +kernel

theorem get_composes_oneElement :
    oneElement.Closed ∧ oneElement.Knows ⟨0⟩ ∧
    ∃ q w₁, (get ⟨0⟩ ("elements" ++ "." ++ toString 0)).run oneElement = .ok (.one q) w₁ ∧
      (w₁.path q).node = .ref ⟨0⟩ ∧
      Agree ((get ⟨0⟩ ("elements" ++ "." ++ toString 0 ++ "." ++ "name")).run oneElement)
        ((get q "name").run w₁) := by
  have hknown : oneElement.Knows ⟨0⟩ := Nat.zero_lt_one
  obtain ⟨q, w₁, hrun, -, -, -, hpath, -, -⟩ := run_get_entry (k := 0) (by decide +kernel)
    (by decide) attr?_oneElement rfl (by decide +kernel)
  refine ⟨closed_oneElement, hknown, q, w₁, hrun, by rw [hpath]; rfl, ?_⟩
  obtain ⟨hone, -, -⟩ := get_composes closed_oneElement hknown
    ("elements" ++ "." ++ toString 0) "name"
  exact hone q w₁ hrun (by rw [hpath]; exact nofun) oneElement .refl

/-- The two ways never agree after an entry that is not there: the path of the whole has no path above
it, and the path of the rest has one. -/
theorem not_agree_of_missing (hclosed : w.Closed) (hp : w.Knows p) {a : String}
    (hrun : (get p a).run w = .ok (.one q) w₁) (hmissing : w₁.path q = .missing none) (b : String) :
    ¬ Agree ((get p (a ++ "." ++ b)).run w) ((get q b).run w₁) := by
  have hhangs : ¬ (Found.one q).Hangs w₁ := fun h => h (congrArg Path.above hmissing)
  obtain ⟨_, -, -, hboth⟩ := run_get_append_of_not_hangs hrun hhangs
  obtain ⟨q', w', hrest, htrail⟩ := run_get_below_missing hclosed hp hrun hmissing b
  rw [hboth b, hrest]
  intro hagree
  obtain ⟨_, _, heq, hsame⟩ := hagree.exists_one
  cases heq
  rw [htrail, trail_of_missing hmissing] at hsame
  have hparts : 1 ≤ (Text.dotted b).length := List.length_pos_of_ne_nil (Text.dotted_ne_nil b)
  have hone := congrFun hsame 1
  simp [Trail.hollow, hparts] at hone

theorem not_get_composes :
    ¬ ∀ (w : Workspace Unit) (p : PathId) (a b : String) (q : PathId) (w₁ : Workspace Unit),
      w.Closed → w.Knows p → (get p a).run w = .ok (.one q) w₁ →
      Agree ((get p (a ++ "." ++ b)).run w) ((get q b).run w₁) := by
  intro hclaim
  have hknown : oneElement.Knows ⟨0⟩ := Nat.zero_lt_one
  obtain ⟨q, w₁, hrun, hmissing⟩ := run_get_absent (k := 9) (by decide +kernel) (by decide)
    attr?_oneElement (by decide) (by decide +kernel)
  exact not_agree_of_missing closed_oneElement hknown hrun hmissing "name"
    (hclaim oneElement ⟨0⟩ _ "name" q w₁ closed_oneElement hknown hrun)

end Edit

end NamedExports
