import NamedExports.Proofs.Path.Compose

/-!
# What dotted paths lead to

Which values hang where is a matter of the tree alone: a part of a dotted path names an attribute of
a value or an entry of a list (`Store.next?`), and the parts one after the other lead to a value, to
the entries of a list, or nowhere (`Store.reach?`).  Following the parts leads to paths to just that,
and to a single path to nothing if a step is missing (`Edit.get_resolves`).

There is one exception.  A part that is to choose an entry is judged by its digits before it is read
as a number, and digits without a place value, or too many digits, cannot be read.  So a dotted path
that comes to a list with such a part (`Store.stuck?`) ends with a fault, where the entry is missing
like any other.
-/

namespace NamedExports

variable {σ : Type}

/-- The fault of a part that is to choose an entry and cannot be read. -/
def Fault.ofIndex (part : String) : Fault :=
  if Text.maxDigits < Text.leadingDigits part.toList then
    .longIndex (Text.leadingDigits part.toList)
  else .badIndex part

namespace Store

/-- What a part leads to: an attribute of a value, or the entry of a list at the index that it spells.
Names that begin with an underscore lead nowhere. -/
def next? (s : Store) : Value → String → Option Value
  | .atom a, part => if part.startsWith "_" then none else s.attr? a part
  | .items values, part => (Text.spelled? part).bind fun n => values[n]?.map .atom

/-- What parts lead to one after the other, none if one of them leads nowhere. -/
def reach? (s : Store) : Value → List String → Option Value
  | v, [] => some v
  | v, part :: parts => (s.next? v part).bind fun next => s.reach? next parts

/-- The first part that is to choose an entry and cannot be read, if what comes before leads to a
list. -/
def stuck? (s : Store) : Value → List String → Option String
  | _, [] => none
  | .atom a, part :: parts => (s.next? (.atom a) part).bind fun next => s.stuck? next parts
  | .items values, part :: parts =>
    if Text.Illegible part then some part
    else (s.next? (.items values) part).bind fun next => s.stuck? next parts

variable {s : Store} {a : Atom} {v : Value} {part : String} {parts : List String}

theorem next?_atom (s : Store) (a : Atom) (part : String) :
    s.next? (.atom a) part = if part.startsWith "_" then none else s.attr? a part := rfl

theorem next?_items (s : Store) (values : List Atom) (part : String) :
    s.next? (.items values) part =
      (Text.spelled? part).bind fun n => values[n]?.map Value.atom := rfl

theorem next?_eq_none (h : part.startsWith "_" = true ∨ s.attr? a part = none) :
    s.next? (.atom a) part = none := by
  rw [next?_atom, ite_eq_left_iff]
  exact fun hpart => h.resolve_left hpart

/-- Only an illegible part of a dotted path is stuck at. -/
theorem illegible_of_stuck? (h : s.stuck? v parts = some part) :
    part ∈ parts ∧ Text.Illegible part := by
  induction parts generalizing v with
  | nil => cases v <;> cases h
  | cons first parts ih =>
    -- after a step that can be made
    have hlater : (s.next? v first).bind (fun next => s.stuck? next parts) = some part →
        part ∈ first :: parts ∧ Text.Illegible part := by
      intro hbind
      obtain ⟨next, -, hnext⟩ := Option.bind_eq_some_iff.mp hbind
      obtain ⟨hmem, hillegible⟩ := ih hnext
      exact ⟨List.mem_cons_of_mem first hmem, hillegible⟩
    cases v with
    | atom a => exact hlater h
    | items values =>
      unfold stuck? at h
      split at h
      next hillegible =>
        cases h
        exact ⟨List.mem_cons_self, hillegible⟩
      next => exact hlater h

end Store

namespace Workspace

/-- A workspace later on, when nothing but new paths has been taken. -/
structure Grows (w w' : Workspace σ) : Prop where
  store_eq : w'.store = w.store
  notes_eq : w'.notes = w.notes
  keeps : w.KeepsPaths w'

variable {w w' w'' : Workspace σ}

theorem Grows.refl (w : Workspace σ) : w.Grows w :=
  ⟨rfl, rfl, .refl w⟩

theorem Grows.trans (h : w.Grows w') (h' : w'.Grows w'') : w.Grows w'' :=
  ⟨h'.store_eq.trans h.store_eq, h'.notes_eq.trans h.notes_eq, h.keeps.trans h'.keeps⟩

theorem grows_addPath (w : Workspace σ) (path : Path) : w.Grows (w.addPath path) :=
  ⟨rfl, rfl, w.keepsPaths_addPath path⟩

end Workspace

namespace Found

/-- One path to a value, or the paths to the entries of a list. -/
def Shows (found : Found) (w : Workspace σ) : Value → Prop
  | .atom a => ∃ p, found = .one p ∧ (w.path p).node = a
  | .items values => ∃ ps, found = .many ps ∧ ps.map (fun p => (w.path p).node) = values

/-- What is found is what there is; if there is nothing, it is a single path to nothing. -/
def Answers (found : Found) (w : Workspace σ) : Option Value → Prop
  | some v => found.Shows w v
  | none => ∃ p above, found = .one p ∧ w.path p = .missing above

end Found

namespace Edit

open Workspace

variable {w w₁ : Workspace σ} {p : PathId} {found : Found} {v : Value}

/-! ### Single parts -/

/-- A part that is followed from one path finds what it leads to from the value of the path. -/
theorem run_step_answers (p : PathId) (part : String) (w : Workspace σ) :
    ∃ found w₁, (step p part).run w = .ok found w₁ ∧ w.Grows w₁ ∧
      found.Answers w₁ (w.store.next? (.atom (w.path p).node) part) := by
  by_cases hmissing : part.startsWith "_" = true ∨ w.store.attr? (w.path p).node part = none
  · refine ⟨_, _, run_step_missing hmissing, w.grows_addPath _, ?_⟩
    rw [Store.next?_eq_none hmissing]
    exact ⟨w.nextPath, some p, rfl, w.path_addPath_nextPath _⟩
  · push Not at hmissing
    obtain ⟨hpart, hsome⟩ := hmissing
    have hpart : part.startsWith "_" = false := by simpa using hpart
    obtain ⟨next, hattr⟩ := Option.ne_none_iff_exists'.mp hsome
    have hnext : w.store.next? (.atom (w.path p).node) part = some next := by
      rw [Store.next?_atom, hpart, ← hattr]
      rfl
    rw [hnext]
    cases next with
    | atom value =>
      refine ⟨_, _, run_step_field hpart hattr, w.grows_addPath _, w.nextPath, rfl, ?_⟩
      rw [w.path_addPath_nextPath]
      rfl
    | items values =>
      obtain ⟨ps, w₁, hrun, hstore, hnotes, hkeeps, hlength, hentries⟩ :=
        run_entryPaths p part values 0 w
      refine ⟨_, _, run_step_items hpart hattr hrun, ⟨hstore, hnotes, hkeeps⟩, ps, rfl, ?_⟩
      refine List.ext_getElem (by rw [List.length_map, hlength]) fun k hk hk' => ?_
      obtain ⟨q, hq, hpath, -⟩ := hentries k _ (List.getElem?_eq_getElem hk')
      obtain ⟨_, hget⟩ := List.getElem?_eq_some_iff.mp hq
      rw [List.getElem_map, hget, hpath]
      rfl

/-- A part that cannot be read chooses no entry. -/
theorem run_choose_illegible {part : String} (h : Text.Illegible part) (ps : List PathId)
    (w : Workspace σ) :
    (choose ps part : Edit σ (Option PathId)).run w = .error (.ofIndex part) w := by
  rw [run_choose, h.readIndex_eq]
  unfold Fault.ofIndex
  by_cases hmany : Text.maxDigits < Text.leadingDigits part.toList
  · rw [if_pos hmany, if_pos hmany]
  · rw [if_neg hmany, if_neg hmany]

/-- Any other part chooses the entry at the index that it spells, if there is one. -/
theorem run_choose_legible {part : String} (h : ¬ Text.Illegible part) (ps : List PathId)
    (w : Workspace σ) :
    (choose ps part : Edit σ (Option PathId)).run w =
      .ok ((Text.spelled? part).bind fun n => ps[n]?) w := by
  rw [run_choose, Text.readIndex_of_legible h]
  cases Text.spelled? part <;> rfl

/-! ### Whole paths -/

/-- From nothing all parts lead to nothing. -/
theorem run_follow_missing (parts : List String) {above : Option PathId}
    (hp : w.path p = .missing above) :
    ∃ q above' w', (follow (.one p) parts).run w = .ok (.one q) w' ∧ w.Grows w' ∧
      w'.path q = .missing above' := by
  induction parts generalizing p w above with
  | nil =>
    refine ⟨p, above, w, ?_, .refl w, hp⟩
    unfold follow
    rfl
  | cons part parts ih =>
    have hattr : w.store.attr? (w.path p).node part = none := by
      rw [hp]
      rfl
    obtain ⟨q, above', w', hrun, hgrows, hq⟩ :=
      ih (w.path_addPath_nextPath (.missing (some p)))
    refine ⟨q, above', w', ?_, (w.grows_addPath _).trans hgrows, hq⟩
    rw [run_follow_one, run_step_missing (Or.inr hattr)]
    exact hrun

/-- Following parts from what has been found ends as the tree has it: with what they lead to, or with
the fault of the part that is stuck at. -/
structure Resolves (found : Found) (parts : List String) (w : Workspace σ) (v : Value) : Prop where
  stuck : ∀ part, w.store.stuck? v parts = some part →
    ∃ w', (follow found parts).run w = .error (.ofIndex part) w' ∧ w.Grows w'
  reach : w.store.stuck? v parts = none →
    ∃ found' w', (follow found parts).run w = .ok found' w' ∧ w.Grows w' ∧
      found'.Answers w' (w.store.reach? v parts)

section Resolving

variable {found' : Found} {w' : Workspace σ} {value : Value} {part : String} {parts : List String}

theorem Resolves.of_run (hstuck : w.store.stuck? v parts = none)
    (hrun : (follow found parts).run w = .ok found' w') (hgrows : w.Grows w')
    (hanswers : found'.Answers w' (w.store.reach? v parts)) : Resolves found parts w v where
  stuck part h := by
    rw [hstuck] at h
    cases h
  reach _ := ⟨found', w', hrun, hgrows, hanswers⟩

/-- Once a part has found what it leads to in the tree, the parts after it decide. -/
theorem Resolves.of_step (h : Resolves found' parts w₁ value) (hgrows : w.Grows w₁)
    (hrun : (follow found (part :: parts)).run w = (follow found' parts).run w₁)
    (hstuck : w.store.stuck? v (part :: parts) = w.store.stuck? value parts)
    (hreach : w.store.reach? v (part :: parts) = w.store.reach? value parts) :
    Resolves found (part :: parts) w v := by
  constructor
  · intro part' hpart
    rw [hstuck, ← hgrows.store_eq] at hpart
    obtain ⟨w', hfault, hgrows'⟩ := h.stuck part' hpart
    exact ⟨w', hrun.trans hfault, hgrows.trans hgrows'⟩
  · intro hnone
    rw [hstuck, ← hgrows.store_eq] at hnone
    obtain ⟨found'', w', hok, hgrows', hanswers⟩ := h.reach hnone
    rw [hgrows.store_eq, ← hreach] at hanswers
    exact ⟨found'', w', hrun.trans hok, hgrows.trans hgrows', hanswers⟩

/-- Parts that are followed from one path. -/
theorem resolves_one (p : PathId) (w : Workspace σ)
    (ih : ∀ {w : Workspace σ} {found v}, found.Shows w v → Resolves found parts w v) :
    Resolves (.one p) (part :: parts) w (.atom (w.path p).node) := by
  obtain ⟨next, w₁, hstep, hgrows, hnext⟩ := run_step_answers p part w
  have hrun : (follow (.one p) (part :: parts)).run w = (follow next parts).run w₁ := by
    rw [run_follow_one, hstep]
  have hstuck : w.store.stuck? (.atom (w.path p).node) (part :: parts) =
      (w.store.next? (.atom (w.path p).node) part).bind fun next => w.store.stuck? next parts := rfl
  have hreach : w.store.reach? (.atom (w.path p).node) (part :: parts) =
      (w.store.next? (.atom (w.path p).node) part).bind fun next => w.store.reach? next parts := rfl
  cases hvalue : w.store.next? (.atom (w.path p).node) part with
  | some value =>
    rw [hvalue] at hnext hstuck hreach
    exact (ih hnext).of_step hgrows hrun hstuck hreach
  | none =>
    rw [hvalue] at hnext hstuck hreach
    obtain ⟨q, above, rfl, hq⟩ := hnext
    obtain ⟨q', above', w', hmissing, hgrows', hq'⟩ := run_follow_missing parts hq
    refine .of_run hstuck (hrun.trans hmissing) (hgrows.trans hgrows') ?_
    rw [hreach]
    exact ⟨q', above', rfl, hq'⟩

/-- Parts that are followed from the entries of a list: the first of them chooses one. -/
theorem resolves_many {ps : List PathId} {values : List Atom}
    (hvalues : ps.map (fun p => (w.path p).node) = values)
    (ih : ∀ {w : Workspace σ} {found v}, found.Shows w v → Resolves found parts w v) :
    Resolves (.many ps) (part :: parts) w (.items values) := by
  by_cases hillegible : Text.Illegible part
  · have hstuck : w.store.stuck? (.items values) (part :: parts) = some part := if_pos hillegible
    have hrun : (follow (.many ps) (part :: parts)).run w = .error (.ofIndex part) w := by
      rw [run_follow_many, run_choose_illegible hillegible]
    constructor
    · intro part' hpart
      cases hstuck.symm.trans hpart
      exact ⟨w, hrun, .refl w⟩
    · intro hnone
      cases hstuck.symm.trans hnone
  · have hstuck : w.store.stuck? (.items values) (part :: parts) =
        (w.store.next? (.items values) part).bind fun next => w.store.stuck? next parts :=
      if_neg hillegible
    have hreach : w.store.reach? (.items values) (part :: parts) =
        (w.store.next? (.items values) part).bind fun next => w.store.reach? next parts := rfl
    have hnext : w.store.next? (.items values) part =
        ((Text.spelled? part).bind fun n => ps[n]?).map fun q => .atom (w.path q).node := by
      rw [Store.next?_items, ← hvalues, Option.map_bind]
      simp only [List.getElem?_map, Option.map_map, Function.comp_def]
    have hrun := run_follow_many ps part parts w
    rw [run_choose_legible hillegible] at hrun
    cases hchosen : (Text.spelled? part).bind fun n => ps[n]? with
    | some q =>
      rw [hnext, hchosen] at hstuck hreach
      rw [hchosen] at hrun
      have hshows : (Found.one q).Shows w (.atom (w.path q).node) := ⟨q, rfl, rfl⟩
      exact (ih hshows).of_step (.refl w) hrun hstuck hreach
    | none =>
      rw [hnext, hchosen] at hstuck hreach
      rw [hchosen] at hrun
      refine .of_run hstuck hrun (w.grows_addPath _) ?_
      rw [hreach]
      exact ⟨w.nextPath, none, rfl, w.path_addPath_nextPath _⟩

end Resolving

/-- Parts that are followed from what has been found lead to what they lead to in the tree, unless one
of them is stuck at. -/
theorem resolves_of_shows (parts : List String) (hshows : found.Shows w v) :
    Resolves found parts w v := by
  induction parts generalizing found v w with
  | nil =>
    have hrun : (follow found []).run w = .ok found w := by
      unfold follow
      rfl
    have hstuck : w.store.stuck? v [] = none := by cases v <;> rfl
    exact .of_run hstuck hrun (.refl w) hshows
  | cons part parts ih =>
    cases v with
    | atom a =>
      obtain ⟨p, rfl, rfl⟩ := hshows
      exact resolves_one p w ih
    | items values =>
      obtain ⟨ps, rfl, hvalues⟩ := hshows
      exact resolves_many hvalues ih

/-- If the list and the index of an entry are followed to their end, they lead to the entry. -/
theorem shows_of_run_get_entry {list : String} {values : List Atom} {k : ℕ} {value : Atom}
    (hlist : list.startsWith "_" = false) (hdot : '.' ∉ list.toList)
    (hattr : w.store.attr? (w.path p).node list = some (.items values))
    (hk : values[k]? = some value)
    (hrun : (get p (list ++ "." ++ toString k)).run w = .ok found w₁) :
    found.Shows w₁ (.atom value) := by
  have hnext : w.store.next? (.atom (w.path p).node) list = some (.items values) := by
    rw [Store.next?_atom, hlist, ← hattr]
    rfl
  have hentry : w.store.next? (.items values) (toString k) = some (.atom value) := by
    rw [Store.next?_items, Text.spelled?_toString, Option.bind_some, hk, Option.map_some]
  have hreach : w.store.reach? (.atom (w.path p).node) [list, toString k] = some (.atom value) := by
    simp only [Store.reach?, hnext, hentry, Option.bind_some]
  have hstart : (Found.one p).Shows w (.atom (w.path p).node) := ⟨p, rfl, rfl⟩
  have hresolves := resolves_of_shows [list, toString k] hstart
  unfold get at hrun
  rw [Text.dotted_entry hdot] at hrun
  cases hstuck : w.store.stuck? (.atom (w.path p).node) [list, toString k] with
  | some part =>
    obtain ⟨w', hrun', -⟩ := hresolves.stuck part hstuck
    cases hrun.symm.trans hrun'
  | none =>
    obtain ⟨found', w', hrun', -, hfound⟩ := hresolves.reach hstuck
    cases hrun.symm.trans hrun'
    rwa [hreach] at hfound

/-- Every dotted path that comes to no list with a part that cannot be read is followed to its end: it
leads to what hangs there, and to a single path to nothing if a step is missing.  One that comes to a
list with such a part ends with the fault of the first of them. -/
theorem get_resolves (p : PathId) (dotted : String) (w : Workspace σ) :
    (w.store.stuck? (.atom (w.path p).node) (Text.dotted dotted) = none →
      ∃ found w', (get p dotted).run w = .ok found w' ∧ w.Grows w' ∧
        found.Answers w' (w.store.reach? (.atom (w.path p).node) (Text.dotted dotted))) ∧
    ∀ part, w.store.stuck? (.atom (w.path p).node) (Text.dotted dotted) = some part →
      part ∈ Text.dotted dotted ∧ Text.Illegible part ∧
      ∃ w', (get p dotted).run w = .error (.ofIndex part) w' ∧ w.Grows w' := by
  have hstart : (Found.one p).Shows w (.atom (w.path p).node) := ⟨p, rfl, rfl⟩
  have hresolves := resolves_of_shows (Text.dotted dotted) hstart
  refine ⟨hresolves.reach, fun part h => ?_⟩
  obtain ⟨hmem, hillegible⟩ := Store.illegible_of_stuck? h
  exact ⟨hmem, hillegible, hresolves.stuck part h⟩

/-- A digit without a place value is stuck at. -/
theorem stuck?_oneElement :
    oneElement.store.stuck? (.atom (oneElement.path ⟨0⟩).node) (Text.dotted "elements.²") =
      some "²" := by
  decide +kernel

theorem get_resolves_oneElement :
    (oneElement.store.stuck? (.atom (oneElement.path ⟨0⟩).node) (Text.dotted "elements.7.name") =
        none ∧
      ∃ q w', (get ⟨0⟩ "elements.7.name").run oneElement = .ok (.one q) w' ∧
        (w'.path q).node = .null) ∧
    oneElement.store.stuck? (.atom (oneElement.path ⟨0⟩).node) (Text.dotted "elements.²") =
        some "²" ∧
      ∃ w', (get ⟨0⟩ "elements.²").run oneElement = .error (.badIndex "²") w' := by
  have hlegible : oneElement.store.stuck? (.atom (oneElement.path ⟨0⟩).node)
      (Text.dotted "elements.7.name") = none := by decide +kernel
  have hmissing : oneElement.store.reach? (.atom (oneElement.path ⟨0⟩).node)
      (Text.dotted "elements.7.name") = none := by decide +kernel
  obtain ⟨found, w', hrun, -, hanswers⟩ :=
    (get_resolves ⟨0⟩ "elements.7.name" oneElement).1 hlegible
  rw [hmissing] at hanswers
  obtain ⟨q, above, rfl, hq⟩ := hanswers
  obtain ⟨-, -, w'', hrun', -⟩ :=
    (get_resolves ⟨0⟩ "elements.²" oneElement).2 "²" stuck?_oneElement
  exact ⟨⟨hlegible, q, w', hrun, by rw [hq]; rfl⟩, stuck?_oneElement, w'', hrun'⟩

/-- Not every dotted path is followed to its end. -/
theorem not_get_resolves :
    ¬ ∀ (w : Workspace Unit) (p : PathId) (dotted : String),
      ∃ found w', (get p dotted).run w = .ok found w' ∧
        (w.store.reach? (.atom (w.path p).node) (Text.dotted dotted) = none →
          ∃ q, found = .one q ∧ (w'.path q).node = .null) := by
  intro hclaim
  obtain ⟨found, w', hrun, -⟩ := hclaim oneElement ⟨0⟩ "elements.²"
  have hstart : (Found.one ⟨0⟩).Shows oneElement (.atom (oneElement.path ⟨0⟩).node) :=
    ⟨⟨0⟩, rfl, rfl⟩
  have hresolves := resolves_of_shows (Text.dotted "elements.²") hstart
  obtain ⟨w'', hfault, -⟩ := hresolves.stuck "²" stuck?_oneElement
  cases hrun.symm.trans hfault

end Edit

end NamedExports
