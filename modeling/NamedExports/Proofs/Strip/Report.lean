import Mathlib.Algebra.GroupWithZero.Nat
import NamedExports.Export.Remaining
import NamedExports.Proofs.Strip.Label

/-!
# Reports before and after stripping

A report lists the labels of all object patterns of the named exports.  `Tree.tallies` reads the
same report off a program and marks the labels of the entries that stripping is to drop.  Then the
report after stripping is the one before it without the marked labels, and the number of entries in
the patterns has gone down by the number of marks.
-/

namespace NamedExports

/-- What a report says of a named export before stripping, with a mark at the labels of the entries
that stripping drops. -/
structure Tally where
  first : Tree
  last : Tree
  patterns : List (Tree × List (Tree × Bool))

namespace Tally

/-- The report before stripping: the marks do not matter. -/
def before (t : Tally) : Remainder where
  first := t.first
  last := t.last
  patterns := t.patterns.map fun q => (q.1, q.2.map Prod.fst)

/-- The report after stripping: the marked labels are left out, the others keep their places. -/
def after (t : Tally) : Remainder where
  first := t.first
  last := t.last
  patterns := t.patterns.map fun q => (q.1, (q.2.filter fun l => !l.2).map Prod.fst)

/-- The number of marked labels. -/
def dropped (t : Tally) : ℕ :=
  (t.patterns.map fun q => q.2.countP Prod.snd).sum

end Tally

namespace Tree

/-- The label of an entry, marked if the entry binds one of some names. -/
def markedLabel (names : List String) (entry : Tree) : Except Fault (Tree × Bool) := do
  return (← entry.label, entry.bindsAny names)

/-- The first line and the marked labels of a pattern. -/
def markedPattern (names : List String) (pattern : Tree) :
    Except Fault (Tree × List (Tree × Bool)) := do
  return (pattern.get "start_line",
    ← (← (← pattern.read "properties").iterate).mapM (markedLabel names))

/-- The tally of a statement. -/
def tally (names : List String) (statement : Tree) : Except Fault Tally := do
  return ⟨statement.get "start_line", statement.get "end_line",
    ← (← statement.collectPatterns).mapM (markedPattern names)⟩

variable {names : List String} {t : Tree}

/-! ### Entries -/

/-- What is read of the entries of a pattern before and after stripping, if the labels are marked. -/
structure EntriesRead (names : List String) (entries : List Tree) (marked : List (Tree × Bool)) :
    Prop where
  marks : entries.mapM (markedLabel names) = .ok marked
  labels : entries.mapM label = .ok (marked.map Prod.fst)
  labelsLeft : (stripEntries names true entries).mapM label =
    .ok ((marked.filter fun l => !l.2).map Prod.fst)
  count : entries.length = marked.length
  countLeft : (stripEntries names true entries).length + marked.countP Prod.snd = marked.length

theorem EntriesRead.cons {entry : Tree} {text : String} {entries : List Tree}
    {marked : List (Tree × Bool)} (h : EntriesRead names entries marked)
    (hlabel : entry.label = .ok (str text)) (hstripped : (entry.strip names).label = .ok (str text)) :
    EntriesRead names (entry :: entries) ((str text, entry.bindsAny names) :: marked) where
  marks := by
    have hmark : markedLabel names entry = .ok (str text, entry.bindsAny names) := by
      unfold markedLabel
      rw [hlabel]
      rfl
    rw [List.mapM_cons, hmark, h.marks]
    rfl
  labels := by
    rw [List.mapM_cons, hlabel, h.labels]
    rfl
  labelsLeft := by
    unfold stripEntries
    cases hbinds : entry.bindsAny names with
    | true =>
      rw [Bool.and_self, if_pos rfl, h.labelsLeft]
      rfl
    | false =>
      rw [Bool.and_false, if_neg Bool.false_ne_true, List.mapM_cons, hstripped, h.labelsLeft]
      rfl
  count := by simp [h.count]
  countLeft := by
    have hcount := h.countLeft
    unfold stripEntries
    cases hbinds : entry.bindsAny names with
    | true =>
      rw [Bool.and_self, if_pos rfl, List.countP_cons, List.length_cons]
      simp only [if_true]
      omega
    | false =>
      rw [Bool.and_false, if_neg Bool.false_ne_true, List.countP_cons, List.length_cons,
        List.length_cons]
      simp only [Bool.false_eq_true, if_false]
      omega

/-- The entries of a pattern can all be read. -/
theorem exists_entriesRead (names : List String) {entries : List Tree}
    (h : ∀ e ∈ entries, Syntax.IsRegularNode e) : ∃ marked, EntriesRead names entries marked := by
  induction entries with
  | nil => exact ⟨[], rfl, rfl, rfl, rfl, rfl⟩
  | cons e entries ih =>
    obtain ⟨marked, hread⟩ := ih fun e he => h e (List.mem_cons_of_mem _ he)
    obtain ⟨hregular, hnode⟩ := h e List.mem_cons_self
    obtain ⟨text, hlabel, hstripped⟩ := label_strip names hregular hnode
    exact ⟨_, hread.cons hlabel hstripped⟩

/-! ### Patterns -/

/-- An object pattern with a list of regular nodes as its entries. -/
def IsPatternOfNodes (t : Tree) : Prop :=
  ∃ lines entries, t = modelled .objectPattern lines [list entries] ∧
    ∀ e ∈ entries, Syntax.IsRegularNode e

/-- All patterns that are found in a regular tree have a list of regular nodes as their entries. -/
theorem isPatternOfNodes_of_regular (h : t.Regular) :
    ∀ p ∈ t.patternsInField, IsPatternOfNodes p := by
  induction h with
  | null => simp [patternsInField, objectPatterns]
  | bool value => simp [patternsInField, objectPatterns]
  | int value => simp [patternsInField, objectPatterns]
  | str value => simp [patternsInField, objectPatterns]
  | @list items hflat hitems ih =>
    intro p hp
    change p ∈ patternsInEntries items at hp
    rw [patternsInEntries_eq, List.mem_flatMap] at hp
    obtain ⟨e, he, hpe⟩ := hp
    rw [← patternsInField_of_ne_list (hflat e he)] at hpe
    exact ih e he p hpe
  | @plain type lines htype =>
    intro p hp
    change p ∈ (plain type lines).objectPatterns at hp
    rw [objectPatterns_plain htype] at hp
    exact absurd hp List.not_mem_nil
  | @modelled kind lines values htakes hvalues ih =>
    obtain ⟨hlength, htakes⟩ := htakes
    intro p hp
    change p ∈ (modelled kind lines values).objectPatterns at hp
    rw [objectPatterns_modelled hlength, List.mem_append, List.mem_flatMap] at hp
    rcases hp with hself | ⟨v, hv, hpv⟩
    · by_cases hkind : kind = .objectPattern
      · rw [if_pos hkind, List.mem_singleton] at hself
        subst hkind
        obtain ⟨entries, rfl, -, hnodes⟩ := htakes
        have hentries : ∀ e ∈ entries, e.Regular := fun e he =>
          ((hvalues (list entries) (by simp)).of_list e he).1
        exact ⟨lines, entries, hself, fun e he => ⟨hentries e he, hnodes e he⟩⟩
      · rw [if_neg hkind] at hself
        exact absurd hself List.not_mem_nil
    · exact ih v hv p hpv

/-- The number of entries of a pattern. -/
def entryCount (pattern : Tree) : Except Fault ℕ := do
  (← pattern.read "properties").length

theorem countProperties_eq (patterns : List Tree) (counts : List ℕ)
    (hpatterns : t.collectPatterns = .ok patterns) (hcounts : patterns.mapM entryCount = .ok counts) :
    t.countProperties = .ok counts.sum := by
  unfold countProperties
  rw [hpatterns]
  show (patterns.mapM entryCount >>= fun counts => pure (counts.foldl (· + ·) 0)) = _
  rw [hcounts, List.sum_eq_foldl]
  rfl

/-- What reads as a value is the attribute. -/
theorem get_of_read {name : String} {v : Tree} (h : t.read name = .ok v) : t.get name = v := by
  unfold read at h
  unfold get
  cases hattr : t.attr? name with
  | none => simp [hattr] at h
  | some u => simpa [hattr] using h

/-- The patterns that are collected are all patterns at or below the node. -/
theorem objectPatterns_of_collectPatterns {patterns : List Tree}
    (h : t.collectPatterns = .ok patterns) : t.objectPatterns = patterns := by
  obtain ⟨-, -, hpatterns⟩ := Built.bind_eq_ok.mp h
  cases t with
  | node shape attributes =>
    dsimp only at hpatterns
    cases hfields : shape.fields? with
    | none => simp [hfields, throw, throwThe, MonadExceptOf.throw] at hpatterns
    | some fields =>
      rw [hfields] at hpatterns
      exact Built.pure_eq_ok.mp hpatterns
  | _ => cases hpatterns

/-- What is read of a pattern before and after stripping, if the labels are marked: the labels and the
number of entries. -/
structure PatternRead (names : List String) (pattern : Tree) (marked : Tree × List (Tree × Bool))
    (before after : ℕ) : Prop where
  marks : markedPattern names pattern = .ok marked
  labels : patternLabels pattern = .ok (marked.1, marked.2.map Prod.fst)
  labelsLeft : patternLabels (pattern.strip names) =
    .ok (marked.1, (marked.2.filter fun l => !l.2).map Prod.fst)
  count : entryCount pattern = .ok before
  countLeft : entryCount (pattern.strip names) = .ok after
  sum : after + marked.2.countP Prod.snd = before

theorem IsPatternOfNodes.exists_read {pattern : Tree} (h : IsPatternOfNodes pattern)
    (names : List String) : ∃ marked before after, PatternRead names pattern marked before after := by
  obtain ⟨lines, entries, rfl, hentries⟩ := h
  obtain ⟨marks, hread⟩ := exists_entriesRead names hentries
  refine ⟨(int lines.first, marks), entries.length, (stripEntries names true entries).length, ?_, ?_,
    ?_, rfl, rfl, hread.countLeft.trans hread.count.symm⟩
  · show (entries.mapM (markedLabel names) >>= fun marks => pure (int lines.first, marks)) = _
    rw [hread.marks]
    rfl
  · show (entries.mapM label >>= fun labels => pure (int lines.first, labels)) = _
    rw [hread.labels]
    rfl
  · show ((stripEntries names true entries).mapM label >>= fun labels =>
      pure (int lines.first, labels)) = _
    rw [hread.labelsLeft]
    rfl

/-- What is read of some patterns before and after stripping. -/
structure PatternsRead (names : List String) (patterns : List Tree)
    (marked : List (Tree × List (Tree × Bool))) (before after : List ℕ) : Prop where
  marks : patterns.mapM (markedPattern names) = .ok marked
  labels : patterns.mapM patternLabels = .ok (marked.map fun q => (q.1, q.2.map Prod.fst))
  labelsLeft : (patterns.map (strip names)).mapM patternLabels =
    .ok (marked.map fun q => (q.1, (q.2.filter fun l => !l.2).map Prod.fst))
  count : patterns.mapM entryCount = .ok before
  countLeft : (patterns.map (strip names)).mapM entryCount = .ok after
  sum : after.sum + (marked.map fun q => q.2.countP Prod.snd).sum = before.sum

theorem PatternsRead.cons {pattern : Tree} {q : Tree × List (Tree × Bool)} {n m : ℕ}
    {patterns : List Tree} {marked : List (Tree × List (Tree × Bool))} {before after : List ℕ}
    (h : PatternsRead names patterns marked before after) (hread : PatternRead names pattern q n m) :
    PatternsRead names (pattern :: patterns) (q :: marked) (n :: before) (m :: after) where
  marks := by
    rw [List.mapM_cons, hread.marks, h.marks]
    rfl
  labels := by
    rw [List.mapM_cons, hread.labels, h.labels]
    rfl
  labelsLeft := by
    rw [List.map_cons, List.mapM_cons, hread.labelsLeft, h.labelsLeft]
    rfl
  count := by
    rw [List.mapM_cons, hread.count, h.count]
    rfl
  countLeft := by
    rw [List.map_cons, List.mapM_cons, hread.countLeft, h.countLeft]
    rfl
  sum := by
    have hhead := hread.sum
    have htail := h.sum
    simp only [List.map_cons, List.sum_cons]
    omega

theorem exists_patternsRead (names : List String) {patterns : List Tree}
    (h : ∀ p ∈ patterns, IsPatternOfNodes p) :
    ∃ marked before after, PatternsRead names patterns marked before after := by
  induction patterns with
  | nil => exact ⟨[], [], [], rfl, rfl, rfl, rfl, rfl, rfl⟩
  | cons p patterns ih =>
    obtain ⟨marked, before, after, htail⟩ := ih fun p hp => h p (List.mem_cons_of_mem _ hp)
    obtain ⟨q, n, m, hread⟩ := (h p List.mem_cons_self).exists_read names
    exact ⟨_, _, _, htail.cons hread⟩

/-! ### Marks -/

/-- The entries of a pattern that bind one of some names. -/
def boundIn (names : List String) (pattern : Tree) : List Tree :=
  match pattern.get "properties" with
  | list entries => entries.filter (·.bindsAny names)
  | _ => []

/-- The entries that bind one of some names, of all patterns at or below a value. -/
def bound (names : List String) (t : Tree) : List Tree :=
  t.objectPatterns.flatMap (boundIn names)

/-- As many labels are marked as entries bind one of the names. -/
theorem countP_of_mapM_markedLabel {entries : List Tree} {marked : List (Tree × Bool)}
    (h : entries.mapM (markedLabel names) = .ok marked) :
    marked.countP Prod.snd = (entries.filter (·.bindsAny names)).length := by
  have hmarks := Built.mapM_eq_ok_iff.mp h
  clear h
  induction hmarks with
  | nil => rfl
  | @cons e m entries marked hmark _ ih =>
    obtain ⟨l, -, hl⟩ := Built.bind_eq_ok.mp hmark
    rw [← Built.pure_eq_ok.mp hl, List.countP_cons, List.filter_cons, ih]
    cases e.bindsAny names <;> simp

/-- As many labels of a pattern are marked as entries bind one of the names. -/
theorem countP_of_markedPattern {pattern : Tree} {q : Tree × List (Tree × Bool)}
    (h : markedPattern names pattern = .ok q) :
    q.2.countP Prod.snd = (boundIn names pattern).length := by
  obtain ⟨properties, hproperties, hrest⟩ := Built.bind_eq_ok.mp h
  obtain ⟨entries, hentries, hlabels⟩ := Built.bind_eq_ok.mp hrest
  obtain ⟨marked, hmarked, hq⟩ := Built.bind_eq_ok.mp hlabels
  have hget : pattern.get "properties" = properties := get_of_read hproperties
  rw [← Built.pure_eq_ok.mp hq, countP_of_mapM_markedLabel hmarked]
  unfold boundIn
  rw [hget]
  cases properties with
  | list items =>
    cases hentries
    rfl
  | str value =>
    -- the characters of a text bind nothing
    cases hentries
    refine congrArg List.length (List.filter_eq_nil_iff.mpr fun e he => ?_)
    obtain ⟨c, -, rfl⟩ := List.mem_map.mp he
    simp [bindsAny, hasType, get, attr?, isText]
  | _ => cases hentries

theorem sum_countP_of_mapM_markedPattern {patterns : List Tree}
    {marked : List (Tree × List (Tree × Bool))}
    (h : patterns.mapM (markedPattern names) = .ok marked) :
    (marked.map fun q => q.2.countP Prod.snd).sum =
      (patterns.map fun p => (boundIn names p).length).sum := by
  have hmarks := Built.mapM_eq_ok_iff.mp h
  clear h
  induction hmarks with
  | nil => rfl
  | cons hmark _ ih =>
    rw [List.map_cons, List.map_cons, List.sum_cons, List.sum_cons, ih,
      countP_of_markedPattern hmark]

/-- A tally has a mark for each entry that binds one of the names. -/
theorem dropped_of_tally {tally' : Tally} (h : t.tally names = .ok tally') :
    tally'.dropped = (t.bound names).length := by
  obtain ⟨patterns, hpatterns, hrest⟩ := Built.bind_eq_ok.mp h
  obtain ⟨marked, hmarked, htally⟩ := Built.bind_eq_ok.mp hrest
  have hcollected : t.objectPatterns = patterns := objectPatterns_of_collectPatterns hpatterns
  rw [← Built.pure_eq_ok.mp htally]
  unfold Tally.dropped bound
  rw [hcollected, List.length_flatMap]
  exact sum_countP_of_mapM_markedPattern hmarked

/-! ### Statements -/

/-- A named export, what is reported of it and how many entries its patterns have, before and after
stripping. -/
theorem exists_tally (names : List String) (h : Syntax.IsRegularNode t)
    (htype : t.hasType namedExportType = true) :
    ∃ tally' before after, t.tally names = .ok tally' ∧ t.remainder = .ok tally'.before ∧
      (t.stripBelow names).remainder = .ok tally'.after ∧ t.countProperties = .ok before ∧
      (t.stripBelow names).countProperties = .ok after ∧ after + tally'.dropped = before := by
  obtain ⟨lines, values, rfl, ⟨hlength, -⟩, -⟩ :=
    h.1.exists_of_hasType .exportNamedDeclaration htype
  obtain ⟨marked, before, after, hread⟩ :=
    exists_patternsRead names (isPatternOfNodes_of_regular h.1)
  have hpatterns : (modelled .exportNamedDeclaration lines values).collectPatterns =
      .ok (modelled .exportNamedDeclaration lines values).patternsInField := rfl
  have hpatterns' : ((modelled .exportNamedDeclaration lines values).stripBelow names).collectPatterns
      = .ok ((modelled .exportNamedDeclaration lines values).patternsInField.map (strip names)) := by
    show _ = Except.ok ((modelled .exportNamedDeclaration lines values).objectPatterns.map _)
    rw [← objectPatterns_stripBelow h.1 hlength (by decide), stripBelow_modelled hlength]
    rfl
  refine ⟨⟨int lines.first, int lines.last, marked⟩, before.sum, after.sum, ?_, ?_, ?_,
    countProperties_eq _ before hpatterns hread.count,
    countProperties_eq _ after hpatterns' hread.countLeft, hread.sum⟩
  · unfold tally
    rw [hpatterns]
    show ((modelled .exportNamedDeclaration lines values).patternsInField.mapM
      (markedPattern names) >>= _) = _
    rw [hread.marks]
    rfl
  · unfold remainder statementLabels
    rw [hpatterns]
    show ((modelled .exportNamedDeclaration lines values).patternsInField.mapM
      patternLabels >>= _) = _
    rw [hread.labels]
    rfl
  · unfold remainder statementLabels
    rw [hpatterns']
    show (((modelled .exportNamedDeclaration lines values).patternsInField.map
      (strip names)).mapM patternLabels >>= _) = _
    rw [hread.labelsLeft, stripBelow_modelled hlength]
    rfl

end Tree

end NamedExports
