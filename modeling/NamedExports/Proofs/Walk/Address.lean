import NamedExports.Proofs.Walk.Detached
import NamedExports.Proofs.Walk.Entered

/-!
# Addresses of entered nodes

A walk and a dotted path name the same places.  If a walk below a root removes nothing, the address of
a path through which it enters a node leads from the root to the same node in the same place
(`Walk.Call.Addressed`), and there is one such path for every address that leads from node to node.

If nodes are removed, an address may lead elsewhere later on.  But when a node is entered, the walk has
just found it at its index, so at this moment the list and the index lead to it from the path above
(`Walk.Call.Resolves`).
-/

namespace NamedExports

variable {σ : Type}

namespace Walk

open Pruner (labelled)

/-! ### Addresses and dotted paths -/

/-- From now on, as long as nothing is removed, the address of the path of a call leads from the root
to the same node in the same place of the same object. -/
def Call.Addressed (w : Workspace σ) (root : PathId) (c : Call σ) : Prop :=
  ∀ w₂, w.Steps (fun _ => False) w₂ →
    ∃ q w', (Edit.get root (c.before.address root c.path)).run w₂ = .ok (.one q) w' ∧
      (w'.path q).node = c.node ∧ w'.parent q = c.before.parent c.path ∧
      (w'.path q).slot = (c.before.path c.path).slot

/-- If the path of a call has been taken to an entry of a list, then at this moment the list and the
index lead from the path above to the node. -/
def Call.Resolves (c : Call σ) : Prop :=
  ∀ list index, (c.before.path c.path).slot = .entry list index →
    ∃ above q w', (c.before.path c.path).above = some above ∧
      (Edit.get above (list ++ "." ++ toString index)).run c.before = .ok (.one q) w' ∧
      (w'.path q).node = c.node

section Agree

variable {v : Visitor σ} {removable kind : Atom → Prop} {start w : Workspace σ} {root : PathId}
  {c : Call σ} {slots : List Slot}

theorem Call.Stands.resolves (h : c.Stands start removable kind) (hnumbered : start.store.Numbered) :
    c.Resolves := by
  obtain ⟨hsteps, above, slot, hpath, hat, -⟩ := h
  intro list index hslot
  rw [hpath] at hslot ⊢
  obtain rfl : slot = .entry list index := hslot
  obtain ⟨q, w', hrun, -, hq⟩ := Edit.run_get_place hnumbered (Workspace.Steps.shrinks hsteps) hat
  exact ⟨above, q, w', rfl, hrun, by rw [hq]; rfl⟩

theorem addressed_of_descends (hclosed : w.Closed) (hroot : w.Knows root)
    (hnumbered : w.store.Numbered) (hsteps : w.Steps (fun _ => False) c.before)
    (hdesc : c.before.Descends root c.path slots) (hne : slots ≠ []) : c.Addressed w root := by
  intro w₂ hlater
  have hstore : w₂.store = c.before.store :=
    (Workspace.Steps.store_eq hlater).trans (Workspace.Steps.store_eq hsteps).symm
  have htrail : w₂.trail root = c.before.trail root := by
    rw [(Workspace.Steps.keepsPaths hlater).trail_eq hclosed hroot,
      (Workspace.Steps.keepsPaths hsteps).trail_eq hclosed hroot]
  have hnumbered' : c.before.store.Numbered := by
    rwa [Workspace.Steps.store_eq hsteps]
  obtain ⟨q, w', hrun, -, hsame⟩ := Edit.run_get_address hdesc hne hnumbered'
    (Workspace.Steps.closed hlater hclosed) (Workspace.Steps.knows hlater hroot) hstore htrail
  refine ⟨q, w', ?_, Workspace.node_eq_of_trail_eq hsame, Workspace.parent_eq_of_trail_eq hsame,
    congrArg Sight.slot (Workspace.sight_eq_of_trail_eq hsame)⟩
  unfold Workspace.address
  rw [hdesc.places_eq]
  exact hrun

variable {scope : List Slot → Prop} {calls : List (Call σ)} {r : Outcome σ}

/-- The places of an entered node lead to it. -/
theorem Enters.leads (h : Enters w root scope calls r) (hroot : w.Knows root) :
    ∀ c ∈ entered calls, w.store.Leads (w.path root).node (c.places root) c.node := by
  intro c hc
  have hsteps := h.steps c hc
  have hway := (h.descends c hc).leads
  rwa [Workspace.Steps.store_eq hsteps, Workspace.Steps.node_eq hsteps hroot] at hway

/-- Nodes that are entered in different places have different addresses. -/
theorem Enters.nodup_address (h : Enters w root scope calls r) (hroot : w.Knows root)
    (hne : ∀ c ∈ entered calls, c.places root ≠ []) :
    ((entered calls).map fun c => c.before.address root c.path).Nodup := by
  have hmap : ((entered calls).map fun c => c.before.address root c.path) =
      ((entered calls).map (Call.places root)).map Slot.address := by
    rw [List.map_map]
    rfl
  rw [hmap]
  refine h.nodup.map_on ?_
  intro slots hslots slots' hslots' heq
  obtain ⟨c, hc, rfl⟩ := List.mem_map.mp hslots
  obtain ⟨c', hc', rfl⟩ := List.mem_map.mp hslots'
  exact (h.leads hroot c hc).eq_of_address (h.leads hroot c' hc') (hne c hc) (hne c' hc') heq

end Agree

/-- In a walk below a root that removes nothing, the address of every path through which a node is
entered leads from the root to the same node in the same place; no address comes twice; and unless a
hook fails, every address that leads from node to node through fields and entries is that of an entered
node.  In any walk, whatever it removes, an entry is where its path says when it is entered. -/
theorem addresses_agree {t : Labelled} (hcomplete : t.Complete) (hnode : t.isNode = true)
    {w : Workspace σ} (hclosed : w.Closed) (hnumbered : w.store.Numbered) (hhas : w.store.Has t)
    (v : Visitor σ) :
    (∀ root, (w.path root).node = t.atom → (w.path root).removed = false →
      v.OnlyRemoves (fun _ => False) w →
      ∃ calls turns, Runs v (.children root) w calls turns ((Edit.walkBelow v root).run w) ∧
        (∀ c ∈ entered calls, c.Addressed w root) ∧
        ((entered calls).map fun c => c.before.address root c.path).Nodup ∧
        FailsInCall v calls ((Edit.walkBelow v root).run w) ∧
        ∀ w', (Edit.walkBelow v root).run w = .ok () w' →
          ∀ slots b, slots ≠ [] → w.store.Leads t.atom slots b →
            ∃ c ∈ entered calls, c.before.address root c.path = Slot.address slots ∧ c.node = b) ∧
    ∀ removable : Atom → Prop,
      (∀ root, (w.path root).node = t.atom → (w.path root).removed = false →
        v.OnlyRemoves removable w →
        ∃ calls turns, Runs v (.children root) w calls turns ((Edit.walkBelow v root).run w) ∧
          ∀ c ∈ entered calls, c.Resolves) ∧
      (v.OnlyRemoves removable (w.addPath (.start t.atom)) →
        ∃ calls turns, Runs v (.visit w.nextPath) (w.addPath (.start t.atom)) calls turns
            ((Edit.walk v t.atom).run w) ∧
          ∀ c ∈ entered calls, c.Resolves) := by
  have hisNode : w.store.isNode t.atom = true := hhas.isNode_atom.trans hnode
  have hany : ∀ {removable : Atom → Prop} {start : Workspace σ}, ∀ w, start.Steps removable w →
      ∀ a slot b, anyValue a → w.store.ChildAt a slot b → anyValue b := fun _ _ _ _ _ _ _ => trivial
  refine ⟨fun root hroot hlive hv => ?_, fun removable => ⟨fun root hroot hlive hv => ?_, fun hv => ?_⟩⟩
  · obtain ⟨hnotNull, hknown⟩ := held_children hhas hnode hroot
    obtain ⟨calls, turns, hruns⟩ := Edit.runs_walkBelow hv hnotNull hlive
    have henters : Enters w root (PlaceUnder w.store [] (w.path root).node fun _ => True) calls
        ((Edit.walkBelow v root).run w) := hruns.enters hv .refl hknown trivial .here
    have hplaces : ∀ c ∈ entered calls, c.places root ≠ [] := by
      intro c hc
      obtain ⟨slot, rest, -, -, heq, -⟩ := henters.within c hc
      rw [heq]
      exact List.cons_ne_nil _ _
    refine ⟨calls, turns, hruns, fun c hc => ?_, henters.nodup_address hknown hplaces, ?_,
      fun w' hok slots b hne hb => ?_⟩
    · exact addressed_of_descends hclosed hknown hnumbered (henters.steps c hc)
        (henters.descends c hc) (hplaces c hc)
    · exact (hruns.along hv .refl hknown (Labelled.has_children hcomplete hhas)
        ⟨t, hroot, hnode, hhas, hcomplete, rfl⟩).fault
    · obtain ⟨slot, rest, rfl⟩ := List.exists_cons_of_ne_nil hne
      rw [← hroot] at hb
      obtain ⟨a, ha, hrest⟩ := hb
      obtain ⟨c, hc, hsame⟩ := henters.all w' hok (slot :: rest)
        ⟨slot, rest, a, b, rfl, trivial, ha, hrest⟩
      refine ⟨c, hc, congrArg Slot.address hsame, ?_⟩
      exact (henters.leads hknown c hc).unique (hsame ▸ ⟨a, ha, hrest⟩)
  · obtain ⟨hnotNull, hknown⟩ := held_children hhas hnode hroot
    obtain ⟨calls, turns, hruns⟩ := Edit.runs_walkBelow hv hnotNull hlive
    refine ⟨calls, turns, hruns, fun c hc => ?_⟩
    obtain ⟨hmem, hphase⟩ := List.mem_filter.mp hc
    have hstands := hruns.stands hv hany .refl hknown trivial trivial c hmem
      (of_decide_eq_true hphase)
    exact (hstands.resolve_right id).resolves hnumbered
  · obtain ⟨calls, turns, hruns⟩ := Edit.runs_walk hv hisNode
    refine ⟨calls, turns, hruns, fun c hc => ?_⟩
    obtain ⟨hmem, hphase⟩ := List.mem_filter.mp hc
    rcases hruns.stands hv hany .refl (held_nextPath hisNode) (lawful_nextPath rfl) trivial c hmem
      (of_decide_eq_true hphase) with hstands | ⟨hp, hbefore⟩
    · exact hstands.resolves hnumbered
    · -- the start node is no entry
      intro list index hslot
      rw [hp, hbefore, w.path_addPath_nextPath] at hslot
      cases hslot

/-- Counts the nodes that are entered. -/
def counting : Visitor ℕ := fun _ => .onEnter fun _ => Edit.note (· + 1)

theorem counting_onlyRemoves (removable : Atom → Prop) (start : Workspace ℕ) :
    counting.OnlyRemoves removable start := by
  intro w _ p _ _ type phase f hf
  cases phase with
  | exit => cases hf
  | enter =>
    cases hf
    exact (Edit.bySteps_note _).1

theorem outcome_counting_ne_error (c : Call ℕ) (fault : Fault) (w : Workspace ℕ) :
    c.outcome counting ≠ .error fault w := by
  obtain ⟨phase, p, type, before⟩ := c
  cases phase <;> cases type <;> exact nofun

/-- An array pattern of an identifier, nothing, and a rest element for the same identifier. -/
def heldTwice : Store :=
  let (s, a) := Store.empty.addModelled .identifier ⟨0, 0⟩ [("name", .atom (.str "a"))]
  let (s, rest) := s.addModelled .restElement ⟨0, 0⟩ [("argument", .atom (.ref a))]
  (s.addModelled .arrayPattern ⟨0, 0⟩ [("elements", .items [.ref a, .null, .ref rest])]).1

/-- The array pattern as a labelled tree, in which the identifier of the rest element comes first. -/
def heldTwiceTree : Labelled :=
  labelled ⟨2⟩ .arrayPattern
    [("elements", .many (restElementTree.children ++ [.null, restElementTree]))]

theorem leads_heldTwice : heldTwice.Leads (.ref ⟨2⟩) [.entry "elements" 0] (.ref ⟨0⟩) ∧
    heldTwice.Leads (.ref ⟨2⟩) [.entry "elements" 2, .field "argument"] (.ref ⟨0⟩) := by
  refine ⟨⟨_, .entry ?_ ?_ ?_, rfl⟩, ⟨.ref ⟨1⟩, .entry ?_ ?_ ?_, _, .field ?_ ?_ ?_, rfl⟩⟩ <;>
    decide +kernel

/-- The identifier is entered by way of two addresses.  In the other pattern every entry resolves when
it is entered, although others are removed before. -/
theorem addresses_agree_heldTwice :
    (let w : Workspace ℕ := (Workspace.ofStore heldTwice 0).addPath (.start (.ref ⟨2⟩))
      ∃ calls turns, Runs counting (.children ⟨0⟩) w calls turns
          ((Edit.walkBelow counting ⟨0⟩).run w) ∧
        ∀ address ∈ ["elements.0", "elements.2.argument"], ∃ c ∈ entered calls,
          c.before.address ⟨0⟩ c.path = address ∧ c.node = .ref ⟨0⟩ ∧ c.Addressed w ⟨0⟩) ∧
    let w : Workspace (List Script.Event) :=
      (Workspace.ofStore Pruner.fourElements []).addPath (.start (.ref ⟨4⟩))
    ∃ calls turns, Runs clearing (.children ⟨0⟩) w calls turns
        ((Edit.walkBelow clearing ⟨0⟩).run w) ∧ ∀ c ∈ entered calls, c.Resolves := by
  constructor
  · intro w
    have hclosed : w.Closed := (Workspace.closed_ofStore _ _).addPath fun q hq => by cases hq
    obtain ⟨hbelow, -⟩ := addresses_agree (t := heldTwiceTree) (w := w) (by decide +kernel) rfl
      hclosed (by decide +kernel) (by decide +kernel) counting
    obtain ⟨calls, turns, hruns, haddressed, -, hfails, hall⟩ :=
      hbelow ⟨0⟩ rfl rfl (counting_onlyRemoves _ _)
    refine ⟨calls, turns, hruns, ?_⟩
    cases hrun : (Edit.walkBelow counting ⟨0⟩).run w with
    | error fault w' =>
      obtain ⟨before, c, -, hc⟩ := hfails fault w' hrun
      exact absurd hc (outcome_counting_ne_error c fault w')
    | ok _ w' =>
      obtain ⟨hfirst, hsecond⟩ := leads_heldTwice
      refine List.forall_mem_cons.mpr ⟨?_, List.forall_mem_singleton.mpr ?_⟩
      · obtain ⟨c, hc, haddress, hnode⟩ := hall w' hrun _ _ (List.cons_ne_nil _ _) hfirst
        exact ⟨c, hc, haddress.trans (by decide +kernel), hnode, haddressed c hc⟩
      · obtain ⟨c, hc, haddress, hnode⟩ := hall w' hrun _ _ (List.cons_ne_nil _ _) hsecond
        exact ⟨c, hc, haddress.trans (by decide +kernel), hnode, haddressed c hc⟩
  · intro w
    have hclosed : w.Closed := (Workspace.closed_ofStore _ _).addPath fun q hq => by cases hq
    obtain ⟨-, hresolves⟩ := addresses_agree (t := Pruner.fourElementsTree) (w := w)
      (by decide +kernel) rfl hclosed (by decide +kernel) (by decide +kernel) clearing
    obtain ⟨hbelow, -⟩ := hresolves anyValue
    exact hbelow ⟨0⟩ rfl rfl (Script.removesAnywhere _ hclosed).onlyRemoves

end Walk

end NamedExports
