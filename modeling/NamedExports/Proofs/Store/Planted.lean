import Mathlib.Data.List.Flatten
import NamedExports.Proofs.Store.Labelled
import NamedExports.Proofs.Store.Load

/-!
# Loaded trees hang once

Every object of a loaded tree is added for one place of it.  So what stands for the tree afterwards
is a labelled tree in which no object hangs in two places (`Store.exists_planted_ofTree`): the
objects of each part come one after the other (`Store.Planted`), and those of parts that are loaded
later come later.  It stays so when objects lose some of what they hold (`Store.Has.refs_sublist`).
-/

namespace NamedExports

namespace Store

open Labelled (refs parts toValue)

variable {s s' s'' : Store} {low middle high : ℕ} {ts us : List Labelled}

/-- A store has some trees with objects from `low` on and before `high`, none of which hangs in two
places. -/
structure Planted (s : Store) (low high : ℕ) (ts : List Labelled) : Prop where
  has : ∀ t ∈ ts, s.Has t
  nodup : (ts.flatMap refs).Nodup
  between : ∀ q ∈ ts.flatMap refs, low ≤ q.index ∧ q.index < high

namespace Planted

theorem nil : s.Planted low high [] :=
  ⟨fun _ h => absurd h List.not_mem_nil, .nil, fun _ h => absurd h List.not_mem_nil⟩

/-- A value that is no object has no objects. -/
theorem value {a : Atom} (plain : a.refs = []) : s.Planted low high [.value a plain] := by
  have hnone : (Labelled.value a plain).objects = [] := by rw [Labelled.objects]
  have hrefs : [Labelled.value a plain].flatMap refs = [] := by
    rw [List.flatMap_singleton, refs, hnone, List.map_nil]
  refine ⟨fun t ht b hb => ?_, by rw [hrefs]; exact .nil, fun q hq => ?_⟩
  · rw [List.mem_singleton.mp ht, hnone] at hb
    exact absurd hb List.not_mem_nil
  · rw [hrefs] at hq
    exact absurd hq List.not_mem_nil

/-- Trees that are loaded one after the other. -/
theorem append (h : s.Planted low middle ts) (h' : s'.Planted middle high us)
    (hgrow : s.Extends s') (hlow : low ≤ middle) (hmiddle : middle ≤ s.size)
    (hhigh : middle ≤ high) : s'.Planted low high (ts ++ us) := by
  refine ⟨fun t ht => ?_, ?_, fun q hq => ?_⟩
  · rcases List.mem_append.mp ht with ht | ht
    · refine (h.has t ht).of_agree fun r hr => hgrow.obj?_eq r ?_
      have := (h.between r (List.mem_flatMap.mpr ⟨t, ht, hr⟩)).2
      omega
    · exact h'.has t ht
  · rw [List.flatMap_append]
    refine List.nodup_append.mpr ⟨h.nodup, h'.nodup, fun a ha b hb hab => ?_⟩
    have := (h.between a ha).2
    have := (h'.between b hb).1
    rw [hab] at *
    omega
  · rw [List.flatMap_append, List.mem_append] at hq
    rcases hq with hq | hq
    · have := h.between q hq
      omega
    · have := h'.between q hq
      omega

/-- An object is added behind all that it holds. -/
theorem add {o : Obj} {t : Labelled} (h : s.Planted low s.size ts) (hlow : low ≤ s.size)
    (ho : ∀ r ∈ o.refs, r.index < s.size)
    (hobjects : t.objects = (⟨s.size⟩, o) :: ts.flatMap Labelled.objects) :
    (s.add o).1.Planted low (s.add o).1.size [t] := by
  have hrefs : [t].flatMap refs = ⟨s.size⟩ :: ts.flatMap refs := by
    rw [List.flatMap_singleton, refs, hobjects, List.map_cons, List.map_flatMap]
    rfl
  refine ⟨fun u hu b hb => ?_, ?_, fun q hq => ?_⟩
  · rw [List.mem_singleton.mp hu, hobjects] at hb
    rcases List.mem_cons.mp hb with rfl | hb
    · exact obj?_add ho
    · obtain ⟨t, ht, hb⟩ := List.mem_flatMap.mp hb
      have hmem : b.1 ∈ ts.flatMap refs :=
        List.mem_flatMap.mpr ⟨t, ht, List.mem_map.mpr ⟨b, hb, rfl⟩⟩
      rw [(extends_add s o).obj?_eq b.1 (h.between b.1 hmem).2]
      exact h.has t ht b hb
  · rw [hrefs]
    refine List.nodup_cons.mpr ⟨fun hmem => ?_, h.nodup⟩
    exact absurd (h.between _ hmem).2 (lt_irrefl _)
  · rw [hrefs] at hq
    rw [size_add]
    rcases List.mem_cons.mp hq with rfl | hq
    · exact ⟨hlow, Nat.lt_succ_self _⟩
    · have := h.between q hq
      omega

end Planted

/-- A single value that is loaded for an attribute, and the attributes that are loaded after it. -/
theorem exists_planted_cons (name : String) {s : Store} {tree : Tree} {rest : List (String × Tree)}
    (hfirst : ∃ t : Labelled, t.atom = (s.addTree tree).2 ∧
      (s.addTree tree).1.Planted s.size (s.addTree tree).1.size [t])
    (hrest : ∃ held : List (String × Held Labelled),
      (held.map fun a => (a.1, toValue a.2)) = ((s.addTree tree).1.addAttributes rest).2 ∧
        ((s.addTree tree).1.addAttributes rest).1.Planted (s.addTree tree).1.size
          ((s.addTree tree).1.addAttributes rest).1.size (parts held)) :
    ∃ held : List (String × Held Labelled),
      (held.map fun a => (a.1, toValue a.2)) =
        (name, .atom (s.addTree tree).2) :: ((s.addTree tree).1.addAttributes rest).2 ∧
      ((s.addTree tree).1.addAttributes rest).1.Planted s.size
        ((s.addTree tree).1.addAttributes rest).1.size (parts held) := by
  obtain ⟨t, ht, hfirst⟩ := hfirst
  obtain ⟨held, hheld, hrest⟩ := hrest
  have hgrow := (loads_addTree s tree).grows
  have hgrow' := (loadsAttributes_addAttributes (s.addTree tree).1 rest).grows
  refine ⟨(name, .one t) :: held, ?_, hfirst.append hrest hgrow' hgrow.size_le le_rfl
    hgrow'.size_le⟩
  rw [List.map_cons, hheld, toValue, ht]

mutual

/-- A loaded tree stands for a planted one. -/
theorem exists_planted_addTree (s : Store) (tree : Tree) : ∃ t : Labelled,
    t.atom = (s.addTree tree).2 ∧ (s.addTree tree).1.Planted s.size (s.addTree tree).1.size [t] :=
  match tree with
  | .null => ⟨.value .null rfl, rfl, .value rfl⟩
  | .bool value => ⟨.value (.bool value) rfl, rfl, .value rfl⟩
  | .int value => ⟨.value (.int value) rfl, rfl, .value rfl⟩
  | .str value => ⟨.value (.str value) rfl, rfl, .value rfl⟩
  | .list items => by
    obtain ⟨ts, hvalues, hplanted⟩ := exists_planted_addItems s items
    have hload := loadsItems_addItems s items
    refine ⟨.sequence ⟨(s.addItems items).1.size⟩ ts, rfl,
      hplanted.add hload.grows.size_le (fun r hr => ?_) ?_⟩
    · exact (hload.between _ (Obj.mem_refs.mp hr)).refs_lt r (by simp)
    · rw [Labelled.objects, Labelled.objectsOfItems_eq, hvalues]
  | .node shape attributes => by
    obtain ⟨held, hvalues, hplanted⟩ := exists_planted_addAttributes s attributes
    have hload := loadsAttributes_addAttributes s attributes
    refine ⟨.record ⟨(s.addAttributes attributes).1.size⟩ shape held, rfl,
      hplanted.add hload.grows.size_le (fun r hr => ?_) ?_⟩
    · obtain ⟨a, ha, hatom⟩ := List.mem_flatMap.mp (Obj.mem_refs.mp hr)
      exact (hload.between a ha _ hatom).refs_lt r (by simp)
    · rw [Labelled.objects, Labelled.objectsOfAttributes_eq, parts, List.flatMap_assoc,
        Labelled.toObj, hvalues]

/-- Loaded items stand for planted trees. -/
theorem exists_planted_addItems (s : Store) (items : List Tree) : ∃ ts : List Labelled,
    ts.map Labelled.atom = (s.addItems items).2 ∧
      (s.addItems items).1.Planted s.size (s.addItems items).1.size ts :=
  match items with
  | [] => ⟨[], rfl, .nil⟩
  | tree :: trees => by
    obtain ⟨t, ht, hfirst⟩ := exists_planted_addTree s tree
    obtain ⟨ts, hts, hrest⟩ := exists_planted_addItems (s.addTree tree).1 trees
    have hgrow := (loads_addTree s tree).grows
    have hgrow' := (loadsItems_addItems (s.addTree tree).1 trees).grows
    refine ⟨t :: ts, ?_, hfirst.append hrest hgrow' hgrow.size_le le_rfl hgrow'.size_le⟩
    rw [List.map_cons, ht, hts]
    rfl

/-- Loaded attributes hold planted trees. -/
theorem exists_planted_addAttributes (s : Store) (attributes : List (String × Tree)) :
    ∃ held : List (String × Held Labelled),
      (held.map fun a => (a.1, toValue a.2)) = (s.addAttributes attributes).2 ∧
        (s.addAttributes attributes).1.Planted s.size (s.addAttributes attributes).1.size
          (parts held) :=
  match attributes with
  | [] => ⟨[], rfl, .nil⟩
  | (name, .list items) :: rest => by
    obtain ⟨ts, hts, hfirst⟩ := exists_planted_addItems s items
    obtain ⟨held, hheld, hrest⟩ := exists_planted_addAttributes (s.addItems items).1 rest
    have hgrow := (loadsItems_addItems s items).grows
    have hgrow' := (loadsAttributes_addAttributes (s.addItems items).1 rest).grows
    refine ⟨(name, .many ts) :: held, ?_,
      hfirst.append hrest hgrow' hgrow.size_le le_rfl hgrow'.size_le⟩
    rw [List.map_cons, hheld, toValue, hts]
    rfl
  | (name, .null) :: rest =>
    exists_planted_cons name (exists_planted_addTree s .null)
      (exists_planted_addAttributes _ rest)
  | (name, .bool value) :: rest =>
    exists_planted_cons name (exists_planted_addTree s (.bool value))
      (exists_planted_addAttributes _ rest)
  | (name, .int value) :: rest =>
    exists_planted_cons name (exists_planted_addTree s (.int value))
      (exists_planted_addAttributes _ rest)
  | (name, .str value) :: rest =>
    exists_planted_cons name (exists_planted_addTree s (.str value))
      (exists_planted_addAttributes _ rest)
  | (name, .node shape attributes) :: rest =>
    exists_planted_cons name (exists_planted_addTree s (.node shape attributes))
      (exists_planted_addAttributes _ rest)

end

/-- What stands for a tree that is put into a store of its own is a labelled tree in which no object
hangs in two places. -/
theorem exists_planted_ofTree (tree : Tree) : ∃ t : Labelled,
    t.atom = (ofTree tree).2 ∧ (ofTree tree).1.Has t ∧ t.refs.Nodup := by
  obtain ⟨t, ht, hplanted⟩ := exists_planted_addTree empty tree
  refine ⟨t, ht, hplanted.has t (List.mem_singleton_self t), ?_⟩
  have hnodup := hplanted.nodup
  rwa [List.flatMap_singleton] at hnodup

end Store

/-! ### Objects that lose values -/

namespace Labelled

/-- The trees that the object at the start of a tree holds. -/
def held : Labelled → List Labelled
  | value _ _ => []
  | sequence _ items => items
  | record _ _ attributes => parts attributes

/-- The objects of a tree are the one it starts with and those of the trees that this one holds. -/
theorem refs_of_atom {t : Labelled} {r : Ref} (h : t.atom = .ref r) :
    t.refs = r :: t.held.flatMap refs := by
  cases t with
  | value a plain =>
    rw [show a = .ref r from h] at plain
    cases plain
  | sequence q items =>
    cases h
    exact refs_sequence r items
  | record q shape attributes =>
    cases h
    exact refs_record_eq r shape attributes

theorem sizeOf_lt_of_mem_held {t u : Labelled} (hu : u ∈ t.held) : sizeOf u < sizeOf t := by
  cases t with
  | value a plain => exact absurd hu List.not_mem_nil
  | sequence q items => exact sizeOf_lt_of_mem_sequence hu
  | record q shape attributes =>
    obtain ⟨a, ha, hu⟩ := List.mem_flatMap.mp hu
    exact sizeOf_lt_of_mem_record ha hu

/-- A tree without objects is a value. -/
theorem refs_eq_nil {t : Labelled} (h : t.atom.refs = []) : t.refs = [] := by
  cases t with
  | value a plain => rw [refs, objects, List.map_nil]
  | sequence q items => cases h
  | record q shape attributes => cases h

end Labelled

namespace Store

open Labelled (refs parts toValue)

variable {s s' : Store} {t t' : Labelled}

/-- The object at the start of a tree holds what the trees below it start with. -/
theorem Has.exists_obj {r : Ref} (h : s.Has t) (ht : t.atom = .ref r) :
    ∃ o, s.obj? r = some o ∧ o.atoms = t.held.map Labelled.atom := by
  cases t with
  | value a plain =>
    rw [show a = .ref r from ht] at plain
    cases plain
  | sequence q items =>
    cases ht
    exact ⟨_, h.obj?_sequence, rfl⟩
  | record q shape attributes =>
    cases ht
    refine ⟨_, h.obj?_record, ?_⟩
    show (attributes.map fun a => (a.1, toValue a.2)).flatMap (fun a => a.2.atoms) =
      (parts attributes).map Labelled.atom
    rw [List.flatMap_map, parts, List.map_flatMap]
    refine List.flatMap_congr fun a _ => ?_
    obtain ⟨name, u | us⟩ := a <;> rfl

theorem Has.of_mem_held {u : Labelled} (h : s.Has t) (hu : u ∈ t.held) : s.Has u := by
  cases t with
  | value a plain => exact absurd hu List.not_mem_nil
  | sequence q items => exact h.of_mem_sequence hu
  | record q shape attributes => exact (has_record_iff.mp h).2 u hu

/-- Where the objects of a store are those of another one with fewer values, what hangs below a
value is what hung below it, in the same order, with some of it missing. -/
theorem Has.refs_sublist (h : s.Has t) (h' : s'.Has t') (hatom : t'.atom = t.atom)
    (hloses : ∀ r o o', s.obj? r = some o → s'.obj? r = some o' → o'.atoms.Sublist o.atoms) :
    t'.refs.Sublist t.refs := by
  induction hn : sizeOf t using Nat.strong_induction_on generalizing t t' with
  | _ n ih =>
    subst hn
    cases hstart : t.atom with
    | ref r =>
      rw [Labelled.refs_of_atom hstart, Labelled.refs_of_atom (hatom.trans hstart)]
      obtain ⟨o, ho, hatoms⟩ := h.exists_obj hstart
      obtain ⟨o', ho', hatoms'⟩ := h'.exists_obj (hatom.trans hstart)
      have hsub := hloses r o o' ho ho'
      rw [hatoms, hatoms', List.sublist_map_iff] at hsub
      obtain ⟨left, hleft, hsame⟩ := hsub
      refine List.Sublist.cons_cons r (List.Sublist.trans ?_ (hleft.flatMap refs))
      -- tree by tree, what is left of the objects that are held
      have heach : ∀ us ts : List Labelled, us ⊆ t'.held → ts ⊆ t.held →
          us.map Labelled.atom = ts.map Labelled.atom →
          (us.flatMap refs).Sublist (ts.flatMap refs) := by
        intro us ts hus hts hmap
        induction us generalizing ts with
        | nil => exact List.nil_sublist _
        | cons u us ih' =>
          cases ts with
          | nil => cases hmap
          | cons v ts =>
            obtain ⟨huv, hrest⟩ := List.cons_eq_cons.mp hmap
            obtain ⟨hu, hus⟩ := List.cons_subset.mp hus
            obtain ⟨hv, hts⟩ := List.cons_subset.mp hts
            exact (ih (sizeOf v) (Labelled.sizeOf_lt_of_mem_held hv) (h.of_mem_held hv)
              (h'.of_mem_held hu) huv rfl).append (ih' ts hus hts hrest)
      exact heach t'.held left (List.Subset.refl _) hleft.subset hsame
    | _ =>
      rw [Labelled.refs_eq_nil (by rw [hatom, hstart]; rfl)]
      exact List.nil_sublist _

end Store

end NamedExports
