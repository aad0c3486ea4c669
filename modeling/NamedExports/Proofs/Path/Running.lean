import NamedExports.Path.Remove
import NamedExports.Proofs.Store.Written

/-!
# Running edits

What the steps of an edit do to the workspace it is run on: the equations by which an edit is run
step by step, what each step leaves of the paths that are held already, and the two ways in which a
removal succeeds (`run_remove_entry`, `run_remove_field`).
-/

namespace NamedExports

variable {σ : Type}

namespace Workspace

/-! ### Held paths -/

/-- The identity that the next path gets. -/
def nextPath (w : Workspace σ) : PathId := ⟨w.paths.size⟩

/-- A workspace with one more path. -/
def addPath (w : Workspace σ) (value : Path) : Workspace σ :=
  { w with paths := w.paths.push value }

/-- A workspace in which one path is known otherwise. -/
def setPath (w : Workspace σ) (p : PathId) (value : Path) : Workspace σ :=
  { w with paths := w.paths.setIfInBounds p.index value }

/-- A workspace with another tree. -/
def setStore (w : Workspace σ) (s : Store) : Workspace σ :=
  { w with store := s }

/-- A path was taken before. -/
def Knows (w : Workspace σ) (p : PathId) : Prop :=
  p.index < w.paths.size

/-- All paths that were taken before are there and unchanged. -/
def KeepsPaths (w w' : Workspace σ) : Prop :=
  ∀ p, w.Knows p → w'.Knows p ∧ w'.path p = w.path p

/-- A path that leads to something was taken before. -/
theorem knows_of_node_ne {w : Workspace σ} {p : PathId} (h : (w.path p).node ≠ .null) :
    w.Knows p := by
  by_contra hp
  refine h ?_
  unfold path
  rw [Array.getElem?_eq_none (Nat.le_of_not_lt hp)]
  rfl

@[simp] theorem path_setStore (w : Workspace σ) (s : Store) (p : PathId) :
    (w.setStore s).path p = w.path p := rfl

@[simp] theorem store_setStore (w : Workspace σ) (s : Store) : (w.setStore s).store = s := rfl

@[simp] theorem notes_setStore (w : Workspace σ) (s : Store) :
    (w.setStore s).notes = w.notes := rfl

@[simp] theorem store_addPath (w : Workspace σ) (value : Path) :
    (w.addPath value).store = w.store := rfl

@[simp] theorem notes_addPath (w : Workspace σ) (value : Path) :
    (w.addPath value).notes = w.notes := rfl

@[simp] theorem store_setPath (w : Workspace σ) (p : PathId) (value : Path) :
    (w.setPath p value).store = w.store := rfl

@[simp] theorem notes_setPath (w : Workspace σ) (p : PathId) (value : Path) :
    (w.setPath p value).notes = w.notes := rfl

/-- A new path leads where it was taken to. -/
@[simp] theorem path_addPath_nextPath (w : Workspace σ) (value : Path) :
    (w.addPath value).path w.nextPath = value := by
  simp [path, addPath, nextPath]

/-- A new path is known. -/
theorem knows_addPath_nextPath (w : Workspace σ) (value : Path) :
    (w.addPath value).Knows w.nextPath := by
  simp [Knows, addPath, nextPath]

/-- Taking a path leaves the others. -/
theorem keepsPaths_addPath (w : Workspace σ) (value : Path) : w.KeepsPaths (w.addPath value) := by
  intro p hp
  refine ⟨?_, ?_⟩
  · exact lt_trans hp (by simp [addPath])
  · unfold path addPath
    rw [Array.getElem?_push_lt hp, Array.getElem?_eq_getElem hp]

/-- What is now known of a path is what was set. -/
theorem path_setPath_self {w : Workspace σ} {p : PathId} (h : w.Knows p) (value : Path) :
    (w.setPath p value).path p = value := by
  unfold Knows at h
  simp [path, setPath, h]

/-- Setting a path leaves the others. -/
theorem path_setPath_of_ne {w : Workspace σ} {p q : PathId} (h : q ≠ p) (value : Path) :
    (w.setPath p value).path q = w.path q := by
  have hindex : p.index ≠ q.index := fun heq => h (by cases p; cases q; simp_all)
  simp [path, setPath, Array.getElem?_setIfInBounds_ne hindex]

theorem knows_setPath {w : Workspace σ} {p q : PathId} {value : Path} :
    (w.setPath p value).Knows q ↔ w.Knows q := by
  simp [Knows, setPath]

theorem KeepsPaths.refl (w : Workspace σ) : w.KeepsPaths w :=
  fun _ hp => ⟨hp, rfl⟩

theorem KeepsPaths.trans {w w' w'' : Workspace σ} (h : w.KeepsPaths w') (h' : w'.KeepsPaths w'') :
    w.KeepsPaths w'' := by
  intro p hp
  obtain ⟨hp', heq⟩ := h p hp
  obtain ⟨hp'', heq'⟩ := h' p hp'
  exact ⟨hp'', heq'.trans heq⟩

/-- A path that was taken before leads to the same value. -/
theorem KeepsPaths.node_eq {w w' : Workspace σ} {p : PathId} {a : Atom} (h : w.KeepsPaths w')
    (hp : (w.path p).node = a) (ha : a ≠ .null) : (w'.path p).node = a := by
  have hknown : w.Knows p := knows_of_node_ne (hp ▸ ha)
  rw [(h p hknown).2, hp]

/-- Another tree does not touch the paths. -/
theorem keepsPaths_setStore (w : Workspace σ) (s : Store) : w.KeepsPaths (w.setStore s) :=
  fun _ hp => ⟨hp, rfl⟩

/-- What is done through a path that was taken since leaves the paths from before. -/
theorem KeepsPaths.setPath {w w' : Workspace σ} (h : w.KeepsPaths w') {p : PathId}
    (hp : ¬ w.Knows p) (value : Path) : w.KeepsPaths (w'.setPath p value) := by
  intro q hq
  obtain ⟨hq', heq⟩ := h q hq
  have hne : q ≠ p := by
    rintro rfl
    exact hp hq
  exact ⟨knows_setPath.mpr hq', (path_setPath_of_ne hne value).trans heq⟩

theorem not_knows_nextPath (w : Workspace σ) : ¬ w.Knows w.nextPath :=
  Nat.lt_irrefl _

/-- The value above a path, for a path that knows the path above it. -/
theorem parent_eq {w : Workspace σ} {p q : PathId} (h : (w.path p).above = some q) :
    w.parent p = (w.path q).node := by
  unfold parent
  rw [h]

end Workspace

namespace Edit

/-! ### Single steps -/

@[simp] theorem run_store (w : Workspace σ) : (store : Edit σ Store).run w = .ok w.store w := rfl

@[simp] theorem run_path (w : Workspace σ) (p : PathId) :
    (path p : Edit σ Path).run w = .ok (w.path p) w := rfl

@[simp] theorem run_parent (w : Workspace σ) (p : PathId) :
    (parent p : Edit σ Atom).run w = .ok (w.parent p) w := rfl

@[simp] theorem run_setStore (w : Workspace σ) (s : Store) :
    (setStore s : Edit σ Unit).run w = .ok () (w.setStore s) := rfl

@[simp] theorem run_setPath (w : Workspace σ) (p : PathId) (value : Path) :
    (setPath p value : Edit σ Unit).run w = .ok () (w.setPath p value) := rfl

@[simp] theorem run_newPath (w : Workspace σ) (value : Path) :
    (newPath value : Edit σ PathId).run w = .ok w.nextPath (w.addPath value) := rfl

@[simp] theorem run_note (w : Workspace σ) (f : σ → σ) :
    (note f : Edit σ Unit).run w = .ok () { w with notes := f w.notes } := rfl

@[simp] theorem run_ofExcept_ok {α : Type} (w : Workspace σ) (a : α) :
    (ofExcept (.ok a) : Edit σ α).run w = .ok a w := rfl

@[simp] theorem run_ofExcept_error {α : Type} (w : Workspace σ) (fault : Fault) :
    (ofExcept (.error fault) : Edit σ α).run w = .error fault w := rfl

/-- An edit that succeeds goes on with what comes after it. -/
theorem run_bind_ok {α β : Type} {x : Edit σ α} {f : α → Edit σ β} {w w' : Workspace σ} {a : α}
    (h : x.run w = .ok a w') : (x >>= f).run w = (f a).run w' := by
  rw [EStateM.run_bind, h]

/-- The type of a value that has one. -/
theorem run_typeOf {w : Workspace σ} {a : Atom} {v : Value}
    (h : w.store.attr? a "type" = some v) :
    (typeOf a : Edit σ Tree).run w = .ok (v.toTree w.store.tree) w := by
  unfold typeOf
  rw [EStateM.run_bind, run_store]
  dsimp only
  rw [h]
  cases v <;> rfl

theorem run_typeOf_kind {w : Workspace σ} {a : Atom} (kind : Kind)
    (h : w.store.attr? a "type" = some (.atom (.str kind.name))) :
    (typeOf a : Edit σ Tree).run w = .ok (.str kind.name) w := by
  rw [run_typeOf h, Value.toTree, Store.tree_str]

/-! ### Removals that succeed -/

/-- A removal through the path of an entry takes out the entry where it stands. -/
theorem run_remove_entry {w : Workspace σ} {p q : PathId} {owner : Ref} {list : String}
    {hint : ℕ} {node : Atom}
    (hp : w.path p = .ofEntry node q list hint) (hq : (w.path q).node = .ref owner)
    (hnode : node ≠ .null) (hat : (w.store.entries (.ref owner) list)[hint]? = some node) :
    (remove p).run w = .ok () ((w.setStore (w.store.eraseEntry owner list hint)).setPath p
      { Path.ofEntry node q list hint with removed := true }) := by
  have hparent : w.parent p = .ref owner := (Workspace.parent_eq (by rw [hp]; rfl)).trans hq
  have hindex : Path.currentIndex? (w.store.entries (.ref owner) list) node hint = some hint :=
    if_pos hat
  have hnull : ¬ (node = .null ∨ Atom.ref owner = .null) := by simp [hnode]
  unfold remove
  simp only [EStateM.run_bind, run_path, run_parent, run_store, hp, hparent, Path.ofEntry,
    Bool.false_eq_true, if_false, hnull, hindex, run_setStore, run_setPath]

/-- A removal through the path of a field clears the field. -/
theorem run_remove_field {w : Workspace σ} {p q : PathId} {owner : Ref} {name : String}
    {node : Atom}
    (hp : w.path p = .ofField node q name) (hq : (w.path q).node = .ref owner)
    (hnode : node ≠ .null) (hat : w.store.attr? (.ref owner) name = some (.atom node)) :
    (remove p).run w = .ok () ((w.setStore (w.store.clearAttr owner name)).setPath p
      { Path.ofField node q name with removed := true }) := by
  have hparent : w.parent p = .ref owner := (Workspace.parent_eq (by rw [hp]; rfl)).trans hq
  have hnull : ¬ (node = .null ∨ Atom.ref owner = .null) := by simp [hnode]
  unfold remove
  simp only [EStateM.run_bind, run_path, run_parent, run_store, hp, hparent, Path.ofField,
    Bool.false_eq_true, if_false, hnull, hat, if_true, run_setStore, run_setPath]

end Edit

namespace Store

variable {s : Store}

/-! ### The store after a change of one object -/

/-- The changed object is the change of the object. -/
theorem obj?_modify_self (r : Ref) (f : Obj → Obj) (hf : ∀ o, ∀ q ∈ (f o).refs, q ∈ o.refs) :
    (s.modify r f hf).obj? r = (s.obj? r).map f := by
  unfold obj? modify
  rw [Array.getElem?_modify, if_pos rfl]

/-- The other objects are as they were. -/
theorem obj?_modify_of_ne {r q : Ref} (h : q ≠ r) (f : Obj → Obj)
    (hf : ∀ o, ∀ q ∈ (f o).refs, q ∈ o.refs) : (s.modify r f hf).obj? q = s.obj? q := by
  have hindex : r.index ≠ q.index := fun heq => h (by cases r; cases q; simp_all)
  unfold obj? modify
  rw [Array.getElem?_modify, if_neg hindex]

end Store

end NamedExports
