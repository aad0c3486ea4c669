import NamedExports.Node.Tree

/-!
# Nodes with identity

A tree that is changed in place is a store of objects, each known by its reference. The objects of
a store stand in the order in which they were added and refer only to earlier ones, so what hangs
below an object is always finite; taking references out keeps it so. The same object may hang in
several places, and a change to it is seen in all of them.

`Store.tree` writes an object out in full.
-/

namespace NamedExports

/-- The identity of an object. -/
structure Ref where
  index : Nat
  deriving DecidableEq, Repr

/-- A single value: a number, text or truth value, an object by reference, or null. -/
inductive Atom where
  | null
  | bool (value : Bool)
  | int (value : Int)
  | str (value : String)
  | ref (object : Ref)
  deriving DecidableEq, Repr, Inhabited

/-- What an attribute holds: a single value or a list of them. -/
inductive Value where
  | atom (value : Atom)
  | items (values : List Atom)
  deriving DecidableEq, Repr, Inhabited

/-- An object: one with named attributes, or a list that is itself an entry of a list. -/
inductive Obj where
  | record (shape : Shape) (attributes : List (String × Value))
  | sequence (values : List Atom)
  deriving DecidableEq, Repr

/-! ### References -/

/-- The references that a single value holds, one at most. -/
def Atom.refs : Atom → List Ref
  | ref object => [object]
  | _ => []

/-- The references that an attribute holds. -/
def Value.refs : Value → List Ref
  | atom value => value.refs
  | items values => values.flatMap Atom.refs

/-- The references that an object holds. -/
def Obj.refs : Obj → List Ref
  | record _ attributes => attributes.flatMap fun a => a.2.refs
  | sequence values => values.flatMap Atom.refs

/-! ### Changes to one object -/

/-- A list with the entry at an index taken out; a single value stays as it is. -/
def Value.eraseIdx (v : Value) (i : Nat) : Value :=
  match v with
  | .items values => .items (values.eraseIdx i)
  | .atom value => .atom value

namespace Obj

/-- The attribute of the given name. -/
def attr? : Obj → String → Option Value
  | record _ attributes, name => attributes.lookup name
  | sequence _, _ => none

/-- An object with the values of one attribute replaced. -/
def mapAttr (o : Obj) (name : String) (f : Value → Value) : Obj :=
  match o with
  | record shape attributes =>
    record shape (attributes.map fun a => if a.1 = name then (a.1, f a.2) else a)
  | sequence values => sequence values

/-- An object with one attribute set to null. -/
def clearAttr (o : Obj) (name : String) : Obj :=
  o.mapAttr name fun _ => .atom .null

/-- An object with one entry of a list attribute taken out. -/
def eraseEntry (o : Obj) (name : String) (i : Nat) : Obj :=
  o.mapAttr name (·.eraseIdx i)

theorem refs_mapAttr {o : Obj} {name : String} {f : Value → Value}
    (hf : ∀ v, ∀ r ∈ (f v).refs, r ∈ v.refs) : ∀ r ∈ (o.mapAttr name f).refs, r ∈ o.refs := by
  intro r hr
  cases o with
  | sequence values => exact hr
  | record shape attributes =>
    simp only [mapAttr, refs, List.mem_flatMap, List.mem_map] at hr ⊢
    obtain ⟨_, ⟨a, ha, rfl⟩, hr⟩ := hr
    refine ⟨a, ha, ?_⟩
    split at hr
    · exact hf _ r hr
    · exact hr

/-- Setting an attribute to null adds no reference. -/
theorem refs_clearAttr {o : Obj} {name : String} : ∀ r ∈ (o.clearAttr name).refs, r ∈ o.refs :=
  refs_mapAttr fun _ r hr => by simp [Value.refs, Atom.refs] at hr

/-- Taking an entry out adds no reference. -/
theorem refs_eraseEntry {o : Obj} {name : String} {i : Nat} :
    ∀ r ∈ (o.eraseEntry name i).refs, r ∈ o.refs :=
  refs_mapAttr fun v r hr => by
    cases v with
    | atom value => exact hr
    | items values =>
      simp only [Value.eraseIdx, Value.refs, List.mem_flatMap] at hr ⊢
      obtain ⟨a, ha, hr⟩ := hr
      exact ⟨a, List.mem_of_mem_eraseIdx ha, hr⟩

end Obj

/-! ### Objects that refer to earlier ones only -/

/-- A single value, null if it refers to an object that is not among the first `n`. -/
def Atom.below (n : Nat) : Atom → Atom
  | ref object => if object.index < n then ref object else null
  | a => a

/-- A value with the references that are not among the first `n` replaced by null. -/
def Value.below (n : Nat) : Value → Value
  | atom value => atom (value.below n)
  | items values => items (values.map (Atom.below n))

/-- An object with the references that are not among the first `n` replaced by null. -/
def Obj.below (n : Nat) : Obj → Obj
  | record shape attributes => record shape (attributes.map fun a => (a.1, a.2.below n))
  | sequence values => sequence (values.map (Atom.below n))

theorem Atom.refs_below {n : Nat} {a : Atom} : ∀ r ∈ (a.below n).refs, r.index < n := by
  intro r hr
  cases a with
  | ref object =>
    by_cases h : object.index < n
    · simp only [below, h, if_true, refs, List.mem_singleton] at hr
      exact hr ▸ h
    · simp [below, h, refs] at hr
  | _ => simp [below, refs] at hr

theorem Value.refs_below {n : Nat} {v : Value} : ∀ r ∈ (v.below n).refs, r.index < n := by
  intro r hr
  cases v with
  | atom value => exact Atom.refs_below r hr
  | items values =>
    simp only [below, refs, List.mem_flatMap, List.mem_map] at hr
    obtain ⟨_, ⟨a, _, rfl⟩, hr⟩ := hr
    exact Atom.refs_below r hr

/-- What is cut down to the first `n` objects refers to nothing else. -/
theorem Obj.refs_below {n : Nat} {o : Obj} : ∀ r ∈ (o.below n).refs, r.index < n := by
  intro r hr
  cases o with
  | record shape attributes =>
    simp only [below, refs, List.mem_flatMap, List.mem_map] at hr
    obtain ⟨_, ⟨a, _, rfl⟩, hr⟩ := hr
    exact Value.refs_below r hr
  | sequence values =>
    simp only [below, refs, List.mem_flatMap, List.mem_map] at hr
    obtain ⟨_, ⟨a, _, rfl⟩, hr⟩ := hr
    exact Atom.refs_below r hr

/-! ### The store -/

/-- The objects of a tree, each of which refers to earlier ones only. -/
structure Store where
  objects : Array Obj
  refs_lt : ∀ (i : Nat) (h : i < objects.size), ∀ r ∈ objects[i].refs, r.index < i

namespace Store

/-- The store without objects. -/
def empty : Store where
  objects := #[]
  refs_lt _ h := absurd h (Nat.not_lt_zero _)

/-- The number of objects. -/
def size (s : Store) : Nat :=
  s.objects.size

/-- The object of a reference. -/
def obj? (s : Store) (r : Ref) : Option Obj :=
  s.objects[r.index]?

/-- A store with one more object, and its reference. The object can refer to those that are there
already; any other reference in it is lost. -/
def add (s : Store) (o : Obj) : Store × Ref where
  fst :=
    { objects := s.objects.push (o.below s.size)
      refs_lt := by
        intro i h r hr
        rw [Array.getElem_push] at hr
        split at hr
        · exact s.refs_lt i _ r hr
        · have := Obj.refs_below r hr
          simp only [size, Array.size_push] at this h
          omega }
  snd := ⟨s.size⟩

/-- A store with one object changed in a way that adds no reference to it. -/
def modify (s : Store) (r : Ref) (f : Obj → Obj) (hf : ∀ o, ∀ q ∈ (f o).refs, q ∈ o.refs) :
    Store where
  objects := s.objects.modify r.index f
  refs_lt := by
    intro i h q hq
    rw [Array.getElem_modify] at hq
    split at hq
    · exact s.refs_lt i _ q (hf _ q hq)
    · exact s.refs_lt i _ q hq

/-- Sets a field of an object to null. -/
def clearAttr (s : Store) (r : Ref) (name : String) : Store :=
  s.modify r (·.clearAttr name) fun _ => Obj.refs_clearAttr

/-- Takes an entry out of a list that an object holds. -/
def eraseEntry (s : Store) (r : Ref) (name : String) (i : Nat) : Store :=
  s.modify r (·.eraseEntry name i) fun _ => Obj.refs_eraseEntry

/-- The attribute of a value; only objects have attributes. -/
def attr? (s : Store) (a : Atom) (name : String) : Option Value :=
  match a with
  | .ref r => (s.obj? r).bind (·.attr? name)
  | _ => none

/-- The entries of the list that an attribute holds at the moment. -/
def entries (s : Store) (a : Atom) (name : String) : List Atom :=
  match s.attr? a name with
  | some (.items values) => values
  | _ => []

/-- The shape of a value that is an object with attributes. -/
def shape? (s : Store) (a : Atom) : Option Shape :=
  match a with
  | .ref r =>
    match s.obj? r with
    | some (.record shape _) => some shape
    | _ => none
  | _ => none

/-- Whether a value is a node. -/
def isNode (s : Store) (a : Atom) : Bool :=
  match s.shape? a with
  | some shape => shape.isNode
  | none => false

/-! ### Writing out -/

/-- A value written out, down to the given depth. -/
def writeOut (s : Store) : (depth : Nat) → Atom → Tree
  | _, .null => .null
  | _, .bool value => .bool value
  | _, .int value => .int value
  | _, .str value => .str value
  | 0, .ref _ => .null
  | depth + 1, .ref r =>
    match s.obj? r with
    | some (.record shape attributes) =>
      .node shape (attributes.map fun a =>
        (a.1, match a.2 with
          | .atom value => writeOut s depth value
          | .items values => .list (values.map fun value => writeOut s depth value)))
    | some (.sequence values) => .list (values.map fun value => writeOut s depth value)
    | none => .null

/-- A value written out in full. An object refers only to earlier ones, so nothing lies deeper
than the number of objects. -/
def tree (s : Store) (a : Atom) : Tree :=
  s.writeOut s.size a

end Store

end NamedExports
