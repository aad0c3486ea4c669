import NamedExports.Fault

/-!
# Object patterns of a tree

The object patterns of a tree are its nodes of that type, outermost first and otherwise in the
order of the fields. Objects that are no nodes are not looked into.
-/

namespace NamedExports.Tree

/-- Whether a value is a node. -/
def isNode : Tree → Bool
  | node shape _ => shape.isNode
  | _ => false

mutual

/-- The object patterns at or below a value. -/
def objectPatterns : Tree → List Tree
  | node shape attributes =>
    if shape.isNode then
      (if (node shape attributes).hasType "ObjectPattern" then [node shape attributes] else []) ++
        patternsInAttributes ((shape.fields?).getD []) attributes
    else []
  | _ => []

/-- The object patterns in the entries of a list. -/
def patternsInEntries : List Tree → List Tree
  | [] => []
  | t :: ts => objectPatterns t ++ patternsInEntries ts

/-- The object patterns in those attributes whose names are among the given ones. -/
def patternsInAttributes (names : List String) : List (String × Tree) → List Tree
  | [] => []
  | (name, list items) :: rest =>
    (if name ∈ names then patternsInEntries items else []) ++ patternsInAttributes names rest
  | (name, t) :: rest =>
    (if name ∈ names then objectPatterns t else []) ++ patternsInAttributes names rest

end

/-- The object patterns at or below a value, which has to be a node. -/
def collectPatterns (t : Tree) : Except Fault (List Tree) := do
  let _ ← t.read "type"
  match t with
  | node shape _ =>
    match shape.fields? with
    | some _ => return t.objectPatterns
    | none => throw .notNode
  | _ => throw .notNode

/-- The number of entries of all object patterns at or below a node. -/
def countProperties (t : Tree) : Except Fault Nat := do
  let counts ← (← t.collectPatterns).mapM fun pattern => do (← pattern.read "properties").length
  return counts.foldl (· + ·) 0

end NamedExports.Tree
