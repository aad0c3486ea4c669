import NamedExports.Fault

/-!
# Labels of properties

An entry of an object pattern is shown by the variable that it binds where it binds one: a property
by the name of its value, a rest element by its argument after three dots. Any other property is
shown by its key as written, and what has no such key by its type.
-/

namespace NamedExports.Tree

/-- The label of an entry of an object pattern. -/
def label (entry : Tree) : Except Fault Tree := do
  let type ← entry.read "type"
  if type.isText "RestElement" then
    let argument := entry.get "argument"
    return str ("..." ++ ((argument.attr? "name").getD (str "")).display)
  let value := entry.get "value"
  if value.hasType "Identifier" then return ← value.read "name"
  let key := entry.get "key"
  if key.hasType "Identifier" then return ← key.read "name"
  if key.hasType "StringLiteral" then return ← key.read "value"
  return type

/-- The labels of the entries of a pattern. -/
def labels (pattern : Tree) : Except Fault (List Tree) := do
  (← (← pattern.read "properties").iterate).mapM label

end NamedExports.Tree
