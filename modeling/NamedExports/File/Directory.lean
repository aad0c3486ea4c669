import NamedExports.File.State

/-!
# Directories

A tree of files below a directory, and what paths lead to in it. A path is followed name by name:
double dots lead to the directory above, wherever they stand, and every name but the last has to be
that of a directory. Outside of the directory nothing is known but the directories above it.
-/

namespace NamedExports

/-- What a tree of files holds at a place. -/
inductive DirectoryEntry where
  | file (bytes : ByteArray)
  | unreadable
  | directory

/-- A directory with the files below it, each with the names that lead to it. -/
structure Directory where
  place : List String
  entries : List (List String × DirectoryEntry)

namespace Directory

/-- The most bytes of a name. -/
def nameLimit : Nat := 255

/-- The most bytes of a path, its end included. -/
def pathLimit : Nat := 4096

/-- What lies below the directory at some names. -/
def below? (d : Directory) (names : List String) : Option DirectoryEntry :=
  match d.entries.find? fun e => e.1 == names with
  | some e => some e.2
  | none =>
    if names.isEmpty || d.entries.any fun e => names.isPrefixOf e.1 then some .directory else none

/-- What lies at some names from the root. -/
def at? (d : Directory) (names : List String) : Option DirectoryEntry :=
  if d.place.isPrefixOf names then d.below? (names.drop d.place.length)
  else if names.isPrefixOf d.place then some .directory
  else none

/-- The state of an entry. -/
def stateOf : DirectoryEntry → FileState
  | .file bytes => .content bytes
  | .unreadable => .unreadable .inputOutput
  | .directory => .directory

/-- Follows names from a place, which is given with its innermost name first. -/
def follow (d : Directory) (here : List String) : List String → FileState
  | [] =>
    match d.at? here.reverse with
    | some e => stateOf e
    | none => .missing
  | name :: names =>
    match d.at? here.reverse with
    | none => .missing
    | some .directory =>
      if nameLimit < name.utf8ByteSize then .tooLong
      else if name = ".." then follow d here.tail names
      else follow d (name :: here) names
    | some _ => .throughFile

/-- What a path leads to. -/
def state (d : Directory) (p : FilePath) : FileState :=
  if p.text.toList.contains '\x00' then .impossible
  else if pathLimit ≤ p.text.utf8ByteSize then .tooLong
  else if p.isAbsolute then d.follow [] p.names
  else d.follow d.place.reverse p.names

end Directory

end NamedExports
