import NamedExports.File.Path
import NamedExports.Grammar.Module
import NamedExports.Program.Stored

/-!
# Module files

What a path leads to is a state of a file. A module is read from a file only if its name has one of
the suffixes of modules, which also says whether the module may hold markup; the suffix is looked at
first. A state that holds no content is a fault, whose message names the path unless it is the
content itself that could not be read.
-/

namespace NamedExports

/-- A call of the system that fails, with the number and the words for it. -/
structure SystemFailure where
  number : Nat
  words : String
  deriving DecidableEq, Repr

/-- The failure of a device. -/
def SystemFailure.inputOutput : SystemFailure := ⟨5, "Input/output error"⟩

/-- What a path leads to. -/
inductive FileState where
  /-- Nothing. -/
  | missing
  /-- A file stands where a directory is needed. -/
  | throughFile
  /-- A name or the whole path is longer than the system takes. -/
  | tooLong
  /-- The path holds a character that no path can hold. -/
  | impossible
  /-- A directory, or anything else that is there and is no file. -/
  | directory
  /-- A file that cannot be opened. -/
  | unopenable (failure : SystemFailure)
  /-- A file that can be opened but not read. -/
  | unreadable (failure : SystemFailure)
  /-- A file with its content. -/
  | content (bytes : ByteArray)

namespace FileState

/-- Whether there is something. -/
def isPresent : FileState → Bool
  | directory | unopenable _ | unreadable _ | content _ => true
  | _ => false

/-- Whether there is a file. -/
def isFile : FileState → Bool
  | unopenable _ | unreadable _ | content _ => true
  | _ => false

end FileState

/-- Why no module can be read from a file. -/
inductive FileFault where
  /-- The name does not have the suffix of a module. -/
  | unsupported (name : String)
  /-- There is no file. -/
  | missing (path : String)
  /-- A file stands where a directory is needed. -/
  | throughFile (path : String)
  /-- The path is longer than the system takes. -/
  | tooLong (path : String)
  /-- The path holds a character that no path can hold. -/
  | impossible
  /-- There is a directory instead. -/
  | directory (path : String)
  /-- The file could not be opened, or its content could not be read; only the opening of a file
  tells its path. -/
  | unreadable {failure : SystemFailure} {path : Option String}
  deriving DecidableEq, Repr

namespace FileFault

/-- The message of a failed call of the system. -/
def systemMessage (failure : SystemFailure) (path : Option String) : String :=
  s!"[Errno {failure.number}] {failure.words}" ++
    match path with
    | some p => ": " ++ Text.quoted p
    | none => ""

/-- The message of a fault. -/
def message : FileFault → String
  | unsupported name => "Unsupported file type: " ++ name
  | missing path => systemMessage ⟨2, "No such file or directory"⟩ (some path)
  | throughFile path => systemMessage ⟨20, "Not a directory"⟩ (some path)
  | tooLong path => systemMessage ⟨36, "File name too long"⟩ (some path)
  | impossible => "embedded null byte"
  | directory path => systemMessage ⟨21, "Is a directory"⟩ (some path)
  | @unreadable failure path => systemMessage failure path

end FileFault

namespace FilePath

/-- The suffixes of modules, each with whether the module may hold markup. -/
def moduleSuffixes : List (String × Bool) :=
  [(".ts", false), (".tsx", true), (".mts", false), (".cts", false), (".js", true), (".jsx", true),
    (".mjs", true), (".cjs", true)]

/-- Whether a module of this name may hold markup; a name that is none of a module has no answer. -/
def markup? (p : FilePath) : Option Bool :=
  moduleSuffixes.lookup (p.suffix.map Char.toLower)

/-- The content of a file in a state. -/
def contentIn (p : FilePath) : FileState → Except FileFault ByteArray
  | .missing => .error (.missing p.text)
  | .throughFile => .error (.throughFile p.text)
  | .tooLong => .error (.tooLong p.text)
  | .impossible => .error .impossible
  | .directory => .error (.directory p.text)
  | .unopenable failure => .error (@FileFault.unreadable failure (some p.text))
  | .unreadable failure => .error (@FileFault.unreadable failure none)
  | .content bytes => .ok bytes

/-- Reads the module at a path that leads to a file in the given state. -/
def module (p : FilePath) (state : FileState) : Except FileFault Module :=
  match p.markup? with
  | none => .error (.unsupported p.name)
  | some markup => return (Source.ofBytes (← p.contentIn state) markup).module

end FilePath

end NamedExports
