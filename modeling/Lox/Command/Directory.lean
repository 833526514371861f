import Lox.Command.Outcome

/-!
# The directory a program runs in

A directory holds files and empty folders, each under its own name, and lies somewhere in a tree
of which nothing else is known.  `read`, by which `run_script` comes to its source, follows a path of
names from it; a path that climbs out of the directory, or starts at the root, finds folders but no
files.
-/

namespace Lox.Command

inductive Entry where
  | file (bytes : List UInt8)
  | folder
  deriving DecidableEq, Repr

def Entry.read : Entry → Except FileError (List UInt8)
  | file bytes => .ok bytes
  | folder => .error .isADirectory

structure Directory where
  entries : List (String × Entry) := []

namespace Directory

def put (d : Directory) (name : String) (e : Entry) : Directory :=
  ⟨d.entries.filter (·.1 != name) ++ [(name, e)]⟩

def find? (d : Directory) (name : String) : Option Entry := d.entries.lookup name

/-! ### Paths -/

/-- Where a path can have led. -/
inductive Place where
  | top
  | folder
  | outside
  | file (bytes : List UInt8)
  deriving DecidableEq, Repr

/-- The greatest length in bytes of a name, and of a path with its end mark. -/
def nameLimit : Nat := 255

def pathLimit : Nat := 4096

def missing (name : String) : FileError :=
  if name.utf8ByteSize > nameLimit then .nameTooLong else .notFound

/-- Follows one name of a path.  An empty name and a point lead nowhere else, two points lead up,
and no name leads on from a file. -/
def follow (d : Directory) (p : Place) (name : String) : Except FileError Place :=
  match p with
  | .file _ => .error .notADirectory
  | .top =>
    if name == "" || name == "." then .ok .top
    else if name == ".." then .ok .outside
    else
      match d.find? name with
      | some (.file bytes) => .ok (.file bytes)
      | some .folder => .ok .folder
      | none => .error (missing name)
  | .folder =>
    if name == "" || name == "." then .ok .folder
    else if name == ".." then .ok .top
    else .error (missing name)
  | .outside =>
    if name == "" || name == "." || name == ".." then .ok .outside else .error (missing name)

def read (d : Directory) (path : String) : Except FileError (List UInt8) :=
  if path.isEmpty then .error .notFound
  else if path.utf8ByteSize ≥ pathLimit then .error .nameTooLong
  else
    let names := (path.toList.splitOn '/').map String.ofList
    let origin : Place := if path.toList.head? == some '/' then .outside else .top
    match names.foldlM d.follow origin with
    | .error e => .error e
    | .ok (.file bytes) => .ok bytes
    | .ok _ => .error .isADirectory

end Directory

end Lox.Command
