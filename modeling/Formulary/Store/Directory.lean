/-!
# A directory and the operations on it

A directory is a value: it may be absent, its place may be taken by something that is no
directory, or it lists named entries, which are files with bytes or folders. The operations are
those that a file system performs as a whole: each either succeeds or leaves everything as it
was. Only filling a file is not one step in reality; an interrupted one has written some of the
bytes.

A sequence of operations stops at the first that fails. What an interrupted sequence leaves
behind is what a shorter sequence leaves.
-/

namespace Formulary

/-- An entry of a directory. -/
inductive Entry where
  | file (bytes : List UInt8)
  | folder
deriving DecidableEq

/-- What stands at a directory's place. -/
inductive Directory where
  | absent
  | blocked
  | present (entries : List (String × Entry))
deriving DecidableEq

/-- An operation on a directory. -/
inductive FileOperation where
  | makeDirectory
  | fill (name : String) (bytes : List UInt8)
  | rename (source target : String)
  | remove (name : String)
deriving DecidableEq

namespace Directory

/-- The entries that can be listed; none if there is no directory. -/
def entries : Directory → List (String × Entry)
  | .present entries => entries
  | .absent | .blocked => []

/-- The entry with a name. -/
def find? (directory : Directory) (name : String) : Option Entry :=
  directory.entries.lookup name

/-- Give a name a new entry in a list, in place of an old one or else at the end. -/
def putEntry (name : String) (entry : Entry) : List (String × Entry) → List (String × Entry)
  | [] => [(name, entry)]
  | other :: rest =>
    if other.1 = name then (name, entry) :: rest else other :: putEntry name entry rest

/-- Take a name out of a list of entries. -/
def dropEntry (name : String) (entries : List (String × Entry)) : List (String × Entry) :=
  entries.filter fun other => other.1 ≠ name

/-- Perform one operation; none if it fails.

A directory can be made unless its place is taken. A file can be filled and a name can be renamed
to unless a folder has the name, and only files can be renamed or removed. -/
def perform : Directory → FileOperation → Option Directory
  | .absent, .makeDirectory => some (.present [])
  | .present entries, .makeDirectory => some (.present entries)
  | .present entries, .fill name bytes =>
    match entries.lookup name with
    | some .folder => none
    | _ => some (.present (putEntry name (.file bytes) entries))
  | .present entries, .rename source target =>
    match entries.lookup source, entries.lookup target with
    | some (.file _), some .folder => none
    | some (.file bytes), _ =>
      some (.present (putEntry target (.file bytes) (dropEntry source entries)))
    | _, _ => none
  | .present entries, .remove name =>
    match entries.lookup name with
    | some (.file _) => some (.present (dropEntry name entries))
    | _ => none
  | _, _ => none

/-- Perform operations up to the first that fails; the answer is whether all succeeded. -/
def performAll (directory : Directory) : List FileOperation → Bool × Directory
  | [] => (true, directory)
  | operation :: rest =>
    match directory.perform operation with
    | some directory => directory.performAll rest
    | none => (false, directory)

end Directory

end Formulary
