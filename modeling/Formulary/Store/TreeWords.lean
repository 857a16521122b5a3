import Formulary.Store.FileTree
import Formulary.Store.Words

/-!
# Words in a file tree

The files of words over some number of slots lie in one directory, and that directory may be
anywhere in a file tree. Reading looks at what stands at the directory's path. Writing first makes
the directory, with the folders above it, and then writes into whatever folder the path leads to
by then; that folder need not be empty, and its stored files give way as always. If the directory
cannot be made, the folders that were made above it stay.
-/

namespace Formulary

/-- Words kept in a file of the directory at a path of a file tree. -/
structure TreeWords where
  path : String
  slots : Nat
  tree : FileTree
deriving DecidableEq

namespace TreeWords

/-- The files in the directory, as they are now. -/
def files (place : TreeWords) : WordFiles :=
  ⟨place.path, place.slots, place.tree.directoryAt place.path⟩

/-- Replace the stored words. -/
def write (place : TreeWords) (words : Array UInt64) (records : Nat) :
    Except StoreError Unit × TreeWords :=
  match place.tree.makeDirectory place.path with
  | (none, tree) => (.error .inputOutput, { place with tree := tree })
  | (some folder, tree) =>
    let (outcome, directory) :=
      WordFiles.writeInto place.slots (.present (tree.entries folder)) words records
    (outcome, { place with tree := tree.withEntries folder directory.entries })

instance : WordBackend TreeWords where
  write := write
  read place := place.files.read

end TreeWords

end Formulary
