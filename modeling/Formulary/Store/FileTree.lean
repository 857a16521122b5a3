import Formulary.Store.Directory

/-!
# Folders inside folders

A directory lists its folders by name only. A file tree also holds what is in them, at any depth.
A folder of the tree is known by the names that lead to it from the top, and the top is always
there. A path is text: names with slashes between them, read from the top.

A path is followed name by name, and each name has to be a folder for the next one to count; this
holds for the name that goes back to the folder above, too. What stands in the way of the rest
decides what stands at the whole path: below a file nothing can be made, below a missing name
nothing is there yet.

Making a directory makes every folder on the way that is missing. So a path may lead back to a
folder with entries although nothing stands at the path before it is made. If a path cannot be
made to its end, the folders above stay.
-/

namespace Formulary

/-- Folders by the names that lead to them, each with its entries. -/
structure FileTree where
  folders : List (List String × List (String × Entry))
deriving DecidableEq

namespace FileTree

/-- A tree with nothing in it. -/
def empty : FileTree := ⟨[]⟩

/-- The entries of a folder. -/
def entries (tree : FileTree) (place : List String) : List (String × Entry) :=
  (tree.folders.lookup place).getD []

/-- Give a folder new entries. -/
def withEntries (tree : FileTree) (place : List String) (entries : List (String × Entry)) :
    FileTree :=
  ⟨(place, entries) :: tree.folders.filter fun folder => folder.1 ≠ place⟩

/-- A folder has the entries that it was given last. -/
@[simp] theorem entries_withEntries (tree : FileTree) (place : List String)
    (entries : List (String × Entry)) :
    (tree.withEntries place entries).entries place = entries := by
  simp [FileTree.entries, withEntries]

/-- The most bytes in a name. -/
def maxNameBytes : Nat := 255

/-- The most bytes in a path. -/
def maxPathBytes : Nat := 4095

/-- Whether a name is short enough to be the name of an entry. -/
def nameFits (name : String) : Bool :=
  name.utf8ByteSize ≤ maxNameBytes

/-- Whether a path is short enough and free of the character that ends texts in the system. -/
def pathFits (path : String) : Bool :=
  path.utf8ByteSize ≤ maxPathBytes && path.toList.all fun c => c.toNat ≠ 0

/-- A name in a path that stays in the same folder: an empty one or a single point. -/
def staysPut (name : String) : Bool :=
  name = "" || name = "."

/-- The name in a path that goes back to the folder above; above the top is the top. -/
def goesBack (name : String) : Bool :=
  name = ".."

/-- The names in a path, without those that stay in the same folder. -/
def namesIn (path : String) : List String :=
  (path.splitOn "/").filter fun name => !staysPut name

/-- Whether a path ends in a point, with or without slashes behind it. -/
def endsInPoint (path : String) : Bool :=
  ((path.splitOn "/").filter fun name => name ≠ "").getLast? = some "."

/-- The names that lead to the folder of a file, and the name of the file in it. A path whose last
name leads to a folder is no path of a file. -/
def fileIn? (path : String) : Option (List String × String) := do
  let names := path.splitOn "/"
  let name ← names.getLast?
  if staysPut name || goesBack name || !nameFits name || !pathFits path then none
  else return (names.dropLast.filter fun name => !staysPut name, name)

/-- Follow names from a folder to the folder that they lead to. If there is none, the answer is
what stands there instead: something that is no directory, or nothing. -/
def follow (tree : FileTree) (place : List String) : List String → Except Directory (List String)
  | [] => .ok place
  | name :: rest =>
    if goesBack name then tree.follow place.dropLast rest
    else if !nameFits name then .error .blocked
    else
      match (tree.entries place).lookup name with
      | some .folder => tree.follow (place ++ [name]) rest
      | some (.file _) => .error .blocked
      | none => .error .absent

/-- Follow names from a folder and make each folder that is missing. A file in the way or a name
that does not fit ends this, and what was made until then stays. -/
def makeFolders (tree : FileTree) (place : List String) : List String → FileTree
  | [] => tree
  | name :: rest =>
    if goesBack name then tree.makeFolders place.dropLast rest
    else if !nameFits name then tree
    else
      let entries := tree.entries place
      match entries.lookup name with
      | some .folder => tree.makeFolders (place ++ [name]) rest
      | some (.file _) => tree
      | none =>
        (tree.withEntries place (entries ++ [(name, .folder)])).makeFolders (place ++ [name]) rest

/-- The names of the folders that are made for a path. A path that ends in a point only refers to
its last folder, so that one is not made. -/
def namesToMake (path : String) : List String :=
  if endsInPoint path then (namesIn path).dropLast else namesIn path

/-- Make the directory at a path and the folders above it; the answer is the folder there, if it is
there then. -/
def makeDirectory (tree : FileTree) (path : String) : Option (List String) × FileTree :=
  if pathFits path then
    let tree := tree.makeFolders [] (namesToMake path)
    ((tree.follow [] (namesIn path)).toOption, tree)
  else (none, tree)

/-- What stands at a path. -/
def directoryAt (tree : FileTree) (path : String) : Directory :=
  if pathFits path then
    match tree.follow [] (namesIn path) with
    | .ok place => .present (tree.entries place)
    | .error directory => directory
  else .blocked

/-- Put a directory at a path, in place of an old one there. Something that is no directory is not
put anywhere. -/
def putDirectory (tree : FileTree) (path : String) : Directory → FileTree
  | .present entries =>
    match tree.makeDirectory path with
    | (some place, tree) => tree.withEntries place entries
    | (none, tree) => tree
  | .absent | .blocked => tree

/-- Fill a file in a folder that is there; none if it fails. -/
def fill? (tree : FileTree) (path : String) (bytes : List UInt8) : Option FileTree := do
  let (names, name) ← fileIn? path
  let place ← (tree.follow [] names).toOption
  let directory ← (Directory.present (tree.entries place)).perform (.fill name bytes)
  return tree.withEntries place directory.entries

/-- The bytes of the file at a path. -/
def bytesAt? (tree : FileTree) (path : String) : Option (List UInt8) := do
  let (names, name) ← fileIn? path
  let place ← (tree.follow [] names).toOption
  match ← (tree.entries place).lookup name with
  | .file bytes => return bytes
  | .folder => none

end FileTree

end Formulary
