import Formulary.Command.Run

/-!
# The program

The outer layer of the command line: it reads the folders along the path of the cache directory
and the files in it, draws keys, hands both to the search, carries the changes over to the file
system, and prints the report.
-/

namespace Formulary.Program

/-- The file or the folder at a path; what cannot be read is no file. -/
def readEntry (path : String) : IO Entry := do
  match ← (IO.FS.readBinFile path).toBaseIO with
  | .ok bytes => return .file bytes.toList
  | .error _ => return .folder

/-- The names in a directory, in the order in which they are listed. -/
def listNames (path : String) : IO (List String) := do
  let place ← IO.FS.realPath path
  return (← place.readDir).toList.map IO.FS.DirEntry.fileName

/-- The entries of a directory. -/
def readEntries (path : String) : IO (List (String × Entry)) := do
  (← listNames path).mapM fun name => return (name, ← readEntry (path ++ "/" ++ name))

/-- Whether a directory stands at a path; none if nothing stands there. -/
def isDirectory? (path : String) : IO (Option Bool) := do
  match ← (IO.FS.realPath path).toBaseIO with
  | .ok place => return some (← place.isDir)
  | .error (.noFileOrDirectory ..) => return none
  | .error _ => return some false

/-- Add to a file tree the folders along names from a place in it, and all entries of the folder
at the end. Below a missing folder there is nothing until the names lead out of it again; the
number of names that this takes is carried along. -/
def readAlong (tree : FileTree) (place : List String) (path : String) (missing : Nat) :
    List String → IO FileTree
  | [] => do
    if missing ≠ 0 then return tree
    match ← (readEntries (path ++ "/")).toBaseIO with
    | .ok entries => return tree.withEntries place entries
    | .error _ => return tree
  | name :: rest => do
    let back := FileTree.goesBack name
    if missing ≠ 0 then
      readAlong tree place path (if back then missing - 1 else missing + 1) rest
    else if back then readAlong tree place.dropLast (path ++ "/" ++ name) 0 rest
    else
      let next := path ++ "/" ++ name
      let withEntry (entry : Entry) : FileTree :=
        tree.withEntries place (Directory.putEntry name entry (tree.entries place))
      match ← isDirectory? next with
      | some true => readAlong (withEntry .folder) (place ++ [name]) next 0 rest
      | some false => return withEntry (.file [])
      | none => readAlong tree place path 1 rest

/-- The path of the place from which names are followed. -/
def startOf (path : String) : String :=
  if path.startsWith "/" then "" else "."

/-- The part of the file system that a path leads through. -/
def readTree (path : String) : IO FileTree :=
  readAlong .empty [] (startOf path) 0 (FileTree.namesIn path)

/-- Make the folders along names that are missing. -/
def makeAlong (path : String) : List String → IO Unit
  | [] => return
  | name :: rest => do
    let next := path ++ "/" ++ name
    unless (← isDirectory? next) = some true do
      IO.FS.createDir next
    makeAlong next rest

/-- Perform an operation in the directory at a path. -/
def perform (path : String) : FileOperation → IO Unit
  | .makeDirectory => makeAlong (startOf path) (FileTree.namesToMake path)
  | .fill name bytes => IO.FS.writeBinFile (path ++ "/" ++ name) ⟨bytes.toArray⟩
  | .rename source target => IO.FS.rename (path ++ "/" ++ source) (path ++ "/" ++ target)
  | .remove name => IO.FS.removeFile (path ++ "/" ++ name)

/-- The bytes of one key. -/
def keyBytes : Nat := 32

/-- The key at a position of random bytes, each word least significant byte first. -/
def keyAt (bytes : List UInt8) (position : Nat) : ChaCha.Key :=
  Vector.ofFn fun i =>
    ((bytes.drop (keyBytes * position + 4 * i.val)).take 4).foldr
      (fun byte word => word <<< 8 ||| byte.toUInt32) 0

/-- Fresh keys, one for each number of slots that can be asked for. -/
def drawKeys : IO Entropy := do
  let bytes ← IO.getRandomBytes (UInt64.ofNat (keyBytes * (Request.maxSlots + 1))).toUSize
  let drawn := bytes.toList
  return keyAt drawn

/-- The path of the directory that a search may change. -/
def changedPath? (arguments : Command.Arguments) : Option String :=
  match arguments.store with
  | .external => arguments.cacheDirectory
  | .memory | .packed => none

/-- Print a report and return its exit code. -/
def print (arguments : Command.Arguments) (report : Command.Report) : IO UInt32 := do
  if arguments.logLevel ≠ .error then
    for warning in report.warnings do
      IO.eprintln ("[WARN] " ++ warning.message)
  IO.print report.output
  for line in report.errorLines do
    IO.eprintln line
  return report.exitCode

/-- Answer a search that is asked for. If the file system refuses a change, that is the answer. -/
def search (arguments : Command.Arguments) : IO UInt32 := do
  let entropy ← drawKeys
  match changedPath? arguments with
  | none => print arguments (arguments.run entropy .empty)
  | some path =>
    let before ← readTree path
    let report := arguments.run entropy before
    if report.tree = before then print arguments report
    else
      let made := (before.makeDirectory path).2
      let changes := WordFiles.changes arguments.values.length (made.directoryAt path)
        (report.tree.directoryAt path)
      match ← ((.makeDirectory :: changes).forM (perform path)).toBaseIO with
      | .ok () => print arguments report
      | .error _ =>
        print arguments { report with outcome := .error (.index (.store .inputOutput)) }

end Formulary.Program

/-- Answer the command line. -/
def main (words : List String) : IO UInt32 := do
  match Formulary.Command.ofWords words with
  | .search arguments => Formulary.Program.search arguments
  | .version =>
    IO.print Formulary.Command.versionText
    return 0
  | .help =>
    IO.print Formulary.Command.helpText
    return 0
  | .misuse =>
    IO.eprint Formulary.Command.helpText
    return Formulary.Command.misuseCode
