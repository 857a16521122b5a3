import Formulary.Store.Error
import Formulary.Store.Directory
import Formulary.Numeral.Reader

/-!
# Places that keep words

A word backend keeps an array of words and the number of records packed in it. It is written as a
whole and read as a whole. One backend keeps them in memory, the other in a file of a directory.

The file is named for the number of slots and the number of records, and holds the words in
little-endian order; nothing else is stored. Writing fills a staging file, renames it to its
final name and then removes the files of other record counts, those with the fewest records
first. Reading takes the file with the most records. So a reader finds the old words or the new
ones wherever a writer is interrupted.
-/

namespace Formulary

/-- A place that keeps words with a number of records. Writing answers whether it succeeded,
together with the place as it is then. -/
class WordBackend (β : Type) where
  write : β → Array UInt64 → Nat → Except StoreError Unit × β
  read : β → Except StoreError (Array UInt64 × Nat) × List Warning

/-- Words kept in memory. -/
structure MemoryWords where
  contents : Option (Array UInt64 × Nat)
deriving DecidableEq

namespace MemoryWords

/-- A place that holds nothing yet. -/
def empty : MemoryWords := ⟨none⟩

/-- Replace the contents. -/
def write (_ : MemoryWords) (words : Array UInt64) (records : Nat) :
    Except StoreError Unit × MemoryWords :=
  (.ok (), ⟨some (words, records)⟩)

/-- The contents last written. -/
def read (backend : MemoryWords) : Except StoreError (Array UInt64 × Nat) :=
  match backend.contents with
  | some contents => .ok contents
  | none => .error (.missing "<memory>")

instance : WordBackend MemoryWords where
  write := write
  read backend := (backend.read, [])

end MemoryWords

/-- The bytes of a word, least significant first. -/
def wordBytes (word : UInt64) : List UInt8 :=
  (List.range 8).map fun i => (word >>> UInt64.ofNat (8 * i)).toUInt8

/-- The words of bytes, eight at a time, least significant first; a rest is dropped. -/
def wordsOfBytes : List UInt8 → List UInt64
  | b₀ :: b₁ :: b₂ :: b₃ :: b₄ :: b₅ :: b₆ :: b₇ :: rest =>
    (b₀.toUInt64 ||| b₁.toUInt64 <<< 8 ||| b₂.toUInt64 <<< 16 ||| b₃.toUInt64 <<< 24 |||
      b₄.toUInt64 <<< 32 ||| b₅.toUInt64 <<< 40 ||| b₆.toUInt64 <<< 48 |||
      b₇.toUInt64 <<< 56) :: wordsOfBytes rest
  | _ => []

/-- Words kept in a file of a directory. The path is used in texts only. -/
structure WordFiles where
  path : String
  slots : Nat
  directory : Directory
deriving DecidableEq

namespace WordFiles

/-- What every file name over `slots` slots begins with. -/
def nameStart (slots : Nat) : String :=
  s!"expressions-{slots}-"

/-- What the name of every words file ends with. -/
def nameEnd : String := ".words"

/-- The name of the file that holds `records` records. -/
def fileName (slots records : Nat) : String :=
  nameStart slots ++ toString records ++ nameEnd

/-- The name under which a file is filled before it gets its final name. -/
def stagingName (slots records : Nat) : String :=
  nameStart slots ++ toString records ++ ".tmp"

/-- The path of an entry: one slash goes before the name, unless the directory's path ends in
one. -/
def pathOf (files : WordFiles) (name : String) : String :=
  if files.path.toList.getLast? = some '/' then files.path ++ name
  else files.path ++ "/" ++ name

/-- The bound of the numbers that count as record counts: one machine word. -/
def recordBound : Nat := 0x10000000000000000

/-- The record count in a file name over `slots` slots; other names have none. -/
def recordsIn (slots : Nat) (name : String) : Option Nat := do
  let rest ← (nameStart slots).toList.isPrefixOf? name.toList
  let number ← nameEnd.toList.isSuffixOf? rest
  Reader.nat? recordBound number

/-- The stored files over `slots` slots with their record counts, fewest records first. -/
def stored (slots : Nat) (directory : Directory) : Except StoreError (List (String × Nat)) :=
  match directory with
  | .absent => .ok []
  | .blocked => .error .inputOutput
  | .present entries =>
    let found := entries.filterMap fun (name, _) => (recordsIn slots name).map (name, ·)
    .ok (found.mergeSort fun a b => a.2 ≤ b.2)

/-- The operations that put the words in place under their final name. -/
def placing (slots : Nat) (words : Array UInt64) (records : Nat) : List FileOperation :=
  [.makeDirectory,
    .fill (stagingName slots records) (words.toList.flatMap wordBytes),
    .rename (stagingName slots records) (fileName slots records)]

/-- The operations that remove the stored files of other names. -/
def clearing (slots records : Nat) (found : List (String × Nat)) : List FileOperation :=
  (found.filter fun file => file.1 ≠ fileName slots records).map fun file => .remove file.1

/-- Write words over `slots` slots into a directory. -/
def writeInto (slots : Nat) (directory : Directory) (words : Array UInt64) (records : Nat) :
    Except StoreError Unit × Directory :=
  match directory.performAll (placing slots words records) with
  | (false, directory) => (.error .inputOutput, directory)
  | (true, directory) =>
    match stored slots directory with
    | .error error => (.error error, directory)
    | .ok found =>
      match directory.performAll (clearing slots records found) with
      | (false, directory) => (.error .inputOutput, directory)
      | (true, directory) => (.ok (), directory)

/-- Replace the stored words. -/
def write (files : WordFiles) (words : Array UInt64) (records : Nat) :
    Except StoreError Unit × WordFiles :=
  let (outcome, directory) := writeInto files.slots files.directory words records
  (outcome, { files with directory := directory })

/-- The operations that carry a change of a directory over to another copy of it: every file that
is new or has new bytes is filled, stored files under their staging name first, and then the files
that should be gone but are still there are removed. -/
def changes (slots : Nat) (before after : Directory) : List FileOperation :=
  let filled := after.entries.flatMap fun (name, entry) =>
    match entry with
    | .file bytes =>
      if before.find? name = some (.file bytes) then []
      else
        match recordsIn slots name with
        | some records =>
          [.makeDirectory, .fill (stagingName slots records) bytes,
            .rename (stagingName slots records) name]
        | none => [.makeDirectory, .fill name bytes]
    | .folder => []
  let rest := (before.performAll filled).2.entries
  let gone := rest.filter fun (name, _) => (after.find? name).isNone
  filled ++ gone.map fun (name, _) => .remove name

/-- The words in an entry, which has to be a file of whole words. -/
def wordsIn (files : WordFiles) (name : String) : Except StoreError (Array UInt64) :=
  match files.directory.find? name with
  | some (.file bytes) =>
    if bytes.length % 8 = 0 then .ok (wordsOfBytes bytes).toArray
    else .error (.corrupt (.partialWord (files.pathOf name) bytes.length))
  | _ => .error .inputOutput

/-- The words of the file with the most records. Other files over the same number of slots are
worth a warning. -/
def read (files : WordFiles) : Except StoreError (Array UInt64 × Nat) × List Warning :=
  match stored files.slots files.directory with
  | .error error => (.error error, [])
  | .ok found =>
    match found.getLast? with
    | none => (.error (.missing (files.pathOf (nameStart files.slots ++ "*" ++ nameEnd))), [])
    | some (name, records) =>
      let others := found.length - 1
      let warnings :=
        if others = 0 then [] else [.staleFiles others files.path (files.pathOf name)]
      ((files.wordsIn name).map (·, records), warnings)

instance : WordBackend WordFiles where
  write := write
  read := read

end WordFiles

end Formulary
