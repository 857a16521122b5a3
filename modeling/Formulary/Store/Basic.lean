import Formulary.Store.Words

/-!
# Stores of formulas

A store is a growing list of formulas over a fixed number of slots. One kind keeps the formulas
themselves, one keeps their packed records, and one keeps packed records together with a word
backend to which they are written on request. The last two refuse formulas that have no record.

Operations that change a store answer whether they succeeded together with the store as it is
then.
-/

namespace Formulary

/-- Formulas kept as they are. -/
structure MemoryStore where
  slots : Nat
  formulas : Array Formula

namespace MemoryStore

/-- A store without formulas. -/
def empty (slots : Nat) : MemoryStore :=
  ⟨slots, #[]⟩

/-- The formula at an index. -/
def get (store : MemoryStore) (index : Nat) : Except StoreError Formula :=
  match store.formulas[index]? with
  | some f => .ok f
  | none => .error (.indexOutOfBounds index store.formulas.size)

/-- Append a formula of the right size. -/
def push (store : MemoryStore) (f : Formula) : Except StoreError Unit × MemoryStore :=
  if f.size ≠ store.slots then (.error (.wrongSize store.slots f.size), store)
  else (.ok (), { store with formulas := store.formulas.push f })

end MemoryStore

/-- Formulas kept as packed records. -/
structure PackedStore where
  codec : Record.Codec
  records : Record.PackedRecords

namespace PackedStore

/-- A store without formulas, if there is a codec for its size. -/
def empty (table : OperatorTable) (slots : Nat) : Except StoreError PackedStore := do
  let codec ← (Record.Codec.make table slots).mapError .record
  let records ← (Record.PackedRecords.empty codec.width).mapError .record
  return ⟨codec, records⟩

/-- A store around records that were packed elsewhere, at the codec's width. -/
def ofRecords (codec : Record.Codec) (records : Record.PackedRecords) :
    Except StoreError PackedStore :=
  if records.width = codec.width then .ok ⟨codec, records⟩
  else .error (.corrupt (.recordWidth records.width codec.width))

/-- The number of slots of the store's formulas. -/
def slots (store : PackedStore) : Nat :=
  store.codec.slots

/-- The number of formulas. -/
def length (store : PackedStore) : Nat :=
  store.records.length

/-- The formula at an index. -/
def get (store : PackedStore) (index : Nat) : Except StoreError Formula :=
  (store.codec.get store.records index).mapError .record

/-- Append the record of a formula of the right size. -/
def push (store : PackedStore) (f : Formula) : Except StoreError Unit × PackedStore :=
  if f.size ≠ store.slots then (.error (.wrongSize store.slots f.size), store)
  else
    match store.codec.encode f with
    | .error error => (.error (.record error), store)
    | .ok record =>
      let (outcome, records) := store.records.push record
      (outcome.mapError .record, { store with records := records })

/-- Every formula in order. -/
def toList (store : PackedStore) : Except StoreError (List Formula) :=
  (store.codec.unpack store.records).mapError .record

end PackedStore

/-- Packed records with a backend to which they are written on request. `flushed` is the number
of records that the backend holds. -/
structure ExternalStore (β : Type) where
  buffer : PackedStore
  backend : β
  flushed : Nat

namespace ExternalStore

variable {β : Type}

/-- A buffer with the backend that holds exactly its records. -/
def ofParts (buffer : PackedStore) (backend : β) : ExternalStore β :=
  ⟨buffer, backend, buffer.length⟩

/-- A store without formulas that will be written to a backend. -/
def create (table : OperatorTable) (slots : Nat) (backend : β) :
    Except StoreError (ExternalStore β) := do
  let buffer ← PackedStore.empty table slots
  return ofParts buffer backend

/-- Check that words and a record count make a set of at least one formula, each of whose
records can be decoded. -/
def validate (codec : Record.Codec) (words : Array UInt64) (records : Nat) :
    Except StoreError PackedStore := do
  if records = 0 then
    throw (.corrupt (.emptySet codec.slots))
  let packed ← (Record.PackedRecords.ofWords words codec.width records).mapError
    fun error => .corrupt (.records error)
  let _ ← (codec.unpack packed).mapError fun error => .corrupt (.records error)
  PackedStore.ofRecords codec packed

/-- Read the set that a backend holds, and check all of it. -/
def load [WordBackend β] (table : OperatorTable) (slots : Nat) (backend : β) :
    Except StoreError PackedStore × List Warning :=
  match Record.Codec.make table slots with
  | .error error => (.error (.record error), [])
  | .ok codec =>
    match WordBackend.read backend with
    | (.error error, warnings) => (.error error, warnings)
    | (.ok (words, records), warnings) => (validate codec words records, warnings)

/-- The set that a backend holds, with the backend. -/
def openOver [WordBackend β] (table : OperatorTable) (slots : Nat) (backend : β) :
    Except StoreError (ExternalStore β) × List Warning :=
  match load table slots backend with
  | (.error error, warnings) => (.error error, warnings)
  | (.ok buffer, warnings) => (.ok (ofParts buffer backend), warnings)

/-- Whether the buffer and the backend hold different numbers of records. -/
def isDirty (store : ExternalStore β) : Bool :=
  store.flushed ≠ store.buffer.length

/-- Append the record of a formula to the buffer. -/
def push (store : ExternalStore β) (f : Formula) : Except StoreError Unit × ExternalStore β :=
  let (outcome, buffer) := store.buffer.push f
  (outcome, { store with buffer := buffer })

/-- Write the buffer to the backend, unless nothing was appended since the last time. -/
def flush [WordBackend β] (store : ExternalStore β) :
    Except StoreError Unit × ExternalStore β :=
  if store.isDirty then
    let records := store.buffer.records
    match WordBackend.write store.backend records.words records.length with
    | (.error error, backend) => (.error error, { store with backend := backend })
    | (.ok (), backend) =>
      (.ok (), { store with backend := backend, flushed := records.length })
  else (.ok (), store)

end ExternalStore

/-- A store of any kind. -/
inductive Store (β : Type) where
  | memory (store : MemoryStore)
  | packed (store : PackedStore)
  | external (store : ExternalStore β)

namespace Store

variable {β : Type}

/-- The number of slots of the store's formulas. -/
def slots : Store β → Nat
  | .memory store => store.slots
  | .packed store => store.slots
  | .external store => store.buffer.slots

/-- The number of formulas. -/
def length : Store β → Nat
  | .memory store => store.formulas.size
  | .packed store => store.length
  | .external store => store.buffer.length

/-- The formula at an index. -/
def get : Store β → Nat → Except StoreError Formula
  | .memory store, index => store.get index
  | .packed store, index => store.get index
  | .external store, index => store.buffer.get index

/-- Append a formula. -/
def push : Store β → Formula → Except StoreError Unit × Store β
  | .memory store, f =>
    let (outcome, store) := store.push f
    (outcome, .memory store)
  | .packed store, f =>
    let (outcome, store) := store.push f
    (outcome, .packed store)
  | .external store, f =>
    let (outcome, store) := store.push f
    (outcome, .external store)

/-- Append formulas one after another, up to the first that is refused. -/
def pushAll (store : Store β) : List Formula → Except StoreError Unit × Store β
  | [] => (.ok (), store)
  | f :: rest =>
    match store.push f with
    | (.ok (), store) => store.pushAll rest
    | (.error error, store) => (.error error, store)

/-- Every formula in order. -/
def toList : Store β → Except StoreError (List Formula)
  | .memory store => .ok store.formulas.toList
  | .packed store => store.toList
  | .external store => store.buffer.toList

/-- The packed records, if the store keeps any. -/
def packed? : Store β → Option Record.PackedRecords
  | .memory _ => none
  | .packed store => some store.records
  | .external store => some store.buffer.records

/-- Write what is only buffered to where it is kept. -/
def flush [WordBackend β] : Store β → Except StoreError Unit × Store β
  | .memory store => (.ok (), .memory store)
  | .packed store => (.ok (), .packed store)
  | .external store =>
    let (outcome, store) := store.flush
    (outcome, .external store)

end Store

/-- Which kind of store is wanted, and for the last kind the directory of its file. -/
inductive StoreKind where
  | memory
  | packed
  | external (path : String) (directory : Directory)
deriving DecidableEq

namespace StoreKind

/-- A store of a kind without formulas. -/
def build (kind : StoreKind) (table : OperatorTable) (slots : Nat) :
    Except StoreError (Store WordFiles) :=
  match kind with
  | .memory => .ok (.memory (.empty slots))
  | .packed => (PackedStore.empty table slots).map .packed
  | .external path directory =>
    (ExternalStore.create table slots ⟨path, slots, directory⟩).map .external

end StoreKind

end Formulary
