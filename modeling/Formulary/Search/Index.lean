import Formulary.Generation.Levels

/-!
# Indexes

An index is a finished set of formulas together with the table that its codes refer to. It is
generated, or read back from a word backend; if the backend holds nothing that can be used, the
set is generated and written to it.
-/

namespace Formulary

/-- What can go wrong in making an index or in searching it. -/
inductive SearchError where
  | invalidTarget (target : Float)
  | formula (error : FormulaError)
  | input (error : InputError)
  | store (error : StoreError)
  | generation (error : GenerationError)

/-- The text shown for a search error. -/
def SearchError.message : SearchError → String
  | .invalidTarget target => s!"Target {Shortest.text target} is not a finite number"
  | .formula error => s!"Expression evaluation error: {error.message}"
  | .input error => s!"Utils error: {error.message}"
  | .store error => s!"Store error: {error.message}"
  | .generation error => s!"Generator error: {error.message}"

/-- A finished set of formulas over one number of slots and the table of its codes. -/
structure Index (β : Type) where
  table : OperatorTable
  store : Store β

namespace Index

variable {β : Type}

/-- The number of slots of the index's formulas. -/
def slots (index : Index β) : Nat :=
  index.store.slots

/-- The number of formulas. -/
def length (index : Index β) : Nat :=
  index.store.length

/-- The formula at a position. -/
def get (index : Index β) (position : Nat) : Except StoreError Formula :=
  index.store.get position

/-- Generate the requested set. -/
def generate (entropy : Entropy) (request : Request) (table : OperatorTable) :
    Except SearchError (Index WordFiles) × List Warning :=
  match Formulary.generate entropy request table with
  | (.error error, warnings) => (.error (.generation error), warnings)
  | (.ok store, warnings) => (.ok ⟨table, store⟩, warnings)

/-- An index or an error, with the backend as it is then and the warnings on the way. -/
structure Loading (β : Type) where
  outcome : Except SearchError (Index β)
  backend : β
  warnings : List Warning

/-- Write formulas to a backend and make them an index. -/
def storeAll [WordBackend β] (table : OperatorTable) (slots : Nat) (backend : β)
    (formulas : List Formula) : Except SearchError (Index β) × β :=
  match ExternalStore.create table slots backend with
  | .error error => (.error (.store error), backend)
  | .ok store =>
    match (Store.external store).pushAll formulas with
    | (.error error, _) => (.error (.store error), backend)
    | (.ok (), .external store) =>
      match store.flush with
      | (.error error, store) => (.error (.store error), store.backend)
      | (.ok (), store) => (.ok ⟨table, .external store⟩, store.backend)
    | (.ok (), store) => (.ok ⟨table, store⟩, backend)

/-- Generate the requested set and write it to a backend. -/
def regenerate [WordBackend β] (entropy : Entropy) (request : Request) (table : OperatorTable)
    (backend : β) : Loading β :=
  match Formulary.generate entropy { request with kind := .packed } table with
  | (.error error, warnings) => ⟨.error (.generation error), backend, warnings⟩
  | (.ok generated, warnings) =>
    match generated.toList with
    | .error error => ⟨.error (.store error), backend, warnings⟩
    | .ok formulas =>
      let (outcome, backend) := storeAll table request.slots backend formulas
      ⟨outcome, backend, warnings⟩

/-- Read the requested set from a backend, or generate and write it if what the backend holds
cannot be used. -/
def loadOrGenerate [WordBackend β] (entropy : Entropy) (request : Request)
    (table : OperatorTable) (backend : β) : Loading β :=
  match ExternalStore.load table request.slots backend with
  | (.ok buffer, warnings) =>
    ⟨.ok ⟨table, .external (.ofParts buffer backend)⟩, backend, warnings⟩
  | (.error error, warnings) =>
    if error.isRecoverable then
      let regenerated := regenerate entropy request table backend
      { regenerated with
        warnings := warnings ++ .unusable request.slots error :: regenerated.warnings }
    else ⟨.error (.store error), backend, warnings⟩

end Index

end Formulary
