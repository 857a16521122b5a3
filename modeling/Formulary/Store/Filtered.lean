import Formulary.Store.Basic

/-!
# Stores that take only new formulas

A filtered store is a store together with a novelty filter over the same number of slots. A
candidate goes to the filter first and, if it is admitted, into the store.
-/

namespace Formulary

/-- A store and the filter that decides what goes into it. -/
structure FilteredStore (β : Type) where
  store : Store β
  filter : NoveltyFilter

namespace FilteredStore

variable {β : Type}

/-- Put a filter before a store over the same number of slots. -/
def make (store : Store β) (filter : NoveltyFilter) : Except StoreError (FilteredStore β) :=
  if store.slots ≠ filter.slots then .error (.wrongSize store.slots filter.slots)
  else .ok ⟨store, filter⟩

/-- Offer a candidate; the answer is whether it was stored. -/
def offer (set : FilteredStore β) (f : Formula) : Except StoreError Bool × FilteredStore β :=
  match set.filter.offer f with
  | (.error error, filter) => (.error (.admission error), { set with filter := filter })
  | (.ok false, filter) => (.ok false, { set with filter := filter })
  | (.ok true, filter) =>
    match set.store.push f with
    | (.error error, store) => (.error error, ⟨store, filter⟩)
    | (.ok (), store) => (.ok true, ⟨store, filter⟩)

/-- Offer candidates one after another, up to the first error. -/
def offerAll (set : FilteredStore β) : List Formula → Except StoreError (FilteredStore β)
  | [] => .ok set
  | f :: rest =>
    match set.offer f with
    | (.error error, _) => .error error
    | (.ok _, set) => set.offerAll rest

/-- Let the filter go and write what the store has only buffered. -/
def finish [WordBackend β] (set : FilteredStore β) : Except StoreError Unit × Store β :=
  set.store.flush

end FilteredStore

end Formulary
