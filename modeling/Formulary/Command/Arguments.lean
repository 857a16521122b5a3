import Formulary.Command.Items
import Formulary.Search.Query

/-!
# What a command line asks for

The items of a command line are read in order. An item that cannot be read, a setting that is
given twice, and a line without a target or without values are misuse; the version and the help
are given for their option unless an earlier item is misuse.
-/

namespace Formulary.Command

/-- Which kind of store is asked for. -/
inductive StoreChoice where
  | memory
  | packed
  | external
deriving DecidableEq

/-- How much is told besides the answer. -/
inductive LogLevel where
  | error
  | warn
  | info
  | debug
  | trace
deriving DecidableEq

/-- What is asked for by a command line that is complete. -/
structure Arguments where
  values : List Float
  target : Float
  logLevel : LogLevel
  policy : Policy
  store : StoreChoice
  cacheDirectory : Option String
  maxSolutions : Nat
  first : Bool

/-- What the items read so far give. -/
structure Given where
  values : List Float := []
  target : Option Float := none
  logLevel : Option LogLevel := none
  rounding : Option Nat := none
  fingerprints : Option Nat := none
  threshold : Option Nat := none
  seed : Option Nat := none
  store : Option StoreChoice := none
  cacheDirectory : Option String := none
  maxSolutions : Option Nat := none
  first : Bool := false

/-- The store choice with a name. -/
def StoreChoice.ofName? : String → Option StoreChoice
  | "memory" => some .memory
  | "packed" => some .packed
  | "external" => some .external
  | _ => none

/-- The log level with a name. -/
def LogLevel.ofName? : String → Option LogLevel
  | "error" => some .error
  | "warn" => some .warn
  | "info" => some .info
  | "debug" => some .debug
  | "trace" => some .trace
  | _ => none

/-- The bound of places and of other numbers that fit half a machine word. -/
def halfWordBound : Nat := 0x100000000

/-- The bound of numbers that fit a machine word. -/
def wordBound : Nat := 0x10000000000000000

/-- A number of decimal places: a whole number with any sign that is not negative. -/
def places? (text : String) : Option Nat :=
  match text.toList with
  | '-' :: digits => (Reader.digits? digits).filter (· = 0)
  | digits => Reader.nat? halfWordBound digits

/-- A count or a seed: a whole number without a minus sign. -/
def count? (text : String) : Option Nat :=
  Reader.nat? wordBound text.toList

/-- A path: any text but the empty one. -/
def path? (text : String) : Option String :=
  if text.isEmpty then none else some text

/-- A new entry for a setting that was not given before and whose text can be read. -/
def once {α : Type} (before : Option α) (read : Option α) : Option (Option α) :=
  match before, read with
  | none, some value => some (some value)
  | _, _ => none

namespace Given

/-- Read the text of a setting; none if it cannot be read or was given before. -/
def set (given : Given) (text : String) : Setting → Option Given
  | .target =>
    (once given.target (Reader.float? text)).map fun v => { given with target := v }
  | .logLevel =>
    (once given.logLevel (LogLevel.ofName? text)).map fun v => { given with logLevel := v }
  | .rounding => (once given.rounding (places? text)).map fun v => { given with rounding := v }
  | .fingerprints =>
    (once given.fingerprints (count? text)).map fun v => { given with fingerprints := v }
  | .threshold => (once given.threshold (count? text)).map fun v => { given with threshold := v }
  | .seed => (once given.seed (count? text)).map fun v => { given with seed := v }
  | .store => (once given.store (StoreChoice.ofName? text)).map fun v => { given with store := v }
  | .cacheDirectory =>
    (once given.cacheDirectory (path? text)).map fun v => { given with cacheDirectory := v }
  | .maxSolutions =>
    (once given.maxSolutions (count? text)).map fun v => { given with maxSolutions := v }

/-- Read one item; none if it is misuse. -/
def read (given : Given) : Item → Option Given
  | .value text =>
    (Reader.float? text).map fun value => { given with values := given.values ++ [value] }
  | .setting setting (some text) => given.set text setting
  | .first => if given.first then none else some { given with first := true }
  | .setting _ none | .version | .help | .unknown => none

/-- The policy that is asked for; what is not given has its standard value. -/
def policy (given : Given) : Policy :=
  let standard : Policy := {}
  { fingerprints := given.fingerprints.getD standard.fingerprints
    threshold := given.threshold.getD standard.threshold
    digits := given.rounding.getD standard.digits
    seed := given.seed.map UInt64.ofNat }

/-- What is asked for, if there is a target and at least one value. -/
def arguments? (given : Given) : Option Arguments :=
  match given.target, given.values with
  | none, _ | _, [] => none
  | some target, values =>
    let standard : SearchConfig := {}
    some
      { values, target
        logLevel := given.logLevel.getD .warn
        policy := given.policy
        store := given.store.getD .memory
        cacheDirectory := given.cacheDirectory
        maxSolutions := given.maxSolutions.getD standard.maxSolutions
        first := given.first }

end Given

end Formulary.Command

namespace Formulary

/-- What a command line asks for. -/
inductive Command where
  | search (arguments : Command.Arguments)
  | version
  | help
  | misuse

namespace Command

/-- Read the items that are left. -/
def ofItems (given : Given) : List Item → Command
  | [] =>
    match given.arguments? with
    | some arguments => .search arguments
    | none => .misuse
  | .version :: _ => .version
  | .help :: _ => .help
  | item :: rest =>
    match given.read item with
    | some given => ofItems given rest
    | none => .misuse

/-- What the words of a command line ask for. -/
def ofWords (words : List String) : Command :=
  ofItems {} (items words)

end Command

end Formulary
