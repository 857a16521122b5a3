import Formulary.Command.Arguments
import Formulary.Command.Failure
import Formulary.Store.TreeWords

/-!
# Answering a command line

A search that is asked for on a command line is checked, an index is made for it, and the index
is searched. The report holds the solutions or the failure, the warnings on the way, and the file
tree as it is afterwards: the cache directory stands somewhere in it. All of this is a function of
the command line, the file tree before, and the keys for random numbers.
-/

namespace Formulary.Command

/-- What comes out of a search that was asked for. -/
structure Report where
  outcome : Except Failure (List Solution)
  warnings : List Warning
  tree : FileTree

namespace Arguments

/-- The kind of store that is asked for; an external one needs the path of its directory. -/
def storeKind (arguments : Arguments) (tree : FileTree) : Except Failure StoreKind :=
  match arguments.store, arguments.cacheDirectory with
  | .memory, _ => .ok .memory
  | .packed, _ => .ok .packed
  | .external, some path => .ok (.external path (tree.directoryAt path))
  | .external, none => .error .noCacheDirectory

/-- The request for an index. The values are checked first, then the policy, then the store. -/
def request (arguments : Arguments) (tree : FileTree) : Except Failure Request := do
  (validateValues arguments.values arguments.values.length).mapError .invalidValues
  arguments.policy.validate.mapError .invalidPolicy
  let kind ← arguments.storeKind tree
  return ⟨arguments.values.length, arguments.policy, kind⟩

/-- The solutions in an index that are asked for: the first one only, or all up to the limit. -/
def solutions {β : Type} (arguments : Arguments) (index : Index β) :
    Except Failure (List Solution) :=
  let found :=
    if arguments.first then
      (Search.findFirst index {} arguments.values arguments.target).map Option.toList
    else
      Search.findAll index { maxSolutions := arguments.maxSolutions } arguments.values
        arguments.target
  found.mapError .search

/-- The report on an index or on the failure to make one. It warns of a search without a match. -/
def report {β : Type} (arguments : Arguments) (index : Except SearchError (Index β))
    (warnings : List Warning) (tree : FileTree) : Report :=
  let outcome := index.mapError .index >>= arguments.solutions
  let noMatch : List Warning := match outcome with
    | .ok [] => [.noMatch]
    | _ => []
  ⟨outcome, warnings ++ noMatch, tree⟩

/-- Answer a search that is asked for in a file tree. An external index is read back from its
directory if it can be, and any other is generated. -/
def run (arguments : Arguments) (entropy : Entropy) (tree : FileTree) : Report :=
  match arguments.request tree with
  | .error failure => ⟨.error failure, [], tree⟩
  | .ok request =>
    match request.kind with
    | .external path _ =>
      let place : TreeWords := ⟨path, request.slots, tree⟩
      let loading := Index.loadOrGenerate entropy request .arithmetic place
      arguments.report loading.outcome loading.warnings loading.backend.tree
    | .memory | .packed =>
      let (outcome, warnings) := Index.generate entropy request .arithmetic
      arguments.report outcome warnings tree

end Arguments

/-- The line for a solution: the formula with its values, and the target. -/
def solutionLine (solution : Solution) : String :=
  solution.render.getD "" ++ " = " ++ Shortest.text solution.target ++ "\n"

/-- The text on standard output. -/
def Report.output (report : Report) : String :=
  match report.outcome with
  | .error _ => ""
  | .ok [] => "Unknown.\n"
  | .ok solutions => String.join (solutions.map solutionLine)

/-- The error lines: none, or one for a failure. -/
def Report.errorLines (report : Report) : List String :=
  match report.outcome with
  | .error failure => [failure.line]
  | .ok _ => []

/-- The exit code: zero for an answer, even if nothing was found, and one for a failure. -/
def Report.exitCode (report : Report) : UInt32 :=
  match report.outcome with
  | .error _ => 1
  | .ok _ => 0

/-- The exit code of a command line that is misuse. -/
def misuseCode : UInt32 := 2

/-- The text for the help option, and beside every misuse. -/
def helpText : String :=
  "Usage: exprset [OPTIONS] --target <TARGET> <VALUES>...\n"

/-- The text for the version option. -/
def versionText : String := "exprset 0.1.0\n"

end Formulary.Command
