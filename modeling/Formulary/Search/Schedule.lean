/-!
# The course of a search

Workers share the positions of an index. A worker takes up a position, and if it finds a solution
there, it files the solution in a list that all workers share. Between the two, other workers may take
up positions and file solutions of their own. So the course of a search is a list of such steps, in
which every position is taken up once and what is found there is filed later.
-/

namespace Formulary.Search

/-- What a worker does with a position: take it up, or file what was found there. -/
inductive Step
  | take (position : Nat)
  | file (position : Nat)
  deriving DecidableEq, Repr

/-- The position that a step takes up. -/
def Step.taken? : Step → Option Nat
  | .take position => some position
  | .file _ => none

/-- The positions that steps take up, in turn. -/
def takenBy (steps : List Step) : List Nat :=
  steps.filterMap Step.taken?

/-- What is found at a position that steps take up is filed later. -/
def Filed : List Step → Prop
  | [] => True
  | .take position :: rest => .file position ∈ rest ∧ Filed rest
  | .file _ :: rest => Filed rest

/-- The course of a search over an index of some length. A position at which nothing is found is filed
like any other, which has no effect. -/
structure Schedule (length : Nat) where
  steps : List Step
  taken : (takenBy steps).Perm (List.range length)
  filed : Filed steps

/-- The steps of a worker that is alone: it files what it finds before it takes up the next of its
positions. -/
def visits (positions : List Nat) : List Step :=
  positions.flatMap fun position => [.take position, .file position]

/-- To visit nothing takes no step. -/
@[simp]
theorem visits_nil : visits [] = [] :=
  rfl

/-- To visit a position is to take it and to file it, before the rest is visited. -/
@[simp]
theorem visits_cons (position : Nat) (rest : List Nat) :
    visits (position :: rest) = .take position :: .file position :: visits rest :=
  rfl

/-- A worker that is alone takes up its positions in their order. -/
theorem takenBy_visits (positions : List Nat) : takenBy (visits positions) = positions := by
  induction positions with
  | nil => rfl
  | cons position rest ih => exact congrArg (position :: ·) ih

/-- A worker that is alone files what it finds. -/
theorem filed_visits (positions : List Nat) : Filed (visits positions) := by
  induction positions with
  | nil => trivial
  | cons position rest ih => exact ⟨List.mem_cons_self, ih⟩

/-- A search by one worker in the order of the index. -/
def Schedule.inOrder (length : Nat) : Schedule length where
  steps := visits (List.range length)
  taken := by rw [takenBy_visits]
  filed := filed_visits _

end Formulary.Search
