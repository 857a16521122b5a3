import Mathlib.Data.List.Basic
import Mathlib.Tactic.Common
import Formulary.Formula.Basic

/-!
# Shapes as postfix programs

A shape is read from the left while the depth of the stack is followed. A shape is balanced if it
starts from the empty stack, never pops from fewer than two entries and leaves one entry; these
are the shapes that pass the check. Once a balanced shape has begun, the stack is never empty
again, so a balanced shape is no proper beginning of another one: two of them written one after
the other can be told apart.
-/

namespace Formulary.Formula

/-- The depth of the stack after a shape, if no pop meets fewer than two entries. -/
def depthAfter (depth : ℕ) : List Bool → Option ℕ
  | [] => some depth
  | true :: rest => depthAfter (depth + 1) rest
  | false :: rest => if depth < 2 then none else depthAfter (depth - 1) rest

/-- A shape that turns the empty stack into one entry. -/
def Balanced (shape : List Bool) : Prop :=
  depthAfter 0 shape = some 1

instance (shape : List Bool) : Decidable (Balanced shape) :=
  inferInstanceAs (Decidable (depthAfter 0 shape = some 1))

/-- With two entries on the stack or more, a pop leaves one entry less. -/
theorem depthAfter_pop {depth : ℕ} (h : 2 ≤ depth) (rest : List Bool) :
    depthAfter depth (false :: rest) = depthAfter (depth - 1) rest :=
  if_neg (Nat.not_lt_of_le h)

/-- A shape that goes through pops from two entries at least. -/
theorem depthAfter_pop_eq_some {depth after : ℕ} {rest : List Bool}
    (h : depthAfter depth (false :: rest) = some after) :
    2 ≤ depth ∧ depthAfter (depth - 1) rest = some after := by
  unfold depthAfter at h
  split at h
  · cases h
  · next hdepth => exact ⟨Nat.le_of_not_lt hdepth, h⟩

/-- The check of a shape follows the depth and asks for one entry at the end. -/
theorem checkShape_eq_ok_iff {position depth : ℕ} {shape : List Bool} :
    checkShape position depth shape = .ok () ↔ depthAfter depth shape = some 1 := by
  induction shape generalizing position depth with
  | nil =>
    unfold checkShape depthAfter
    split
    · next hdepth => simp [hdepth]
    · next hdepth => simp [hdepth]
  | cons push rest ih =>
    cases push with
    | true => exact ih
    | false =>
      unfold checkShape depthAfter
      split
      · simp
      · exact ih

/-- Two shapes one after the other act one after the other. -/
theorem depthAfter_append (depth : ℕ) (first second : List Bool) :
    depthAfter depth (first ++ second) =
      (depthAfter depth first).bind fun between => depthAfter between second := by
  induction first generalizing depth with
  | nil => rfl
  | cons push rest ih =>
    cases push with
    | true => exact ih (depth + 1)
    | false =>
      simp only [List.cons_append, depthAfter]
      split
      · rfl
      · exact ih (depth - 1)

/-- Entries below those a shape works on stay where they are. -/
theorem depthAfter_add {depth after : ℕ} {shape : List Bool} (below : ℕ)
    (h : depthAfter depth shape = some after) :
    depthAfter (depth + below) shape = some (after + below) := by
  induction shape generalizing depth with
  | nil =>
    cases h
    rfl
  | cons push rest ih =>
    cases push with
    | true =>
      have hrest : depthAfter (depth + 1 + below) rest = some (after + below) := ih h
      rwa [Nat.add_right_comm] at hrest
    | false =>
      obtain ⟨hdepth, hrest⟩ := depthAfter_pop_eq_some h
      rw [depthAfter_pop (Nat.le_add_right_of_le hdepth), Nat.sub_add_comm (by omega)]
      exact ih hrest

/-- Every push adds an entry, and every pop takes one away in the end. -/
theorem depth_add_count {depth after : ℕ} {shape : List Bool}
    (h : depthAfter depth shape = some after) :
    depth + shape.count true = after + shape.count false := by
  induction shape generalizing depth with
  | nil =>
    cases h
    rfl
  | cons push rest ih =>
    cases push with
    | true =>
      have hrest : depth + 1 + rest.count true = after + rest.count false := ih h
      simp only [List.count_cons_self, List.count_cons_of_ne (show true ≠ false by decide)]
      omega
    | false =>
      obtain ⟨hdepth, hrest⟩ := depthAfter_pop_eq_some h
      have hcount := ih hrest
      simp only [List.count_cons_self, List.count_cons_of_ne (show false ≠ true by decide)]
      omega

/-- A stack that holds an entry never becomes empty. -/
theorem depthAfter_pos {depth after : ℕ} {shape : List Bool} (hdepth : 0 < depth)
    (h : depthAfter depth shape = some after) : 0 < after := by
  induction shape generalizing depth with
  | nil =>
    cases h
    exact hdepth
  | cons push rest ih =>
    cases push with
    | true => exact ih depth.succ_pos h
    | false =>
      obtain ⟨htwo, hrest⟩ := depthAfter_pop_eq_some h
      exact ih (by omega) hrest

/-- Any shape that goes through from the empty stack leaves an entry, unless it is empty. -/
theorem depthAfter_zero_pos {after : ℕ} {shape : List Bool} (hne : shape ≠ [])
    (h : depthAfter 0 shape = some after) : 0 < after := by
  match shape, h with
  | [], _ => exact absurd rfl hne
  | true :: rest, h => exact depthAfter_pos Nat.one_pos h
  | false :: rest, h => exact absurd (depthAfter_pop_eq_some h).1 (by decide)

/-- One balanced shape after another with a pop behind them is balanced. -/
theorem Balanced.combine {left right : List Bool} (hleft : Balanced left)
    (hright : Balanced right) : Balanced (left ++ right ++ [false]) := by
  have hboth : depthAfter 1 right = some 2 := depthAfter_add 1 hright
  unfold Balanced at *
  rw [depthAfter_append, depthAfter_append, hleft, Option.bind_some, hboth]
  rfl

/-- Nothing can be written behind a balanced shape so that a balanced shape results, if what is
written behind it begins a balanced shape itself. -/
private theorem eq_nil_of_balanced_append {first more behind : List Bool} (hfirst : Balanced first)
    (hlong : Balanced (first ++ more)) (hbehind : Balanced (more ++ behind)) : more = [] := by
  by_contra hne
  unfold Balanced at *
  rw [depthAfter_append] at hlong hbehind
  rw [hfirst, Option.bind_some] at hlong
  obtain ⟨between, hbetween, -⟩ := Option.bind_eq_some_iff.mp hbehind
  have hpos := depthAfter_zero_pos hne hbetween
  have hmore := depthAfter_add 1 hbetween
  rw [Nat.zero_add, hlong] at hmore
  injection hmore with hmore
  omega

/-- Two balanced shapes one after the other can be told apart. -/
theorem Balanced.append_inj {left right left' right' : List Bool} (hleft : Balanced left)
    (hright : Balanced right) (hleft' : Balanced left') (hright' : Balanced right')
    (h : left ++ right = left' ++ right') : left = left' ∧ right = right' := by
  rcases List.append_eq_append_iff.mp h with ⟨more, rfl, rfl⟩ | ⟨more, rfl, rfl⟩
  · have hmore := eq_nil_of_balanced_append hleft hleft' hright
    subst hmore
    exact ⟨(List.append_nil _).symm, rfl⟩
  · have hmore := eq_nil_of_balanced_append hleft' hleft hright'
    subst hmore
    exact ⟨List.append_nil _, rfl⟩

end Formulary.Formula
