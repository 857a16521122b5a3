import Mathlib.Data.Bool.Count
import Formulary.Record.Codec
import Formulary.Proofs.Formula.Shape

/-!
# The part of a shape that is stored

A balanced shape with more than one entry begins with two pushes and ends with a pop, and the
entry before the last follows from the number of pushes. So the entries in between determine the
shape, and every choice of them that can be completed is the stored part of its completion.
-/

namespace Formulary

namespace Formula.Balanced

variable {shape : List Bool}

/-- A balanced shape begins with two pushes, unless it is a single one. -/
theorem eq_push_push (h : Balanced shape) (hlen : 2 ≤ shape.length) :
    ∃ rest, shape = true :: true :: rest := by
  match shape, h, hlen with
  | true :: true :: rest, _, _ => exact ⟨rest, rfl⟩
  | true :: false :: rest, h, _ => exact absurd (depthAfter_pop_eq_some h).1 (by decide)
  | false :: rest, h, _ => exact absurd (depthAfter_pop_eq_some h).1 (by decide)

/-- A balanced shape ends with a pop, unless it is a single push. -/
theorem eq_append_pop (h : Balanced shape) (hlen : 2 ≤ shape.length) :
    ∃ front, shape = front ++ [false] := by
  obtain rfl | ⟨front, last, rfl⟩ := List.eq_nil_or_concat' shape
  · simp at hlen
  · cases last with
    | false => exact ⟨front, rfl⟩
    | true =>
      have hne : front ≠ [] := by
        rintro rfl
        simp at hlen
      unfold Balanced at h
      rw [depthAfter_append] at h
      obtain ⟨depth, hfront, hlast⟩ := Option.bind_eq_some_iff.mp h
      have hpos := depthAfter_zero_pos hne hfront
      have hdepth : depth + 1 = 1 := Option.some.inj hlast
      omega

/-- A balanced shape over three slots or more is its stored entries with two pushes before them
and one entry and a pop behind them. -/
theorem eq_stored (h : Balanced shape) (hlen : 5 ≤ shape.length) :
    ∃ last, shape = [true, true] ++ Record.storedShape shape ++ [last, false] := by
  obtain ⟨front, hfront⟩ := h.eq_append_pop (by omega)
  obtain ⟨rest, hrest⟩ := h.eq_push_push (by omega)
  have hlong : 2 ≤ front.length := by
    rw [hfront, List.length_append, List.length_singleton] at hlen
    omega
  obtain ⟨middle, rfl⟩ : ∃ middle, front = true :: true :: middle := by
    match front, hlong with
    | first :: second :: middle, _ =>
      rw [hrest] at hfront
      injection hfront with hfirst hfront
      injection hfront with hsecond _
      exact ⟨middle, by rw [← hfirst, ← hsecond]⟩
  obtain rfl | ⟨stored, last, rfl⟩ := List.eq_nil_or_concat' middle
  · simp [hfront] at hlen
  · refine ⟨last, ?_⟩
    have hstored : Record.storedShape shape = stored := by
      rw [hfront]
      simp [Record.storedShape]
    rw [hstored, hfront]
    simp

end Formula.Balanced

namespace Record

open Formula

/-- Of the `2 m - 1` entries of a shape `2 m - 5` are stored. -/
theorem length_storedShape {shape : List Bool} {m : ℕ} (hlen : shape.length = 2 * m - 1) :
    (storedShape shape).length = shapeBits m := by
  unfold storedShape shapeBits
  rw [List.length_take, List.length_drop]
  omega

/-- The stored part of a balanced shape over two slots or more is completed to that shape. -/
theorem expandShape_storedShape {shape : List Bool} {m : ℕ} (h : Balanced shape) (hm : 2 ≤ m)
    (hlen : shape.length = 2 * m - 1) : expandShape m (storedShape shape) = some shape := by
  have hpushes := depth_add_count h
  have htotal := List.count_true_add_count_false shape
  by_cases hsmall : m < 3
  · obtain ⟨rest, rfl⟩ := h.eq_push_push (by omega)
    have hone : rest.length = 1 := by
      simp only [List.length_cons] at hlen
      omega
    obtain ⟨last, rfl⟩ := List.length_eq_one_iff.mp hone
    cases last with
    | true => exact nomatch h
    | false => simp [expandShape, hsmall, storedShape]
  · obtain ⟨last, hshape⟩ := h.eq_stored (by omega)
    have hcount := congrArg (List.count true) hshape
    rw [List.count_append, List.count_append] at hcount
    have htwo : [true, true].count true = 2 := rfl
    unfold expandShape
    rw [if_neg hsmall]
    cases last with
    | false =>
      have hzero : [false, false].count true = 0 := rfl
      rw [if_pos (by omega), ← hshape]
    | true =>
      have hone : [true, false].count true = 1 := rfl
      rw [if_neg (by omega), if_pos (by omega), ← hshape]

/-- What is stored of a completed shape is what was completed. -/
theorem storedShape_expandShape {stored shape : List Bool} {m : ℕ}
    (h : expandShape m stored = some shape) (hlen : stored.length = shapeBits m) :
    storedShape shape = stored := by
  unfold expandShape at h
  split at h
  · next hsmall =>
    have hnil : stored = [] := List.length_eq_zero_iff.mp (by unfold shapeBits at hlen; omega)
    cases h
    rw [hnil]
    rfl
  · dsimp only at h
    split at h
    · cases h
      simp [storedShape]
    · split at h
      · cases h
        simp [storedShape]
      · cases h

end Record

end Formulary
