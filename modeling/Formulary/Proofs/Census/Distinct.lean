import Formulary.Proofs.Census.RationalFunctions
import Formulary.Proofs.Census.Tally
import Formulary.Proofs.Census.Trees

/-!
# The count is the number of rational functions

A binary tree of `+ - * /` with each of the slots at exactly one leaf denotes a rational function in the
slots. Different trees may denote the same function, and the count is the number of functions.
-/

namespace Formulary.Census

open Finset MvPolynomial

/-- A tree with each of `n` slots at exactly one leaf. -/
structure ReadOnceTree (n : ℕ) where
  tree : ArithmeticTree (Fin n)
  count_slots : ∀ x, tree.slots.count x = 1

/-- The rational function that a tree denotes; there is none if it divides by zero. -/
noncomputable def ReadOnceTree.eval {n : ℕ} (t : ReadOnceTree n) : Option (RationalFunction (Fin n)) :=
  t.tree.eval fun x => algebraMap (MvPolynomial (Fin n) ℚ) (RationalFunction (Fin n)) (X x)

/-- Every slot is there once if none is there twice and none is missing. -/
theorem count_slots_iff {n : ℕ} {tree : ArithmeticTree (Fin n)} :
    (∀ x, tree.slots.count x = 1) ↔ tree.slots.Nodup ∧ tree.slots.toFinset = univ := by
  constructor
  · intro hcount
    refine ⟨List.nodup_iff_count_le_one.mpr fun x => (hcount x).le, eq_univ_of_forall fun x => ?_⟩
    rw [List.mem_toFinset, ← List.count_pos_iff, hcount x]
    exact Nat.one_pos
  · rintro ⟨hnodup, huniv⟩ x
    exact List.count_eq_one_of_mem hnodup (List.mem_toFinset.mp (huniv ▸ mem_univ x))

/-- The functions that trees denote are those that have forms. -/
theorem denoted_eq_values (n : ℕ) : {q | ∃ t : ReadOnceTree n, t.eval = some q} =
    values (rationalCoordinates (Fin n)) true .sum univ ∪
      values (rationalCoordinates (Fin n)) true .product univ := by
  ext q
  constructor
  · rintro ⟨⟨tree, hcount⟩, heval⟩
    obtain ⟨hnodup, huniv⟩ := count_slots_iff.mp hcount
    obtain ⟨p, F, hp, hform⟩ := tree.exists_form (rationalCoordinates (Fin n)) hnodup
    obtain rfl : p = q := Option.some_injective _ (hp.symm.trans heval)
    rw [huniv] at hform
    cases F with
    | sum => exact .inl hform
    | product => exact .inr hform
  · intro hq
    obtain ⟨tree, hnodup, huniv, heval⟩ : Denoted (rationalCoordinates (Fin n)) univ q :=
      hq.elim Form.denoted Form.denoted
    exact ⟨⟨tree, count_slots_iff.mpr ⟨hnodup, huniv⟩⟩, heval⟩

/-- Every tree with each of `n` slots exactly once denotes a rational function, and the count for `n` is
the number of functions that are denoted. -/
theorem count_eq_encard_denoted (n : ℕ) :
    (∀ t : ReadOnceTree n, t.eval.isSome) ∧
      {q | ∃ t : ReadOnceTree n, t.eval = some q}.encard = count n := by
  constructor
  · rintro ⟨tree, hcount⟩
    obtain ⟨q, -, hq, -⟩ := tree.exists_form (rationalCoordinates (Fin n)) (count_slots_iff.mp hcount).1
    exact Option.isSome_iff_exists.mpr ⟨q, hq⟩
  · rw [denoted_eq_values]
    match n with
    | 0 =>
      rw [univ_eq_empty, values_empty, values_empty, Set.union_empty, Set.encard_empty]
      rfl
    | 1 =>
      rw [univ_unique, values_singleton, values_singleton, Set.union_self, Set.encard_singleton]
      rfl
    | n + 2 =>
      obtain ⟨hfinite, hcard⟩ := ncard_values_total (s := univ) (rationalCoordinates (Fin (n + 2))) (by simp)
      rw [← hfinite.cast_ncard_eq, hcard, count_add_two, card_univ, Fintype.card_fin]

example : count 5 = 27142 := by decide +kernel

end Formulary.Census
