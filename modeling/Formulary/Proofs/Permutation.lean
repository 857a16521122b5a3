import Mathlib.Data.List.Perm.Basic
import Mathlib.Data.List.Nodup
import Mathlib.Tactic.Common
import Formulary.Permutation

/-!
# Ranking is a bijection

Ranking and its inverse walk down the same list of unused slots, so each undoes the other step
by step. The ranks of the arrangements of `n` slots are the numbers below `n!`, and a list has a
rank exactly when it is an arrangement of the slots below its length.
-/

namespace Formulary

/-- There is at least one order. -/
theorem factorial_pos (n : ℕ) : 0 < factorial n := by
  induction n with
  | zero => exact Nat.one_pos
  | succ n ih => exact Nat.mul_pos n.succ_pos ih

/-- More slots have more orders. -/
theorem factorial_le_factorial {m n : ℕ} (h : m ≤ n) : factorial m ≤ factorial n := by
  induction h with
  | refl => exact Nat.le_refl _
  | step _ ih => exact Nat.le_trans ih (Nat.le_mul_of_pos_left _ (Nat.succ_pos _))

namespace Permutation

/-- A slot that is found among the unused ones stands at the place that was found. -/
theorem getElem?_of_idxOf? {unused : List UInt8} {slot : UInt8} {place : ℕ}
    (h : unused.idxOf? slot = some place) : unused[place]? = some slot := by
  obtain ⟨hplace, heq, _⟩ := List.findIdx?_eq_some_iff_getElem.mp h
  rw [List.getElem?_eq_getElem hplace]
  exact congrArg some (eq_of_beq heq)

/-- Where no slot occurs twice, the slot at a place is found there. -/
theorem idxOf?_of_getElem? {unused : List UInt8} (hnodup : unused.Nodup) {slot : UInt8} {place : ℕ}
    (h : unused[place]? = some slot) : unused.idxOf? slot = some place := by
  obtain ⟨hplace, rfl⟩ := List.getElem?_eq_some_iff.mp h
  refine List.findIdx?_eq_some_iff_getElem.mpr ⟨hplace, beq_self_eq_true _, fun i hi => ?_⟩
  simpa using fun heq => Nat.ne_of_lt hi ((List.Nodup.getElem_inj_iff hnodup).mp heq)

/-- One step of ranking: the first slot has a place, and the rest is ranked without it. -/
theorem rankFrom_cons_eq_some_iff {unused rest : List UInt8} {slot : UInt8} {rank : ℕ} :
    rankFrom unused (slot :: rest) = some rank ↔
      ∃ place behind, unused.idxOf? slot = some place ∧
        rankFrom (unused.eraseIdx place) rest = some behind ∧
          rank = place * factorial rest.length + behind := by
  simp only [rankFrom, Option.bind_eq_bind, Option.bind_eq_some_iff, Option.pure_def,
    Option.some.injEq]
  constructor
  · rintro ⟨place, hplace, behind, hbehind, rfl⟩
    exact ⟨place, behind, hplace, hbehind, rfl⟩
  · rintro ⟨place, behind, hplace, hbehind, rfl⟩
    exact ⟨place, hplace, behind, hbehind, rfl⟩

/-- One step back: the quotient by the weight is the place of the first slot. -/
theorem unrankFrom_succ_eq_some_iff {unused slots : List UInt8} {length rank : ℕ} :
    unrankFrom unused (length + 1) rank = some slots ↔
      ∃ slot rest, unused[rank / factorial length]? = some slot ∧
        unrankFrom (unused.eraseIdx (rank / factorial length)) length
          (rank % factorial length) = some rest ∧ slots = slot :: rest := by
  simp only [unrankFrom, Option.bind_eq_bind, Option.bind_eq_some_iff, Option.pure_def,
    Option.some.injEq]
  constructor
  · rintro ⟨slot, hslot, rest, hrest, rfl⟩
    exact ⟨slot, rest, hslot, hrest, rfl⟩
  · rintro ⟨slot, rest, hslot, hrest, rfl⟩
    exact ⟨slot, hslot, rest, hrest, rfl⟩

/-- The length of the unused list after a slot was taken from a place of it. -/
theorem length_eraseIdx_of_getElem? {unused : List UInt8} {slot : UInt8} {place n : ℕ}
    (h : unused[place]? = some slot) (hlen : unused.length = n + 1) :
    (unused.eraseIdx place).length = n := by
  have hplace := (List.getElem?_eq_some_iff.mp h).1
  rw [List.length_eraseIdx_of_lt hplace, hlen, Nat.add_sub_cancel]

/-- The rank of an arrangement of all unused slots is below the number of arrangements. -/
theorem rankFrom_lt {unused slots : List UInt8} {rank : ℕ} (h : rankFrom unused slots = some rank)
    (hlen : unused.length = slots.length) : rank < factorial slots.length := by
  induction slots generalizing unused rank with
  | nil =>
    cases h
    exact factorial_pos 0
  | cons slot rest ih =>
    obtain ⟨place, behind, hplace, hbehind, rfl⟩ := rankFrom_cons_eq_some_iff.mp h
    have hget := getElem?_of_idxOf? hplace
    have hle : place ≤ rest.length := by
      have := (List.getElem?_eq_some_iff.mp hget).1
      simp only [hlen, List.length_cons] at this
      omega
    have hlt := ih hbehind (length_eraseIdx_of_getElem? hget hlen)
    calc place * factorial rest.length + behind
        < place * factorial rest.length + factorial rest.length := Nat.add_lt_add_left hlt _
      _ = (place + 1) * factorial rest.length := (Nat.succ_mul _ _).symm
      _ ≤ (rest.length + 1) * factorial rest.length := Nat.mul_le_mul_right _ (by omega)

/-- Unranking undoes ranking. -/
theorem unrankFrom_rankFrom {unused slots : List UInt8} {rank : ℕ}
    (h : rankFrom unused slots = some rank) (hlen : unused.length = slots.length) :
    unrankFrom unused slots.length rank = some slots := by
  induction slots generalizing unused rank with
  | nil => rfl
  | cons slot rest ih =>
    obtain ⟨place, behind, hplace, hbehind, rfl⟩ := rankFrom_cons_eq_some_iff.mp h
    have hget := getElem?_of_idxOf? hplace
    have hlen' := length_eraseIdx_of_getElem? hget hlen
    have hlt := rankFrom_lt hbehind hlen'
    have hdiv : (place * factorial rest.length + behind) / factorial rest.length = place := by
      rw [Nat.mul_comm, Nat.mul_add_div (factorial_pos _), Nat.div_eq_of_lt hlt, Nat.add_zero]
    have hmod : (place * factorial rest.length + behind) % factorial rest.length = behind := by
      rw [Nat.mul_comm, Nat.mul_add_mod, Nat.mod_eq_of_lt hlt]
    refine unrankFrom_succ_eq_some_iff.mpr ⟨slot, rest, ?_, ?_, rfl⟩
    · rw [hdiv, hget]
    · rw [hdiv, hmod, ih hbehind hlen']

/-- Ranking undoes unranking where no unused slot occurs twice. -/
theorem rankFrom_unrankFrom {unused slots : List UInt8} {length rank : ℕ}
    (hnodup : unused.Nodup) (h : unrankFrom unused length rank = some slots)
    (hrank : rank < factorial length) :
    slots.length = length ∧ rankFrom unused slots = some rank := by
  induction length generalizing unused slots rank with
  | zero =>
    cases h
    have hzero : rank = 0 := Nat.lt_one_iff.mp hrank
    exact ⟨rfl, by rw [hzero]; rfl⟩
  | succ length ih =>
    obtain ⟨slot, rest, hslot, hrest, rfl⟩ := unrankFrom_succ_eq_some_iff.mp h
    obtain ⟨hlen, hbehind⟩ :=
      ih (hnodup.eraseIdx _) hrest (Nat.mod_lt _ (factorial_pos length))
    refine ⟨by rw [List.length_cons, hlen], rankFrom_cons_eq_some_iff.mpr ?_⟩
    refine ⟨_, _, idxOf?_of_getElem? hnodup hslot, hbehind, ?_⟩
    rw [hlen, Nat.div_add_mod']

/-- Every rank below the number of arrangements is the rank of one. -/
theorem exists_unrankFrom {unused : List UInt8} {length rank : ℕ} (hlen : unused.length = length)
    (hrank : rank < factorial length) : ∃ slots, unrankFrom unused length rank = some slots := by
  induction length generalizing unused rank with
  | zero => exact ⟨[], rfl⟩
  | succ length ih =>
    have hplace : rank / factorial length < unused.length := by
      rw [hlen, Nat.div_lt_iff_lt_mul (factorial_pos length)]
      exact hrank
    have hget := List.getElem?_eq_getElem hplace
    obtain ⟨rest, hrest⟩ := ih (length_eraseIdx_of_getElem? hget hlen)
      (Nat.mod_lt rank (factorial_pos length))
    exact ⟨_, unrankFrom_succ_eq_some_iff.mpr ⟨_, rest, hget, hrest, rfl⟩⟩

/-- What is left after a slot was taken from a list without repetitions. -/
private theorem mem_eraseIdx_of_getElem? {unused : List UInt8} (hnodup : unused.Nodup)
    {slot other : UInt8} {place : ℕ} (h : unused[place]? = some slot) :
    other ∈ unused.eraseIdx place ↔ other ∈ unused ∧ other ≠ slot := by
  obtain ⟨hplace, rfl⟩ := List.getElem?_eq_some_iff.mp h
  rw [List.mem_eraseIdx_iff_getElem]
  constructor
  · rintro ⟨i, hi, hne, rfl⟩
    exact ⟨List.getElem_mem hi, fun heq => hne ((List.Nodup.getElem_inj_iff hnodup).mp heq)⟩
  · rintro ⟨hmem, hne⟩
    obtain ⟨i, hi, rfl⟩ := List.getElem_of_mem hmem
    exact ⟨i, hi, fun heq => hne (by simp only [heq]), rfl⟩

/-- A list has a rank exactly when it takes unused slots only, and none of them twice. -/
theorem exists_rankFrom_iff {unused slots : List UInt8} (hnodup : unused.Nodup) :
    (∃ rank, rankFrom unused slots = some rank) ↔ slots.Nodup ∧ slots ⊆ unused := by
  induction slots generalizing unused with
  | nil => exact ⟨fun _ => ⟨List.nodup_nil, List.nil_subset _⟩, fun _ => ⟨0, rfl⟩⟩
  | cons slot rest ih =>
    constructor
    · rintro ⟨rank, h⟩
      obtain ⟨place, behind, hplace, hbehind, -⟩ := rankFrom_cons_eq_some_iff.mp h
      have hget := getElem?_of_idxOf? hplace
      obtain ⟨hrest, hsub⟩ := (ih (hnodup.eraseIdx place)).mp ⟨behind, hbehind⟩
      have hleft : ∀ other ∈ rest, other ∈ unused ∧ other ≠ slot := fun other hother =>
        (mem_eraseIdx_of_getElem? hnodup hget).mp (hsub hother)
      refine ⟨List.nodup_cons.mpr ⟨fun hmem => (hleft slot hmem).2 rfl, hrest⟩, ?_⟩
      exact List.cons_subset.mpr ⟨List.mem_of_getElem? hget, fun other hother => (hleft other hother).1⟩
    · rintro ⟨hslots, hsub⟩
      obtain ⟨hnot, hrest⟩ := List.nodup_cons.mp hslots
      obtain ⟨place, hget⟩ := List.getElem?_of_mem (hsub List.mem_cons_self)
      have hsub' : rest ⊆ unused.eraseIdx place := fun other hother =>
        (mem_eraseIdx_of_getElem? hnodup hget).mpr
          ⟨hsub (List.mem_cons_of_mem slot hother), fun heq => hnot (heq ▸ hother)⟩
      obtain ⟨behind, hbehind⟩ := (ih (hnodup.eraseIdx place)).mpr ⟨hrest, hsub'⟩
      exact ⟨_, rankFrom_cons_eq_some_iff.mpr
        ⟨place, behind, idxOf?_of_getElem? hnodup hget, hbehind, rfl⟩⟩

/-- The slots below `n` in order; a byte holds each of them. -/
theorem mem_identity {n : ℕ} (hn : n ≤ UInt8.size) {slot : UInt8} :
    slot ∈ identity n ↔ slot.toNat < n := by
  simp only [identity, List.mem_map, List.mem_range]
  constructor
  · rintro ⟨i, hi, rfl⟩
    rwa [UInt8.toNat_ofNat_of_lt' (Nat.lt_of_lt_of_le hi hn)]
  · intro h
    exact ⟨slot.toNat, h, UInt8.ofNat_toNat⟩

/-- The slots below a number that bytes can count are all different. -/
theorem nodup_identity {n : ℕ} (hn : n ≤ UInt8.size) : (identity n).Nodup := by
  refine List.Nodup.map_on (fun i hi j hj heq => ?_) List.nodup_range
  have hi' := Nat.lt_of_lt_of_le (List.mem_range.mp hi) hn
  have hj' := Nat.lt_of_lt_of_le (List.mem_range.mp hj) hn
  rw [← UInt8.toNat_ofNat_of_lt' hi', heq, UInt8.toNat_ofNat_of_lt' hj']

/-- There are as many slots below a number as it says. -/
@[simp] theorem length_identity (n : ℕ) : (identity n).length = n := by
  simp [identity]

/-- A permutation holds no slot twice and none from its length on. -/
theorem isPermutation_iff {slots : List UInt8} :
    Formula.isPermutation slots = true ↔
      slots.Nodup ∧ ∀ slot ∈ slots, slot.toNat < slots.length := by
  simp [Formula.isPermutation, and_comm]

/-- A permutation is a rearrangement of the slots below its length. -/
theorem isPermutation_iff_perm {slots : List UInt8} (hlen : slots.length ≤ UInt8.size) :
    Formula.isPermutation slots = true ↔ slots.Perm (identity slots.length) := by
  rw [isPermutation_iff]
  constructor
  · rintro ⟨hnodup, hlt⟩
    have hsub : slots ⊆ identity slots.length := fun slot hslot =>
      (mem_identity hlen).mpr (hlt slot hslot)
    exact (List.subperm_of_subset hnodup hsub).perm_of_length_le (Nat.le_of_eq (length_identity _))
  · intro hperm
    refine ⟨hperm.nodup_iff.mpr (nodup_identity hlen), fun slot hslot => ?_⟩
    exact (mem_identity hlen).mp (hperm.subset hslot)

/-- Permutations that can be ranked have fewer slots than there are bytes. -/
theorem maxLength_le : maxLength ≤ UInt8.size := by decide

/-- Ranking succeeds when the list is short enough and the walk over it succeeds. -/
theorem rank_eq_ok_iff {slots : List UInt8} {rank : ℕ} :
    Permutation.rank slots = .ok rank ↔
      slots.length ≤ maxLength ∧ rankFrom (identity slots.length) slots = some rank := by
  unfold Permutation.rank
  split
  · next hlong => exact ⟨fun h => (nomatch h), fun h => absurd h.1 (Nat.not_le_of_lt hlong)⟩
  · next hshort =>
    split
    · next found hfound => simp [hfound, Nat.le_of_not_lt hshort]
    · next hnone => simp [hnone]

/-- The lists with a rank are the permutations that are short enough. -/
theorem exists_rank_iff {slots : List UInt8} :
    (∃ rank, Permutation.rank slots = .ok rank) ↔
      slots.length ≤ maxLength ∧ Formula.isPermutation slots = true := by
  simp only [rank_eq_ok_iff, exists_and_left]
  refine and_congr_right fun hlen => ?_
  have hsize := Nat.le_trans hlen maxLength_le
  rw [exists_rankFrom_iff (nodup_identity hsize), isPermutation_iff]
  exact and_congr_right fun _ => forall₂_congr fun slot _ => mem_identity hsize

/-- The rank of a permutation of `n` slots is below `n!`. -/
theorem rank_lt {slots : List UInt8} {rank : ℕ} (h : Permutation.rank slots = .ok rank) :
    rank < factorial slots.length :=
  rankFrom_lt (rank_eq_ok_iff.mp h).2 (length_identity _)

/-- The permutation with the rank of a permutation is that permutation. -/
theorem unrank_rank {slots : List UInt8} {rank : ℕ} (h : Permutation.rank slots = .ok rank) :
    unrank rank slots.length = .ok slots := by
  obtain ⟨hlen, hfrom⟩ := rank_eq_ok_iff.mp h
  have hlt := rank_lt h
  rw [unrank, if_neg (by omega), unrankFrom_rankFrom hfrom (length_identity _)]

/-- What is found for a rank is a permutation of the wanted length with that rank. -/
theorem rank_unrank {slots : List UInt8} {rank n : ℕ} (h : unrank rank n = .ok slots) :
    slots.length = n ∧ Permutation.rank slots = .ok rank := by
  unfold unrank at h
  split at h
  · cases h
  · next hrange =>
    split at h
    · next found hfound =>
      cases h
      have hn : n ≤ maxLength := by omega
      obtain ⟨hlen, hfrom⟩ := rankFrom_unrankFrom (nodup_identity (Nat.le_trans hn maxLength_le))
        hfound (by omega)
      refine ⟨hlen, rank_eq_ok_iff.mpr ⟨hlen ▸ hn, ?_⟩⟩
      rw [hlen, hfrom]
    · cases h

/-- Every number below `n!` is the rank of a permutation of `n` slots, and no other number is. -/
theorem exists_unrank_iff {rank n : ℕ} :
    (∃ slots, unrank rank n = .ok slots) ↔ n ≤ maxLength ∧ rank < factorial n := by
  unfold unrank
  split
  · next hrange => exact ⟨fun ⟨_, h⟩ => (nomatch h), fun h => by omega⟩
  · next hrange =>
    have hrank : rank < factorial n := by omega
    obtain ⟨slots, hslots⟩ := exists_unrankFrom (length_identity n) hrank
    rw [hslots]
    exact ⟨fun _ => by omega, fun _ => ⟨slots, rfl⟩⟩

end Permutation

end Formulary
