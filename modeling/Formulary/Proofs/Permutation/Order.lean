import Mathlib.Data.Set.Card
import Formulary.Proofs.Permutation

/-!
# Ranks in lexicographic order

The slots that are still unused stand in increasing order, so the place of a slot among them is the
number of smaller ones. Of two arrangements that differ in their first slot the one with the smaller
slot therefore has the smaller rank, because what follows adds less than one place to it. So ranks are
in lexicographic order, and as they run through all numbers up to the number of arrangements, the rank
of a permutation is the number of permutations before it.

A rank can also be computed with marks on the slots that are used, adding up from the left. Each product
and each sum on the way is at most the rank, and so fits a machine word: twenty slots are few enough.
-/

namespace Formulary.Permutation

variable {unused slots others : List UInt8} {rank rank' : ℕ}

/-- Of two unused slots the smaller one stands first. -/
theorem place_lt_place (hsorted : unused.Pairwise (· < ·)) {slot slot' : UInt8} {place place' : ℕ}
    (hplace : unused[place]? = some slot) (hplace' : unused[place']? = some slot')
    (hlt : slot < slot') : place < place' := by
  obtain ⟨hp, rfl⟩ := List.getElem?_eq_some_iff.mp hplace
  obtain ⟨hp', rfl⟩ := List.getElem?_eq_some_iff.mp hplace'
  by_contra hnot
  rcases Nat.lt_or_eq_of_le (Nat.le_of_not_lt hnot) with hback | rfl
  · have hsmaller := List.pairwise_iff_getElem.mp hsorted place' place hp' hp hback
    exact UInt8.lt_irrefl _ (UInt8.lt_trans hlt hsmaller)
  · exact UInt8.lt_irrefl _ hlt

/-- Of two arrangements of the unused slots the one that comes first in lexicographic order has the
smaller rank. -/
theorem rankFrom_lt_rankFrom (hsorted : unused.Pairwise (· < ·)) (hlen : unused.length = slots.length)
    (hlen' : unused.length = others.length) (h : rankFrom unused slots = some rank)
    (h' : rankFrom unused others = some rank') (hlt : slots < others) : rank < rank' := by
  induction slots generalizing unused others rank rank' with
  | nil =>
    obtain rfl := List.length_eq_zero_iff.mp (hlen'.symm.trans hlen)
    exact absurd hlt (List.not_lt_nil _)
  | cons slot rest ih =>
    cases others with
    | nil => exact absurd hlt (List.not_lt_nil _)
    | cons slot' rest' =>
      have hrest : rest.length = rest'.length := Nat.succ.inj (hlen.symm.trans hlen')
      obtain ⟨place, behind, hplace, hbehind, rfl⟩ := rankFrom_cons_eq_some_iff.mp h
      obtain ⟨place', behind', hplace', hbehind', rfl⟩ := rankFrom_cons_eq_some_iff.mp h'
      have hget := getElem?_of_idxOf? hplace
      have hlength : (unused.eraseIdx place).length = rest.length :=
        length_eraseIdx_of_getElem? hget hlen
      rcases List.cons_lt_cons_iff.mp hlt with hfirst | ⟨rfl, hbefore⟩
      · have hplaces := place_lt_place hsorted hget (getElem?_of_idxOf? hplace') hfirst
        calc place * factorial rest.length + behind
            < place * factorial rest.length + factorial rest.length :=
              Nat.add_lt_add_left (rankFrom_lt hbehind hlength) _
          _ = (place + 1) * factorial rest.length := (Nat.succ_mul _ _).symm
          _ ≤ place' * factorial rest.length := Nat.mul_le_mul_right _ hplaces
          _ = place' * factorial rest'.length := by rw [hrest]
          _ ≤ place' * factorial rest'.length + behind' := Nat.le_add_right _ _
      · obtain rfl : place = place' := Option.some.inj (hplace.symm.trans hplace')
        have hsorted' := hsorted.sublist (List.eraseIdx_sublist unused place)
        have hbehinds := ih hsorted' hlength (hlength.trans hrest) hbehind hbehind' hbefore
        rw [← hrest]
        exact Nat.add_lt_add_left hbehinds _

/-- The slots below a number stand in increasing order. -/
theorem sorted_identity {n : ℕ} (hn : n ≤ UInt8.size) : (identity n).Pairwise (· < ·) := by
  unfold identity
  rw [List.pairwise_map]
  refine List.Pairwise.imp_of_mem (fun {i j} hi hj hlt => ?_) List.pairwise_lt_range
  have hi' := Nat.lt_of_lt_of_le (List.mem_range.mp hi) hn
  have hj' := Nat.lt_of_lt_of_le (List.mem_range.mp hj) hn
  rw [UInt8.lt_iff_toNat_lt, UInt8.toNat_ofNat_of_lt' hi', UInt8.toNat_ofNat_of_lt' hj']
  exact hlt

/-- Ranks of permutations of one length are in lexicographic order. -/
theorem lt_iff_rank_lt (h : Permutation.rank slots = .ok rank) (h' : Permutation.rank others = .ok rank')
    (hlen : slots.length = others.length) : slots < others ↔ rank < rank' := by
  obtain ⟨hle, hfrom⟩ := rank_eq_ok_iff.mp h
  obtain ⟨-, hfrom'⟩ := rank_eq_ok_iff.mp h'
  have hsorted := sorted_identity (Nat.le_trans hle maxLength_le)
  rw [← hlen] at hfrom'
  have hlength := length_identity slots.length
  constructor
  · exact rankFrom_lt_rankFrom hsorted hlength (hlength.trans hlen) hfrom hfrom'
  · intro hrank
    by_contra hnot
    by_cases hback : others < slots
    · have hranks :=
        rankFrom_lt_rankFrom hsorted (hlength.trans hlen) hlength hfrom' hfrom hback
      omega
    · obtain rfl := List.le_antisymm (List.not_lt.mp hback) (List.not_lt.mp hnot)
      rw [hfrom, Option.some.injEq] at hfrom'
      omega

/-- The lists with a rank are the permutations that are short enough. -/
theorem exists_rank_iff_perm :
    (∃ rank, Permutation.rank slots = .ok rank) ↔
      slots.length ≤ maxLength ∧ slots.Perm (identity slots.length) := by
  rw [exists_rank_iff]
  exact and_congr_right fun hle => isPermutation_iff_perm (Nat.le_trans hle maxLength_le)

/-- The permutation with a rank; no slots if there is none. -/
def permutationAt (n rank : ℕ) : List UInt8 :=
  (unrank rank n).toOption.getD []

/-- The permutation at a rank is the one that unranking gives. -/
theorem permutationAt_eq {n : ℕ} (h : unrank rank n = .ok slots) : permutationAt n rank = slots := by
  rw [permutationAt, h]
  rfl

/-- The permutations before another one are those with smaller ranks. -/
theorem before_eq_image (h : Permutation.rank slots = .ok rank) :
    {other : List UInt8 | other.Perm (identity slots.length) ∧ other < slots} =
      permutationAt slots.length '' Finset.range rank := by
  have hle := (rank_eq_ok_iff.mp h).1
  ext other
  rw [Set.mem_ofPred_eq, Set.mem_image]
  constructor
  · rintro ⟨hperm, hlt⟩
    have hlength : other.length = slots.length := hperm.length_eq.trans (length_identity _)
    rw [← hlength] at hle hperm ⊢
    obtain ⟨smaller, hsmaller⟩ := exists_rank_iff_perm.mpr ⟨hle, hperm⟩
    exact ⟨smaller, Finset.mem_coe.mpr (Finset.mem_range.mpr ((lt_iff_rank_lt hsmaller h hlength).mp hlt)),
      permutationAt_eq (unrank_rank hsmaller)⟩
  · rintro ⟨smaller, hmem, rfl⟩
    have hsmaller := Finset.mem_range.mp (Finset.mem_coe.mp hmem)
    obtain ⟨found, hfound⟩ := exists_unrank_iff.mpr ⟨hle, Nat.lt_trans hsmaller (rank_lt h)⟩
    obtain ⟨hlength, hranked⟩ := rank_unrank hfound
    rw [permutationAt_eq hfound, ← hlength]
    exact ⟨(exists_rank_iff_perm.mp ⟨smaller, hranked⟩).2,
      (lt_iff_rank_lt hranked h hlength).mpr hsmaller⟩

/-- Different ranks belong to different permutations. -/
theorem injOn_permutationAt {n : ℕ} (hn : n ≤ maxLength) (hrank : rank ≤ factorial n) :
    Set.InjOn (permutationAt n) (Finset.range rank) := by
  intro first hfirst second hsecond heq
  have hfirst := Nat.lt_of_lt_of_le (Finset.mem_range.mp (Finset.mem_coe.mp hfirst)) hrank
  have hsecond := Nat.lt_of_lt_of_le (Finset.mem_range.mp (Finset.mem_coe.mp hsecond)) hrank
  obtain ⟨slots, hslots⟩ := exists_unrank_iff.mpr ⟨hn, hfirst⟩
  obtain ⟨others, hothers⟩ := exists_unrank_iff.mpr ⟨hn, hsecond⟩
  rw [permutationAt_eq hslots, permutationAt_eq hothers] at heq
  subst heq
  exact Except.ok.inj ((rank_unrank hslots).2.symm.trans (rank_unrank hothers).2)

/-- The rank of a permutation is the number of permutations before it. -/
theorem encard_before (h : Permutation.rank slots = .ok rank) :
    {other : List UInt8 | other.Perm (identity slots.length) ∧ other < slots}.encard = rank := by
  have hinjective := injOn_permutationAt (rank_eq_ok_iff.mp h).1 (Nat.le_of_lt (rank_lt h))
  rw [before_eq_image h, hinjective.encard_image, Set.encard_coe_eq_coe_finsetCard,
    Finset.card_range]

/-- A number that fits a machine word; none if it does not. -/
def inWord (n : ℕ) : Option ℕ :=
  if n < 2 ^ 64 then some n else none

/-- A number below `2 ^ 64` is in a word. -/
theorem inWord_eq_some {n : ℕ} (h : n < 2 ^ 64) : inWord n = some n :=
  if_pos h

/-- The number of arrangements as a product from one on, where each product has to fit a machine
word. -/
def factorialInWord : ℕ → Option ℕ
  | 0 => some 1
  | n + 1 => do
    let product ← factorialInWord n
    inWord ((n + 1) * product)

/-- The number of slots below a slot that are not used. -/
def unusedBelow (used : List UInt8) (slot : UInt8) : ℕ :=
  ((identity slot.toNat).filter (· ∉ used)).length

/-- The rank added up from the left, with the slots that are used so far and the sum so far. Each weight,
each product and each sum has to fit a machine word. -/
def rankInWord (used : List UInt8) (total : ℕ) : List UInt8 → Option ℕ
  | [] => some total
  | slot :: rest => do
    let weight ← factorialInWord rest.length
    let term ← inWord (unusedBelow used slot * weight)
    let total ← inWord (total + term)
    rankInWord (slot :: used) total rest

/-- The numbers of arrangements of up to twenty slots fit a machine word. -/
theorem factorial_lt_word {n : ℕ} (hn : n ≤ maxLength) : factorial n < 2 ^ 64 :=
  Nat.lt_of_le_of_lt (factorial_le_factorial hn) (by decide)

/-- The factorials of all lengths that can be ranked are in a word. -/
theorem factorialInWord_eq {n : ℕ} (hn : n ≤ maxLength) : factorialInWord n = some (factorial n) := by
  induction n with
  | zero => rfl
  | succ n ih =>
    rw [factorialInWord, ih (Nat.le_of_succ_le hn)]
    exact inWord_eq_some (factorial_lt_word hn)

/-- The place of a slot among the unused ones is the number of unused slots below it. -/
theorem idxOf?_unused {n : ℕ} (hn : n ≤ UInt8.size) {used : List UInt8} {slot : UInt8}
    (hslot : slot.toNat < n) (hunused : slot ∉ used) :
    ((identity n).filter (· ∉ used)).idxOf? slot = some (unusedBelow used slot) := by
  obtain ⟨more, rfl⟩ : ∃ more, n = slot.toNat + (more + 1) := ⟨n - slot.toNat - 1, by omega⟩
  have hidentity : identity (slot.toNat + (more + 1)) = identity slot.toNat ++
      slot :: (List.range more).map fun i => UInt8.ofNat (slot.toNat + (i + 1)) := by
    unfold identity
    rw [List.range_add, List.map_append, List.range_succ_eq_map]
    simp
  apply idxOf?_of_getElem? ((nodup_identity hn).filter _)
  rw [hidentity, List.filter_append, List.filter_cons_of_pos (by simpa using hunused), unusedBelow,
    List.getElem?_append_right (Nat.le_refl _), Nat.sub_self]
  rfl

/-- Without the slot at its place, the unused slots are those that are not used together with it. -/
theorem eraseIdx_unused {n : ℕ} (hn : n ≤ UInt8.size) {used : List UInt8} {slot : UInt8} {place : ℕ}
    (hplace : ((identity n).filter (· ∉ used)).idxOf? slot = some place) :
    ((identity n).filter (· ∉ used)).eraseIdx place = (identity n).filter (· ∉ slot :: used) := by
  have herase := List.erase_eq_eraseIdx ((identity n).filter (· ∉ used)) slot
  rw [hplace] at herase
  dsimp only at herase
  rw [← herase, ((nodup_identity hn).filter _).erase_eq_filter, List.filter_filter]
  refine List.filter_congr fun other _ => ?_
  by_cases hother : other = slot
  · simp [hother]
  · simp [hother]

/-- Added up from the left, the rank of an arrangement of the unused slots is added to the sum so far,
and no step on the way leaves the machine word if the last sum does not. -/
theorem rankInWord_eq {n total : ℕ} (hn : n ≤ UInt8.size) {used : List UInt8}
    (h : rankFrom ((identity n).filter (· ∉ used)) slots = some rank)
    (hlen : slots.length ≤ maxLength) (hfits : total + rank < 2 ^ 64) :
    rankInWord used total slots = some (total + rank) := by
  induction slots generalizing used total rank with
  | nil =>
    cases h
    rfl
  | cons slot rest ih =>
    obtain ⟨place, behind, hplace, hbehind, rfl⟩ := rankFrom_cons_eq_some_iff.mp h
    have hmem := List.mem_of_getElem? (getElem?_of_idxOf? hplace)
    obtain ⟨hslot, hunused⟩ := List.mem_filter.mp hmem
    have hbelow : place = unusedBelow used slot := by
      have hfound := idxOf?_unused hn ((mem_identity hn).mp hslot) (by simpa using hunused)
      exact Option.some.inj (hplace.symm.trans hfound)
    rw [eraseIdx_unused hn hplace] at hbehind
    have hrest : rest.length ≤ maxLength := Nat.le_of_succ_le hlen
    have hterm : place * factorial rest.length < 2 ^ 64 := by omega
    have hsum : total + place * factorial rest.length < 2 ^ 64 := by omega
    rw [rankInWord, factorialInWord_eq hrest]
    simp only [Option.bind_eq_bind, Option.bind_some, ← hbelow, inWord_eq_some hterm,
      inWord_eq_some hsum]
    rw [ih hbehind hrest (by omega), Nat.add_assoc]

/-- The rank of a permutation can be computed in a machine word. -/
theorem rankInWord_of_rank (h : Permutation.rank slots = .ok rank) :
    rankInWord [] 0 slots = some rank := by
  obtain ⟨hle, hfrom⟩ := rank_eq_ok_iff.mp h
  have hall : (identity slots.length).filter (· ∉ []) = identity slots.length :=
    List.filter_eq_self.mpr (by simp)
  have hfits : 0 + rank < 2 ^ 64 := by
    rw [Nat.zero_add]
    exact Nat.lt_trans (rank_lt h) (factorial_lt_word hle)
  rw [rankInWord_eq (Nat.le_trans hle maxLength_le) (hall.symm ▸ hfrom) hle hfits, Nat.zero_add]

/-- Ranking is the isomorphism between the permutations of up to twenty slots in lexicographic order and
the numbers below their number. Exactly the permutations have ranks; a rank is the number of
permutations before, smaller ranks belong to permutations that come before, and added up from the left
in machine words the rank is the same, without a step that does not fit. Exactly the numbers below
`n!` are ranks; the walk back then finds a slot at every place that it asks for, and leads to the
permutation with that rank. -/
theorem rank_lexicographic :
    (∀ slots : List UInt8, slots.length ≤ 20 →
      ((∃ rank, Permutation.rank slots = .ok rank) ↔ slots.Perm (identity slots.length))) ∧
    (∀ slots rank, Permutation.rank slots = .ok rank →
      {other : List UInt8 | other.Perm (identity slots.length) ∧ other < slots}.encard = rank ∧
        rank < factorial slots.length ∧ rankInWord [] 0 slots = some rank ∧
        unrank rank slots.length = .ok slots) ∧
    (∀ slots others rank rank', Permutation.rank slots = .ok rank →
      Permutation.rank others = .ok rank' → slots.length = others.length →
      (slots < others ↔ rank < rank')) ∧
    ∀ n ≤ 20, factorialInWord n = some (factorial n) ∧
      ∀ rank, ((∃ slots, unrank rank n = .ok slots) ↔ rank < factorial n) ∧
        (rank < factorial n → ∃ slots, unrankFrom (identity n) n rank = some slots ∧
          unrank rank n = .ok slots ∧ Permutation.rank slots = .ok rank) := by
  refine ⟨fun slots hle => ?_, fun slots rank h => ?_, fun _ _ _ _ h h' hlen => lt_iff_rank_lt h h' hlen,
    fun n hn => ⟨factorialInWord_eq hn, fun rank => ⟨?_, fun hrank => ?_⟩⟩⟩
  · rw [exists_rank_iff_perm]
    exact and_iff_right hle
  · exact ⟨encard_before h, rank_lt h, rankInWord_of_rank h, unrank_rank h⟩
  · rw [exists_unrank_iff]
    exact and_iff_right hn
  · obtain ⟨walked, hwalked⟩ := exists_unrankFrom (length_identity n) hrank
    obtain ⟨slots, hslots⟩ := exists_unrank_iff.mpr ⟨hn, hrank⟩
    obtain ⟨hlength, hranked⟩ := rank_unrank hslots
    have hback := unrankFrom_rankFrom (rank_eq_ok_iff.mp hranked).2 (length_identity _)
    rw [hlength] at hback
    exact ⟨slots, hback, hslots, hranked⟩

/-- The last permutation of twenty slots has all others before it, and its rank is added up in machine
words nevertheless. -/
theorem rank_lexicographic_twentySlots :
    let last : List UInt8 := (identity 20).reverse
    Permutation.rank last = .ok 2432902008176639999 ∧
      {other : List UInt8 | other.Perm (identity 20) ∧ other < last}.encard = 2432902008176639999 ∧
      rankInWord [] 0 last = some 2432902008176639999 ∧
      unrank 2432902008176639999 20 = .ok last ∧
      ∃ slots, unrankFrom (identity 20) 20 2432902008176639998 = some slots ∧ slots < last := by
  intro last
  have hlast : Permutation.rank last = .ok 2432902008176639999 := by decide +kernel
  obtain ⟨-, hrank, horder, hunrank⟩ := rank_lexicographic
  obtain ⟨hbefore, -, hword, hback⟩ := hrank last _ hlast
  obtain ⟨-, hwalk⟩ := hunrank 20 (by decide)
  obtain ⟨slots, hslots, hfound, hranked⟩ := (hwalk 2432902008176639998).2 (by decide)
  have hlength : slots.length = last.length := (rank_unrank hfound).1
  exact ⟨hlast, hbefore, hword, hback, slots, hslots,
    (horder slots last _ _ hranked hlast hlength).mpr (by decide)⟩

end Formulary.Permutation
