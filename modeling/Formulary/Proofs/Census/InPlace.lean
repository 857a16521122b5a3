import Formulary.Proofs.Census.ExactDivision
import Formulary.Proofs.Census.Recurrence

/-!
# Counting in place

The counts for `2, …, n` slots can be made one after the other with four arrays: the counts, the
factorials, the ways to give roles to groups, and one array in which the sizes of the groups are filled
in. Each list of sizes adds to the counts at `n` as soon as it stands there, and nothing else is kept.

Every step is checked. What lies outside of an array is not read or written, a difference is not below
zero, and a division leaves no remainder. A counter that has counted for up to `n` slots holds the counts
for all of them, which is what the lists of sizes for one more slot ask for. So by induction on the
number of slots no check fails, the counts are those of `tableUpTo`, and the last number is `count`.
-/

namespace Formulary.Census

open Finset Nat

variable {α σ : Type}

/-- A sequence from its first place on, as far as `n`: each entry comes from the one before it. -/
def sequence? (next : (place before : ℕ) → ℕ) (n : ℕ) : Option (Array ℕ) :=
  (List.range' 2 (n - 1)).foldlM (fun entries place => do
    let previous ← minus? place 1
    let before ← entries[previous]?
    write? entries place (next place before)) (Array.replicate (n + 1) 1)

/-- The product over the groups of one of the counts for their sizes. -/
def productOver? (counts : Array Counts) (count : Counts → ℕ) (parts : Array ℕ) : Option ℕ :=
  parts.toList.foldlM (fun product part => do
    let entry ← counts[part]?
    pure (product * count entry)) 1

/-- Add the formulas whose operands are groups of the given sizes to the counts for `n` slots. -/
def accumulate? (factorials signs : Array ℕ) (n : ℕ) (parts : Array ℕ) (counts : Array Counts) :
    Option (Array Counts) := do
  let ways ← distributions? factorials n parts
  let sign ← signs[parts.size]?
  let sums ← productOver? counts Counts.sums parts
  let plainSums ← productOver? counts Counts.plainSums parts
  let others ← minus? parts.size 1
  let half ← signs[others]?
  let products ← productOver? counts Counts.products parts
  let plainProducts ← productOver? counts Counts.plainProducts parts
  let total ← counts[n]?
  write? counts n (total.add
    { products := ways * sign * sums
      sums := ways * (half + 1) * products
      plainProducts := ways * sign * plainSums
      plainSums := ways * plainProducts })

/-- What is kept between the counts for one number of slots and the next: the counts, the factorials,
the ways to give groups one of two roles but not all the second one, and the places for the sizes. -/
structure Counter where
  counts : Array Counts
  factorials : Array ℕ
  signs : Array ℕ
  sizes : Array ℕ

/-- A counter for at most `most` slots that has only a single one counted. -/
def Counter.make? (most : ℕ) : Option Counter := do
  let factorials ← sequence? (fun place before => before * place) most
  let signs ← sequence? (fun _ before => before * 2 + 1) most
  let counts := (Array.replicate (most + 1) ⟨0, 0, 0, 0⟩).setIfInBounds 1 Counts.single
  pure { counts, factorials, signs, sizes := Array.replicate (most + 1) 0 }

/-- Count the formulas over `n` slots, from the counts for fewer. -/
def Counter.count? (c : Counter) (n : ℕ) : Option (ℕ × Counter) := do
  let cleared ← write? c.counts n ⟨0, 0, 0, 0⟩
  let (sizes, counts) ← fillAll (accumulate? c.factorials c.signs n) n (c.sizes, cleared)
  let total ← counts[n]?
  let number ← minus? (2 * total.products + 2 * total.sums) (total.plainProducts + total.plainSums)
  pure (number, { c with counts, sizes })

/-- A counter for at most `most` slots that has counted for `2, …, n` slots in turn, and the last
number. -/
def Counter.upTo? (most n : ℕ) : Option (ℕ × Counter) := do
  let c ← Counter.make? most
  (List.range' 2 (n - 1)).foldlM (fun last size => last.2.count? size) (0, c)

/-- A loop over `2, …, n` leads from what holds for one to what holds for `n`, if each step leads from
one number to the next. -/
theorem exists_foldlM_range' {step : σ → ℕ → Option σ} (Holds : ℕ → σ → Prop) {n : ℕ} {start : σ}
    (hn : 1 ≤ n) (hstart : Holds 1 start)
    (hstep : ∀ i s, 1 ≤ i → i < n → Holds i s → ∃ s', step s (i + 1) = some s' ∧ Holds (i + 1) s') :
    ∃ s, (List.range' 2 (n - 1)).foldlM step start = some s ∧ Holds n s := by
  induction n, hn using Nat.le_induction with
  | base => exact ⟨start, rfl, hstart⟩
  | succ n hn ih =>
    obtain ⟨s, hrun, hs⟩ := ih fun i s hpos hlt => hstep i s hpos (by omega)
    obtain ⟨s', hlast, hs'⟩ := hstep n s hn (by omega) hs
    have hrange : List.range' 2 (n + 1 - 1) = List.range' 2 (n - 1) ++ [n + 1] := by
      rw [show n + 1 - 1 = n - 1 + 1 by omega, List.range'_concat, show 2 + 1 * (n - 1) = n + 1 by omega]
    refine ⟨s', ?_, hs'⟩
    rw [hrange, List.foldlM_append, hrun]
    simp [hlast]

/-- A sequence that begins with one and goes on from each value to the next is listed as it is. -/
theorem exists_sequence? (next : ℕ → ℕ → ℕ) (value : ℕ → ℕ) (hone : value 1 = 1)
    (hnext : ∀ i, 1 ≤ i → next (i + 1) (value i) = value (i + 1)) {n : ℕ} (hn : 1 ≤ n) :
    ∃ entries, sequence? next n = some entries ∧ Tabulates entries value n := by
  have hrun : ∃ entries, sequence? next n = some entries ∧
      entries.size = n + 1 ∧ Tabulates entries value n := by
    refine exists_foldlM_range' (fun m entries => entries.size = n + 1 ∧ Tabulates entries value m) hn ?_ ?_
    · refine ⟨by simp, fun i hpos hle => ?_⟩
      obtain rfl : i = 1 := by omega
      rw [Array.getElem?_replicate, if_pos (by omega), hone]
    · rintro i entries hpos hlt ⟨hsize, hentries⟩
      refine ⟨entries.setIfInBounds (i + 1) (value (i + 1)), ?_, by simp [hsize], fun j hj hle => ?_⟩
      · rw [minus?_of_le (by omega), Option.bind_eq_bind, Option.bind_some, Nat.add_sub_cancel,
          hentries i hpos le_rfl, Option.bind_some, hnext i hpos, write?_of_lt _ (by omega)]
      · rw [Array.getElem?_setIfInBounds]
        split_ifs with heq hbound
        · rw [heq]
        · omega
        · exact hentries j hj (by omega)
  obtain ⟨entries, hentries, -, hvalues⟩ := hrun
  exact ⟨entries, hentries, hvalues⟩

/-- There are the counts for up to `n` slots. -/
def Counted (counts : Array Counts) (n : ℕ) : Prop :=
  ∀ i ≤ n, counts[i]? = some (countsAt i)

/-- What is kept in a counter for at most `most` slots that has counted for up to `n`. -/
structure Counter.Holds (c : Counter) (most n : ℕ) : Prop where
  factorials : Tabulates c.factorials Nat.factorial most
  signs : Tabulates c.signs (fun i => 2 ^ i - 1) most
  size_counts : c.counts.size = most + 1
  counted : Counted c.counts n
  size_sizes : c.sizes.size = most + 1

/-- A counter for one slot or more can be made, and has counted a single one. -/
theorem Counter.exists_make? {most : ℕ} (hmost : 1 ≤ most) :
    ∃ c, Counter.make? most = some c ∧ c.Holds most 1 := by
  obtain ⟨factorials, hfactorials, hfactorial⟩ := exists_sequence? (fun place before => before * place)
    Nat.factorial rfl (fun i _ => by rw [Nat.factorial_succ, Nat.mul_comm]) hmost
  have hdouble (i : ℕ) : (2 ^ i - 1) * 2 + 1 = 2 ^ (i + 1) - 1 := by
    have hpos := Nat.one_le_two_pow (n := i)
    rw [pow_succ]
    omega
  obtain ⟨signs, hsigns, hsign⟩ := exists_sequence? (fun _ before => before * 2 + 1)
    (fun i => 2 ^ i - 1) rfl (fun i _ => hdouble i) hmost
  refine ⟨_, by rw [Counter.make?, hfactorials, hsigns]; rfl, hfactorial, hsign, by simp, ?_, by simp⟩
  intro i hi
  rcases (show i = 0 ∨ i = 1 by omega) with rfl | rfl
  · simp
    rfl
  · simp [show 0 < most by omega]
    rfl

/-- The product over groups for whose sizes there are counts. -/
theorem productOver?_eq {counts : Array Counts} {n : ℕ} (hcounts : Counted counts n) (count : Counts → ℕ)
    {sizes : List ℕ} (hsizes : ∀ size ∈ sizes, size ≤ n) :
    productOver? counts count sizes.reverse.toArray = some (productOver (tableUpTo n) count sizes) := by
  have hrun (start : ℕ) (parts : List ℕ) (hparts : ∀ part ∈ parts, part ≤ n) :
      parts.foldlM (fun product part => do
          let entry ← counts[part]?
          pure (product * count entry)) start =
        some (start * (parts.map fun part => count (countsAt part)).prod) := by
    induction parts generalizing start with
    | nil => simp
    | cons part parts ih =>
      rw [List.forall_mem_cons] at hparts
      rw [List.foldlM_cons, hcounts part hparts.1, List.map_cons, List.prod_cons, ← Nat.mul_assoc]
      exact ih _ hparts.2
  rw [productOver?, hrun _ _ (by simpa using hsizes), Nat.one_mul, productOver_tableUpTo count hsizes]
  exact congrArg some ((List.reverse_perm sizes).map _).prod_eq

/-- The counts for up to `n` slots are known, and those for one more are added up. -/
structure Adding (counts : Array Counts) (most n : ℕ) (total : Counts) : Prop where
  size_eq : counts.size = most + 1
  counted : Counted counts n
  total_eq : counts[n + 1]? = some total

/-- If the entry for one more slot is written, the counts before it stay as they were. -/
theorem adding_set {counts : Array Counts} {most n : ℕ} (hsize : counts.size = most + 1)
    (hcounted : Counted counts n) (hmost : n < most) (total : Counts) :
    Adding (counts.setIfInBounds (n + 1) total) most n total := by
  refine ⟨by rw [Array.size_setIfInBounds, hsize], fun i hi => ?_, ?_⟩
  · rw [Array.getElem?_setIfInBounds, if_neg (by omega)]
    exact hcounted i hi
  · rw [Array.getElem?_setIfInBounds_self, if_pos (by omega)]

section Accumulating

variable {factorials signs : Array ℕ} {counts : Array Counts} {most n : ℕ} {total : Counts}
  (hfactorials : Tabulates factorials Nat.factorial most)
  (hsigns : Tabulates signs (fun i => 2 ^ i - 1) most) (hmost : n < most)

include hfactorials hsigns hmost

/-- One list of sizes adds what it stands for. -/
theorem Adding.exists_accumulate? (h : Adding counts most n total) {sizes : List ℕ}
    (hsizes : sizes ∈ groupSizes (n + 1)) :
    ∃ counts', accumulate? factorials signs (n + 1) sizes.reverse.toArray counts = some counts' ∧
      Adding counts' most n (total.add (countsFor (tableUpTo n) (n + 1) sizes)) := by
  obtain ⟨hmany, hdecreasing⟩ := mem_groupSizes_iff.mp hsizes
  have hfew := hdecreasing.length_le
  have hsmall (size : ℕ) (hsize : size ∈ sizes) : size ≤ n :=
    Nat.le_of_lt_succ (lt_of_mem_groupSizes hsizes hsize)
  have hways := distributions?_reverse hfactorials (by omega) hmost hdecreasing
  have hall : signs[sizes.reverse.toArray.size]? = some (roles sizes.length - 1) := by
    rw [List.size_toArray, List.length_reverse]
    exact hsigns sizes.length (by omega) (by omega)
  have hothers : signs[sizes.reverse.toArray.size - 1]? = some (roles (sizes.length - 1) - 1) := by
    rw [List.size_toArray, List.length_reverse]
    exact hsigns (sizes.length - 1) (by omega) (by omega)
  have hsome : roles (sizes.length - 1) - 1 + 1 = roles (sizes.length - 1) :=
    Nat.sub_add_cancel Nat.one_le_two_pow
  refine ⟨_, ?_, adding_set h.size_eq h.counted hmost _⟩
  rw [accumulate?, hways, hall, minus?_of_le (by simp; omega)]
  simp only [Option.bind_eq_bind, Option.bind_some, hothers, hsome, h.total_eq,
    productOver?_eq h.counted _ hsmall, write?_of_lt _ (show n + 1 < counts.size by rw [h.size_eq]; omega)]
  rfl

/-- All lists of sizes together add the counts for one more slot. -/
theorem Adding.exists_accumulateAll (h : Adding counts most n total) {lists : List (List ℕ)}
    (hlists : lists ⊆ groupSizes (n + 1)) :
    ∃ counts', lists.foldlM (visitWith (accumulate? factorials signs (n + 1)) []) counts = some counts' ∧
      Adding counts' most n
        (lists.foldl (fun total sizes => total.add (countsFor (tableUpTo n) (n + 1) sizes)) total) := by
  induction lists generalizing counts total with
  | nil => exact ⟨counts, rfl, h⟩
  | cons sizes lists ih =>
    obtain ⟨hsizes, hlists⟩ := List.cons_subset.mp hlists
    obtain ⟨between, hfirst, hbetween⟩ := h.exists_accumulate? hfactorials hsigns hmost hsizes
    obtain ⟨last, hrest, hlast⟩ := ih hbetween hlists
    refine ⟨last, ?_, hlast⟩
    rw [List.foldlM_cons, visitWith, List.append_nil, hfirst]
    exact hrest

end Accumulating

/-- The four counts for `n` slots as sums over the partitions of the slots into at least two blocks. -/
structure SumsOverGroupings (n : ℕ) : Prop where
  products_eq : (countsAt n).products = ∑ P ∈ groupings (univ : Finset (Fin n)),
    (2 ^ #P.parts - 1) * ∏ block ∈ P.parts, (countsAt block.card).sums
  plainProducts_eq : (countsAt n).plainProducts = ∑ P ∈ groupings (univ : Finset (Fin n)),
    (2 ^ #P.parts - 1) * ∏ block ∈ P.parts, (countsAt block.card).plainSums
  sums_eq : (countsAt n).sums = ∑ P ∈ groupings (univ : Finset (Fin n)),
    2 ^ (#P.parts - 1) * ∏ block ∈ P.parts, (countsAt block.card).products
  plainSums_eq : (countsAt n).plainSums = ∑ P ∈ groupings (univ : Finset (Fin n)),
    ∏ block ∈ P.parts, (countsAt block.card).plainProducts

/-- From two slots on the counts are these sums. -/
theorem sumsOverGroupings {n : ℕ} (hn : 2 ≤ n) : SumsOverGroupings n := by
  have hcard : #(univ : Finset (Fin n)) = n := Finset.card_fin n
  have hmany : 2 ≤ #(univ : Finset (Fin n)) := hn.trans hcard.ge
  have hproducts := products_countsAt hmany
  have hplainProducts := plainProducts_countsAt hmany
  have hsums := sums_countsAt hmany
  have hplainSums := plainSums_countsAt hmany
  rw [hcard] at hproducts hplainProducts hsums hplainSums
  exact ⟨hproducts, hplainProducts, hsums, hplainSums⟩

/-- No more formulas are counted without subtractions than with them, so the total is no less than
zero. -/
theorem plain_le (n : ℕ) : (countsAt n).plainProducts ≤ (countsAt n).products ∧
    (countsAt n).plainSums ≤ (countsAt n).sums := by
  induction n using Nat.strong_induction_on with
  | _ n ih =>
    by_cases hfew : n < 2
    · rcases (show n = 0 ∨ n = 1 by omega) with rfl | rfl
      · exact ⟨le_rfl, le_rfl⟩
      · exact ⟨le_rfl, le_rfl⟩
    · have hless {P : Finpartition (univ : Finset (Fin n))} (hP : P ∈ groupings univ)
          {block : Finset (Fin n)} (hblock : block ∈ P.parts) : block.card < n := by
        simpa using card_lt_card (ssubset_of_mem_groupings hP hblock)
      obtain ⟨hproducts, hplainProducts, hsums, hplainSums⟩ :=
        sumsOverGroupings (show 2 ≤ n by omega)
      rw [hproducts, hplainProducts, hsums, hplainSums]
      constructor
      · refine sum_le_sum fun P hP => Nat.mul_le_mul_left _ (Finset.prod_le_prod' fun block hblock => ?_)
        exact (ih block.card (hless hP hblock)).2
      · refine sum_le_sum fun P hP => ?_
        refine le_trans ?_ (Nat.le_mul_of_pos_left _ (Nat.two_pow_pos _))
        refine Finset.prod_le_prod' fun block hblock => ?_
        exact (ih block.card (hless hP hblock)).1

/-- Once the total is that of the counts for one more slot, they are counted as well. -/
theorem Adding.counted_succ {counts : Array Counts} {most n : ℕ}
    (h : Adding counts most n (countsAt (n + 1))) : Counted counts (n + 1) := by
  intro i hi
  rcases Nat.lt_or_eq_of_le hi with hlt | rfl
  · exact h.counted i (Nat.le_of_lt_succ hlt)
  · exact h.total_eq

/-- The lists of sizes, in the order in which they are made in the array, add up to the counts for one
more slot. -/
theorem Counter.Holds.exists_fillAll {c : Counter} {most n : ℕ} (h : c.Holds most n) (hpos : 1 ≤ n)
    (hmost : n < most) :
    ∃ entries, fillAll (accumulate? c.factorials c.signs (n + 1)) (n + 1)
        (c.sizes, c.counts.setIfInBounds (n + 1) ⟨0, 0, 0, 0⟩) = some entries ∧
      entries.1.size = c.sizes.size ∧ Adding entries.2 most n (countsAt (n + 1)) := by
  have hcleared := adding_set h.size_counts h.counted hmost ⟨0, 0, 0, 0⟩
  obtain ⟨counts, hadded, hcounts⟩ := hcleared.exists_accumulateAll h.factorials h.signs hmost
    (List.Subset.refl (groupSizes (n + 1)))
  have hfill := rel_fillAll (accumulate? c.factorials c.signs (n + 1))
    (c.counts.setIfInBounds (n + 1) ⟨0, 0, 0, 0⟩) (show n + 1 < c.sizes.size by rw [h.size_sizes]; omega)
  rw [hadded] at hfill
  obtain ⟨-, hnone⟩ | ⟨entries, _, hrun, hsome, hsize, rfl⟩ := rel_cases hfill
  · cases hnone
  · cases hsome
    obtain ⟨m, rfl⟩ := Nat.exists_eq_add_of_le' hpos
    refine ⟨entries, hrun, hsize, ?_⟩
    rw [countsAt_eq]
    exact hcounts

/-- With the counts for up to `n` slots at hand, those for one more are made, and their total. -/
theorem Counter.Holds.exists_count? {c : Counter} {most n : ℕ} (h : c.Holds most n) (hpos : 1 ≤ n)
    (hmost : n < most) :
    ∃ after, c.count? (n + 1) = some (count (n + 1), after) ∧ after.Holds most (n + 1) := by
  obtain ⟨entries, hfill, hsize, hadded⟩ := h.exists_fillAll hpos hmost
  obtain ⟨hplainProducts, hplainSums⟩ := plain_le (n + 1)
  have htotal : count (n + 1) = (countsAt (n + 1)).total := by
    obtain ⟨m, rfl⟩ := Nat.exists_eq_add_of_le' hpos
    exact count_add_two m
  refine ⟨{ c with counts := entries.2, sizes := entries.1 }, ?_,
    h.factorials, h.signs, hadded.size_eq, hadded.counted_succ, hsize.trans h.size_sizes⟩
  rw [Counter.count?, write?_of_lt _ (by rw [h.size_counts]; omega)]
  simp only [Option.bind_eq_bind, Option.bind_some, hfill, hadded.total_eq]
  rw [minus?_of_le (by omega), htotal]
  rfl

/-- The counts for `2, …, n` slots are made one after the other. -/
theorem Counter.exists_upTo? {most n : ℕ} (hn : 1 ≤ n) (hmost : n ≤ most) :
    ∃ last, Counter.upTo? most n = some last ∧ last.2.Holds most n := by
  obtain ⟨c, hmake, hstart⟩ := Counter.exists_make? (hn.trans hmost)
  rw [Counter.upTo?, hmake]
  refine exists_foldlM_range' (fun n (last : ℕ × Counter) => last.2.Holds most n) hn hstart ?_
  rintro i ⟨number, c⟩ hpos hlt hc
  obtain ⟨after, hcount, hafter⟩ := hc.exists_count? hpos (by omega)
  exact ⟨(count (i + 1), after), hcount, hafter⟩

/-- The lists of group sizes for `n` slots are all there, each once, and are weighted by the partitions
with blocks of these sizes. -/
structure ListsGroupSizes (n : ℕ) : Prop where
  nodup : (ascendingSizes n).Nodup
  /-- Listed are the lists of at least two sizes in ascending order with the sum `n`. -/
  mem_iff : ∀ parts, parts ∈ ascendingSizes n ↔ 2 ≤ parts.size ∧ parts.toList.sum = n ∧
    (∀ part ∈ parts, 1 ≤ part) ∧ parts.toList.Pairwise (· ≤ ·)
  distributions_eq : ∀ sizes ∈ groupSizes n,
    distributions n sizes = #(withSizes (univ : Finset (Fin n)) sizes)

/-- What a counter does that counts for `n` slots, from the counts for fewer, and what it leaves. -/
structure Counter.CountsNext (before : Counter) (n : ℕ) (after : Counter) : Prop where
  /-- No step leaves the arrays or goes below zero, and the number is the count. -/
  count?_eq : before.count? n = some (count n, after)
  /-- Whatever is done with the lists of sizes, the array is filled in with each of them once. -/
  visits : ∀ (σ : Type) (visit : Array ℕ → σ → Option σ) (state : σ),
    (fillAll visit n (before.sizes, state)).map Prod.snd =
      (ascendingSizes n).foldlM (fun state parts => visit parts state) state
  /-- No division leaves a remainder, and the weight of a list is the number of partitions with blocks
  of these sizes. -/
  distributions?_eq : ∀ parts ∈ ascendingSizes n, distributions? before.factorials n parts =
    some #(withSizes (univ : Finset (Fin n)) parts.toList)
  counts_before : ∀ i < n, before.counts[i]? = some (countsAt i)
  counts_after : ∀ i ≤ n, after.counts[i]? = some (countsAt i)

/-- The lists of group sizes in the order of the array are the lists of at least two sizes. -/
theorem listsGroupSizes (n : ℕ) : ListsGroupSizes n :=
  ⟨nodup_ascendingSizes n, fun _ => mem_ascendingSizes_iff,
    fun _ hsizes => distributions_eq_card_univ (mem_groupSizes_iff.mp hsizes).2⟩

/-- With the counts for up to `n` slots at hand, a counter counts for one more. -/
theorem Counter.Holds.exists_countsNext {c : Counter} {most n : ℕ} (h : c.Holds most n) (hpos : 1 ≤ n)
    (hmost : n < most) : ∃ after, c.CountsNext (n + 1) after := by
  obtain ⟨after, hcount, hafter⟩ := h.exists_count? hpos hmost
  refine ⟨after, hcount, fun σ visit state => ?_, fun parts hparts => ?_,
    fun i hi => h.counted i (Nat.le_of_lt_succ hi), hafter.counted⟩
  · exact fillAll_eq visit state (by rw [h.size_sizes]; omega)
  · obtain ⟨-, hsum, hpos, hordered⟩ := mem_ascendingSizes_iff.mp hparts
    exact distributions?_eq h.factorials n.succ_pos hmost hordered hpos hsum

/-- A counter that has counted for `2, …, n - 1` slots in turn counts for `n` without leaving its arrays
or going below zero. It adds up every list of at least two sizes in ascending order once and nothing
else, weighted by the partitions with blocks of these sizes, for which no division leaves a remainder.
So the four counts it ends with are sums over the partitions into at least two blocks. -/
theorem counts_sums_over_partitions {most n : ℕ} (hn : 2 ≤ n) (hmost : n ≤ most) :
    ∃ (last : ℕ) (before after : Counter),
      Counter.upTo? most (n - 1) = some (last, before) ∧ before.CountsNext n after ∧
      ListsGroupSizes n ∧ SumsOverGroupings n ∧
      (countsAt n).plainProducts + (countsAt n).plainSums ≤
        2 * (countsAt n).products + 2 * (countsAt n).sums := by
  obtain ⟨m, rfl⟩ := Nat.exists_eq_add_of_le' hn
  obtain ⟨⟨last, before⟩, hbefore, hholds⟩ := Counter.exists_upTo? (show 1 ≤ m + 1 by omega)
    (show m + 1 ≤ most by omega)
  obtain ⟨after, hnext⟩ := hholds.exists_countsNext (by omega) (by omega)
  obtain ⟨hlessProducts, hlessSums⟩ := plain_le (m + 2)
  exact ⟨last, before, after, hbefore, hnext, listsGroupSizes _, sumsOverGroupings hn, by omega⟩

/-- With room for six slots the counter comes to the count for four, and two single slots and a pair are
weighted by their six partitions. -/
theorem counts_sums_over_partitions_fourSlots :
    2 ≤ 4 ∧ 4 ≤ 6 ∧ ∃ (last : ℕ) (before after : Counter),
      Counter.upTo? 6 3 = some (last, before) ∧ before.count? 4 = some (1170, after) ∧
      distributions? before.factorials 4 #[1, 1, 2] =
        some #(withSizes (univ : Finset (Fin 4)) ([1, 1, 2] : List ℕ)) := by
  obtain ⟨last, before, after, hbefore, hnext, hlists, -⟩ :=
    counts_sums_over_partitions (show 2 ≤ 4 by decide) (show 4 ≤ 6 by decide)
  have hnumber : count 4 = 1170 := by decide +kernel
  have hcount := hnext.count?_eq
  rw [hnumber] at hcount
  exact ⟨by decide, by decide, last, before, after, hbefore, hcount,
    hnext.distributions?_eq #[1, 1, 2] ((hlists.mem_iff #[1, 1, 2]).mpr (by decide))⟩

end Formulary.Census
