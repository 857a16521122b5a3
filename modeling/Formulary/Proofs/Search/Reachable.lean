import Formulary.Proofs.Numeral.Whole
import Formulary.Proofs.Search.Answers

/-!
# Which integers are reached

A formula reaches an integer if the integer is nearest to its value, halves away from zero, and no
further from it than the tolerance. The search compares in floating-point numbers, and the distance, the
nearest integer and its magnitude are exact there. The bounds of a range are not: a bound that cannot be
represented is moved to a neighbour that can. No integer that is the nearest to a value lies between a
bound and this neighbour, but the neighbour itself may be reached, and above all signed words it is
brought back to the greatest of them. So within a range just the integers are listed that are reached,
with the exception of the greatest signed word, and outside of it only what a bound was moved to.
-/

namespace Formulary

open Float.Model (UnpackedFloat)

namespace Numeral

/-- A rational number is at most a number, which may be infinite. -/
def AtMost (q : ℚ) (x : Float) : Prop :=
  x.isFinite = true ∧ q ≤ exact x ∨ x.toModel.unpack = .infinity .positive

variable {x tolerance : Float}

/-- A finite number is at most another one exactly if what it stands for is. -/
theorem le_iff_atMost (hx : x.isFinite = true) : x ≤ tolerance ↔ AtMost (exact x) tolerance := by
  have hcompare : x ≤ tolerance ↔ _ := le_iff_compare
  unfold AtMost
  cases htolerance : tolerance.toModel.unpack with
  | zero sign =>
    rw [le_iff hx (isFinite_of_zero htolerance)]
    exact ⟨fun hle => Or.inl ⟨isFinite_of_zero htolerance, hle⟩, fun h => (h.resolve_right nofun).2⟩
  | finite sign m e hpos =>
    rw [le_iff hx (isFinite_of_finite htolerance)]
    exact ⟨fun hle => Or.inl ⟨isFinite_of_finite htolerance, hle⟩, fun h => (h.resolve_right nofun).2⟩
  | notANumber =>
    have hnot : tolerance.isFinite = tolerance.toModel.unpack.isFinite := rfl
    rw [hcompare, hnot, htolerance]
    rcases finite_cases hx with ⟨s, hread⟩ | ⟨s, m, e, hm, hread, -⟩
    · rw [hread]
      exact ⟨nofun, fun h => (h.resolve_right nofun).1⟩
    · rw [hread]
      exact ⟨nofun, fun h => (h.resolve_right nofun).1⟩
  | infinity sign =>
    have hnot : tolerance.isFinite = tolerance.toModel.unpack.isFinite := rfl
    rw [hcompare, hnot, htolerance]
    cases sign with
    | positive =>
      rcases finite_cases hx with ⟨s, hread⟩ | ⟨s, m, e, hm, hread, -⟩
      · rw [hread]
        exact ⟨fun _ => Or.inr rfl, fun _ => rfl⟩
      · rw [hread]
        exact ⟨fun _ => Or.inr (by cases s <;> rfl), fun _ => by cases s <;> rfl⟩
    | negative =>
      rcases finite_cases hx with ⟨s, hread⟩ | ⟨s, m, e, hm, hread, -⟩
      · rw [hread]
        exact ⟨nofun, fun h => h.elim (fun h => nomatch h.1) nofun⟩
      · rw [hread]
        exact ⟨by cases s <;> exact nofun, fun h => h.elim (fun h => nomatch h.1) nofun⟩

/-- Two finite numbers whose difference is exact are within a tolerance exactly if the difference is at
most the tolerance. -/
theorem isWithin_iff {y : Float} (hdifference : (x - y).isFinite = true) :
    Search.isWithin tolerance x y = true ↔ AtMost |exact (x - y)| tolerance := by
  obtain ⟨hfinite, hexact⟩ := exact_abs hdifference
  rw [← hexact, ← le_iff_atMost hfinite]
  exact decide_eq_true_iff

end Numeral

namespace Search

open Numeral

section Reaching

variable {tolerance value : Float} {low high n : ℤ}

/-- A bound of a range as the search compares it. -/
def bound (n : ℤ) : ℚ :=
  exact (Float.ofInt n)

/-- A signed word that can be represented is compared as it is. -/
theorem bound_eq (h : |n| ≤ 2 ^ 63) (hn : Representable n) : bound n = n :=
  (finite_ofInt h).2.eq_of_representable hn

/-- The integer that is listed for a value: the nearest one, if it is within the tolerance and between
the bounds as they are compared, brought back to the greatest signed word. -/
theorem reachedInteger_eq_some_iff (hlow : |low| ≤ 2 ^ 63) (hhigh : |high| ≤ 2 ^ 63) :
    reachedInteger tolerance low high value = some n ↔
      value.isFinite = true ∧
      AtMost |exact value - nearestInteger (exact value)| tolerance ∧
      bound low ≤ nearestInteger (exact value) ∧ nearestInteger (exact value) ≤ bound high ∧
      n = min Binary.greatestInt64 (nearestInteger (exact value)) := by
  unfold reachedInteger
  dsimp only
  by_cases hvalue : value.isFinite = true
  · obtain ⟨hfinite, hnearest⟩ := exact_roundHalfAway hvalue
    obtain ⟨hfinite', hdistance⟩ := exact_sub_roundHalfAway hvalue
    obtain ⟨hfiniteLow, hroundsLow⟩ := finite_ofInt hlow
    obtain ⟨hfiniteHigh, -⟩ := finite_ofInt hhigh
    have hleast : bound low ≤ nearestInteger (exact value) →
        Binary.leastInt64 ≤ nearestInteger (exact value) := by
      intro hle
      have hrepresentable : Representable ((Binary.leastInt64 : ℤ) : ℚ) :=
        ⟨-1, 63, by decide, by decide, by norm_num [Binary.leastInt64]⟩
      have hword : Binary.leastInt64 ≤ low := (abs_le.mp hlow).1
      have hbound := (hroundsLow _ hrepresentable).1 (by exact_mod_cast hword)
      exact_mod_cast hbound.trans hle
    rw [Option.ite_none_right_eq_some]
    simp only [Bool.and_eq_true, decide_eq_true_eq, and_assoc]
    rw [isWithin_iff hfinite', hdistance, le_iff hfiniteLow hfinite, le_iff hfinite hfiniteHigh,
      hnearest]
    refine and_congr_right fun _ => and_congr_right fun _ => and_congr_right fun hle =>
      and_congr_right fun _ => ?_
    rw [truncate_eq hfinite hnearest, max_eq_right (le_min (by decide) (hleast hle)), Option.some_inj,
      eq_comm]
  · rw [if_neg (by simp [hvalue])]
    exact ⟨nofun, fun h => absurd h.1 hvalue⟩

end Reaching

section Listing

variable {β : Type} {index : Index β} {config : SearchConfig} {values : List Float} {low high n : ℤ}

/-- If no position fails, just the integers are added that are listed for the values there. -/
theorem foldlM_addReached (low high : ℤ) {positions : List ℕ}
    (hread : ∀ position ∈ positions, ∃ found, valueAt index config values position = .ok found)
    (before : Std.TreeSet ℤ) :
    ∃ reached, positions.foldlM (addReached index config values low high) before = .ok reached ∧
      ∀ n, n ∈ reached ↔ n ∈ before ∨ ∃ position ∈ positions, ∃ f value,
        valueAt index config values position = .ok (f, value) ∧
          reachedInteger config.tolerance low high value = some n := by
  induction positions generalizing before with
  | nil => exact ⟨before, rfl, fun n => by simp⟩
  | cons position rest ih =>
    obtain ⟨⟨f, value⟩, hvalue⟩ := hread position List.mem_cons_self
    obtain ⟨after, hafter, hmem⟩ : ∃ after,
        addReached index config values low high before position = .ok after ∧
          ∀ n, n ∈ after ↔ n ∈ before ∨ reachedInteger config.tolerance low high value = some n := by
      unfold addReached
      rw [hvalue]
      cases hreached : reachedInteger config.tolerance low high value with
      | none => exact ⟨before, by simp only [bind, Except.bind, hreached]; rfl, fun n => by simp⟩
      | some reached =>
        refine ⟨before.insert reached, by simp only [bind, Except.bind, hreached]; rfl, fun n => ?_⟩
        rw [Std.TreeSet.mem_insert, compare_eq_iff_eq, Option.some_inj, or_comm]
    obtain ⟨reached, hfold, hreached⟩ :=
      ih (fun other hother => hread other (List.mem_cons_of_mem position hother)) after
    refine ⟨reached, ?_, fun n => ?_⟩
    · rw [List.foldlM_cons, hafter]
      exact hfold
    · have hhead : (∃ f value, valueAt index config values position = .ok (f, value) ∧
          reachedInteger config.tolerance low high value = some n) ↔
            reachedInteger config.tolerance low high value = some n := by
        simp only [hvalue, Except.ok.injEq, Prod.mk.injEq, and_assoc, exists_and_left, exists_eq_left']
      rw [hreached, hmem, or_assoc, ← hhead]
      simp only [List.mem_cons, or_and_right, exists_or, exists_eq_left]

/-- A search for a gap finds nothing if a set holds all integers from `low` on, and the least one that
it lacks otherwise. -/
theorem firstGap_cases (reached : Std.TreeSet ℤ) (low : ℤ) (count : ℕ) :
    (firstGap reached low count = none ∧ ∀ n, low ≤ n → n < low + count → n ∈ reached) ∨
    ∃ gap, firstGap reached low count = some gap ∧
      IsLeast {n | low ≤ n ∧ n < low + count ∧ n ∉ reached} gap := by
  induction count generalizing low with
  | zero => exact Or.inl ⟨rfl, fun n hlow hhigh => by omega⟩
  | succ count ih =>
    have hgap : firstGap reached low (count + 1) =
        if reached.contains low then firstGap reached (low + 1) count else some low := rfl
    rw [hgap]
    by_cases hmem : low ∈ reached
    · rw [if_pos (Std.TreeSet.mem_iff_contains.mp hmem)]
      have hbeyond : ∀ n, low ≤ n → n ∉ reached → low + 1 ≤ n := by
        intro n hle hnot
        have hne : n ≠ low := fun heq => hnot (heq ▸ hmem)
        omega
      rcases ih (low + 1) with ⟨hnone, hall⟩ | ⟨gap, hsome, ⟨hlow, hhigh, hnot⟩, hleast⟩
      · refine Or.inl ⟨hnone, fun n hle hlt => ?_⟩
        by_contra hnot
        exact hnot (hall n (hbeyond n hle hnot) (by push_cast at hlt; omega))
      · refine Or.inr ⟨gap, hsome, ⟨by omega, by push_cast; omega, hnot⟩, ?_⟩
        rintro n ⟨hle, hlt, hnot'⟩
        exact hleast ⟨hbeyond n hle hnot', by push_cast at hlt; omega, hnot'⟩
    · rw [if_neg fun hcontains => hmem (Std.TreeSet.mem_iff_contains.mpr hcontains)]
      exact Or.inr ⟨low, rfl, ⟨le_rfl, by omega, hmem⟩, fun n hn => hn.1⟩

/-- An integer is nearest to the value of a formula of the index, and no further from it than the
tolerance. -/
def Reaches (index : Index β) (config : SearchConfig) (values : List Float) (n : ℤ) : Prop :=
  ∃ position < index.length, ∃ f value, valueAt index config values position = .ok (f, value) ∧
    value.isFinite = true ∧ nearestInteger (exact value) = n ∧
    AtMost |exact value - n| config.tolerance

/-- An integer that is reached is the nearest one to a number, and can be represented. -/
theorem Reaches.representable (h : Reaches index config values n) : Representable n := by
  obtain ⟨-, -, -, value, -, hfinite, rfl, -⟩ := h
  obtain ⟨hwhole, hnearest⟩ := exact_roundHalfAway hfinite
  rw [← hnearest]
  exact (representable_exact hwhole).1

/-- If no position fails, what is listed are the integers that are reached between the bounds as they
are compared, with those above all signed words brought back to the greatest of them. -/
theorem exists_reachableIntegers_mem_iff (hvalues : validateValues values index.slots = .ok ())
    (hlow : |low| ≤ 2 ^ 63) (hhigh : |high| ≤ 2 ^ 63)
    (hread : ∀ position < index.length, ∃ found,
      valueAt index config values position = .ok found) :
    ∃ reached, reachableIntegers index config values low high = .ok reached ∧
      ∀ n, n ∈ reached ↔ ∃ m, Reaches index config values m ∧ bound low ≤ m ∧ m ≤ bound high ∧
        n = min Binary.greatestInt64 m := by
  obtain ⟨reached, hfold, hmem⟩ := foldlM_addReached low high
    (fun position hposition => hread position (List.mem_range.mp hposition)) ∅
  refine ⟨reached, ?_, fun n => ?_⟩
  · unfold reachableIntegers
    rw [hvalues]
    exact hfold
  · rw [hmem]
    simp only [reachedInteger_eq_some_iff hlow hhigh, List.mem_range]
    constructor
    · rintro (hnone | ⟨position, hposition, f, value, hvalue, hfinite, hwithin, hle, hle', rfl⟩)
      · exact absurd hnone Std.TreeSet.not_mem_emptyc
      · exact ⟨_, ⟨position, hposition, f, value, hvalue, hfinite, rfl, hwithin⟩, hle, hle', rfl⟩
    · rintro ⟨m, ⟨position, hposition, f, value, hvalue, hfinite, rfl, hwithin⟩, hle, hle', rfl⟩
      exact Or.inr ⟨position, hposition, f, value, hvalue, hfinite, hwithin, hle, hle', rfl⟩

/-- The integers that are listed for the range from `low` to `high`. -/
structure ListsReached (index : Index β) (config : SearchConfig) (values : List Float) (low high : ℤ)
    (reached : Std.TreeSet ℤ) : Prop where
  /-- Listed are the integers that are reached between the bounds as they are compared, with those
  above all signed words brought back to the greatest one. -/
  mem_iff : ∀ n, n ∈ reached ↔ ∃ m, Reaches index config values m ∧ bound low ≤ m ∧ m ≤ bound high ∧
    n = min Binary.greatestInt64 m
  /-- Within the range an integer that is not the greatest signed word is listed exactly if it is
  reached. -/
  mem_iff_of_between : ∀ n, low ≤ n → n ≤ high → n ≠ Binary.greatestInt64 →
    (n ∈ reached ↔ Reaches index config values n)
  /-- If both bounds can be represented, just the integers of the range are listed that are reached. -/
  mem_iff_of_representable : Representable low → Representable high →
    ∀ n, n ∈ reached ↔ low ≤ n ∧ n ≤ high ∧ Reaches index config values n

/-- The first integer from `low` to `high` that a set lacks, if there is one. -/
structure FirstMissing (reached : Std.TreeSet ℤ) (low high : ℤ) (first : Option ℤ) : Prop where
  eq_none_iff : first = none ↔ ∀ n, low ≤ n → n ≤ high → n ∈ reached
  isLeast : ∀ gap, first = some gap → IsLeast {n | low ≤ n ∧ n ≤ high ∧ n ∉ reached} gap

/-- What is listed are the integers that are reached, as far as the bounds are compared as they are. -/
theorem listsReached_of_mem_iff {reached : Std.TreeSet ℤ} (hlow : |low| ≤ 2 ^ 63)
    (hhigh : |high| ≤ 2 ^ 63) (hword : high ≤ Binary.greatestInt64)
    (hmem : ∀ n, n ∈ reached ↔ ∃ m, Reaches index config values m ∧ bound low ≤ m ∧ m ≤ bound high ∧
      n = min Binary.greatestInt64 m) : ListsReached index config values low high reached := by
  refine ⟨hmem, fun n hle hle' hne => ?_, fun hrepresentable hrepresentable' n => ?_⟩
  · rw [hmem]
    constructor
    · rintro ⟨m, hm, -, -, rfl⟩
      rcases min_choice Binary.greatestInt64 m with hmin | hmin
      · exact absurd hmin hne
      · rwa [hmin]
    · intro hn
      -- What is reached can be represented, so it stays on its side of the bounds.
      have hlower := ((finite_ofInt hlow).2 n hn.representable).2 (by exact_mod_cast hle)
      have hupper := ((finite_ofInt hhigh).2 n hn.representable).1 (by exact_mod_cast hle')
      exact ⟨n, hn, hlower, hupper, (min_eq_right (hle'.trans hword)).symm⟩
  · rw [hmem, bound_eq hlow hrepresentable, bound_eq hhigh hrepresentable']
    simp only [Int.cast_le]
    constructor
    · rintro ⟨m, hm, hle, hle', rfl⟩
      rw [min_eq_right (hle'.trans hword)]
      exact ⟨hle, hle', hm⟩
    · rintro ⟨hle, hle', hn⟩
      exact ⟨n, hn, hle, hle', (min_eq_right (hle'.trans hword)).symm⟩

/-- The search for a gap from one bound to the other finds the first integer that is missing. -/
theorem firstMissing_firstGap (reached : Std.TreeSet ℤ) (low high : ℤ) :
    FirstMissing reached low high (firstGap reached low (high - low + 1).toNat) := by
  have hrange : ∀ n, low ≤ n → (n < low + (high - low + 1).toNat ↔ n ≤ high) := by omega
  rcases firstGap_cases reached low (high - low + 1).toNat with
    ⟨hnone, hall⟩ | ⟨gap, hgap, ⟨hle, hlt, hnot⟩, hleast⟩
  · rw [hnone]
    exact ⟨⟨fun _ n hle hle' => hall n hle ((hrange n hle).mpr hle'), fun _ => rfl⟩, nofun⟩
  · have hle' := (hrange gap hle).mp hlt
    rw [hgap]
    refine ⟨⟨nofun, fun hall => absurd (hall gap hle hle') hnot⟩, ?_⟩
    rintro _ ⟨⟩
    exact ⟨⟨hle, hle', hnot⟩, fun n hn => hleast ⟨hn.1, (hrange n hn.1).mpr hn.2.1, hn.2.2⟩⟩

/-- Over valid values for which no position fails, the integers that are reached are listed as follows.
Listed are the integers that are reached between the bounds as they are compared, with those above all
signed words brought back to the greatest one. So within the range an integer that is not the greatest
signed word is listed exactly if it is reached, and if both bounds can be represented, as all up to
`2 ^ 53` can, nothing else is listed. The first integer that is not reached is the least one of the range
that is not listed, and there is none exactly if all are listed. -/
theorem reachableIntegers_exact (hvalues : validateValues values index.slots = .ok ())
    (hlow : Binary.leastInt64 ≤ low ∧ low ≤ Binary.greatestInt64)
    (hhigh : Binary.leastInt64 ≤ high ∧ high ≤ Binary.greatestInt64)
    (hread : ∀ position < index.length, ∃ found,
      valueAt index config values position = .ok found) :
    ∃ reached first, reachableIntegers index config values low high = .ok reached ∧
      firstUnreachable index config values low high = .ok first ∧
      ListsReached index config values low high reached ∧ FirstMissing reached low high first := by
  have hgreatest : Binary.greatestInt64 = 2 ^ 63 - 1 := rfl
  have hleast : Binary.leastInt64 = -2 ^ 63 := rfl
  have hlow' : |low| ≤ 2 ^ 63 := abs_le.mpr (by omega)
  have hhigh' : |high| ≤ 2 ^ 63 := abs_le.mpr (by omega)
  obtain ⟨reached, hreached, hmem⟩ := exists_reachableIntegers_mem_iff hvalues hlow' hhigh' hread
  have hfirst : firstUnreachable index config values low high =
      .ok (firstGap reached low (high - low + 1).toNat) := by
    unfold firstUnreachable
    rw [hreached]
    rfl
  exact ⟨reached, _, hreached, hfirst, listsReached_of_mem_iff hlow' hhigh' hhigh.2 hmem,
    firstMissing_firstGap reached low high⟩

/-- The index of the slot alone can be read, and has a value for one number. -/
theorem exists_valueAt_operand (value : Float) :
    let index : Index MemoryWords := ⟨.arithmetic, .memory ⟨1, #[.operand]⟩⟩
    ∀ position < index.length, ∃ found, valueAt index {} [value] position = .ok found := by
  intro index position hposition
  have hreads : index.Reads [.operand] := by
    refine ⟨rfl, fun position => ?_, ?_⟩
    · cases position with
      | zero => rfl
      | succ position => rfl
    · intro f hf
      obtain rfl := List.mem_singleton.mp hf
      exact ⟨rfl, Formula.valid_operand, fun _ hcode => nomatch hcode⟩
  obtain rfl : position = 0 := Nat.lt_one_iff.mp hposition
  have hlength : [value].length = index.slots := rfl
  have hfirst : [Formula.operand][0]? = some .operand := rfl
  obtain ⟨found, -, hfound⟩ := hreads.valueAt_eq_ok {} hlength hfirst
  exact ⟨_, hfound⟩

/-- The slot alone with the value three: what is listed between zero and ten is what is reached. -/
theorem reachableIntegers_exact_slot :
    let index : Index MemoryWords := ⟨.arithmetic, .memory ⟨1, #[.operand]⟩⟩
    ∃ reached, reachableIntegers index {} [3] 0 10 = .ok reached ∧ reached.toList = [3] ∧
      ∀ n, n ∈ reached ↔ 0 ≤ n ∧ n ≤ 10 ∧ Reaches index {} [3] n := by
  intro index
  have hvalues : validateValues [3] index.slots = .ok () :=
    validateValues_eq_ok_iff.mpr ⟨rfl, by decide +kernel⟩
  have hlow : Binary.leastInt64 ≤ 0 ∧ 0 ≤ Binary.greatestInt64 := by decide
  have hhigh : Binary.leastInt64 ≤ 10 ∧ 10 ≤ Binary.greatestInt64 := by decide
  have hlist : (reachableIntegers index {} [3] 0 10).toOption.map (·.toList) = some [3] := by
    decide +kernel
  obtain ⟨reached, -, hreached, -, hlists, -⟩ :=
    reachableIntegers_exact hvalues hlow hhigh (exists_valueAt_operand 3)
  rw [hreached] at hlist
  exact ⟨reached, hreached, Option.some_inj.mp hlist, hlists.mem_iff_of_representable
    (representable_intCast (by decide)) (representable_intCast (by decide))⟩

/-- The greatest signed word has more bits than a mantissa. -/
theorem not_representable_greatest : ¬ Representable ((2 ^ 63 - 1 : ℤ) : ℚ) := by
  rintro ⟨z, e, hz, -, hvalue⟩
  rcases lt_or_ge 0 e with hpos | hneg
  · obtain ⟨shift, rfl⟩ : ∃ shift : ℕ, e = (shift + 1 : ℕ) := ⟨(e - 1).toNat, by omega⟩
    rw [zpow_natCast] at hvalue
    have heven : (2 ^ 63 - 1 : ℤ) = 2 * (z * 2 ^ shift) := by
      have hcast : ((2 ^ 63 - 1 : ℤ) : ℚ) = ((2 * (z * 2 ^ shift) : ℤ) : ℚ) := by
        rw [hvalue]
        push_cast
        ring
      exact_mod_cast hcast
    omega
  · have hsmall : (2 : ℚ) ^ e ≤ 1 := zpow_le_one_of_nonpos₀ one_le_two hneg
    have hz' : (z : ℚ) ≤ 2 ^ 53 := by exact_mod_cast (abs_le.mp hz).2
    have hbound : (z : ℚ) * 2 ^ e ≤ 2 ^ 53 * 1 :=
      mul_le_mul hz' hsmall (zpow_pos two_pos e).le (by positivity)
    rw [← hvalue] at hbound
    norm_num at hbound

/-- Bounds that cannot be represented let in what does not belong to the range. The range of one integer
above `2 ^ 53` has the integer below it listed, and the greatest signed word is listed for `2 ^ 63`, so no
integer of its range is found missing although none is reached. -/
theorem reachableIntegers_beyond_bounds :
    let index : Index MemoryWords := ⟨.arithmetic, .memory ⟨1, #[.operand]⟩⟩
    let values := [Float.ofBits 0x4340000000000000]
    let values' := [Float.ofBits 0x43e0000000000000]
    (∃ reached, reachableIntegers index {} values (2 ^ 53 + 1) (2 ^ 53 + 1) = .ok reached ∧
      reached.toList = [2 ^ 53]) ∧
    (∃ reached, reachableIntegers index {} values' (2 ^ 63 - 1) (2 ^ 63 - 1) = .ok reached ∧
      reached.toList = [2 ^ 63 - 1] ∧ ¬ Reaches index {} values' (2 ^ 63 - 1)) ∧
    firstUnreachable index {} values' (2 ^ 63 - 1) (2 ^ 63 - 1) = .ok none := by
  intro index values values'
  have hlist : (reachableIntegers index {} values (2 ^ 53 + 1) (2 ^ 53 + 1)).toOption.map
      (·.toList) = some [2 ^ 53] := by decide +kernel
  have hlist' : (reachableIntegers index {} values' (2 ^ 63 - 1) (2 ^ 63 - 1)).toOption.map
      (·.toList) = some [2 ^ 63 - 1] := by decide +kernel
  have hgap : (firstUnreachable index {} values' (2 ^ 63 - 1) (2 ^ 63 - 1)).toOption = some none := by
    decide +kernel
  obtain ⟨reached, hreached, hsame⟩ := Option.map_eq_some_iff.mp hlist
  obtain ⟨reached', hreached', hsame'⟩ := Option.map_eq_some_iff.mp hlist'
  refine ⟨⟨reached, Outcome.toOption_eq_some_iff.mp hreached, hsame⟩,
    ⟨reached', Outcome.toOption_eq_some_iff.mp hreached', hsame', fun hn => ?_⟩,
    Outcome.toOption_eq_some_iff.mp hgap⟩
  exact not_representable_greatest hn.representable

end Listing

end Search

end Formulary
