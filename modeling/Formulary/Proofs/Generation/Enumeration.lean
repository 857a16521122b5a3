import Mathlib.Algebra.BigOperators.Ring.Finset
import Formulary.Proofs.Generation.Levels

/-!
# Every candidate once

Going through the splits, the formulas over their parts and the operators composes no candidate
twice, since what it is composed of can be read off it. Every way to compose two formulas is
found, in both orders if the operator tells its operands apart and in one of them if it does not.
So the candidates are counted by adding up the pairs of formulas over all ways to cut the slots
in two, as many times as the operators have orders of their operands.
-/

namespace Formulary

variable {table : OperatorTable} {level : ℕ → List Formula} {m : ℕ} {part : Finset ℕ}
  {left right f : Formula} {code : UInt8}

/-- The code of a combination is its last one. -/
theorem getLast?_codes_of_mem {op : Operator} (h : f ∈ combinationsUnder left right code op) :
    f.codes.getLast? = some code := by
  rcases mem_combinationsUnder_iff.mp h with rfl | ⟨-, rfl⟩
  · exact List.getLast?_concat
  · exact List.getLast?_concat

/-- Two operands on their parts have no combination twice. -/
theorem Composable.nodup_combinationsOf (h : Composable level m part left right)
    (hfits : LevelsFit table level m) (hm : m ≤ UInt8.size) :
    (combinationsOf table (left.placeOn (ascending part))
      (right.placeOn (ascending (Finset.range m \ part)))).Nodup := by
  have horders (code : UInt8) :
      composed m part left right code ≠ composed m (Finset.range m \ part) right left code :=
    fun heq => h.toCut.ne_compl (h.composed_inj h.swap hfits hm heq).1
  apply nodup_flatMap_of_unique table.nodup_entries
  · intro ⟨code, op⟩ _
    have hne := horders code
    rw [composed, composed, h.toCut.compl_compl] at hne
    cases hcommutative : op.commutative with
    | true => simp [combinationsUnder, hcommutative]
    | false => simpa [combinationsUnder, hcommutative] using hne
  · intro ⟨code, op⟩ hentry ⟨code', op'⟩ hentry' f hf hf'
    have hcode := getLast?_codes_of_mem hf
    rw [getLast?_codes_of_mem hf'] at hcode
    obtain rfl := Option.some.inj hcode
    have hop := OperatorTable.mem_entries_iff.mp hentry
    rw [OperatorTable.mem_entries_iff.mp hentry'] at hop
    obtain rfl := Except.ok.inj hop
    rfl

/-- A combination belongs to one split and to one pair of operands on it. -/
theorem Composable.eq_of_mem {part' : Finset ℕ} {left' right' : Formula}
    (h : Composable level m part left right) (h' : Composable level m part' left' right')
    (hleads : Leads m part) (hleads' : Leads m part') (hfits : LevelsFit table level m)
    (hm : m ≤ UInt8.size)
    (hf : f ∈ combinationsOf table (left.placeOn (ascending part))
      (right.placeOn (ascending (Finset.range m \ part))))
    (hf' : f ∈ combinationsOf table (left'.placeOn (ascending part'))
      (right'.placeOn (ascending (Finset.range m \ part')))) :
    part = part' ∧ left = left' ∧ right = right' := by
  obtain ⟨code, op, -, hf⟩ := (mem_combinationsOf_iff h.subset).mp hf
  obtain ⟨code', op', -, hf'⟩ := (mem_combinationsOf_iff h'.subset).mp hf'
  -- a candidate whose first operand has the leading part is not one whose second operand has it
  rcases hf with rfl | ⟨-, rfl⟩
  · rcases hf' with heq | ⟨-, heq⟩
    · obtain ⟨hpart, hleft, hright, -⟩ := h.composed_inj h' hfits hm heq
      exact ⟨hpart, hleft, hright⟩
    · obtain ⟨rfl, -⟩ := h.composed_inj h'.swap hfits hm heq
      exact absurd hleads (h'.toCut.not_leads_compl hleads')
  · rcases hf' with heq | ⟨-, heq⟩
    · obtain ⟨rfl, -⟩ := h.swap.composed_inj h' hfits hm heq
      exact absurd hleads' (h.toCut.not_leads_compl hleads)
    · obtain ⟨hpart, hright, hleft, -⟩ := h.swap.composed_inj h'.swap hfits hm heq
      refine ⟨?_, hleft, hright⟩
      rw [← h.toCut.compl_compl, hpart, h'.toCut.compl_compl]

/-- The formulas over fewer than `m` slots are listed once each. -/
def LevelsNodup (level : ℕ → List Formula) (m : ℕ) : Prop :=
  ∀ size, 0 < size → size < m → (level size).Nodup

/-- No candidate is offered twice. -/
theorem nodup_candidates (hfits : LevelsFit table level m) (hnodup : LevelsNodup level m)
    (hm : m ≤ UInt8.size) : (candidates table level m).Nodup := by
  unfold candidates
  split
  · exact List.nodup_singleton _
  apply nodup_flatMap_of_unique (nodup_allSplits hm)
  · intro split hsplit
    obtain ⟨part, hleads, rfl⟩ := (mem_allSplits hm).mp hsplit
    have hlt := hleads.2.1
    have hhalf := hleads.2.2
    rw [candidatesOf_splitOf hleads.1]
    apply nodup_flatMap_of_unique (hnodup part.card (by omega) hlt)
    · intro left hleft
      apply nodup_flatMap_of_unique (hnodup (m - part.card) (by omega) (by omega))
      · intro right hright
        exact (hleads.composable hleft hright).nodup_combinationsOf hfits hm
      · intro right hright right' hright' f hf hf'
        exact ((hleads.composable hleft hright).eq_of_mem (hleads.composable hleft hright')
          hleads hleads hfits hm hf hf').2.2
    · intro left hleft left' hleft' f hf hf'
      obtain ⟨right, hright, hf⟩ := List.mem_flatMap.mp hf
      obtain ⟨right', hright', hf'⟩ := List.mem_flatMap.mp hf'
      exact ((hleads.composable hleft hright).eq_of_mem (hleads.composable hleft' hright')
        hleads hleads hfits hm hf hf').2.1
  · intro split hsplit other hother f hf hf'
    obtain ⟨part, hleads, rfl⟩ := (mem_allSplits hm).mp hsplit
    obtain ⟨part', hleads', rfl⟩ := (mem_allSplits hm).mp hother
    rw [candidatesOf_splitOf hleads.1] at hf
    rw [candidatesOf_splitOf hleads'.1] at hf'
    obtain ⟨left, hleft, hf⟩ := List.mem_flatMap.mp hf
    obtain ⟨right, hright, hf⟩ := List.mem_flatMap.mp hf
    obtain ⟨left', hleft', hf'⟩ := List.mem_flatMap.mp hf'
    obtain ⟨right', hright', hf'⟩ := List.mem_flatMap.mp hf'
    obtain ⟨rfl, -⟩ := (hleads.composable hleft hright).eq_of_mem
      (hleads'.composable hleft' hright') hleads hleads' hfits hm hf hf'
    rfl

/-- A composition is offered if its first operand has the leading part or its operator tells the
operands apart. -/
theorem Composable.composed_mem_iff (h : Composable level m part left right)
    (hfits : LevelsFit table level m) (hm : m ≤ UInt8.size) (hmany : m ≠ 1) {op : Operator}
    (hop : table.get code = .ok op) :
    composed m part left right code ∈ candidates table level m ↔
      Leads m part ∨ op.commutative = false := by
  rw [mem_candidates_iff hm hmany]
  constructor
  · intro hmem
    obtain ⟨part', left', right', code', op', h', hop', hcases, heq⟩ := hmem
    obtain ⟨rfl, rfl, rfl, rfl⟩ := h.composed_inj h' hfits hm heq
    rw [hop] at hop'
    obtain rfl := Except.ok.inj hop'
    exact hcases
  · intro hcases
    exact ⟨part, left, right, code, op, h, hop, hcases, rfl⟩

/-- Both orders of two operands are offered once under an operator that tells them apart, and one
of the orders under an operator that does not. -/
theorem Composable.count_composed (h : Composable level m part left right)
    (hfits : LevelsFit table level m) (hnodup : LevelsNodup level m) (hm : m ≤ UInt8.size)
    (hmany : m ≠ 1) {op : Operator} (hop : table.get code = .ok op) :
    if op.commutative then
      (candidates table level m).count (composed m part left right code) +
        (candidates table level m).count (composed m (Finset.range m \ part) right left code) = 1
    else (candidates table level m).count (composed m part left right code) = 1 := by
  have hcandidates := nodup_candidates hfits hnodup hm
  have hmem := h.composed_mem_iff hfits hm hmany hop
  have hmem' := h.swap.composed_mem_iff hfits hm hmany hop
  have hleads := h.toCut.leads_compl_iff
  rw [hcandidates.count, hcandidates.count]
  simp only [hmem, hmem', hleads]
  cases op.commutative with
  | true =>
    by_cases hpart : Leads m part
    · simp [hpart]
    · simp [hpart]
  | false => simp

/-- The number of combinations of two formulas under all operators. -/
theorem length_combinationsOf (left right : Formula) :
    (combinationsOf table left right).length = table.orderingsPerPair := by
  have hlength (entry : UInt8 × Operator) :
      (combinationsUnder left right entry.1 entry.2).length = entry.2.orderings := by
    unfold combinationsUnder Operator.orderings
    split
    · rfl
    · rfl
  have hsum (operators : List Operator) : (operators.map Operator.orderings).sum =
      operators.foldr (fun op total => op.orderings + total) 0 := by
    induction operators with
    | nil => rfl
    | cons op rest ih => simp [ih]
  unfold combinationsOf OperatorTable.orderingsPerPair
  rw [List.length_flatMap, ← hsum, ← table.map_snd_entries, List.map_map]
  simp only [hlength, Function.comp_def]

/-- The number of candidates of a split. -/
theorem length_candidatesOf_splitOf (h : part ⊆ Finset.range m) :
    (candidatesOf table level (splitOf m part)).length = table.orderingsPerPair *
      ((level part.card).length * (level (m - part.card)).length) := by
  rw [candidatesOf_splitOf h]
  simp only [List.length_flatMap, length_combinationsOf, List.map_const', List.sum_replicate_nat]
  rw [← Nat.mul_assoc, Nat.mul_comm]

/-- A property of cuts that one of two complementary parts has, and only one. -/
structure Names (m : ℕ) (P : Finset ℕ → Prop) : Prop where
  cut : ∀ part ⊆ Finset.range m, P part → Cut m part
  compl_iff : ∀ part, Cut m part → (P (Finset.range m \ part) ↔ ¬ P part)

/-- Of two complementary parts exactly one leads. -/
theorem names_leads (m : ℕ) : Names m (Leads m) :=
  ⟨fun _ _ h => h.cut, fun _ h => h.leads_compl_iff⟩

/-- A cut is named by its part with slot zero. -/
theorem names_zero (m : ℕ) : Names m fun part => 0 ∈ part ∧ part ≠ Finset.range m := by
  refine ⟨fun part hsubset h => ⟨hsubset, ⟨0, h.1⟩, h.2⟩, fun part h => ?_⟩
  simp only [h.zero_mem_compl_iff, h.proper, h.compl.proper, ne_eq, not_false_eq_true, and_true]

/-- The part of two complementary ones that has a property. -/
def named (m : ℕ) (P : Finset ℕ → Prop) [DecidablePred P] (part : Finset ℕ) : Finset ℕ :=
  if P part then part else Finset.range m \ part

section Named

variable {P Q : Finset ℕ → Prop} [DecidablePred P] [DecidablePred Q]

/-- Every cut is named, by one of its parts. -/
theorem Names.named_spec (hP : Names m P) (h : Cut m part) :
    Cut m (named m P part) ∧ P (named m P part) := by
  by_cases hpart : P part
  · rw [named, if_pos hpart]
    exact ⟨h, hpart⟩
  · rw [named, if_neg hpart]
    exact ⟨h.compl, (hP.compl_iff part h).mpr hpart⟩

/-- Going over to the part with another property can be undone. -/
theorem Names.named_named (hP : Names m P) (hcut : Cut m part) (h : P part) :
    named m P (named m Q part) = part := by
  have hcompl : ¬ P (Finset.range m \ part) := fun hother => (hP.compl_iff part hcut).mp hother h
  by_cases hQ : Q part
  · simp only [named, if_pos hQ, if_pos h]
  · simp only [named, if_neg hQ, if_neg hcompl, hcut.compl_compl]

/-- The parts that are named are those that cut the slots in two. -/
theorem Names.mem_filter_iff (hP : Names m P) :
    part ∈ (Finset.range m).powerset.filter P ↔ Cut m part ∧ P part := by
  rw [Finset.mem_filter, Finset.mem_powerset]
  exact ⟨fun h => ⟨hP.cut part h.1 h.2, h.2⟩, fun h => ⟨h.1.subset, h.2⟩⟩

/-- A sum over all cuts does not depend on which of the two parts names a cut. -/
theorem Names.sum_eq_sum (hP : Names m P) (hQ : Names m Q) {weight : ℕ → ℕ → ℕ}
    (hcomm : ∀ a b, weight a b = weight b a) :
    ∑ part ∈ (Finset.range m).powerset with P part, weight part.card (m - part.card) =
      ∑ part ∈ (Finset.range m).powerset with Q part, weight part.card (m - part.card) := by
  apply Finset.sum_nbij' (named m Q) (named m P)
  · intro part hpart
    exact hQ.mem_filter_iff.mpr (hQ.named_spec (hP.mem_filter_iff.mp hpart).1)
  · intro part hpart
    exact hP.mem_filter_iff.mpr (hP.named_spec (hQ.mem_filter_iff.mp hpart).1)
  · intro part hpart
    obtain ⟨hcut, hpart⟩ := hP.mem_filter_iff.mp hpart
    exact hP.named_named hcut hpart
  · intro part hpart
    obtain ⟨hcut, hpart⟩ := hQ.mem_filter_iff.mp hpart
    exact hQ.named_named hcut hpart
  · intro part hpart
    have hcut := (hP.mem_filter_iff.mp hpart).1
    unfold named
    split
    · rfl
    · rw [card_range_sdiff hcut.subset, Nat.sub_sub_self (Nat.le_of_lt hcut.card_lt), hcomm]

end Named

/-- The splits that are visited, added up over the parts that lead. -/
theorem sum_allSplits (hm : m ≤ UInt8.size) (weight : Split → ℕ) :
    ((allSplits m).map weight).sum =
      ∑ part ∈ (Finset.range m).powerset with Leads m part, weight (splitOf m part) := by
  have hsplits : (allSplits m).toFinset =
      ((Finset.range m).powerset.filter (Leads m)).image (splitOf m) := by
    ext split
    simp only [List.mem_toFinset, mem_allSplits hm, Finset.mem_image, Finset.mem_filter,
      Finset.mem_powerset]
    constructor
    · intro h
      obtain ⟨part, hleads, rfl⟩ := h
      exact ⟨part, ⟨hleads.1, hleads⟩, rfl⟩
    · intro h
      obtain ⟨part, ⟨-, hleads⟩, rfl⟩ := h
      exact ⟨part, hleads, rfl⟩
  rw [← List.sum_toFinset _ (nodup_allSplits hm), hsplits, Finset.sum_image]
  intro part hpart other hother heq
  have hleads := (Finset.mem_filter.mp hpart).2
  have hleads' := (Finset.mem_filter.mp hother).2
  exact splitOf_inj hm hleads.1 hleads'.1 heq

/-- The number of all candidates. -/
theorem length_candidates (hm : m ≤ UInt8.size) (hmany : m ≠ 1) :
    (candidates table level m).length = table.orderingsPerPair *
      ∑ part ∈ (Finset.range m).powerset with 0 ∈ part ∧ part ≠ Finset.range m,
        (level part.card).length * (level (m - part.card)).length := by
  have hlength : ∀ part ∈ (Finset.range m).powerset.filter (Leads m),
      (candidatesOf table level (splitOf m part)).length = table.orderingsPerPair *
        ((level part.card).length * (level (m - part.card)).length) := by
    intro part hpart
    exact length_candidatesOf_splitOf (Finset.mem_filter.mp hpart).2.1
  have hcomm (a b : ℕ) : (level a).length * (level b).length =
      (level b).length * (level a).length := Nat.mul_comm _ _
  have hnames := (names_leads m).sum_eq_sum (names_zero m) hcomm
  rw [candidates, if_neg hmany, List.length_flatMap, sum_allSplits hm, Finset.sum_congr rfl hlength,
    ← Finset.mul_sum]
  exact congrArg (table.orderingsPerPair * ·) hnames

namespace Generation

variable {entropy : Entropy} {request : Request} {levels : Levels}

/-- Levels that were made list no formula twice. -/
theorem nodup_formulasAt (hm : m ≤ UInt8.size)
    (hmade : ∀ size, 0 < size → size < m → LevelMade entropy request table levels size) :
    LevelsNodup (formulasAt levels) m := by
  intro size hpos hlt
  induction size using Nat.strong_induction_on with
  | _ size ih =>
    have hfits : LevelsFit table (formulasAt levels) size :=
      fun other hother hsmall => (hmade other hother (hsmall.trans hlt)).fits
    have hnodup : LevelsNodup (formulasAt levels) size :=
      fun other hother hsmall => ih other hsmall hother (hsmall.trans hlt)
    rw [(hmade size hpos hlt).eq_admissions]
    apply List.Nodup.sublist (AdmissionRule.admissions_sublist _ _)
    exact nodup_candidates hfits hnodup (Nat.le_trans (Nat.le_of_lt hlt) hm)

/-- In every run the loops over sizes, splits and formulas offer, over any number of slots from
two on, a list of candidates that holds nothing twice. For every way to cut the slots in two, all
formulas stored for the sizes of both parts and every operator it holds the formula composed of
them once if the operator tells its operands apart, and else once in one of the two orders; and it
holds nothing else. -/
theorem candidates_enumerate (entropy : Entropy) (request : Request) (table : OperatorTable) (m : ℕ)
    (levels : Levels) (warnings : List Warning) (hrequest : request.validate = .ok ())
    (hmany : 2 ≤ m) (hle : m ≤ request.slots)
    (hrun : levelsUpTo entropy request table (m - 1) = (.ok levels, warnings)) :
    (∀ size, 1 ≤ size → size < m → ∃ store, levels[size - 1]? = some store ∧
      store.toList = .ok (formulasAt levels size)) ∧
    (∀ set, (splitSizes m).foldlM (offerSize table levels m) set =
      (set.offerAll (candidates table (formulasAt levels) m)).mapError .store) ∧
    (candidates table (formulasAt levels) m).Nodup ∧
    (∀ part, Cut m part → ∀ left ∈ formulasAt levels part.card,
      ∀ right ∈ formulasAt levels (Finset.range m \ part).card, ∀ code op,
        table.get code = .ok op → ∃ x y, left.relabel (ascending part) = .ok x ∧
          right.relabel (ascending (Finset.range m \ part)) = .ok y ∧
          if op.commutative then
            (candidates table (formulasAt levels) m).count (Formula.combine x y code) +
              (candidates table (formulasAt levels) m).count (Formula.combine y x code) = 1
          else (candidates table (formulasAt levels) m).count (Formula.combine x y code) = 1) ∧
    (∀ f ∈ candidates table (formulasAt levels) m, ∃ part, Cut m part ∧
      ∃ left ∈ formulasAt levels part.card,
        ∃ right ∈ formulasAt levels (Finset.range m \ part).card, ∃ code op x y,
          table.get code = .ok op ∧ left.relabel (ascending part) = .ok x ∧
            right.relabel (ascending (Finset.range m \ part)) = .ok y ∧
              f = Formula.combine x y code) ∧
    (candidates table (formulasAt levels) m).length = table.orderingsPerPair *
      ∑ part ∈ (Finset.range m).powerset with 0 ∈ part ∧ part ≠ Finset.range m,
        (formulasAt levels part.card).length *
          (formulasAt levels (Finset.range m \ part).card).length := by
  have hslots : m ≤ Request.maxSlots := by
    unfold Request.validate at hrequest
    split at hrequest
    · cases hrequest
    · omega
  have hbound : m ≤ maxSubsetTotal := Nat.le_trans hslots (by decide)
  have hbyte : m ≤ UInt8.size := Nat.le_trans hbound maxSubsetTotal_le
  have hone : m ≠ 1 := by omega
  obtain ⟨-, hlevels⟩ := made_of_levelsUpTo (Nat.le_trans (Nat.sub_le m 1) hbound) hrun
  have hmade : ∀ size, 0 < size → size < m → LevelMade entropy request table levels size :=
    fun size hpos hlt => hlevels size hpos (Nat.le_sub_one_of_lt hlt)
  have hreadable := readable_of_made hmade
  have hfits := hreadable.levelsFit
  have hnodup := nodup_formulasAt hbyte hmade
  refine ⟨fun size hpos hlt => (hreadable size hpos hlt).1,
    fun set => foldlM_offerSize_eq hreadable hbound hone set, nodup_candidates hfits hnodup hbyte,
    ?_, ?_, ?_⟩
  · intro part hcut left hleft right hright code op hop
    have h : Composable (formulasAt levels) m part left right :=
      ⟨hcut, hleft, card_range_sdiff hcut.subset ▸ hright⟩
    refine ⟨_, _, h.relabel_left hfits, h.swap.relabel_left hfits, ?_⟩
    have hcount := h.count_composed hfits hnodup hbyte hone hop
    simpa only [composed, hcut.compl_compl] using hcount
  · intro f hf
    obtain ⟨part, left, right, code, op, h, hop, -, rfl⟩ := (mem_candidates_iff hbyte hone).mp hf
    exact ⟨part, h.toCut, left, h.left_mem, right, h.swap.left_mem, code, op, _, _, hop,
      h.relabel_left hfits, h.swap.relabel_left hfits, rfl⟩
  · have hcard : ∀ part ∈ (Finset.range m).powerset.filter fun part =>
        0 ∈ part ∧ part ≠ Finset.range m, (formulasAt levels part.card).length *
          (formulasAt levels (Finset.range m \ part).card).length =
        (formulasAt levels part.card).length * (formulasAt levels (m - part.card)).length := by
      intro part hpart
      rw [card_range_sdiff (Finset.mem_powerset.mp (Finset.mem_filter.mp hpart).1)]
    rw [length_candidates hbyte hone, Finset.sum_congr rfl hcard]

/-- Two slots under the arithmetic operators: `+` and `*` in one order, `-` and `/` in both. -/
theorem candidates_enumerate_twoSlots :
    let request : Request := { slots := 2, policy := { seed := some 7 } }
    let fresh : Entropy := fun _ => Vector.replicate 8 0
    ∃ levels warnings, levelsUpTo fresh request .arithmetic 1 = (.ok levels, warnings) ∧
      formulasAt levels 1 = [Formula.operand] ∧
      (candidates .arithmetic (formulasAt levels) 2).Nodup ∧
      (candidates .arithmetic (formulasAt levels) 2).length = 6 := by
  intro request fresh
  obtain ⟨levels, warnings, hrun⟩ : ∃ levels warnings,
      levelsUpTo fresh request .arithmetic 1 = (.ok levels, warnings) :=
    exists_levelsUpTo rfl (by decide) fun size _ _ => Or.inl rfl
  obtain ⟨-, hmade⟩ := made_of_levelsUpTo (by decide) hrun
  have hadmitted : (ruleFor fresh request .arithmetic 1).admissions [Formula.operand] =
      [Formula.operand] := by decide +kernel
  have hone : formulasAt levels 1 = [Formula.operand] :=
    (hmade 1 Nat.one_pos (Nat.le_refl 1)).eq_admissions.trans hadmitted
  obtain ⟨-, -, hnodup, -, -, hlength⟩ := candidates_enumerate fresh request .arithmetic 2 levels
    warnings rfl (Nat.le_refl 2) (Nat.le_refl 2) hrun
  have hparts : (Finset.range 2).powerset.filter (fun part => 0 ∈ part ∧ part ≠ Finset.range 2) =
      {{0}} := by decide
  have hcompl : (Finset.range 2 \ {0}).card = 1 := by decide
  rw [hparts, Finset.sum_singleton, Finset.card_singleton, hcompl, hone] at hlength
  exact ⟨levels, warnings, hrun, hone, hnodup, hlength⟩

end Generation

end Formulary
