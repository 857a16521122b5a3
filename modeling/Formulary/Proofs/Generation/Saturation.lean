import Formulary.Proofs.Admission.Exchange
import Formulary.Proofs.Admission.History
import Formulary.Proofs.Admission.UnknownCodes
import Formulary.Proofs.Generation.Levels

/-!
# Leaving out half of the candidates loses nothing

A plain generator goes through every way to name a part of the slots first, so it comes to each
split twice, and combines the formulas over both parts in both orders under every operator. The
candidates that are offered are fewer: of two complementary parts only the leading one is visited,
and operands under a commutative operator come in one order.

If commutative operators have symmetric functions, the keys of everything that is left out are
known once the candidates were offered. A filter answers such a formula with a refusal and sees
nothing new in it. So if the plain generator offers everything after the candidates, it makes the
same levels.
-/

namespace Formulary

section Known

variable {rule : AdmissionRule} {shown more : List Formula} {f : Formula} {slots : ℕ}

/-- What is known stays known. -/
theorem AdmissionRule.Knows.append (h : rule.Knows shown f) (more : List Formula) :
    rule.Knows (shown ++ more) f := by
  intro vector hvector key hkey
  obtain ⟨other, hother, hsame⟩ := h vector hvector key hkey
  exact ⟨other, List.mem_append_left more hother, hsame⟩

/-- A formula whose keys are all known changes no seen set and is not admitted. -/
theorem NoveltyFilter.Remembers.offer_of_knows {filter : NoveltyFilter}
    (h : filter.Remembers slots rule shown) (hpos : 0 < rule.policy.threshold)
    (hknown : rule.Knows shown f) :
    filter.SameSeen (filter.offer f).2 ∧ (filter.offer f).1 ≠ .ok true ∧
      (f.size = slots → rule.Evaluates f → (filter.offer f).1 = .ok false) := by
  rcases h.offer_cases f with ⟨error, hoffer, hfails⟩ | ⟨after, hoffer, hanswered⟩
  · rw [hoffer]
    exact ⟨sameSeen_of_remembers h h fun _ _ _ => Iff.rfl, nofun,
      fun hsize hvalues => absurd ⟨hsize, hvalues⟩ hfails⟩
  · rw [hoffer, hknown.admits_eq_false hpos]
    refine ⟨sameSeen_of_remembers h hanswered.remembers fun vector hvector key => ?_, nofun,
      fun _ _ => rfl⟩
    constructor
    · intro ⟨other, hother, hkey⟩
      exact ⟨other, List.mem_append_left [f] hother, hkey⟩
    · intro ⟨other, hother, hkey⟩
      rcases List.mem_append.mp hother with hother | hother
      · exact ⟨other, hother, hkey⟩
      · obtain rfl := List.mem_singleton.mp hother
        exact hknown vector hvector key hkey

/-- Offering formulas whose keys are all known leaves a store as it is. -/
theorem FilteredStore.offerAll_of_knows {β : Type} {set : FilteredStore β}
    (h : set.filter.Remembers slots rule shown) (hpos : 0 < rule.policy.threshold)
    {formulas : List Formula}
    (hformulas : ∀ f ∈ formulas, f.size = slots ∧ rule.Evaluates f ∧ rule.Knows shown f) :
    ∃ after, set.offerAll formulas = .ok after ∧ after.store = set.store := by
  induction formulas generalizing set shown with
  | nil => exact ⟨set, rfl, rfl⟩
  | cons first rest ih =>
    obtain ⟨hsize, hvalues, hknown⟩ := hformulas first List.mem_cons_self
    obtain ⟨filter, hoffer, hfilter⟩ := h.offer_eq_ok hsize hvalues
    rw [hknown.admits_eq_false hpos] at hoffer
    have hfirst : set.offer first = (.ok false, { set with filter := filter }) := by
      rw [offer, hoffer]
    have hrest : ∀ f ∈ rest, f.size = slots ∧ rule.Evaluates f ∧ rule.Knows (shown ++ [first]) f := by
      intro f hf
      obtain ⟨hsize, hvalues, hknown⟩ := hformulas f (List.mem_cons_of_mem first hf)
      exact ⟨hsize, hvalues, hknown.append [first]⟩
    have hnext : (FilteredStore.mk set.store filter).filter.Remembers slots rule (shown ++ [first]) :=
      hfilter
    obtain ⟨after, hafter, hstore⟩ := ih hnext hrest
    refine ⟨after, ?_, hstore⟩
    rw [offerAll, hfirst]
    exact hafter

end Known

section Saturated

variable {rule : AdmissionRule} {level : ℕ → List Formula} {m : ℕ} {part : Finset ℕ}
  {left right : Formula}

/-- Nothing cuts a single slot in two. -/
theorem Cut.one_lt (h : Cut m part) : 1 < m := by
  have hpos := h.nonempty.card_pos
  have hlt := h.card_lt
  omega

/-- Once the candidates were shown, the keys of every composition are known: it is a candidate, or
its operator is commutative and the composition with its operands exchanged is one, or its code has
no operator and it has no key. -/
theorem Composable.knows (h : Composable level m part left right)
    (hfits : LevelsFit rule.table level m) (hm : m ≤ UInt8.size)
    (hsymmetric : rule.table.Symmetric) (code : UInt8) :
    rule.Knows (candidates rule.table level m) (composed m part left right code) := by
  have hmany : m ≠ 1 := Nat.ne_of_gt h.toCut.one_lt
  have hleft := (h.left_fits hfits).valid.isPostfix.placeOn (ascending part)
  have hright := (h.right_fits hfits).valid.isPostfix.placeOn (ascending (Finset.range m \ part))
  rcases Nat.lt_or_ge code.toNat rule.table.size with hcode | hcode
  · have hop := OperatorTable.get_eq_ok hcode
    by_cases hoffered : Leads m part ∨ rule.table.operators[code.toNat].commutative = false
    · apply AdmissionRule.knows_of_mem
      exact (mem_candidates_iff hm hmany).mpr ⟨part, left, right, code, _, h, hop, hoffered, rfl⟩
    · obtain ⟨hleads, hcommutative⟩ := not_or.mp hoffered
      rw [Bool.not_eq_false] at hcommutative
      have hmirror : composed m (Finset.range m \ part) right left code ∈
          candidates rule.table level m :=
        (mem_candidates_iff hm hmany).mpr ⟨_, right, left, code, _, h.swap, hop,
          Or.inl (h.toCut.leads_compl_iff.mpr hleads), rfl⟩
      intro vector _ key hkey
      refine ⟨_, hmirror, ?_⟩
      rw [composed, h.toCut.compl_compl,
        AdmissionRule.keyUnder_combine_comm hsymmetric hright hleft hop hcommutative]
      exact hkey
  · intro vector _ key hkey
    rw [composed, AdmissionRule.keyUnder_combine_of_size_le hleft hright hcode] at hkey
    cases hkey

/-- The first operand of a composition has a value under every vector of a filter over its slots. -/
theorem Composable.operand_left (h : Composable level m part left right)
    (hfits : LevelsFit rule.table level m) (hm : m ≤ UInt8.size) {filter : NoveltyFilter}
    (hasks : filter.Asks m rule) : filter.Operand (left.placeOn (ascending part)) := by
  obtain ⟨hsize, hvalid, hcodes⟩ := h.left_fits hfits
  refine ⟨hvalid.isPostfix.placeOn _, fun fingerprint hmem => ?_⟩
  have hlength : (ascending part).length = left.size := (length_ascending part).trans hsize.symm
  have hentries : ∀ slot ∈ ascending part, slot.toNat < fingerprint.values.length := by
    intro slot hslot
    rw [hasks.length_values fingerprint hmem]
    exact Finset.mem_range.mp (h.subset ((mem_ascending hm h.subset).mp hslot))
  rw [hvalid.evaluateRaw_placeOn hlength hentries, hasks.table_eq]
  apply hvalid.exists_evaluateRaw_eq_ok hcodes
  rw [pickValues, List.length_map, hlength]

/-- A filter that was offered the candidates sees nothing new in a composition. It answers that the
composition is not admitted, unless the evaluation comes to a code without an operator: this is an
error. -/
theorem Composable.offer_composed (h : Composable level m part left right)
    (hfits : LevelsFit rule.table level m) (hm : m ≤ Formula.maxSlots)
    (hsymmetric : rule.table.Symmetric) (hpos : 0 < rule.policy.threshold) {filter : NoveltyFilter}
    (hfilter : filter.Remembers m rule (candidates rule.table level m))
    (hnumbers : filter.HoldsNumbers) (code : UInt8) :
    let f := composed m part left right code
    let both := filter.HaveNumbers (left.placeOn (ascending part))
      (right.placeOn (ascending (Finset.range m \ part)))
    filter.SameSeen (filter.offer f).2 ∧ (filter.offer f).1 ≠ .ok true ∧
      (code.toNat < rule.table.size ∨ ¬ both → (filter.offer f).1 = .ok false) ∧
      (rule.table.size ≤ code.toNat → both →
        (filter.offer f).1 = .error (.evaluation (.operator (.unknownCode code)))) := by
  intro f both
  have hbyte := Nat.le_trans hm Formula.maxSlots_le
  have hsize := h.size_composed hfits code
  have hleft := h.operand_left hfits hbyte hfilter.asks
  have hright := h.swap.operand_left hfits hbyte hfilter.asks
  obtain ⟨hseen, hrejected, hanswer⟩ :=
    hfilter.offer_of_knows hpos (h.knows hfits hbyte hsymmetric code)
  refine ⟨hseen, hrejected, fun hvalue => ?_, fun hcode hboth => ?_⟩
  · apply hanswer hsize
    rcases hvalue with hcode | hnan
    · exact hfilter.evaluates (h.composed_fits hfits hm hcode)
    · exact hleft.evaluates_combine hright hnumbers hfilter.asks hnan code
  · exact hleft.offer_combine_eq_error hright hnumbers (hsize.trans hfilter.slots_eq.symm)
      (hfilter.table_eq ▸ hcode) hboth

end Saturated

/-- Every part of the slots that leaves some, with what it leaves. -/
def plainSplits (m : ℕ) : List Split :=
  ((slotsBelow m).sublists.filter fun part => 0 < part.length && part.length < m).map fun part =>
    ⟨part, complement part m⟩

/-- The combinations of every formula of one list with every formula of another, in both orders
under every operator. -/
def plainProducts (table : OperatorTable) (lefts rights : List Formula) : List Formula :=
  lefts.flatMap fun left => rights.flatMap fun right => table.entries.flatMap fun (code, _) =>
    [Formula.combine left right code, Formula.combine right left code]

/-- The plain splits are named by all parts that cut the slots in two. -/
theorem mem_plainSplits {m : ℕ} (hm : m ≤ UInt8.size) {split : Split} :
    split ∈ plainSplits m ↔ ∃ part, Cut m part ∧ split = splitOf m part := by
  simp only [plainSplits, List.mem_map, List.mem_filter, List.mem_sublists, sublist_slotsBelow_iff,
    Bool.and_eq_true, decide_eq_true_eq]
  constructor
  · rintro ⟨_, ⟨⟨part, hpart, rfl⟩, hpos, hlt⟩, rfl⟩
    rw [length_ascending] at hpos hlt
    refine ⟨part, ⟨hpart, Finset.card_pos.mp hpos, ?_⟩, ?_⟩
    · rintro rfl
      rw [Finset.card_range] at hlt
      exact Nat.lt_irrefl m hlt
    · rw [splitOf, complement_ascending hm hpart]
  · rintro ⟨part, hcut, rfl⟩
    refine ⟨ascending part, ⟨⟨part, hcut.subset, rfl⟩, ?_, ?_⟩, ?_⟩
    · rw [length_ascending]
      exact hcut.nonempty.card_pos
    · rw [length_ascending]
      exact hcut.card_lt
    · rw [splitOf, complement_ascending hm hcut.subset]

namespace Generation

/-- Offer everything that can be combined over one plain split. -/
def offerSplitPlainly (table : OperatorTable) (levels : Levels) (m : ℕ)
    (set : FilteredStore WordFiles) (split : Split) :
    Except GenerationError (FilteredStore WordFiles) :=
  match levels[split.left.length - 1]?, levels[split.right.length - 1]? with
  | some left, some right => do
    let lefts ← left.toList.mapError .store
    let rights ← right.toList.mapError .store
    let lefts ← (transplant lefts split.left).mapError .formula
    let rights ← (transplant rights split.right).mapError .formula
    (set.offerAll (plainProducts table lefts rights)).mapError .store
  | _, _ => throw (.malformedSplit split.left.length m)

/-- The set over `m` slots with its filter, after the candidates and then everything plain was
offered. -/
def fillLevelPlainly (request : Request) (table : OperatorTable) (fresh : ChaCha.Key)
    (levels : Levels) (m : ℕ) : Except GenerationError (FilteredStore WordFiles) := do
  let set ← fillLevel request table fresh levels m
  (plainSplits m).foldlM (offerSplitPlainly table levels m) set

/-- The finished set over `m` slots, made plainly. -/
def makeLevelPlainly (request : Request) (table : OperatorTable) (fresh : ChaCha.Key)
    (levels : Levels) (m : ℕ) :
    Except GenerationError (Store WordFiles) × List Warning :=
  match fillLevelPlainly request table fresh levels m with
  | .error error => (.error error, [])
  | .ok set =>
    let warnings := excessWarnings request table set
    match set.finish with
    | (.error error, _) => (.error (.store error), warnings)
    | (.ok (), store) => (.ok store, warnings)

/-- The sets over `1, …, m` slots, made plainly. -/
def levelsUpToPlainly (entropy : Entropy) (request : Request) (table : OperatorTable) :
    ℕ → Except GenerationError Levels × List Warning
  | 0 => (.ok [], [])
  | m + 1 =>
    match levelsUpToPlainly entropy request table m with
    | (.error error, warnings) => (.error error, warnings)
    | (.ok levels, warnings) =>
      match makeLevelPlainly request table (entropy (m + 1)) levels (m + 1) with
      | (.error error, more) => (.error error, warnings ++ more)
      | (.ok level, more) => (.ok (levels ++ [level]), warnings ++ more)

variable {entropy : Entropy} {request : Request} {table : OperatorTable} {fresh : ChaCha.Key}
  {levels : Levels} {m : ℕ} {set : FilteredStore WordFiles}

/-- Everything that can be combined over one plain split. -/
def plainCandidatesOf (table : OperatorTable) (level : ℕ → List Formula) (split : Split) :
    List Formula :=
  plainProducts table ((level split.left.length).map fun f => f.placeOn split.left)
    ((level split.right.length).map fun f => f.placeOn split.right)

/-- What can be combined over a plain split is composed on a part and its complement, in one order
or the other. -/
theorem mem_plainCandidatesOf {level : ℕ → List Formula} {part : Finset ℕ} {f : Formula}
    (h : Cut m part) :
    f ∈ plainCandidatesOf table level (splitOf m part) → ∃ part left right code,
      Composable level m part left right ∧ code.toNat < table.size ∧
        f = composed m part left right code := by
  simp only [plainCandidatesOf, plainProducts, splitOf, length_ascending, card_range_sdiff h.subset,
    List.mem_flatMap, List.mem_map, Prod.exists, OperatorTable.mem_entries_iff, List.mem_cons,
    List.not_mem_nil, or_false]
  rintro ⟨_, ⟨left, hleft, rfl⟩, _, ⟨right, hright, rfl⟩, code, op, hop, hf⟩
  have hcomposable : Composable level m part left right := ⟨h, hleft, hright⟩
  have hcode := OperatorTable.lt_size_of_get hop
  rcases hf with rfl | rfl
  · exact ⟨part, left, right, code, hcomposable, hcode, rfl⟩
  · refine ⟨_, right, left, code, hcomposable.swap, hcode, ?_⟩
    rw [composed, h.compl_compl]

/-- One step of the plain loop offers everything over its split. -/
theorem offerSplitPlainly_eq {part : Finset ℕ} (hlevels : Readable table levels m) (h : Cut m part)
    (set : FilteredStore WordFiles) :
    offerSplitPlainly table levels m set (splitOf m part) = (set.offerAll
      (plainCandidatesOf table (formulasAt levels) (splitOf m part))).mapError .store := by
  have hcompl := h.compl
  obtain ⟨⟨left, hleft, hlefts⟩, hfits⟩ := hlevels _ h.nonempty.card_pos h.card_lt
  obtain ⟨⟨right, hright, hrights⟩, hfits'⟩ := hlevels _ hcompl.nonempty.card_pos hcompl.card_lt
  have htransplant := transplant_eq_ok ((length_ascending part).symm ▸ hfits)
  have htransplant' :=
    transplant_eq_ok ((length_ascending (Finset.range m \ part)).symm ▸ hfits')
  rw [length_ascending] at htransplant htransplant'
  unfold offerSplitPlainly plainCandidatesOf
  simp only [splitOf, length_ascending, hleft, hright, hlefts, hrights, bind, Except.bind,
    Except.mapError, htransplant, htransplant']

/-- Once the candidates were offered, the plain loop leaves the store as it is. -/
theorem exists_foldlM_offerSplitPlainly {rule : AdmissionRule} (hsymmetric : rule.table.Symmetric)
    (hpos : 0 < rule.policy.threshold) (hlevels : Readable rule.table levels m)
    (hm : m ≤ maxSubsetTotal)
    (hfilter : set.filter.Remembers m rule (candidates rule.table (formulasAt levels) m)) :
    ∃ after, (plainSplits m).foldlM (offerSplitPlainly rule.table levels m) set = .ok after ∧
      after.store = set.store := by
  have hbyte : m ≤ UInt8.size := Nat.le_trans hm maxSubsetTotal_le
  have hsteps : ∀ split ∈ plainSplits m, ∀ set, offerSplitPlainly rule.table levels m set split =
      (set.offerAll (plainCandidatesOf rule.table (formulasAt levels) split)).mapError .store := by
    intro split hsplit set
    obtain ⟨part, hcut, rfl⟩ := (mem_plainSplits hbyte).mp hsplit
    exact offerSplitPlainly_eq hlevels hcut set
  have hknown : ∀ f ∈ (plainSplits m).flatMap (plainCandidatesOf rule.table (formulasAt levels)),
      f.size = m ∧ rule.Evaluates f ∧
        rule.Knows (candidates rule.table (formulasAt levels) m) f := by
    intro f hf
    obtain ⟨split, hsplit, hf⟩ := List.mem_flatMap.mp hf
    obtain ⟨part, hcut, rfl⟩ := (mem_plainSplits hbyte).mp hsplit
    obtain ⟨_, _, _, code, h, hcode, rfl⟩ := mem_plainCandidatesOf hcut hf
    have hfits := h.composed_fits hlevels.levelsFit hm hcode
    exact ⟨hfits.size_eq, hfilter.evaluates hfits, h.knows hlevels.levelsFit hbyte hsymmetric code⟩
  obtain ⟨after, hoffer, hstore⟩ := FilteredStore.offerAll_of_knows hfilter hpos hknown
  refine ⟨after, ?_, hstore⟩
  rw [foldlM_eq_offerAll hsteps, hoffer]
  rfl

/-- The level that is made plainly is the level that is made. -/
theorem makeLevelPlainly_eq (hsymmetric : table.Symmetric) (hpos : 0 < request.policy.threshold)
    (hlevels : Readable table levels m) (hm : m ≤ maxSubsetTotal) :
    makeLevelPlainly request table fresh levels m = makeLevel request table fresh levels m := by
  unfold makeLevelPlainly makeLevel fillLevelPlainly
  cases hfill : fillLevel request table fresh levels m with
  | error error => rfl
  | ok set =>
    have hfilter := (offered_of_fillLevel hlevels hm hfill).filter
    obtain ⟨after, hafter, hstore⟩ :=
      exists_foldlM_offerSplitPlainly hsymmetric hpos hlevels hm hfilter
    have hplain : (plainSplits m).foldlM (offerSplitPlainly table levels m) set = .ok after := hafter
    simp only [bind, Except.bind, hplain]
    -- warnings and the finished store come of the store alone
    obtain ⟨_, filter⟩ := after
    obtain rfl : _ = set.store := hstore
    rfl

/-- Making levels plainly makes the same levels. -/
theorem levelsUpToPlainly_eq (hsymmetric : table.Symmetric) (hpos : 0 < request.policy.threshold)
    (hm : m ≤ maxSubsetTotal) :
    levelsUpToPlainly entropy request table m = levelsUpTo entropy request table m := by
  induction m with
  | zero => rfl
  | succ m ih =>
    unfold levelsUpToPlainly levelsUpTo
    rw [ih (Nat.le_of_succ_le hm)]
    rcases hbelow : levelsUpTo entropy request table m with ⟨outcome, warnings⟩
    cases outcome with
    | error error => rfl
    | ok levels =>
      obtain ⟨-, hmade⟩ := made_of_levelsUpTo (Nat.le_of_succ_le hm) hbelow
      have hreadable : Readable table levels (m + 1) :=
        readable_of_made fun size hsize hlt => hmade size hsize (Nat.le_of_lt_succ hlt)
      have hmake : makeLevelPlainly request table (entropy (m + 1)) levels (m + 1) = _ :=
        makeLevelPlainly_eq hsymmetric hpos hreadable hm
      dsimp only
      generalize makeLevelPlainly request table (entropy (m + 1)) levels (m + 1) = plain at hmake ⊢
      subst hmake
      rfl

end Generation

/-- The sets over every number of slots up to the requested one, made plainly. -/
def generateLevelsPlainly (entropy : Entropy) (request : Request) (table : OperatorTable) :
    Except GenerationError Levels × List Warning :=
  match request.validate with
  | .error error => (.error error, [])
  | .ok () => Generation.levelsUpToPlainly entropy request table request.slots

namespace Generation

/-- In every run under operators whose commutative ones have symmetric functions, the filter over
any number of slots has seen everything once it was offered the candidates. Whichever way the slots
are cut in two, and whichever of the formulas stored for both parts are combined, in either order
and under any code, offering the combination leaves every seen set as it was and does not admit it.
The answer is that it is not admitted, with one exception: a code without an operator is an error if
both operands have a number as their value under one of the vectors. So offering everything once
more, plainly, makes the same levels with the same warnings. -/
theorem offer_combination_saturated (entropy : Entropy) (request : Request) (table : OperatorTable)
    (hsymmetric : table.Symmetric) (hrequest : request.validate = .ok ()) :
    (∀ m levels warnings set, 1 ≤ m → m ≤ request.slots →
      levelsUpTo entropy request table (m - 1) = (.ok levels, warnings) →
      fillLevel request table (entropy m) levels m = .ok set →
      (∀ size, 1 ≤ size → size < m → ∃ store, levels[size - 1]? = some store ∧
        store.toList = .ok (formulasAt levels size)) ∧
      ∀ part, Cut m part → ∀ left ∈ formulasAt levels part.card,
        ∀ right ∈ formulasAt levels (Finset.range m \ part).card,
          ∃ x y, left.relabel (ascending part) = .ok x ∧
            right.relabel (ascending (Finset.range m \ part)) = .ok y ∧
            ∀ code, ∀ f ∈ [Formula.combine x y code, Formula.combine y x code],
              set.filter.SameSeen (set.filter.offer f).2 ∧ (set.filter.offer f).1 ≠ .ok true ∧
                (code.toNat < table.size ∨ ¬ set.filter.HaveNumbers x y →
                  (set.filter.offer f).1 = .ok false) ∧
                (table.size ≤ code.toNat → set.filter.HaveNumbers x y →
                  (set.filter.offer f).1 = .error (.evaluation (.operator (.unknownCode code))))) ∧
    generateLevelsPlainly entropy request table = generateLevels entropy request table := by
  obtain ⟨⟨-, hslots⟩, hpolicy⟩ := Request.validate_eq_ok_iff.mp hrequest
  have hpos := ((request.policy.validate_eq_ok_iff).mp hpolicy).1
  have hbound : request.slots ≤ maxSubsetTotal := Nat.le_trans hslots (by decide)
  constructor
  · intro m levels warnings set hm hle hrun hfill
    have hroom : m ≤ maxSubsetTotal := Nat.le_trans hle hbound
    have hbyte : m ≤ UInt8.size := Nat.le_trans hroom maxSubsetTotal_le
    obtain ⟨-, hmade⟩ := made_of_levelsUpTo (Nat.le_trans (Nat.sub_le m 1) hroom) hrun
    have hreadable : Readable table levels m :=
      readable_of_made fun size hsize hlt => hmade size hsize (Nat.le_sub_one_of_lt hlt)
    have hfits := hreadable.levelsFit
    have hfilter := (offered_of_fillLevel hreadable hroom hfill).filter
    have hnumbers := hfilter.asks.holdsNumbers
    refine ⟨fun size hsize hlt => (hreadable size hsize hlt).1, ?_⟩
    intro part hcut left hleft right hright
    have h : Composable (formulasAt levels) m part left right :=
      ⟨hcut, hleft, card_range_sdiff hcut.subset ▸ hright⟩
    refine ⟨_, _, h.relabel_left hfits, h.swap.relabel_left hfits, fun code f hf => ?_⟩
    simp only [List.mem_cons, List.not_mem_nil, or_false] at hf
    rcases hf with rfl | rfl
    · exact h.offer_composed hfits hroom hsymmetric hpos hfilter hnumbers code
    · have hmirror := h.swap.offer_composed hfits hroom hsymmetric hpos hfilter hnumbers code
      rw [composed, hcut.compl_compl, NoveltyFilter.haveNumbers_comm] at hmirror
      exact hmirror
  · unfold generateLevelsPlainly generateLevels
    rw [hrequest]
    exact levelsUpToPlainly_eq hsymmetric hpos hbound

/-- Over two slots slot one plus slot zero is left out, and known. -/
theorem offer_combination_saturated_twoSlots :
    let request : Request := { slots := 2, policy := { seed := some 7 } }
    let fresh : Entropy := fun _ => Vector.replicate 8 0
    OperatorTable.arithmetic.Symmetric ∧ request.validate = .ok () ∧
      (∃ levels warnings set, levelsUpTo fresh request .arithmetic 1 = (.ok levels, warnings) ∧
        fillLevel request .arithmetic (fresh 2) levels 2 = .ok set ∧
        (set.filter.offer ⟨[1, 0], [0], [true, true, false]⟩).1 = .ok false) ∧
      generateLevelsPlainly fresh request .arithmetic = generateLevels fresh request .arithmetic := by
  intro request fresh
  have hsymmetric := OperatorTable.symmetric_arithmetic
  obtain ⟨hsaturated, hsame⟩ :=
    offer_combination_saturated fresh request .arithmetic hsymmetric rfl
  obtain ⟨levels, warnings, hrun⟩ : ∃ levels warnings,
      levelsUpTo fresh request .arithmetic 1 = (.ok levels, warnings) :=
    exists_levelsUpTo rfl (by decide) fun size _ _ => Or.inl rfl
  obtain ⟨-, hmade⟩ := made_of_levelsUpTo (by decide) hrun
  have hreadable : Readable .arithmetic levels 2 :=
    readable_of_made fun size hsize hlt => hmade size hsize (Nat.le_of_lt_succ hlt)
  have hadmitted : (ruleFor fresh request .arithmetic 1).admissions [Formula.operand] =
      [Formula.operand] := by decide +kernel
  have hone : formulasAt levels 1 = [Formula.operand] :=
    (hmade 1 Nat.one_pos (Nat.le_refl 1)).eq_admissions.trans hadmitted
  have hbuild : ∃ store, (request.kindFor 2).build .arithmetic 2 = .ok store := ⟨_, rfl⟩
  obtain ⟨start, hstart⟩ := exists_startLevel rfl hbuild (fresh 2)
  obtain ⟨set, hfill, -⟩ := exists_fillLevel hreadable (by decide) hstart
  obtain ⟨-, hoffers⟩ := hsaturated 2 levels warnings set (by decide) (Nat.le_refl 2) hrun hfill
  have hcut : Cut 2 {1} := ⟨by decide, by decide, by decide⟩
  have hrest : Finset.range 2 \ {1} = {0} := by decide
  have hslot : ascending {1} = [1] := ascending_eq_filter hcut.subset
  have hslot' : ascending {0} = [0] := hrest ▸ ascending_eq_filter hcut.compl.subset
  have hmem : Formula.operand ∈ formulasAt levels 1 := hone ▸ List.mem_cons_self
  have hmem' : Formula.operand ∈ formulasAt levels (Finset.range 2 \ {1}).card := by
    rw [hrest]
    exact hmem
  obtain ⟨x, y, hx, hy, hanswers⟩ := hoffers {1} hcut _ hmem _ hmem'
  rw [hslot] at hx
  rw [hrest, hslot'] at hy
  cases hx
  cases hy
  obtain ⟨-, -, hanswer, -⟩ := hanswers 0 _ List.mem_cons_self
  exact ⟨hsymmetric, rfl, ⟨levels, warnings, set, hrun, hfill, hanswer (Or.inl (by decide))⟩, hsame⟩

end Generation

end Formulary
