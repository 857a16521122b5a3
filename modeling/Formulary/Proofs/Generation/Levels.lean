import Formulary.Generation.Levels
import Formulary.Proofs.Generation.Candidates
import Formulary.Proofs.Store.Filtered

/-!
# What a run generates

The loops over sizes, splits and formulas offer one list of candidates, so a level holds what its
rule admits out of the candidates over its number of slots. By induction on the number of levels
this is so for every level of every run, and all its formulas fit; in turn no step of a run that
keeps its formulas in memory can fail.
-/

namespace Formulary

/-- A request is valid if it is for one to eleven slots under a valid policy. -/
theorem Request.validate_eq_ok_iff {request : Request} : request.validate = .ok () ↔
    (1 ≤ request.slots ∧ request.slots ≤ 11) ∧ request.policy.validate = .ok () := by
  unfold validate maxSlots
  split
  · next hrange => exact ⟨fun h => (nomatch h), fun ⟨hslots, _⟩ => by omega⟩
  · next hrange =>
    rw [Outcome.mapError_eq_ok_iff]
    exact (and_iff_right (by omega)).symm

namespace Generation

/-- The formulas that the level over `m` slots lists. -/
def formulasAt (levels : Levels) (m : ℕ) : List Formula :=
  match levels[m - 1]? with
  | some store =>
    match store.toList with
    | .ok formulas => formulas
    | .error _ => []
  | none => []

/-- The rule that decides which candidates over `m` slots are admitted. -/
def ruleFor (entropy : Entropy) (request : Request) (table : OperatorTable) (m : ℕ) :
    AdmissionRule :=
  NoveltyFilter.drawnRule m request.policy table (entropy m)

/-- A level that was made of the levels below it and holds what its rule admits. -/
structure LevelMade (entropy : Entropy) (request : Request) (table : OperatorTable)
    (levels : Levels) (m : ℕ) : Prop where
  holds : ∃ store, levels[m - 1]? = some store ∧ store.Holds table m (formulasAt levels m) ∧
    (makeLevel request table (entropy m) (levels.take (m - 1)) m).1 = .ok store
  fits : ∀ f ∈ formulasAt levels m, f.Fits table m
  eq_admissions : formulasAt levels m =
    (ruleFor entropy request table m).admissions (candidates table (formulasAt levels) m)

section Offering

variable {table : OperatorTable} {level : ℕ → List Formula} {levels : Levels} {m : ℕ}

/-- Valid formulas can be put on the slots of a list of the right length. -/
theorem transplant_eq_ok {formulas : List Formula} {slots : List UInt8}
    (h : ∀ f ∈ formulas, f.Fits table slots.length) :
    transplant formulas slots = .ok (formulas.map fun f => f.placeOn slots) := by
  apply Outcome.mapM_eq_ok_map
  intro f hf
  exact (h f hf).valid.relabel_eq_ok (h f hf).size_eq.symm

/-- The loop over the formulas of a split offers the candidates of the split. -/
theorem offerSplit_eq {split : Split}
    (hleft : ∀ f ∈ level split.left.length, f.Fits table split.left.length)
    (hright : ∀ f ∈ level split.right.length, f.Fits table split.right.length)
    (set : FilteredStore WordFiles) :
    offerSplit table (level split.left.length) (level split.right.length) set split =
      (set.offerAll (candidatesOf table level split)).mapError .store := by
  unfold offerSplit
  rw [transplant_eq_ok hleft, transplant_eq_ok hright]
  rfl

/-- A loop whose every step offers a list offers all of these lists. -/
theorem foldlM_eq_offerAll {α : Type}
    {step : FilteredStore WordFiles → α → Except GenerationError (FilteredStore WordFiles)}
    {items : List α} {listFor : α → List Formula}
    (h : ∀ item ∈ items, ∀ set, step set item = (set.offerAll (listFor item)).mapError .store)
    (set : FilteredStore WordFiles) :
    items.foldlM step set = (set.offerAll (items.flatMap listFor)).mapError .store := by
  induction items generalizing set with
  | nil => rfl
  | cons item rest ih =>
    have hrest := ih fun other hother => h other (List.mem_cons_of_mem item hother)
    rw [List.foldlM_cons, List.flatMap_cons, FilteredStore.offerAll_append, Outcome.mapError_bind,
      h item List.mem_cons_self]
    congr 1
    funext next
    exact hrest next

/-- The stores of the levels below `m` can be read, and their formulas fit. -/
def Readable (table : OperatorTable) (levels : Levels) (m : ℕ) : Prop :=
  ∀ size, 0 < size → size < m →
    (∃ store, levels[size - 1]? = some store ∧ store.toList = .ok (formulasAt levels size)) ∧
      ∀ f ∈ formulasAt levels size, f.Fits table size

/-- The loop over the splits of one size offers the candidates of these splits. -/
theorem offerSize_eq {size : ℕ} (hlevels : Readable table levels m) (hm : m ≤ maxSubsetTotal)
    (hsize : size ∈ splitSizes m) (set : FilteredStore WordFiles) :
    offerSize table levels m set size = (set.offerAll ((splitsVisited m size).flatMap
      (candidatesOf table (formulasAt levels)))).mapError .store := by
  obtain ⟨hhalf, hlt⟩ := mem_splitSizes.mp hsize
  obtain ⟨⟨left, hleft, hlefts⟩, hfits⟩ := hlevels size (by omega) hlt
  obtain ⟨⟨right, hright, hrights⟩, hfits'⟩ := hlevels (m - size) (by omega) (by omega)
  have hproper : isProperSplit size m = true := by
    simp only [isProperSplit, Bool.and_eq_true, decide_eq_true_eq]
    omega
  have hbyte : m ≤ UInt8.size := Nat.le_trans hm maxSubsetTotal_le
  have hsteps : ∀ split ∈ splitsVisited m size, ∀ set,
      offerSplit table (formulasAt levels size) (formulasAt levels (m - size)) set split =
        (set.offerAll (candidatesOf table (formulasAt levels) split)).mapError .store := by
    intro split hsplit set
    obtain ⟨part, hleads, rfl, rfl⟩ := (mem_splitsVisited hbyte hsize).mp hsplit
    have hlength : (splitOf m part).left.length = part.card := length_ascending part
    have hlength' : (splitOf m part).right.length = m - part.card :=
      (length_ascending _).trans (card_range_sdiff hleads.1)
    have hoffer := offerSplit_eq (hlength ▸ hfits) (hlength' ▸ hfits') set
    rwa [hlength, hlength'] at hoffer
  have hroom : ¬ maxSubsetTotal < m := Nat.not_lt_of_le hm
  unfold offerSize
  rw [hproper, hleft, hright]
  simp only [hlefts, hrights, splitsOfSize_eq_ok hm (Nat.le_of_lt hlt), if_neg hroom]
  exact foldlM_eq_offerAll hsteps set

/-- The loop over the sizes of the larger part offers all candidates. -/
theorem foldlM_offerSize_eq (hlevels : Readable table levels m) (hm : m ≤ maxSubsetTotal)
    (hmany : m ≠ 1) (set : FilteredStore WordFiles) :
    (splitSizes m).foldlM (offerSize table levels m) set =
      (set.offerAll (candidates table (formulasAt levels) m)).mapError .store := by
  have hsteps : ∀ size ∈ splitSizes m, ∀ set, offerSize table levels m set size =
      (set.offerAll ((splitsVisited m size).flatMap
        (candidatesOf table (formulasAt levels)))).mapError .store :=
    fun size hsize set => offerSize_eq hlevels hm hsize set
  rw [foldlM_eq_offerAll hsteps, candidates, if_neg hmany, allSplits, List.flatMap_assoc]

/-- Filling a level offers its candidates to the set that the level starts with. -/
theorem fillLevel_eq {request : Request} {fresh : ChaCha.Key} {set : FilteredStore WordFiles}
    (hlevels : Readable table levels m) (hm : m ≤ maxSubsetTotal)
    (hstart : startLevel request table fresh m = .ok set) :
    fillLevel request table fresh levels m =
      (set.offerAll (candidates table (formulasAt levels) m)).mapError .store := by
  unfold fillLevel
  rw [hstart]
  by_cases hone : m = 1
  · subst hone
    rfl
  · rw [← foldlM_offerSize_eq hlevels hm hone]
    exact if_neg hone

end Offering

section Making

variable {entropy : Entropy} {request : Request} {table : OperatorTable} {levels : Levels} {m : ℕ}
  {fresh : ChaCha.Key} {set : FilteredStore WordFiles} {store : Store WordFiles}
  {warnings : List Warning}

/-- A level starts with nothing in its store and nothing offered to its filter. -/
theorem offered_of_startLevel (h : startLevel request table fresh m = .ok set) :
    set.Offered m (NoveltyFilter.drawnRule m request.policy table fresh) [] := by
  obtain ⟨store, hstore, h⟩ := Outcome.bind_eq_ok_iff.mp h
  obtain ⟨filter, hfilter, h⟩ := Outcome.bind_eq_ok_iff.mp h
  have hmake := Outcome.mapError_eq_ok_iff.mp h
  unfold FilteredStore.make at hmake
  split at hmake
  · cases hmake
  · cases hmake
    exact ⟨StoreKind.holds_nil_of_build (Outcome.mapError_eq_ok_iff.mp hstore),
      NoveltyFilter.remembers_of_draw (Outcome.mapError_eq_ok_iff.mp hfilter)⟩

/-- When a level starts, nothing is written yet. -/
theorem backing_of_startLevel (h : startLevel request table fresh m = .ok set) :
    set.store.backing = (request.kindFor m).backing m := by
  obtain ⟨store, hstore, h⟩ := Outcome.bind_eq_ok_iff.mp h
  obtain ⟨filter, -, h⟩ := Outcome.bind_eq_ok_iff.mp h
  have hmake := Outcome.mapError_eq_ok_iff.mp h
  unfold FilteredStore.make at hmake
  split at hmake
  · cases hmake
  · cases hmake
    exact StoreKind.backing_of_build (Outcome.mapError_eq_ok_iff.mp hstore)

/-- A level can be started with a valid policy and a store that can be built. -/
theorem exists_startLevel (hpolicy : request.policy.validate = .ok ())
    (hbuild : ∃ store, (request.kindFor m).build table m = .ok store) (fresh : ChaCha.Key) :
    ∃ set, startLevel request table fresh m = .ok set := by
  obtain ⟨store, hstore⟩ := hbuild
  obtain ⟨filter, hfilter, hremembers⟩ := NoveltyFilter.draw_eq_ok hpolicy fresh
  have hslots : store.slots = filter.slots :=
    (StoreKind.holds_nil_of_build hstore).slots_eq.trans hremembers.slots_eq.symm
  have hmake : FilteredStore.make store filter = .ok ⟨store, filter⟩ :=
    if_neg (not_not_intro hslots)
  refine ⟨⟨store, filter⟩, ?_⟩
  unfold startLevel
  rw [hstore, hfilter]
  exact congrArg (Except.mapError GenerationError.store) hmake

/-- What is read from the levels below fits. -/
theorem Readable.levelsFit (h : Readable table levels m) :
    LevelsFit table (formulasAt levels) m :=
  fun size hpos hlt => (h size hpos hlt).2

/-- A level that was started can be filled, and holds what its rule admits. -/
theorem exists_fillLevel (hlevels : Readable table levels m) (hm : m ≤ maxSubsetTotal)
    (hstart : startLevel request table fresh m = .ok set) :
    ∃ after, fillLevel request table fresh levels m = .ok after ∧
      after.Offered m (NoveltyFilter.drawnRule m request.policy table fresh)
        (candidates table (formulasAt levels) m) := by
  have hfits : ∀ f ∈ candidates table (formulasAt levels) m, f.Fits table m :=
    fun f hf => fits_of_mem_candidates hlevels.levelsFit hm hf
  obtain ⟨after, hoffer, hoffered⟩ := (offered_of_startLevel hstart).offerAll_eq_ok hfits
  refine ⟨after, ?_, hoffered⟩
  rw [fillLevel_eq hlevels hm hstart, hoffer]
  rfl

/-- A level that was filled holds what its rule admits. -/
theorem offered_of_fillLevel (hlevels : Readable table levels m) (hm : m ≤ maxSubsetTotal)
    (hfill : fillLevel request table fresh levels m = .ok set) :
    set.Offered m (NoveltyFilter.drawnRule m request.policy table fresh)
      (candidates table (formulasAt levels) m) := by
  obtain ⟨start, hstart, -⟩ := Outcome.bind_eq_ok_iff.mp hfill
  obtain ⟨after, hafter, hoffered⟩ := exists_fillLevel hlevels hm hstart
  rw [hfill] at hafter
  cases hafter
  exact hoffered

/-- When a level was filled, nothing is written yet. -/
theorem backing_of_fillLevel (hlevels : Readable table levels m) (hm : m ≤ maxSubsetTotal)
    (hfill : fillLevel request table fresh levels m = .ok set) :
    set.store.backing = (request.kindFor m).backing m := by
  obtain ⟨start, hstart, -⟩ := Outcome.bind_eq_ok_iff.mp hfill
  rw [fillLevel_eq hlevels hm hstart] at hfill
  rw [FilteredStore.backing_offerAll (Outcome.mapError_eq_ok_iff.mp hfill),
    backing_of_startLevel hstart]

/-- A level that is made was filled and finished. -/
theorem steps_of_makeLevel (h : (makeLevel request table fresh levels m).1 = .ok store) :
    ∃ set, fillLevel request table fresh levels m = .ok set ∧ set.finish = (.ok (), store) := by
  unfold makeLevel at h
  split at h
  · cases h
  · next set hfill =>
    dsimp only at h
    split at h
    · cases h
    · next hfinish =>
      cases h
      exact ⟨set, hfill, hfinish⟩

/-- A level that is made holds what its rule admits. -/
theorem holds_of_makeLevel (hlevels : Readable table levels m) (hm : m ≤ maxSubsetTotal)
    (h : (makeLevel request table fresh levels m).1 = .ok store) :
    store.Holds table m ((NoveltyFilter.drawnRule m request.policy table fresh).admissions
      (candidates table (formulasAt levels) m)) := by
  obtain ⟨set, hfill, hfinish⟩ := steps_of_makeLevel h
  have hflushed := (offered_of_fillLevel hlevels hm hfill).store.flush
  unfold FilteredStore.finish at hfinish
  rwa [hfinish] at hflushed

/-- A level that was started can be made if it can be finished. -/
theorem exists_makeLevel (hlevels : Readable table levels m) (hm : m ≤ maxSubsetTotal)
    (hstart : startLevel request table fresh m = .ok set)
    (hfinish : ∀ after, fillLevel request table fresh levels m = .ok after →
      after.finish.1 = .ok ()) :
    ∃ store warnings, makeLevel request table fresh levels m = (.ok store, warnings) := by
  obtain ⟨after, hfill, -⟩ := exists_fillLevel hlevels hm hstart
  have hdone := hfinish after hfill
  rcases hwritten : after.finish with ⟨outcome, store⟩
  rw [hwritten] at hdone
  cases hdone
  refine ⟨store, excessWarnings request table after, ?_⟩
  unfold makeLevel
  rw [hfill]
  simp only [hwritten]

/-- A level that is not written anywhere can be finished. -/
theorem finish_eq_ok (hlevels : Readable table levels m) (hm : m ≤ maxSubsetTotal)
    (hbacking : (request.kindFor m).backing m = none)
    (hfill : fillLevel request table fresh levels m = .ok set) : set.finish.1 = .ok () := by
  have hnone := (backing_of_fillLevel hlevels hm hfill).trans hbacking
  unfold FilteredStore.finish
  rw [Store.flush_of_backing_eq_none hnone]

end Making

section Runs

variable {entropy : Entropy} {request : Request} {table : OperatorTable} {levels : Levels} {m : ℕ}
  {warnings : List Warning}

/-- What a level lists is what its store holds. -/
theorem formulasAt_eq {store : Store WordFiles} {formulas : List Formula}
    (hstore : levels[m - 1]? = some store) (hlist : store.toList = .ok formulas) :
    formulasAt levels m = formulas := by
  simp [formulasAt, hstore, hlist]

/-- Levels below a new one stay what they are. -/
theorem formulasAt_append (more : Levels) (hpos : 0 < m) (hle : m ≤ levels.length) :
    formulasAt (levels ++ more) m = formulasAt levels m := by
  unfold formulasAt
  rw [List.getElem?_append_left (by omega)]

/-- Levels that were made can be read. -/
theorem readable_of_made
    (h : ∀ size, 0 < size → size < m → LevelMade entropy request table levels size) :
    Readable table levels m := by
  intro size hpos hlt
  obtain ⟨⟨store, hstore, hholds, -⟩, hfits, -⟩ := h size hpos hlt
  exact ⟨⟨store, hstore, hholds.toList_eq_ok⟩, hfits⟩

/-- A level that was made stays so when further levels are made. -/
theorem LevelMade.append (h : LevelMade entropy request table levels m) (more : Levels)
    (hpos : 0 < m) (hle : m ≤ levels.length) (hm : m ≤ UInt8.size) :
    LevelMade entropy request table (levels ++ more) m := by
  obtain ⟨⟨store, hstore, hholds, hmake⟩, hfits, hadmissions⟩ := h
  have hsame : formulasAt (levels ++ more) m = formulasAt levels m :=
    formulasAt_append more hpos hle
  have hcandidates : candidates table (formulasAt (levels ++ more)) m =
      candidates table (formulasAt levels) m := by
    apply candidates_congr hm
    intro size hsize hlt
    exact formulasAt_append more hsize (by omega)
  refine ⟨⟨store, ?_, ?_, ?_⟩, ?_, ?_⟩
  · rw [List.getElem?_append_left (by omega), hstore]
  · rwa [hsame]
  · rwa [List.take_append_of_le_length (by omega)]
  · rwa [hsame]
  · rw [hsame, hcandidates, ← hadmissions]

/-- The level that is made on top of made levels is made as well. -/
theorem levelMade_of_makeLevel {store : Store WordFiles} (hlength : levels.length = m)
    (hlevels : ∀ size, 0 < size → size ≤ m → LevelMade entropy request table levels size)
    (hm : m + 1 ≤ maxSubsetTotal)
    (h : (makeLevel request table (entropy (m + 1)) levels (m + 1)).1 = .ok store) :
    LevelMade entropy request table (levels ++ [store]) (m + 1) := by
  have hreadable : Readable table levels (m + 1) :=
    readable_of_made fun size hpos hlt => hlevels size hpos (Nat.le_of_lt_succ hlt)
  have hholds := holds_of_makeLevel hreadable hm h
  have hstore : (levels ++ [store])[m + 1 - 1]? = some store := by
    simp [← hlength]
  have hlist := formulasAt_eq hstore hholds.toList_eq_ok
  have hcandidates : candidates table (formulasAt (levels ++ [store])) (m + 1) =
      candidates table (formulasAt levels) (m + 1) := by
    apply candidates_congr (Nat.le_trans hm maxSubsetTotal_le)
    intro size hpos hlt
    exact formulasAt_append [store] hpos (by omega)
  refine ⟨⟨store, hstore, ?_, ?_⟩, ?_, ?_⟩
  · rwa [hlist]
  · have htake : (levels ++ [store]).take (m + 1 - 1) = levels := by
      simp [← hlength]
    rw [htake, h]
  · rw [hlist]
    intro f hf
    exact fits_of_mem_candidates hreadable.levelsFit hm
      ((AdmissionRule.admissions_sublist _ _).subset hf)
  · rw [hlist, hcandidates]
    rfl

/-- Every run that succeeds has made all its levels. -/
theorem made_of_levelsUpTo (hm : m ≤ maxSubsetTotal)
    (h : levelsUpTo entropy request table m = (.ok levels, warnings)) :
    levels.length = m ∧
      ∀ size, 0 < size → size ≤ m → LevelMade entropy request table levels size := by
  induction m generalizing levels warnings with
  | zero =>
    cases h
    exact ⟨rfl, fun size hpos hle => absurd hpos (Nat.not_lt_of_le hle)⟩
  | succ m ih =>
    unfold levelsUpTo at h
    split at h
    · cases h
    · next below _ hbelow =>
      obtain ⟨hlength, hmade⟩ := ih (Nat.le_of_succ_le hm) hbelow
      split at h
      · cases h
      · next store _ hmake =>
        cases h
        refine ⟨by simp [hlength], fun size hpos hle => ?_⟩
        rcases Nat.lt_or_eq_of_le hle with hlt | rfl
        · have hbyte : size ≤ UInt8.size := Nat.le_trans (Nat.le_trans hle hm) maxSubsetTotal_le
          exact (hmade size hpos (by omega)).append [store] hpos (by omega) hbyte
        · exact levelMade_of_makeLevel hlength hmade hm (congrArg Prod.fst hmake)

/-- A run can make one more level if its store can be built and finished. -/
theorem exists_levelsUpTo_succ (hpolicy : request.policy.validate = .ok ())
    (hm : m + 1 ≤ maxSubsetTotal)
    (hbelow : levelsUpTo entropy request table m = (.ok levels, warnings))
    (hbuild : ∃ store, (request.kindFor (m + 1)).build table (m + 1) = .ok store)
    (hfinish : ∀ set, fillLevel request table (entropy (m + 1)) levels (m + 1) = .ok set →
      set.finish.1 = .ok ()) :
    ∃ levels warnings, levelsUpTo entropy request table (m + 1) = (.ok levels, warnings) := by
  obtain ⟨-, hmade⟩ := made_of_levelsUpTo (Nat.le_of_succ_le hm) hbelow
  have hreadable : Readable table levels (m + 1) :=
    readable_of_made fun size hpos hlt => hmade size hpos (Nat.le_of_lt_succ hlt)
  obtain ⟨set, hstart⟩ := exists_startLevel hpolicy hbuild (entropy (m + 1))
  obtain ⟨store, more, hmake⟩ := exists_makeLevel hreadable hm hstart hfinish
  refine ⟨levels ++ [store], warnings ++ more, ?_⟩
  rw [levelsUpTo, hbelow]
  simp only [hmake]

/-- A run with a valid policy makes every level that can be kept in memory. -/
theorem exists_levelsUpTo (hpolicy : request.policy.validate = .ok ()) (hm : m ≤ maxSubsetTotal)
    (hkind : ∀ size, 0 < size → size ≤ m → request.kindFor size = .memory ∨
      request.kindFor size = .packed ∧ ∃ codec, Record.Codec.make table size = .ok codec) :
    ∃ levels warnings, levelsUpTo entropy request table m = (.ok levels, warnings) := by
  induction m with
  | zero => exact ⟨[], [], rfl⟩
  | succ m ih =>
    obtain ⟨levels, warnings, hbelow⟩ := ih (Nat.le_of_succ_le hm)
      fun size hpos hle => hkind size hpos (Nat.le_succ_of_le hle)
    obtain ⟨-, hmade⟩ := made_of_levelsUpTo (Nat.le_of_succ_le hm) hbelow
    have hreadable : Readable table levels (m + 1) :=
      readable_of_made fun size hpos hlt => hmade size hpos (Nat.le_of_lt_succ hlt)
    have hkind := hkind (m + 1) m.succ_pos (Nat.le_refl _)
    have hbacking : (request.kindFor (m + 1)).backing (m + 1) = none :=
      StoreKind.backing_eq_none (hkind.imp_right And.left)
    apply exists_levelsUpTo_succ hpolicy hm hbelow
    · exact StoreKind.exists_build (hkind.imp_right And.right)
    · exact fun set hfill => finish_eq_ok hreadable hm hbacking hfill

/-- Only the levels below the one that is made are looked at. -/
theorem formulasAt_take {size : ℕ} (hpos : 0 < size) (hlt : size < m) :
    formulasAt (levels.take (m - 1)) size = formulasAt levels size := by
  unfold formulasAt
  rw [List.getElem?_take_of_lt (by omega)]

/-- To read the levels below `m`, no others are needed. -/
theorem Readable.take (h : Readable table levels m) :
    Readable table (levels.take (m - 1)) m := by
  intro size hpos hlt
  rw [formulasAt_take hpos hlt, List.getElem?_take_of_lt (by omega)]
  exact h size hpos hlt

/-- A level was filled with its candidates in their order. -/
theorem LevelMade.exists_offerAll
    (h : ∀ size, 0 < size → size ≤ m → LevelMade entropy request table levels size)
    (hpos : 0 < m) (hm : m ≤ maxSubsetTotal) :
    ∃ set, startLevel request table (entropy m) m = .ok set ∧
      fillLevel request table (entropy m) (levels.take (m - 1)) m =
        (set.offerAll (candidates table (formulasAt levels) m)).mapError .store := by
  obtain ⟨⟨store, -, -, hmake⟩, -, -⟩ := h m hpos (Nat.le_refl m)
  have hreadable : Readable table levels m :=
    readable_of_made fun size hsize hlt => h size hsize (Nat.le_of_lt hlt)
  obtain ⟨_, hfill, -⟩ := steps_of_makeLevel hmake
  obtain ⟨set, hstart, -⟩ := Outcome.bind_eq_ok_iff.mp hfill
  have hcandidates : candidates table (formulasAt (levels.take (m - 1))) m =
      candidates table (formulasAt levels) m :=
    candidates_congr (Nat.le_trans hm maxSubsetTotal_le) fun size hsize hlt => formulasAt_take hsize hlt
  exact ⟨set, hstart, hcandidates ▸ fillLevel_eq hreadable.take hm hstart⟩

end Runs

/-- A run with a valid policy over at most eleven slots makes a level for every number of slots,
in memory always and packed whenever the largest level has a codec. Each level consists of
formulas that pass the check, have as many slots and use codes of the table; and it holds exactly
those of its candidates that are new under as many vectors as the threshold asks for, in the order
in which they were offered. -/
theorem generateLevels_eq_admissions (entropy : Entropy) (request : Request)
    (table : OperatorTable) (hpolicy : request.policy.validate = .ok ())
    (hpos : 1 ≤ request.slots) (hle : request.slots ≤ 11)
    (hkind : request.kind = .memory ∨ request.kind = .packed ∧
      ∃ codec, Record.Codec.make table request.slots = .ok codec) :
    ∃ levels warnings, generateLevels entropy request table = (.ok levels, warnings) ∧
      levels.length = request.slots ∧
      ∀ m, 1 ≤ m → m ≤ request.slots →
        (∃ store, levels[m - 1]? = some store ∧ store.toList = .ok (formulasAt levels m) ∧
          (makeLevel request table (entropy m) (levels.take (m - 1)) m).1 = .ok store) ∧
        (∃ set, startLevel request table (entropy m) m = .ok set ∧
          fillLevel request table (entropy m) (levels.take (m - 1)) m =
            (set.offerAll (candidates table (formulasAt levels) m)).mapError .store) ∧
        (∀ f ∈ formulasAt levels m, f.validate = .ok () ∧ f.size = m ∧
          ∀ code ∈ f.codes, code.toNat < table.size) ∧
        formulasAt levels m = (ruleFor entropy request table m).admissions
          (candidates table (formulasAt levels) m) := by
  have hkinds : ∀ size, 0 < size → size ≤ request.slots → request.kindFor size = .memory ∨
      request.kindFor size = .packed ∧ ∃ codec, Record.Codec.make table size = .ok codec := by
    intro size hsize hsmall
    rcases hkind with hkind | ⟨hkind, hcodec⟩
    · exact Or.inl (by simp [Request.kindFor, hkind])
    · exact Or.inr ⟨by simp [Request.kindFor, hkind],
        Record.Codec.exists_make_of_le hcodec hsize hsmall⟩
  have hbound : request.slots ≤ maxSubsetTotal := Nat.le_trans hle (by decide)
  have hvalid : request.validate = .ok () := by
    have hrange : ¬ (request.slots = 0 ∨ Request.maxSlots < request.slots) := by
      unfold Request.maxSlots
      omega
    unfold Request.validate
    rw [if_neg hrange, hpolicy]
    rfl
  obtain ⟨levels, warnings, hlevels⟩ := exists_levelsUpTo hpolicy hbound hkinds
  obtain ⟨hlength, hmade⟩ := made_of_levelsUpTo hbound hlevels
  refine ⟨levels, warnings, ?_, hlength, fun m hm hsmall => ?_⟩
  · unfold generateLevels
    rw [hvalid]
    exact hlevels
  · obtain ⟨⟨store, hstore, hholds, hmake⟩, hfits, hadmissions⟩ := hmade m hm hsmall
    refine ⟨⟨store, hstore, hholds.toList_eq_ok, hmake⟩, ?_, ?_, hadmissions⟩
    · exact LevelMade.exists_offerAll (fun size hsize hlt => hmade size hsize (hlt.trans hsmall))
        hm (hsmall.trans hbound)
    · intro f hf
      obtain ⟨hsize, hcheck, hcodes⟩ := Formula.fits_iff.mp (hfits f hf)
      exact ⟨hcheck, hsize, hcodes⟩

/-- Three slots under the arithmetic operators, packed. -/
theorem generateLevels_eq_admissions_threeSlots :
    let request : Request := { slots := 3, policy := { seed := some 7 }, kind := .packed }
    let fresh : Entropy := fun _ => Vector.replicate 8 0
    ∃ levels warnings, generateLevels fresh request .arithmetic = (.ok levels, warnings) ∧
      levels.length = 3 ∧ ∀ f ∈ formulasAt levels 3, f.validate = .ok () ∧ f.size = 3 := by
  intro request fresh
  have hcodec : ∃ codec, Record.Codec.make .arithmetic 3 = .ok codec :=
    Record.Codec.exists_make_iff.mpr ⟨by decide, by decide, by decide⟩
  obtain ⟨levels, warnings, hlevels, hlength, hevery⟩ := generateLevels_eq_admissions fresh request
    .arithmetic rfl (by decide) (by decide) (Or.inr ⟨rfl, hcodec⟩)
  obtain ⟨-, -, hformulas, -⟩ := hevery 3 (by decide) (Nat.le_refl 3)
  exact ⟨levels, warnings, hlevels, hlength, fun f hf => ⟨(hformulas f hf).1, (hformulas f hf).2.1⟩⟩

end Generation

end Formulary
