import Formulary.Proofs.Store.Backing
import Formulary.Proofs.Generation.Levels

/-!
# Where a run keeps its sets

A run keeps its sets in memory, as formulas or packed, or it writes the finished set to a directory.
Neither this nor the number of slots that is asked for in the end decides what a level holds: with a
seed, the rule for admission over some number of slots is the same in every run, and the candidates
come from the levels below, which by induction hold the same formulas.

With a directory the levels below the finished one are those of a packed run, which knows of no
directory. The finished set is written at the end, all at once.
-/

namespace Formulary

/-- On the way to the finished set nothing is kept in a directory. -/
theorem Request.kindFor_of_ne {request : Request} {m : ℕ} (hm : m ≠ request.slots) :
    request.kindFor m = .memory ∨ request.kindFor m = .packed := by
  unfold kindFor
  cases request.kind with
  | memory => exact Or.inl rfl
  | packed => exact Or.inr rfl
  | external path directory => exact Or.inr (if_neg hm)

namespace Generation

/-- If the finished set goes to a directory, it can be written there. -/
def WriteSucceeds (entropy : Entropy) (request : Request) (table : OperatorTable) : Prop :=
  ∀ path directory, request.kind = .external path directory → ∀ levels warnings set,
    levelsUpTo entropy request table (request.slots - 1) = (.ok levels, warnings) →
      fillLevel request table (entropy request.slots) levels request.slots = .ok set →
        set.finish.1 = .ok ()

variable {entropy entropy' : Entropy} {request request' : Request} {table : OperatorTable}
  {levels levels' : Levels} {m : ℕ} {fresh : ChaCha.Key} {store : Store WordFiles}

/-- Under a seed the rule for admission does not depend on the run. -/
theorem ruleFor_eq (hpolicy : request.policy = request'.policy) {seed : UInt64}
    (hseed : request.policy.seed = some seed) (m : ℕ) :
    ruleFor entropy request table m = ruleFor entropy' request' table m := by
  have hkey (fresh : ChaCha.Key) : NoveltyFilter.drawKey request.policy fresh = .ofSeed seed := by
    unfold NoveltyFilter.drawKey
    rw [hseed]
  unfold ruleFor NoveltyFilter.drawnRule
  rw [← hpolicy, hkey, hkey]

/-- Under a seed two runs make the same levels, as far as both go. -/
theorem formulasAt_eq_formulasAt (hpolicy : request.policy = request'.policy) {seed : UInt64}
    (hseed : request.policy.seed = some seed) (hm : m ≤ UInt8.size) (hpos : 0 < m)
    (hmade : ∀ size, 0 < size → size ≤ m → LevelMade entropy request table levels size)
    (hmade' : ∀ size, 0 < size → size ≤ m → LevelMade entropy' request' table levels' size) :
    formulasAt levels m = formulasAt levels' m := by
  induction m using Nat.strong_induction_on with
  | _ m ih =>
    have hcandidates : candidates table (formulasAt levels) m =
        candidates table (formulasAt levels') m := by
      apply candidates_congr hm
      intro size hsize hlt
      apply ih size hlt (Nat.le_trans (Nat.le_of_lt hlt) hm) hsize
      · exact fun other hother hle => hmade other hother (Nat.le_trans hle (Nat.le_of_lt hlt))
      · exact fun other hother hle => hmade' other hother (Nat.le_trans hle (Nat.le_of_lt hlt))
    rw [(hmade m hpos (Nat.le_refl m)).eq_admissions, (hmade' m hpos (Nat.le_refl m)).eq_admissions,
      hcandidates, ruleFor_eq hpolicy hseed]

/-- A run makes all its levels if there is a codec for the largest and it can be written. -/
theorem exists_levelsUpTo_slots (hrequest : request.validate = .ok ())
    (hcodec : ∃ codec, Record.Codec.make table request.slots = .ok codec)
    (hwrite : WriteSucceeds entropy request table) :
    ∃ levels warnings, levelsUpTo entropy request table request.slots = (.ok levels, warnings) := by
  obtain ⟨⟨hpos, hle⟩, hpolicy⟩ := Request.validate_eq_ok_iff.mp hrequest
  have hbound : request.slots ≤ maxSubsetTotal := Nat.le_trans hle (by decide)
  obtain ⟨n, hn⟩ : ∃ n, request.slots = n + 1 := Nat.exists_eq_succ_of_ne_zero (Nat.ne_of_gt hpos)
  have hbelow : ∀ size, 0 < size → size ≤ n → request.kindFor size = .memory ∨
      request.kindFor size = .packed ∧ ∃ codec, Record.Codec.make table size = .ok codec := by
    intro size hsize hsmall
    have hne : size ≠ request.slots := by omega
    exact (Request.kindFor_of_ne hne).imp_right fun hpacked =>
      ⟨hpacked, Record.Codec.exists_make_of_le hcodec hsize (by omega)⟩
  rw [hn] at hbound hcodec
  obtain ⟨levels, warnings, hrun⟩ := exists_levelsUpTo hpolicy (Nat.le_of_succ_le hbound) hbelow
  rw [hn]
  apply exists_levelsUpTo_succ hpolicy hbound hrun
  · exact StoreKind.exists_build (Or.inr hcodec)
  · intro set hfill
    obtain ⟨-, hmade⟩ := made_of_levelsUpTo (Nat.le_of_succ_le hbound) hrun
    have hreadable : Readable table levels (n + 1) :=
      readable_of_made fun size hsize hlt => hmade size hsize (Nat.le_of_lt_succ hlt)
    have hinternal (hkind : request.kindFor (n + 1) = .memory ∨ request.kindFor (n + 1) = .packed) :
        set.finish.1 = .ok () :=
      finish_eq_ok hreadable hbound (StoreKind.backing_eq_none hkind) hfill
    cases hkind : request.kind with
    | memory => exact hinternal (Or.inl (by simp only [Request.kindFor, hkind]))
    | packed => exact hinternal (Or.inr (by simp only [Request.kindFor, hkind]))
    | external path directory =>
      have hwrite := hwrite path directory hkind levels warnings set
      rw [hn] at hwrite
      exact hwrite hrun hfill

/-- A directory that takes whatever is written takes the finished set. -/
theorem writeSucceeds_of_directory (hm : request.slots ≤ maxSubsetTotal)
    (h : ∀ path directory, request.kind = .external path directory → ∀ words records,
      (WordFiles.writeInto request.slots directory words records).1 = .ok ()) :
    WriteSucceeds entropy request table := by
  intro path directory hkind levels warnings set hrun hfill
  obtain ⟨-, hmade⟩ := made_of_levelsUpTo (Nat.le_trans (Nat.sub_le _ 1) hm) hrun
  have hreadable : Readable table levels request.slots :=
    readable_of_made fun size hsize hlt => hmade size hsize (Nat.le_sub_one_of_lt hlt)
  have hbacking : set.store.backing = some (⟨path, request.slots, directory⟩, 0) := by
    have hlast : request.kindFor request.slots = .external path directory := by
      simp only [Request.kindFor, hkind, if_true]
    rw [backing_of_fillLevel hreadable hm hfill, hlast]
    rfl
  exact Store.flush_eq_ok hbacking fun words records => h path directory hkind words records

/-- A level that was made comes of a set of which nothing was written before it was finished. -/
theorem exists_flush_of_made
    (hmade : ∀ size, 0 < size → size ≤ m → LevelMade entropy request table levels size)
    (hpos : 0 < m) (hm : m ≤ maxSubsetTotal) :
    ∃ store, ∃ unwritten : Store WordFiles, levels[m - 1]? = some store ∧
      unwritten.backing = (request.kindFor m).backing m ∧ unwritten.flush = (.ok (), store) := by
  obtain ⟨⟨store, hstore, -, hmake⟩, -, -⟩ := hmade m hpos (Nat.le_refl m)
  have hreadable : Readable table levels m :=
    readable_of_made fun size hsize hlt => hmade size hsize (Nat.le_of_lt hlt)
  obtain ⟨set, hfill, hfinish⟩ := steps_of_makeLevel hmake
  exact ⟨store, set.store, hstore, backing_of_fillLevel hreadable.take hm hfill, hfinish⟩

/-- A run depends on its request through the policy and the kinds of its stores. -/
theorem levelsUpTo_congr (hpolicy : request.policy = request'.policy)
    (hkind : ∀ size, 0 < size → size ≤ m → request.kindFor size = request'.kindFor size) :
    levelsUpTo entropy request table m = levelsUpTo entropy request' table m := by
  induction m with
  | zero => rfl
  | succ m ih =>
    have hbelow := ih fun size hpos hle => hkind size hpos (Nat.le_succ_of_le hle)
    have hlast := hkind (m + 1) m.succ_pos (Nat.le_refl _)
    have hmake (levels : Levels) : makeLevel request table (entropy (m + 1)) levels (m + 1) =
        makeLevel request' table (entropy (m + 1)) levels (m + 1) := by
      unfold makeLevel fillLevel startLevel excessWarnings
      rw [hlast, hpolicy]
    unfold levelsUpTo
    rw [hbelow]
    simp only [hmake]

/-- Two lists of levels list the same formulas in the same order over up to `m` slots, and give back
the same formula at every position and none elsewhere. -/
def LevelsAgree (levels levels' : Levels) (m : ℕ) : Prop :=
  ∀ k, 1 ≤ k → k ≤ m → ∃ store store' formulas, levels[k - 1]? = some store ∧
    levels'[k - 1]? = some store' ∧ store.toList = .ok formulas ∧ store'.toList = .ok formulas ∧
      ∀ index, (store.get index).toOption = formulas[index]? ∧
        (store'.get index).toOption = formulas[index]?

/-- The levels of a run that writes to a directory, with only the finished set written there. -/
structure WrittenLast (entropy : Entropy) (policy : Policy) (table : OperatorTable) (n : ℕ)
    (path : String) (directory : Directory) (levels : Levels) : Prop where
  /-- The run up to the finished set is that of a packed run, which knows of no directory. -/
  below_eq : levelsUpTo entropy ⟨n, policy, .external path directory⟩ table (n - 1) =
    levelsUpTo entropy ⟨n, policy, .packed⟩ table (n - 1)
  /-- No store below the finished set has anything behind it. -/
  backing_eq_none : ∀ k, 1 ≤ k → k < n → ∃ store, levels[k - 1]? = some store ∧ store.backing = none
  /-- The records of the finished set are written at the end, all at once, or not at all if there are
  none. -/
  finished_eq : ∃ buffer, levels[n - 1]? = some (.external ⟨buffer, if buffer.length = 0
    then ⟨path, n, directory⟩
    else (WordFiles.write ⟨path, n, directory⟩ buffer.records.words buffer.length).2,
    buffer.length⟩)

/-- Under a seed, levels that were made in two runs agree as far as both go. -/
theorem levelsAgree_of_made {n n' : ℕ} (hpolicy : request.policy = request'.policy) {seed : UInt64}
    (hseed : request.policy.seed = some seed) (hbound : n ≤ maxSubsetTotal)
    (hmade : ∀ size, 0 < size → size ≤ n → LevelMade entropy request table levels size)
    (hmade' : ∀ size, 0 < size → size ≤ n' → LevelMade entropy' request' table levels' size) :
    LevelsAgree levels levels' (min n n') := by
  intro k hpos hle
  have hsmall : k ≤ n := Nat.le_trans hle (Nat.min_le_left n n')
  have hsmall' : k ≤ n' := Nat.le_trans hle (Nat.min_le_right n n')
  have hbyte : k ≤ UInt8.size := Nat.le_trans (Nat.le_trans hsmall hbound) maxSubsetTotal_le
  have hsame : formulasAt levels k = formulasAt levels' k :=
    formulasAt_eq_formulasAt hpolicy hseed hbyte hpos
      (fun size hsize hlt => hmade size hsize (Nat.le_trans hlt hsmall))
      (fun size hsize hlt => hmade' size hsize (Nat.le_trans hlt hsmall'))
  obtain ⟨⟨store, hstore, hholds, -⟩, -, -⟩ := hmade k hpos hsmall
  obtain ⟨⟨store', hstore', hholds', -⟩, -, -⟩ := hmade' k hpos hsmall'
  rw [← hsame] at hholds'
  exact ⟨store, store', formulasAt levels k, hstore, hstore', hholds.toList_eq_ok,
    hholds'.toList_eq_ok, fun index => ⟨hholds.toOption_get index, hholds'.toOption_get index⟩⟩

/-- Levels that were made with a directory for the finished set are written last. -/
theorem writtenLast_of_made {policy : Policy} {n : ℕ} {path : String} {directory : Directory}
    (hpos : 1 ≤ n) (hbound : n ≤ maxSubsetTotal)
    (hmade : ∀ size, 0 < size → size ≤ n →
      LevelMade entropy ⟨n, policy, .external path directory⟩ table levels size) :
    WrittenLast entropy policy table n path directory levels := by
  have hpacked {k : ℕ} (hlt : k < n) :
      (Request.mk n policy (.external path directory)).kindFor k = .packed :=
    if_neg (Nat.ne_of_lt hlt)
  have hexternal : (Request.mk n policy (.external path directory)).kindFor n =
      .external path directory := if_pos rfl
  refine ⟨levelsUpTo_congr rfl fun size _ hle => hpacked (by omega), fun k hk hlt => ?_, ?_⟩
  · obtain ⟨store, unwritten, hstore, hbacking, hflush⟩ := exists_flush_of_made
      (fun size hsize hle => hmade size hsize (by omega)) hk (by omega)
    rw [hpacked hlt] at hbacking
    rw [Store.flush_of_backing_eq_none hbacking] at hflush
    cases hflush
    exact ⟨store, hstore, hbacking⟩
  · obtain ⟨store, unwritten, hstore, hbacking, hflush⟩ := exists_flush_of_made hmade hpos hbound
    rw [hexternal] at hbacking
    obtain ⟨buffer, rfl⟩ := Store.eq_of_flush hbacking hflush
    exact ⟨buffer, hstore⟩

/-- Two runs under one valid policy with a seed, over at most eleven slots and with codecs for them,
make the same levels as far as both go: the stores list the same formulas in the same order, and
give back the same formula at every position and none elsewhere. This is so whatever the largest
numbers of slots are and wherever the sets are kept, as long as finished sets that go to a directory
can be written there. With a directory the run up to the finished set is that of a packed run, no
store of it has anything behind it, and the records of the finished set are written at the end, all
at once, or not at all if there are none. -/
theorem generateLevels_agree (table : OperatorTable) (policy : Policy) (seed : UInt64)
    (hseed : policy.seed = some seed) (hpolicy : policy.validate = .ok ()) (n n' : ℕ)
    (hn : 1 ≤ n ∧ n ≤ 11) (hn' : 1 ≤ n' ∧ n' ≤ 11)
    (hcodec : ∃ codec, Record.Codec.make table n = .ok codec)
    (hcodec' : ∃ codec, Record.Codec.make table n' = .ok codec) (kind kind' : StoreKind)
    (entropy entropy' : Entropy) (hwrite : WriteSucceeds entropy ⟨n, policy, kind⟩ table)
    (hwrite' : WriteSucceeds entropy' ⟨n', policy, kind'⟩ table) :
    ∃ levels warnings levels' warnings',
      generateLevels entropy ⟨n, policy, kind⟩ table = (.ok levels, warnings) ∧
      generateLevels entropy' ⟨n', policy, kind'⟩ table = (.ok levels', warnings') ∧
      levels.length = n ∧ levels'.length = n' ∧ LevelsAgree levels levels' (min n n') ∧
      ∀ path directory, kind = .external path directory →
        WrittenLast entropy policy table n path directory levels := by
  have hrequest : Request.validate ⟨n, policy, kind⟩ = .ok () :=
    Request.validate_eq_ok_iff.mpr ⟨hn, hpolicy⟩
  have hrequest' : Request.validate ⟨n', policy, kind'⟩ = .ok () :=
    Request.validate_eq_ok_iff.mpr ⟨hn', hpolicy⟩
  have hbound : n ≤ maxSubsetTotal := Nat.le_trans hn.2 (by decide)
  have hbound' : n' ≤ maxSubsetTotal := Nat.le_trans hn'.2 (by decide)
  obtain ⟨levels, warnings, hrun⟩ := exists_levelsUpTo_slots hrequest hcodec hwrite
  obtain ⟨levels', warnings', hrun'⟩ := exists_levelsUpTo_slots hrequest' hcodec' hwrite'
  obtain ⟨hlength, hmade⟩ := made_of_levelsUpTo hbound hrun
  obtain ⟨hlength', hmade'⟩ := made_of_levelsUpTo hbound' hrun'
  have hpolicies : (Request.mk n policy kind).policy = (Request.mk n' policy kind').policy := rfl
  refine ⟨levels, warnings, levels', warnings', ?_, ?_, hlength, hlength',
    levelsAgree_of_made hpolicies hseed hbound hmade hmade', ?_⟩
  · unfold generateLevels
    rw [hrequest]
    exact hrun
  · unfold generateLevels
    rw [hrequest']
    exact hrun'
  · rintro path directory rfl
    exact writtenLast_of_made hn.1 hbound hmade

/-- Two slots written to a new directory, and three slots packed. -/
theorem generateLevels_agree_newDirectory :
    let policy : Policy := { seed := some 7 }
    let fresh : Entropy := fun _ => Vector.replicate 8 0
    let written : Request := ⟨2, policy, .external "cache" .absent⟩
    let packed : Request := ⟨3, policy, .packed⟩
    ∃ levels warnings levels' warnings' store store',
      generateLevels fresh written .arithmetic = (.ok levels, warnings) ∧
      generateLevels fresh packed .arithmetic = (.ok levels', warnings') ∧
      levels[1]? = some store ∧ levels'[1]? = some store' ∧ store.toList = store'.toList := by
  intro policy fresh written packed
  have hcodec : ∃ codec, Record.Codec.make .arithmetic 2 = .ok codec :=
    Record.Codec.exists_make_iff.mpr ⟨by decide, by decide, by decide⟩
  have hcodec' : ∃ codec, Record.Codec.make .arithmetic 3 = .ok codec :=
    Record.Codec.exists_make_iff.mpr ⟨by decide, by decide, by decide⟩
  have hwrite : WriteSucceeds fresh written .arithmetic := by
    apply writeSucceeds_of_directory (by decide)
    intro path directory hkind words records
    cases hkind
    exact WordFiles.writeInto_absent 2 words records
  have hwrite' : WriteSucceeds fresh packed .arithmetic := fun path directory hkind => nomatch hkind
  obtain ⟨levels, warnings, levels', warnings', hrun, hrun', -, -, hagree, -⟩ :=
    generateLevels_agree .arithmetic policy 7 rfl rfl 2 3 (by decide) (by decide) hcodec hcodec'
      (.external "cache" .absent) .packed fresh fresh hwrite hwrite'
  obtain ⟨store, store', formulas, hstore, hstore', hlist, hlist', -⟩ :=
    hagree 2 (by decide) (by decide)
  exact ⟨levels, warnings, levels', warnings', store, store', hrun, hrun', hstore, hstore',
    hlist.trans hlist'.symm⟩

end Generation

end Formulary
