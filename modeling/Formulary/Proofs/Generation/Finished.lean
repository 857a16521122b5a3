import Formulary.Proofs.Generation.Backends
import Formulary.Proofs.Generation.Enumeration
import Formulary.Proofs.Record.Bounds

/-!
# The finished set

A run that succeeds ends with the store of its last level. It holds formulas that all fit and of
which none occurs twice, so where there is a codec for them their number is that of a machine word.
Under a seed two runs for the same number of slots end with the same formulas.
-/

namespace Formulary.Generation

variable {entropy entropy' : Entropy} {request request' : Request} {table : OperatorTable}
  {store store' : Store WordFiles} {formulas formulas' : List Formula}

/-- A store at the end of a run, and the formulas of the last level that it holds. -/
structure Finished (entropy : Entropy) (request : Request) (table : OperatorTable)
    (store : Store WordFiles) (formulas : List Formula) : Prop where
  slots_range : 1 ≤ request.slots ∧ request.slots ≤ 11
  holds : store.Holds table request.slots formulas
  exists_made : ∃ levels, formulas = formulasAt levels request.slots ∧
    ∀ size, 0 < size → size ≤ request.slots → LevelMade entropy request table levels size

/-- A run that succeeds ends with the formulas of its last level. -/
theorem finished_of_generate (h : (generate entropy request table).1 = .ok store) :
    ∃ formulas, Finished entropy request table store formulas := by
  unfold generate generateLevels at h
  cases hvalid : request.validate with
  | error error =>
    rw [hvalid] at h
    cases h
  | ok done =>
    obtain ⟨hrange, -⟩ := Request.validate_eq_ok_iff.mp hvalid
    rcases hrun : levelsUpTo entropy request table request.slots with ⟨outcome, warnings⟩
    rw [hvalid] at h
    simp only [hrun] at h
    cases outcome with
    | error error => cases h
    | ok levels =>
      obtain ⟨hlength, hmade⟩ :=
        made_of_levelsUpTo (Nat.le_trans hrange.2 (by decide)) hrun
      obtain ⟨⟨last, hlast, hholds, -⟩, -, -⟩ := hmade request.slots hrange.1 (Nat.le_refl _)
      have hstore : levels.getLast? = some last := by
        rw [List.getLast?_eq_getElem?, hlength, hlast]
      simp only [hstore] at h
      cases h
      exact ⟨_, hrange, hholds, levels, rfl, hmade⟩

/-- A run that makes all its levels succeeds. -/
theorem exists_generate (hvalid : request.validate = .ok ())
    (hrun : ∃ levels warnings,
      levelsUpTo entropy request table request.slots = (.ok levels, warnings)) :
    ∃ store, (generate entropy request table).1 = .ok store := by
  obtain ⟨levels, warnings, hrun⟩ := hrun
  obtain ⟨hrange, -⟩ := Request.validate_eq_ok_iff.mp hvalid
  obtain ⟨hlength, -⟩ := made_of_levelsUpTo (Nat.le_trans hrange.2 (by decide)) hrun
  have hne : levels ≠ [] := by
    rintro rfl
    rw [List.length_nil] at hlength
    omega
  refine ⟨levels.getLast hne, ?_⟩
  unfold generate generateLevels
  rw [hvalid]
  simp only [hrun, List.getLast?_eq_some_getLast hne]

/-- A run with an invalid request fails with what is wrong with the request. -/
theorem generate_of_validate_eq_error {error : GenerationError}
    (h : request.validate = .error error) :
    generate entropy request table = (.error error, []) := by
  unfold generate generateLevels
  rw [h]

/-- A run that keeps its formulas in memory succeeds. -/
theorem exists_generate_memory (entropy : Entropy) (table : OperatorTable)
    (hvalid : request.validate = .ok ()) (hkind : request.kind = .memory) :
    ∃ store, (generate entropy request table).1 = .ok store := by
  obtain ⟨hrange, hpolicy⟩ := Request.validate_eq_ok_iff.mp hvalid
  apply exists_generate hvalid
  apply exists_levelsUpTo hpolicy (Nat.le_trans hrange.2 (by decide))
  exact fun size _ _ => Or.inl (by simp only [Request.kindFor, hkind])

namespace Finished

/-- All formulas of a finished set fit. -/
theorem fits (h : Finished entropy request table store formulas) :
    ∀ f ∈ formulas, f.Fits table request.slots := by
  obtain ⟨levels, rfl, hmade⟩ := h.exists_made
  exact (hmade request.slots h.slots_range.1 (Nat.le_refl _)).fits

/-- No formula occurs twice in a finished set. -/
theorem nodup (h : Finished entropy request table store formulas) : formulas.Nodup := by
  obtain ⟨levels, rfl, hmade⟩ := h.exists_made
  have hbyte : request.slots + 1 ≤ UInt8.size :=
    Nat.le_trans (Nat.succ_le_succ h.slots_range.2) (by decide)
  exact nodup_formulasAt hbyte (fun size hpos hlt => hmade size hpos (Nat.le_of_lt_succ hlt))
    request.slots h.slots_range.1 (Nat.lt_succ_self _)

/-- The number of formulas of a finished set that can be packed is that of a machine word. -/
theorem length_lt (h : Finished entropy request table store formulas)
    (hcodec : ∃ codec, Record.Codec.make table request.slots = .ok codec) :
    formulas.length < WordFiles.recordBound := by
  obtain ⟨codec, hcodec⟩ := hcodec
  exact Record.Codec.length_lt_of_nodup hcodec h.nodup h.fits

/-- Under a seed the finished set does not depend on the run. -/
theorem formulas_eq (h : Finished entropy request table store formulas)
    (h' : Finished entropy' request' table store' formulas')
    (hslots : request.slots = request'.slots) (hpolicy : request.policy = request'.policy)
    {seed : UInt64} (hseed : request.policy.seed = some seed) : formulas = formulas' := by
  obtain ⟨levels, rfl, hmade⟩ := h.exists_made
  obtain ⟨levels', rfl, hmade'⟩ := h'.exists_made
  have hbyte : request.slots ≤ UInt8.size := Nat.le_trans h.slots_range.2 (by decide)
  rw [← hslots] at hmade' ⊢
  exact formulasAt_eq_formulasAt hpolicy hseed hbyte h.slots_range.1 hmade hmade'

end Finished

end Formulary.Generation
