import Formulary.Proofs.Search.Stability

/-!
# What generating a set anew mends

A set that cannot be loaded is generated again if its error counts as recoverable. Generating it
anew can fail for two reasons only: a record over that many slots has no codec, or the request is
refused, which under a valid policy means that it asks for no slot or for more than eleven.
Everything else succeeds, provided the backend takes what is written: a run over packed sets needs
no more than the codec, and its formulas fit the store that is written.

That there is no codec is an error of the load as well, and it counts as recoverable although it
comes back from the run.
-/

namespace Formulary.Index

variable {β : Type} [WordBackend β] {entropy : Entropy} {request : Request} {table : OperatorTable}
  {backend : β} {problem : StoreError}

/-- A packed run that succeeds has a codec for its last level. -/
theorem exists_codec_of_generate {store : Store WordFiles} (hkind : request.kind = .packed)
    (h : (Formulary.generate entropy request table).1 = .ok store) :
    ∃ codec, Record.Codec.make table request.slots = .ok codec := by
  obtain ⟨formulas, hfinished⟩ := Generation.finished_of_generate h
  obtain ⟨levels, -, hmade⟩ := hfinished.exists_made
  obtain ⟨⟨last, -, -, hmake⟩, -, -⟩ :=
    hmade request.slots hfinished.slots_range.1 (Nat.le_refl _)
  obtain ⟨set, hfill, -⟩ := Generation.steps_of_makeLevel hmake
  obtain ⟨start, hstart, -⟩ := Outcome.bind_eq_ok_iff.mp hfill
  obtain ⟨built, hbuilt, -⟩ := Outcome.bind_eq_ok_iff.mp hstart
  have hbuilt' : (PackedStore.empty table request.slots).map Store.packed = .ok built := by
    have hlast : request.kindFor request.slots = .packed := by
      unfold Request.kindFor
      rw [hkind]
    rw [hlast] at hbuilt
    exact Outcome.mapError_eq_ok_iff.mp hbuilt
  cases hempty : PackedStore.empty table request.slots with
  | error error =>
    rw [hempty] at hbuilt'
    cases hbuilt'
  | ok empty =>
    obtain ⟨codec, hcodec, -⟩ := Outcome.bind_eq_ok_iff.mp hempty
    exact ⟨codec, Outcome.mapError_eq_ok_iff.mp hcodec⟩

/-- A set is generated and written if it has a codec and no more than eleven slots, and otherwise the
run fails and the backend is left alone. -/
theorem regenerate_cases (entropy : Entropy) (table : OperatorTable)
    (hpolicy : request.policy.validate = .ok ())
    (hwrite : ∀ words records, (WordBackend.write backend words records).1 = .ok ()) :
    let regenerated := regenerate entropy request table backend
    (((∃ codec, Record.Codec.make table request.slots = .ok codec) ∧ request.slots ≤ 11) ∧
      ∃ index, regenerated.outcome = .ok index) ∨
    (¬ ((∃ codec, Record.Codec.make table request.slots = .ok codec) ∧ request.slots ≤ 11) ∧
      ∃ reason, regenerated.outcome = .error (.generation reason) ∧
        regenerated.backend = backend) := by
  intro regenerated
  rcases hrun : Formulary.generate entropy { request with kind := .packed } table with
    ⟨outcome, warnings⟩
  have hrun' := congrArg Prod.fst hrun
  cases outcome with
  | error reason =>
    refine Or.inr ⟨fun ⟨hcodec, hle⟩ => ?_, reason, ?_⟩
    · -- With a codec and a size in range the run could not have failed.
      obtain ⟨hpos, -⟩ := Record.Codec.exists_make_iff.mp hcodec
      have hvalid : request.validate = .ok () := Request.validate_eq_ok_iff.mpr ⟨⟨hpos, hle⟩, hpolicy⟩
      obtain ⟨store, -, hstore, -⟩ :=
        exists_finished hvalid hcodec entropy .packed fun path directory hkind => nomatch hkind
      cases hrun'.symm.trans hstore
    · unfold regenerated regenerate
      rw [hrun]
      exact ⟨rfl, rfl⟩
  | ok store =>
    obtain ⟨codec, hcodec⟩ := exists_codec_of_generate rfl hrun'
    obtain ⟨formulas, hfinished⟩ := Generation.finished_of_generate hrun'
    exact Or.inl ⟨⟨⟨codec, hcodec⟩, hfinished.slots_range.2⟩,
      exists_regenerate hcodec hrun' hfinished hwrite⟩

/-- Where there is no codec, that is what is wrong with loading. -/
theorem load_of_make_eq_error {reason : RecordError}
    (h : Record.Codec.make table request.slots = .error reason) :
    ExternalStore.load table request.slots backend = (.error (.record reason), []) := by
  unfold ExternalStore.load
  rw [h]

/-- What follows when a set cannot be loaded, under a valid policy and with a backend that takes what
is written. An error that is not recoverable is reported, and nothing is generated. After a recoverable
one an index is returned exactly if the set has a codec and no more than eleven slots; otherwise the
run fails and the backend is left alone. Where there is no codec, that is the error of the load, which
is recoverable, and the run fails. -/
theorem loadOrGenerate_recovers (entropy : Entropy) (hpolicy : request.policy.validate = .ok ())
    (hwrite : ∀ words records, (WordBackend.write backend words records).1 = .ok ())
    (hload : (ExternalStore.load table request.slots backend).1 = .error problem) :
    let loading := loadOrGenerate entropy request table backend
    (problem.isRecoverable = false → loading =
      ⟨.error (.store problem), backend, (ExternalStore.load table request.slots backend).2⟩) ∧
    (problem.isRecoverable = true →
      ((∃ index, loading.outcome = .ok index) ↔
        (∃ codec, Record.Codec.make table request.slots = .ok codec) ∧ request.slots ≤ 11) ∧
      ∀ failure, loading.outcome = .error failure →
        (∃ reason, failure = .generation reason) ∧ loading.backend = backend) ∧
    ∀ reason, Record.Codec.make table request.slots = .error reason →
      problem = .record reason ∧ problem.isRecoverable = true ∧
        ∃ refused, loading.outcome = .error (.generation refused) := by
  intro loading
  have hrecovered : problem.isRecoverable = true →
      loading.outcome = (regenerate entropy request table backend).outcome ∧
        loading.backend = (regenerate entropy request table backend).backend := by
    intro hrecoverable
    rcases loadOrGenerate_of_error entropy hload with ⟨-, hsame⟩ | ⟨hnot, -⟩
    · exact hsame
    · rw [hrecoverable] at hnot
      cases hnot
  refine ⟨fun hfinal => ?_, fun hrecoverable => ?_, fun reason hmake => ?_⟩
  · rcases hanswer : ExternalStore.load table request.slots backend with ⟨answer, warnings⟩
    rw [hanswer] at hload
    obtain rfl : answer = .error problem := hload
    unfold loading loadOrGenerate
    simp only [hanswer, hfinal, Bool.false_eq_true, if_false]
  · obtain ⟨houtcome, hbackend⟩ := hrecovered hrecoverable
    rw [houtcome, hbackend]
    rcases regenerate_cases entropy table hpolicy hwrite with
      ⟨hmends, index, hindex⟩ | ⟨hnot, reason, hfails, hkept⟩
    · refine ⟨⟨fun _ => hmends, fun _ => ⟨index, hindex⟩⟩, fun failure hfailure => ?_⟩
      cases hindex.symm.trans hfailure
    · refine ⟨⟨fun ⟨index, hindex⟩ => ?_, fun hmends => absurd hmends hnot⟩, fun failure hfailure => ?_⟩
      · cases hfails.symm.trans hindex
      · cases hfails.symm.trans hfailure
        exact ⟨⟨reason, rfl⟩, hkept⟩
  · rw [load_of_make_eq_error hmake] at hload
    cases hload
    refine ⟨rfl, rfl, ?_⟩
    rw [(hrecovered rfl).1]
    rcases regenerate_cases entropy table hpolicy hwrite with
      ⟨⟨⟨codec, hcodec⟩, -⟩, -⟩ | ⟨-, refused, hfails, -⟩
    · cases hmake.symm.trans hcodec
    · exact ⟨refused, hfails⟩

/-- From a place that holds nothing a set over three slots is generated and returned. -/
theorem loadOrGenerate_recovers_missing :
    let fresh : Entropy := fun _ => Vector.replicate 8 0
    (ExternalStore.load .arithmetic 3 MemoryWords.empty).1 = .error (.missing "<memory>") ∧
      ∃ index, (loadOrGenerate fresh { slots := 3 } .arithmetic MemoryWords.empty).outcome =
        .ok index := by
  intro fresh
  have hpolicy : ({ slots := 3 } : Request).policy.validate = .ok () := rfl
  have hcodec : ∃ codec, Record.Codec.make .arithmetic 3 = .ok codec :=
    Record.Codec.exists_make_iff.mpr ⟨by decide, by decide, by decide⟩
  have hload : (ExternalStore.load .arithmetic 3 MemoryWords.empty).1 =
      .error (.missing "<memory>") := rfl
  obtain ⟨-, hrecoverable, -⟩ :=
    loadOrGenerate_recovers fresh hpolicy (fun _ _ => rfl) hload
  exact ⟨hload, (hrecoverable rfl).1.mpr ⟨hcodec, by decide⟩⟩

/-- A record over twelve slots needs more bits than a word has. That is an error of the load which
counts as recoverable, but with any keys the set is not generated, and the call fails with another
error. -/
theorem loadOrGenerate_tooWide_fails :
    let request : Request := { slots := 12, policy := { seed := some 17 } }
    let problem : StoreError := .record (.capacityExceeded 12 70)
    request.policy.validate = .ok () ∧
      (ExternalStore.load .arithmetic 12 MemoryWords.empty).1 = .error problem ∧
      problem.isRecoverable = true ∧
      ∀ entropy, (loadOrGenerate entropy request .arithmetic MemoryWords.empty).outcome =
        .error (.generation (.invalidSize 12)) := by
  intro request problem
  have hload : (ExternalStore.load .arithmetic 12 MemoryWords.empty).1 = .error problem := rfl
  have hslots : (ExternalStore.load .arithmetic request.slots MemoryWords.empty).1 =
      .error problem := hload
  have hinvalid : request.validate = .error (.invalidSize 12) := rfl
  refine ⟨rfl, hload, rfl, fun entropy => ?_⟩
  rcases loadOrGenerate_of_error entropy hslots with ⟨-, houtcome, -⟩ | ⟨hnot, -⟩
  · exact houtcome.trans (regenerate_of_validate_eq_error hinvalid)
  · cases hnot

end Formulary.Index
