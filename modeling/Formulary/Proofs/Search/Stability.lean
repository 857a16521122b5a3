import Formulary.Proofs.Generation.Finished
import Formulary.Proofs.Search.Loading
import Formulary.Proofs.Store.Flushing

/-!
# Loading a set again

A set that cannot be loaded is generated, written and returned. If the backend reads back what is
written, the returned set is the one that is loaded from then on, and as long as it can be loaded
nothing is generated or written any more.

So from the first call on that returns a set which is not empty all calls return that set, whatever
their policies are. An empty set is not written, and what the backend held is found again.
-/

namespace Formulary.Index

variable {β : Type} [WordBackend β] {entropy : Entropy} {request : Request} {table : OperatorTable}
  {slots : ℕ} {backend : β} {formulas : List Formula}

/-- The backend after a set was asked for, again and again. -/
def afterLoading (table : OperatorTable) (backend : β) : List (Entropy × Request) → β
  | [] => backend
  | (entropy, request) :: rest =>
    afterLoading table (loadOrGenerate entropy request table backend).backend rest

/-- A set that can be loaded is returned, and nothing is written. -/
theorem loadOrGenerate_of_load {buffer : PackedStore} (entropy : Entropy)
    (h : (ExternalStore.load table request.slots backend).1 = .ok buffer) :
    (loadOrGenerate entropy request table backend).outcome =
        .ok ⟨table, .external (.ofParts buffer backend)⟩ ∧
      (loadOrGenerate entropy request table backend).backend = backend := by
  rcases hload : ExternalStore.load table request.slots backend with ⟨outcome, warnings⟩
  rw [hload] at h
  obtain rfl : outcome = .ok buffer := h
  unfold loadOrGenerate
  rw [hload]
  exact ⟨rfl, rfl⟩

/-- A set that cannot be loaded is generated, if that can help. -/
theorem loadOrGenerate_of_error {error : StoreError} (entropy : Entropy)
    (h : (ExternalStore.load table request.slots backend).1 = .error error) :
    (error.isRecoverable = true ∧ (loadOrGenerate entropy request table backend).outcome =
        (regenerate entropy request table backend).outcome ∧
      (loadOrGenerate entropy request table backend).backend =
        (regenerate entropy request table backend).backend) ∨
    (error.isRecoverable = false ∧
      (loadOrGenerate entropy request table backend).outcome = .error (.store error)) := by
  rcases hload : ExternalStore.load table request.slots backend with ⟨outcome, warnings⟩
  rw [hload] at h
  obtain rfl : outcome = .error error := h
  unfold loadOrGenerate
  simp only [hload]
  cases error.isRecoverable with
  | true => exact Or.inl ⟨rfl, rfl, rfl⟩
  | false => exact Or.inr ⟨rfl, rfl⟩

/-- Where there is a codec, formulas that fit are appended to a new store, which is then written. -/
theorem storeAll_eq {codec : Record.Codec} (hcodec : Record.Codec.make table slots = .ok codec)
    (hfits : ∀ f ∈ formulas, f.Fits table slots) (backend : β) :
    ∃ buffer : PackedStore, buffer.Holds table slots formulas ∧
      ∀ outcome written, (ExternalStore.mk buffer backend 0).flush = (outcome, written) →
        storeAll table slots backend formulas =
          ((outcome.mapError SearchError.store).map fun _ => ⟨table, .external written⟩,
            written.backend) := by
  obtain ⟨empty, hempty⟩ := PackedStore.exists_empty hcodec
  have hnone := PackedStore.holds_nil_of_empty hempty
  have hcreate : ExternalStore.create table slots backend = .ok ⟨empty, backend, 0⟩ := by
    have hlength : empty.length = 0 := hnone.length_eq
    rw [ExternalStore.create, hempty, ← hlength]
    rfl
  have hstore : (Store.external ⟨empty, backend, 0⟩).Holds table slots [] := hnone
  obtain ⟨after, hpush, hafter, hbacking⟩ := hstore.pushAll_eq_ok hfits
  cases after with
  | memory store => cases hbacking
  | packed store => cases hbacking
  | external store =>
    obtain ⟨buffer, place, flushed⟩ := store
    cases hbacking
    refine ⟨buffer, hafter, fun outcome written hflush => ?_⟩
    unfold storeAll
    simp only [hcreate, hpush, hflush]
    cases outcome with
    | error error => rfl
    | ok done => rfl

/-- Where there is a codec, the finished set of a packed run is put into a buffer and written. -/
theorem regenerate_eq {codec : Record.Codec} {store : Store WordFiles}
    (hcodec : Record.Codec.make table request.slots = .ok codec)
    (hgenerate : (Formulary.generate entropy { request with kind := .packed } table).1 = .ok store)
    (hfinished : Generation.Finished entropy { request with kind := .packed } table store formulas)
    (backend : β) :
    ∃ buffer : PackedStore, buffer.Holds table request.slots formulas ∧
      ∀ outcome written, (ExternalStore.mk buffer backend 0).flush = (outcome, written) →
        (regenerate entropy request table backend).outcome =
            (outcome.mapError SearchError.store).map (fun _ => ⟨table, .external written⟩) ∧
          (regenerate entropy request table backend).backend = written.backend := by
  obtain ⟨buffer, hbuffer, hall⟩ := storeAll_eq hcodec hfinished.fits backend
  refine ⟨buffer, hbuffer, fun outcome written hflush => ?_⟩
  rcases hrun : Formulary.generate entropy { request with kind := .packed } table with
    ⟨answer, warnings⟩
  rw [hrun] at hgenerate
  obtain rfl : answer = .ok store := hgenerate
  unfold regenerate
  simp only [hrun, hfinished.holds.toList_eq_ok]
  rw [hall outcome written hflush]
  exact ⟨rfl, rfl⟩

/-- Where there is a codec, the finished set of a packed run makes an index if the backend takes what is
written. -/
theorem exists_regenerate {codec : Record.Codec} {store : Store WordFiles}
    (hcodec : Record.Codec.make table request.slots = .ok codec)
    (hgenerate : (Formulary.generate entropy { request with kind := .packed } table).1 = .ok store)
    (hfinished : Generation.Finished entropy { request with kind := .packed } table store formulas)
    (hwrite : ∀ words records, (WordBackend.write backend words records).1 = .ok ()) :
    ∃ index, (regenerate entropy request table backend).outcome = .ok index := by
  obtain ⟨buffer, -, hall⟩ := regenerate_eq hcodec hgenerate hfinished backend
  have hwritten : (ExternalStore.mk buffer backend 0).flush.1 = .ok () :=
    ExternalStore.flush_eq_ok hwrite
  rcases hflush : (ExternalStore.mk buffer backend 0).flush with ⟨answer, written⟩
  rw [hflush] at hwritten
  obtain rfl : answer = .ok () := hwritten
  exact ⟨_, (hall _ written hflush).1⟩

/-- A set that is generated and written without an error is the finished set of a packed run, and
there is a codec for it. -/
theorem exists_of_regenerate {index : Index β}
    (h : (regenerate entropy request table backend).outcome = .ok index) :
    ∃ store formulas codec,
      (Formulary.generate entropy { request with kind := .packed } table).1 = .ok store ∧
      Generation.Finished entropy { request with kind := .packed } table store formulas ∧
      Record.Codec.make table request.slots = .ok codec := by
  rcases hrun : Formulary.generate entropy { request with kind := .packed } table with
    ⟨outcome, warnings⟩
  unfold regenerate at h
  simp only [hrun] at h
  cases outcome with
  | error error => cases h
  | ok store =>
    obtain ⟨formulas, hfinished⟩ := Generation.finished_of_generate (congrArg Prod.fst hrun)
    simp only [hfinished.holds.toList_eq_ok] at h
    cases hcreate : ExternalStore.create table request.slots backend with
    | error error =>
      rw [storeAll, hcreate] at h
      cases h
    | ok created =>
      obtain ⟨empty, hempty, -⟩ := Outcome.bind_eq_ok_iff.mp hcreate
      exact ⟨store, formulas, empty.codec, rfl, hfinished,
        (PackedStore.holds_nil_of_empty hempty).codec_eq⟩

/-- A new store is dirty as soon as it has a formula, and has then touched nothing yet. -/
theorem follows_of_holds {buffer : PackedStore} (hbuffer : buffer.Holds table slots formulas)
    (backend : β) :
    (ExternalStore.mk buffer backend 0).Follows table slots backend formulas :=
  ⟨hbuffer, Nat.zero_le _, fun _ => rfl,
    fun hnone hne => absurd (List.length_eq_zero_iff.mp hnone.symm) hne⟩

/-- What was written for the first time, and is not empty, is loaded again. -/
theorem load_of_flush [WordBackend.ReadsBack β] {buffer : PackedStore} {written : ExternalStore β}
    (hbuffer : buffer.Holds table slots formulas) (hlength : formulas.length < WordFiles.recordBound)
    (hflush : (ExternalStore.mk buffer backend 0).flush = (.ok (), written)) :
    written.buffer = buffer ∧ (formulas ≠ [] → written = .ofParts buffer written.backend ∧
      (ExternalStore.load table slots written.backend).1 = .ok buffer) := by
  have hfollows := follows_of_holds hbuffer backend
  obtain ⟨-, -, hflushed⟩ := hfollows.flush hlength
  obtain ⟨hsame, hread, -⟩ := hfollows.flush_eq_ok hlength (congrArg Prod.fst hflush)
  rw [hflush] at hsame hread hflushed
  refine ⟨hsame, fun hne => ⟨?_, ?_⟩⟩
  · obtain ⟨_, place, flushed⟩ := written
    obtain rfl := hsame
    obtain rfl : flushed = formulas.length := hflushed rfl
    rw [ExternalStore.ofParts, hbuffer.length_eq]
  · have hnonzero : buffer.length ≠ 0 := by
      rw [hbuffer.length_eq]
      exact fun hzero => hne (List.length_eq_zero_iff.mp hzero)
    rw [ExternalStore.load_eq hbuffer.codec_eq (hread hnonzero)]
    exact ExternalStore.validate_eq_ok hbuffer hne

/-- A set that is generated, written and not empty is the one that can be loaded afterwards. -/
theorem exists_load_of_regenerate [WordBackend.ReadsBack β] {index : Index β}
    (h : (regenerate entropy request table backend).outcome = .ok index) (hne : index.length ≠ 0) :
    ∃ buffer, (ExternalStore.load table request.slots
        (regenerate entropy request table backend).backend).1 = .ok buffer ∧
      index = ⟨table, .external (.ofParts buffer
        (regenerate entropy request table backend).backend)⟩ := by
  obtain ⟨store, formulas, codec, hgenerate, hfinished, hcodec⟩ := exists_of_regenerate h
  obtain ⟨buffer, hbuffer, hall⟩ := regenerate_eq hcodec hgenerate hfinished backend
  rcases hflush : (ExternalStore.mk buffer backend 0).flush with ⟨answer, written⟩
  obtain ⟨hanswer, hwritten⟩ := hall answer written hflush
  rw [h] at hanswer
  cases answer with
  | error error => cases hanswer
  | ok done =>
    cases hanswer
    obtain ⟨hsame, hkept⟩ := load_of_flush hbuffer (hfinished.length_lt ⟨codec, hcodec⟩) hflush
    have hformulas : formulas ≠ [] := by
      rintro rfl
      exact hne (hsame ▸ hbuffer.length_eq : written.buffer.length = 0)
    obtain ⟨hparts, hagain⟩ := hkept hformulas
    rw [hwritten]
    exact ⟨buffer, hagain, by rw [← hparts]⟩

/-- A set that is returned and is not empty is the one that can be loaded afterwards. -/
theorem exists_load_of_loadOrGenerate [WordBackend.ReadsBack β] {index : Index β}
    (h : (loadOrGenerate entropy request table backend).outcome = .ok index)
    (hne : index.length ≠ 0) :
    ∃ buffer, (ExternalStore.load table request.slots
        (loadOrGenerate entropy request table backend).backend).1 = .ok buffer ∧
      index = ⟨table, .external (.ofParts buffer
        (loadOrGenerate entropy request table backend).backend)⟩ := by
  cases hload : (ExternalStore.load table request.slots backend).1 with
  | ok buffer =>
    obtain ⟨houtcome, hsame⟩ := loadOrGenerate_of_load entropy hload
    rw [h] at houtcome
    cases houtcome
    rw [hsame]
    exact ⟨buffer, hload, rfl⟩
  | error error =>
    rcases loadOrGenerate_of_error entropy hload with ⟨-, houtcome, hbackend⟩ | ⟨-, hfails⟩
    · rw [hbackend]
      exact exists_load_of_regenerate (houtcome.symm.trans h) hne
    · rw [hfails] at h
      cases h

/-- As long as a set can be loaded the backend stays as it is. -/
theorem afterLoading_eq {buffer : PackedStore} {calls : List (Entropy × Request)}
    (hload : (ExternalStore.load table slots backend).1 = .ok buffer)
    (hcalls : ∀ call ∈ calls, call.2.slots = slots) : afterLoading table backend calls = backend := by
  induction calls with
  | nil => rfl
  | cons call rest ih =>
    obtain ⟨hfirst, hrest⟩ := List.forall_mem_cons.mp hcalls
    rw [← hfirst] at hload
    rw [afterLoading, (loadOrGenerate_of_load call.1 hload).2, ih hrest]

/-- A run for the same number of slots under the same policy makes its set, if it can be kept. -/
theorem exists_finished (hvalid : request.validate = .ok ())
    (hcodec : ∃ codec, Record.Codec.make table request.slots = .ok codec) (other : Entropy)
    (kind : StoreKind)
    (hwrite : Generation.WriteSucceeds other { request with kind := kind } table) :
    ∃ store formulas,
      (Formulary.generate other { request with kind := kind } table).1 = .ok store ∧
        Generation.Finished other { request with kind := kind } table store formulas := by
  have hvalid' : Request.validate { request with kind := kind } = .ok () := hvalid
  obtain ⟨store, hstore⟩ := Generation.exists_generate hvalid'
    (Generation.exists_levelsUpTo_slots hvalid' hcodec hwrite)
  obtain ⟨formulas, hfinished⟩ := Generation.finished_of_generate hstore
  exact ⟨store, formulas, hstore, hfinished⟩

/-- Where a set is missing or corrupt there is a codec for it: that there is none is another error. -/
theorem exists_codec_of_error {error : StoreError}
    (hload : (ExternalStore.load table slots backend).1 = .error error)
    (hcause : (∃ place, error = .missing place) ∨ ∃ reason, error = .corrupt reason) :
    ∃ codec, Record.Codec.make table slots = .ok codec := by
  cases hmake : Record.Codec.make table slots with
  | ok codec => exact ⟨codec, rfl⟩
  | error reason =>
    rw [ExternalStore.load, hmake] at hload
    cases hload
    rcases hcause with ⟨place, hplace⟩ | ⟨reason, hreason⟩
    · cases hplace
    · cases hreason

/-- Where a set is missing or corrupt, the answer is that of generating it. -/
theorem outcome_eq_of_error {error : StoreError} (entropy : Entropy)
    (hload : (ExternalStore.load table request.slots backend).1 = .error error)
    (hcause : (∃ place, error = .missing place) ∨ ∃ reason, error = .corrupt reason) :
    (loadOrGenerate entropy request table backend).outcome =
      (regenerate entropy request table backend).outcome := by
  have hrecoverable : error.isRecoverable = true := by
    rcases hcause with ⟨place, rfl⟩ | ⟨reason, rfl⟩
    · rfl
    · rfl
  rcases loadOrGenerate_of_error entropy hload with ⟨-, houtcome, -⟩ | ⟨hnot, -⟩
  · exact houtcome
  · rw [hrecoverable] at hnot
    cases hnot

/-- An invalid request fails with what is wrong with it. -/
theorem regenerate_of_validate_eq_error {problem : GenerationError}
    (h : request.validate = .error problem) :
    (regenerate entropy request table backend).outcome = .error (.generation problem) := by
  have h' : Request.validate { request with kind := .packed } = .error problem := h
  unfold regenerate
  rw [Generation.generate_of_validate_eq_error h']

/-- Where a set is missing or corrupt, the requested set is generated. Under a seed it is the one that
any run for the same number of slots under the same policy makes. -/
theorem regenerate_of_seed [WordBackend.ReadsBack β] {error : StoreError} {seed : UInt64}
    (hload : (ExternalStore.load table request.slots backend).1 = .error error)
    (hcause : (∃ place, error = .missing place) ∨ ∃ reason, error = .corrupt reason)
    (hseed : request.policy.seed = some seed) (hvalid : request.validate = .ok ()) :
    ∃ formulas,
      (∀ other kind, Generation.WriteSucceeds other { request with kind := kind } table →
        ∃ generated, (generate other { request with kind := kind } table).1 = .ok generated ∧
          generated.store.toList = .ok formulas) ∧
      (∀ index, (loadOrGenerate entropy request table backend).outcome = .ok index →
        index.store.toList = .ok formulas) ∧
      ((∀ words records, (WordBackend.write backend words records).1 = .ok ()) →
        ∃ index, (loadOrGenerate entropy request table backend).outcome = .ok index) := by
  obtain ⟨codec, hcodec⟩ := exists_codec_of_error hload hcause
  obtain ⟨store, formulas, hgenerate, hfinished⟩ :=
    exists_finished hvalid ⟨codec, hcodec⟩ entropy .packed fun path directory hkind => nomatch hkind
  obtain ⟨buffer, hbuffer, hall⟩ := regenerate_eq hcodec hgenerate hfinished backend
  rw [outcome_eq_of_error entropy hload hcause]
  refine ⟨formulas, fun other kind hwrite => ?_, fun index h => ?_, fun hwrite => ?_⟩
  · obtain ⟨store', formulas', hstore', hfinished'⟩ :=
      exists_finished hvalid ⟨codec, hcodec⟩ other kind hwrite
    have hsame : formulas' = formulas := hfinished'.formulas_eq hfinished rfl rfl hseed
    rw [generate_eq, hstore']
    exact ⟨_, rfl, hsame ▸ hfinished'.holds.toList_eq_ok⟩
  · rcases hflush : (ExternalStore.mk buffer backend 0).flush with ⟨answer, written⟩
    rw [(hall answer written hflush).1] at h
    cases answer with
    | error error => cases h
    | ok done =>
      cases h
      obtain ⟨hsame, -⟩ := load_of_flush hbuffer (hfinished.length_lt ⟨codec, hcodec⟩) hflush
      exact (congrArg PackedStore.toList hsame).trans hbuffer.toList_eq_ok
  · exact exists_regenerate hcodec hgenerate hfinished hwrite

/-- Asking for a set is stable. If a set is returned that is not empty, the backend afterwards holds
just its formulas, and every later call for the same number of slots, whatever its policy and its
keys, returns the same index and leaves the backend as it is. A set that can be loaded is returned, and
nothing is written. If it is missing or corrupt and the policy has a seed, a valid request gives the
set that any run with the same policy makes, and it succeeds if the backend takes what is written; an
invalid request fails as a run does. -/
theorem loadOrGenerate_stable [WordBackend.ReadsBack β] (entropy : Entropy) (request : Request)
    (table : OperatorTable) (backend : β) :
    let loading := loadOrGenerate entropy request table backend
    (∀ index, loading.outcome = .ok index → index.length ≠ 0 →
      (∃ buffer formulas, (ExternalStore.load table request.slots loading.backend).1 = .ok buffer ∧
        buffer.toList = .ok formulas ∧ index.store.toList = .ok formulas) ∧
      ∀ calls : List (Entropy × Request), (∀ call ∈ calls, call.2.slots = request.slots) →
        ∀ (later : Entropy) (again : Request), again.slots = request.slots →
          let reloading := loadOrGenerate later again table (afterLoading table loading.backend calls)
          reloading.outcome = .ok index ∧ reloading.backend = loading.backend) ∧
    (∀ buffer, (ExternalStore.load table request.slots backend).1 = .ok buffer →
      loading.outcome = .ok ⟨table, .external (.ofParts buffer backend)⟩ ∧
        loading.backend = backend) ∧
    ∀ error seed, (ExternalStore.load table request.slots backend).1 = .error error →
      ((∃ place, error = .missing place) ∨ ∃ reason, error = .corrupt reason) →
      request.policy.seed = some seed →
      (∀ problem, request.validate = .error problem →
        loading.outcome = .error (.generation problem) ∧
        ∀ other kind, (generate other { request with kind := kind } table).1 =
          .error (.generation problem)) ∧
      (request.validate = .ok () → ∃ formulas,
        (∀ other kind, Generation.WriteSucceeds other { request with kind := kind } table →
          ∃ generated, (generate other { request with kind := kind } table).1 = .ok generated ∧
            generated.store.toList = .ok formulas) ∧
        (∀ index, loading.outcome = .ok index → index.store.toList = .ok formulas) ∧
        ((∀ words records, (WordBackend.write backend words records).1 = .ok ()) →
          ∃ index, loading.outcome = .ok index)) := by
  intro loading
  refine ⟨fun index h hne => ?_, fun buffer hload => loadOrGenerate_of_load entropy hload,
    fun error seed hload hcause hseed => ⟨fun problem hproblem => ?_, fun hvalid =>
      regenerate_of_seed hload hcause hseed hvalid⟩⟩
  · obtain ⟨buffer, hload, rfl⟩ := exists_load_of_loadOrGenerate h hne
    refine ⟨?_, ?_⟩
    · obtain ⟨formulas, hlists⟩ := ExternalStore.exists_lists_of_load hload
      exact ⟨buffer, formulas, hload, hlists.toList_eq_ok, hlists.toList_eq_ok⟩
    · intro calls hcalls later again hagain reloading
      rw [← hagain] at hload
      have hsame : afterLoading table loading.backend calls = loading.backend :=
        afterLoading_eq hload fun call hcall => (hcalls call hcall).trans hagain.symm
      have hreloading : reloading = loadOrGenerate later again table loading.backend := by
        rw [← hsame]
      rw [hreloading]
      exact loadOrGenerate_of_load later hload
  · refine ⟨(outcome_eq_of_error entropy hload hcause).trans
      (regenerate_of_validate_eq_error hproblem), fun other kind => ?_⟩
    have hproblem' : Request.validate { request with kind := kind } = .error problem := hproblem
    rw [generate_eq, Generation.generate_of_validate_eq_error hproblem']
    rfl

/-- One record in memory is returned to a call without a seed, and then to one with a seed. -/
theorem loadOrGenerate_stable_oneRecord :
    let backend : MemoryWords := ⟨some (#[0], 1)⟩
    let fresh : Entropy := fun _ => Vector.replicate 8 0
    let loading := loadOrGenerate fresh { slots := 3 } .arithmetic backend
    ∃ index, loading.outcome = .ok index ∧ index.length = 1 ∧
      (loadOrGenerate fresh { slots := 3, policy := { seed := some 7 } } .arithmetic
        loading.backend).outcome = .ok index := by
  intro backend fresh loading
  obtain ⟨codec, hcodec, hwidth, hsound⟩ := ExternalStore.exists_sound_oneRecord
  obtain ⟨buffer, hvalidate⟩ :=
    (ExternalStore.exists_validate_iff (by rw [hwidth]; decide)).mpr hsound
  have hread : (WordBackend.read backend).1 = .ok (#[0], 1) := rfl
  have hload : (ExternalStore.load .arithmetic 3 backend).1 = .ok buffer :=
    (ExternalStore.load_eq hcodec hread).trans hvalidate
  have hlength : buffer.length = 1 := (ExternalStore.validate_eq_ok_iff.mp hvalidate).2.2.2.2.1
  obtain ⟨hlater, hloaded, -⟩ := loadOrGenerate_stable fresh { slots := 3 } .arithmetic backend
  obtain ⟨hindex, -⟩ := hloaded buffer hload
  obtain ⟨-, hcalls⟩ := hlater _ hindex (by rw [length, Store.length]; exact hlength ▸ Nat.one_ne_zero)
  exact ⟨_, hindex, hlength, (hcalls [] nofun fresh { slots := 3, policy := { seed := some 7 } } rfl).1⟩

end Formulary.Index
