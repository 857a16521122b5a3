import Formulary.Proofs.Search.Answers

/-!
# Loading a set

Words and a record count that a backend gives back are checked before they are used: the count is
positive, there are as many words as the records take, and every record is that of a formula. As a
record has a formula only if the formula fits the slots and the table, whatever is loaded can be
searched without an error.

How many words the records take is computed in a machine word. A record count that comes from
elsewhere may be so large that this number is too small, and then fewer words are accepted.
-/

namespace Formulary

/-- Words that make a set of formulas: at least one record, just as many words as the records take,
and a formula in every record. -/
structure Record.Codec.Sound (codec : Codec) (words : Array UInt64) (records : ℕ) : Prop where
  pos : 1 ≤ records
  size_eq : words.size = (records * codec.width + 63) / 64
  decodes : ∀ index < records, ∃ f,
    codec.decode (PackedRecords.readAt words codec.width (index * codec.width)) = .ok f

/-- Whatever a packed store lists is given back by the index over it. -/
theorem PackedStore.Lists.reads {β : Type} {store : PackedStore} {table : OperatorTable} {slots : ℕ}
    {formulas : List Formula} (h : store.Lists table slots formulas) (backend : β) :
    Index.Reads ⟨table, .external (.ofParts store backend)⟩ formulas := by
  have hslots : store.slots = slots := h.slots_eq
  subst hslots
  exact ⟨h.length_eq, h.toOption_get, h.fits⟩

namespace ExternalStore

variable {β : Type} [WordBackend β] {backend : β} {table : OperatorTable} {slots : ℕ}
  {codec : Record.Codec} {words : Array UInt64} {records : ℕ} {buffer : PackedStore}

/-- A buffer passes the check if it holds the words as at least one record, each with a formula. -/
theorem validate_eq_ok_iff : validate codec words records = .ok buffer ↔
    records ≠ 0 ∧ buffer.codec = codec ∧ buffer.records.words = words ∧
      buffer.records.width = codec.width ∧ buffer.records.length = records ∧
      ∃ formulas, buffer.records.toList.mapM codec.decode = .ok formulas := by
  unfold validate
  by_cases hzero : records = 0
  · rw [if_pos hzero]
    exact ⟨nofun, fun h => absurd hzero h.1⟩
  rw [if_neg hzero]
  constructor
  · intro h
    obtain ⟨packed, hpacked, h⟩ := Outcome.bind_eq_ok_iff.mp h
    obtain ⟨formulas, hformulas, h⟩ := Outcome.bind_eq_ok_iff.mp h
    obtain ⟨hwords, hwidth, hlength⟩ :=
      Record.PackedRecords.ofWords_eq_ok_iff.mp (Outcome.mapError_eq_ok_iff.mp hpacked)
    have hunpack := Outcome.mapError_eq_ok_iff.mp hformulas
    rw [Record.Codec.unpack_eq hwidth] at hunpack
    unfold PackedStore.ofRecords at h
    rw [if_pos hwidth] at h
    cases h
    exact ⟨hzero, rfl, hwords, hwidth, hlength, formulas, hunpack⟩
  · obtain ⟨codec', packed⟩ := buffer
    rintro ⟨-, rfl, hwords, hwidth, hlength, formulas, hformulas⟩
    have hpacked : Record.PackedRecords.ofWords words codec'.width records = .ok packed :=
      Record.PackedRecords.ofWords_eq_ok_iff.mpr ⟨hwords, hwidth, hlength⟩
    have hunpack : codec'.unpack packed = .ok formulas :=
      (Record.Codec.unpack_eq hwidth).trans hformulas
    rw [hpacked]
    simp only [bind, Except.bind, Except.mapError, hunpack]
    exact if_pos hwidth

/-- Whatever does not pass the check is corrupt. -/
theorem exists_corrupt_of_validate {error : StoreError}
    (h : validate codec words records = .error error) : ∃ reason, error = .corrupt reason := by
  unfold validate at h
  split at h
  · cases h
    exact ⟨_, rfl⟩
  · rcases Outcome.bind_eq_error_iff.mp h with h | ⟨packed, hpacked, h⟩
    · obtain ⟨reason, -, rfl⟩ := Outcome.mapError_eq_error_iff.mp h
      exact ⟨_, rfl⟩
    rcases Outcome.bind_eq_error_iff.mp h with h | ⟨formulas, -, h⟩
    · obtain ⟨reason, -, rfl⟩ := Outcome.mapError_eq_error_iff.mp h
      exact ⟨_, rfl⟩
    have hwidth := (Record.PackedRecords.ofWords_eq_ok_iff.mp
      (Outcome.mapError_eq_ok_iff.mp hpacked)).2.1
    unfold PackedStore.ofRecords at h
    rw [if_pos hwidth] at h
    cases h

/-- What is read from a backend is checked. -/
theorem load_eq (hcodec : Record.Codec.make table slots = .ok codec)
    (hread : (WordBackend.read backend).1 = .ok (words, records)) :
    (load table slots backend).1 = validate codec words records := by
  rcases hanswer : WordBackend.read backend with ⟨answer, warnings⟩
  rw [hanswer] at hread
  obtain rfl : answer = .ok (words, records) := hread
  unfold load
  simp only [hcodec, hanswer]

/-- What passes the check lists as many formulas as there are records. -/
theorem lists_of_validate (hcodec : Record.Codec.make table slots = .ok codec)
    (h : validate codec words records = .ok buffer) :
    ∃ formulas, buffer.Lists table slots formulas ∧ formulas.length = records := by
  obtain ⟨-, rfl, -, hwidth, hlength, formulas, hformulas⟩ := validate_eq_ok_iff.mp h
  have hlists : buffer.Lists table slots formulas := ⟨hcodec, hwidth, hformulas⟩
  exact ⟨formulas, hlists, hlists.length_eq.symm.trans hlength⟩

/-- What is loaded lists formulas. -/
theorem exists_lists_of_load (h : (load table slots backend).1 = .ok buffer) :
    ∃ formulas, buffer.Lists table slots formulas := by
  cases hcodec : Record.Codec.make table slots with
  | error error =>
    rw [load, hcodec] at h
    cases h
  | ok codec =>
    rcases hanswer : WordBackend.read backend with ⟨answer, warnings⟩
    cases answer with
    | error error =>
      unfold load at h
      simp only [hcodec, hanswer] at h
      cases h
    | ok contents =>
      obtain ⟨words, records⟩ := contents
      rw [load_eq hcodec (congrArg Prod.fst hanswer)] at h
      obtain ⟨formulas, hlists, -⟩ := lists_of_validate hcodec h
      exact ⟨formulas, hlists⟩

/-- In words whose bits a machine word counts, each record stands at its place in the row. -/
theorem records_of_validate (hbits : records * codec.width < 2 ^ 64)
    (h : validate codec words records = .ok buffer) :
    buffer.records.isWhole = true ∧ ∀ index, buffer.records.recordAt index =
      Record.PackedRecords.readAt words codec.width (index * codec.width) := by
  obtain ⟨-, -, hwords, hwidth, hlength, -⟩ := validate_eq_ok_iff.mp h
  have hwhole : buffer.records.isWhole = true :=
    Record.PackedRecords.isWhole_of_lt (hlength.symm ▸ hwidth.symm ▸ hbits)
  refine ⟨hwhole, fun index => ?_⟩
  rw [Record.PackedRecords.recordAt_eq hwhole, hwords, hwidth]

/-- Words whose bits a machine word counts pass the check exactly when they make a set. -/
theorem exists_validate_iff (hbits : records * codec.width < 2 ^ 64) :
    (∃ buffer, validate codec words records = .ok buffer) ↔ codec.Sound words records := by
  have hdecodes {packed : Record.PackedRecords} (hlength : packed.length = records) :
      (∃ formulas, packed.toList.mapM codec.decode = .ok formulas) ↔
        ∀ index < records, ∃ f, codec.decode (packed.recordAt index) = .ok f := by
    rw [Outcome.exists_mapM_eq_ok_iff, Record.PackedRecords.toList_eq_map_recordAt, hlength]
    simp only [List.forall_mem_map, List.mem_range]
  constructor
  · rintro ⟨buffer, h⟩
    obtain ⟨hwhole, hrecord⟩ := records_of_validate hbits h
    obtain ⟨hpos, rfl, hwords, hwidth, hlength, hformulas⟩ := validate_eq_ok_iff.mp h
    have hsize := of_decide_eq_true hwhole
    rw [hwords, hwidth, hlength] at hsize
    refine ⟨Nat.one_le_iff_ne_zero.mpr hpos, hsize, fun index hindex => ?_⟩
    rw [← hrecord]
    exact (hdecodes hlength).mp hformulas index hindex
  · rintro ⟨hpos, hsize, hall⟩
    have hcount : Record.IsWordCount words.size records codec.width :=
      hsize.symm ▸ Record.isWordCount_wordsFor records codec.width
    let packed : Record.PackedRecords :=
      ⟨words, codec.width, records, codec.layout.fits, hcount⟩
    have hwhole : packed.isWhole = true := decide_eq_true hsize
    refine ⟨⟨codec, packed⟩, validate_eq_ok_iff.mpr
      ⟨Nat.one_le_iff_ne_zero.mp hpos, rfl, rfl, rfl, rfl, (hdecodes rfl).mpr fun index hindex => ?_⟩⟩
    rw [Record.PackedRecords.recordAt_eq hwhole]
    exact hall index hindex

/-- What a backend gives back is loaded, as long as a machine word counts its bits, exactly if it
makes a set of formulas, and is corrupt otherwise; what is loaded has at every position the formula of
the record there. Whatever was loaded has a formula at every position below the record count, and with
values that pass the check no search over it fails, but for a target that is not finite. -/
theorem load_validates (hcodec : Record.Codec.make table slots = .ok codec)
    (hread : (WordBackend.read backend).1 = .ok (words, records)) :
    (records * codec.width < 2 ^ 64 →
      ((∃ buffer, (load table slots backend).1 = .ok buffer) ↔ codec.Sound words records) ∧
      (¬ codec.Sound words records →
        ∃ reason, (load table slots backend).1 = .error (.corrupt reason)) ∧
      ∀ buffer, (load table slots backend).1 = .ok buffer → ∀ index < records, ∃ f,
        codec.decode (Record.PackedRecords.readAt words codec.width (index * codec.width)) = .ok f ∧
          buffer.get index = .ok f) ∧
    ∀ buffer, (load table slots backend).1 = .ok buffer →
      buffer.length = records ∧ (∀ index < records, ∃ f, buffer.get index = .ok f) ∧
      ∀ (config : SearchConfig) (values : List Float), validateValues values slots = .ok () →
        let index : Index β := ⟨table, .external (.ofParts buffer backend)⟩
        (∀ target error, Search.findAll index config values target = .error error ∨
          Search.findFirst index config values target = .error error →
            target.isFinite = false ∧ error = .invalidTarget target) ∧
        ∀ low high, ∃ reached, Search.reachableIntegers index config values low high = .ok reached := by
  rw [load_eq hcodec hread]
  refine ⟨fun hbits => ⟨exists_validate_iff hbits, fun hunsound => ?_, fun buffer h index hindex => ?_⟩,
    fun buffer h => ?_⟩
  · cases hvalidate : validate codec words records with
    | ok buffer => exact absurd ((exists_validate_iff hbits).mp ⟨buffer, hvalidate⟩) hunsound
    | error error =>
      obtain ⟨reason, rfl⟩ := exists_corrupt_of_validate hvalidate
      exact ⟨reason, rfl⟩
  · obtain ⟨-, hrecord⟩ := records_of_validate hbits h
    obtain ⟨f, hf⟩ := ((exists_validate_iff hbits).mp ⟨buffer, h⟩).decodes index hindex
    obtain ⟨-, rfl, -, hwidth, rfl, -⟩ := validate_eq_ok_iff.mp h
    refine ⟨f, hf, ?_⟩
    rw [PackedStore.get_eq hwidth hindex, hrecord, hf]
    rfl
  · obtain ⟨formulas, hlists, rfl⟩ := lists_of_validate hcodec h
    refine ⟨hlists.length_eq, fun index hindex => ?_, ?_⟩
    · have hget := hlists.toOption_get index
      rw [List.getElem?_eq_getElem hindex] at hget
      exact ⟨_, Outcome.toOption_eq_some_iff.mp hget⟩
    · intro config values hvalues index
      have hreads : index.Reads formulas := hlists.reads backend
      have hslots : index.slots = slots := hlists.slots_eq
      rw [← hslots] at hvalues
      exact ⟨fun target error herror => hreads.target_of_error hvalues herror,
        hreads.exists_reachableIntegers config hvalues⟩

/-- The codec of three slots and the arithmetic operators has records of eight bits, and the one whose
bits are all clear is that of a formula. -/
theorem exists_decode_zero : ∃ codec f, Record.Codec.make .arithmetic 3 = .ok codec ∧
    codec.width = 8 ∧ codec.decode 0 = .ok f :=
  ⟨_, ⟨[0, 1, 2], [0, 0], [true, true, false, true, false]⟩, rfl, rfl, by decide +kernel⟩

/-- One such record makes a set. -/
theorem exists_sound_oneRecord : ∃ codec, Record.Codec.make .arithmetic 3 = .ok codec ∧
    codec.width = 8 ∧ codec.Sound #[0] 1 := by
  obtain ⟨codec, f, hcodec, hwidth, hf⟩ := exists_decode_zero
  refine ⟨codec, hcodec, hwidth, Nat.le_refl 1, by rw [hwidth]; rfl, fun index hindex => ⟨f, ?_⟩⟩
  obtain rfl := Nat.lt_one_iff.mp hindex
  rw [hwidth]
  exact hf

/-- One record over three slots is loaded, has a formula, and is searched with three values. -/
theorem load_validates_threeSlots :
    let backend : MemoryWords := ⟨some (#[0], 1)⟩
    ∃ buffer f reached, (load .arithmetic 3 backend).1 = .ok buffer ∧ buffer.get 0 = .ok f ∧
      Search.reachableIntegers ⟨.arithmetic, .external (.ofParts buffer backend)⟩ {} [1, 2, 3] 0 10 =
        .ok reached := by
  intro backend
  obtain ⟨codec, hcodec, hwidth, hsound⟩ := exists_sound_oneRecord
  have hread : (WordBackend.read backend).1 = .ok (#[0], 1) := rfl
  obtain ⟨hbounded, hloaded⟩ := load_validates hcodec hread
  obtain ⟨buffer, hbuffer⟩ := (hbounded (by rw [hwidth]; decide)).1.mpr hsound
  obtain ⟨-, hget, hsearches⟩ := hloaded buffer hbuffer
  obtain ⟨first, hfirst⟩ := hget 0 Nat.one_pos
  have hvalues : validateValues [1, 2, 3] 3 = .ok () :=
    validateValues_eq_ok_iff.mpr ⟨rfl, by decide +kernel⟩
  obtain ⟨reached, hreached⟩ := (hsearches {} [1, 2, 3] hvalues).2 0 10
  exact ⟨buffer, first, reached, hbuffer, hfirst, hreached⟩

/-- With a record count whose bits a machine word does not count, no words at all are loaded as that
many records, although as many of eight bits take a large number of words. -/
theorem load_overflowing_accepted :
    let backend : MemoryWords := ⟨some (#[], 2 ^ 61)⟩
    ∃ codec buffer, Record.Codec.make .arithmetic 3 = .ok codec ∧ ¬ codec.Sound #[] (2 ^ 61) ∧
      (load .arithmetic 3 backend).1 = .ok buffer := by
  intro backend
  obtain ⟨codec, f, hcodec, hwidth, hf⟩ := exists_decode_zero
  let packed : Record.PackedRecords :=
    ⟨#[], codec.width, 2 ^ 61, codec.layout.fits, Or.inl (by rw [hwidth]; decide)⟩
  have hclear (index : ℕ) : packed.recordAt index = 0 := by
    apply Record.eq_of_wordBit
    intro position
    rw [Record.PackedRecords.wordBit_recordAt]
    simp [packed, Record.bitAt, Record.PackedRecords.wordAt]
  have hformulas : packed.toList.mapM codec.decode =
      .ok (packed.toList.map fun _ => f) := by
    apply Outcome.mapM_eq_ok_map
    rw [Record.PackedRecords.toList_eq_map_recordAt]
    intro record hrecord
    obtain ⟨index, -, rfl⟩ := List.mem_map.mp hrecord
    rw [hclear, hf]
  have hread : (WordBackend.read backend).1 = .ok (#[], 2 ^ 61) := rfl
  refine ⟨codec, ⟨codec, packed⟩, hcodec, fun hsound => ?_, ?_⟩
  · have hsize := hsound.size_eq
    rw [hwidth] at hsize
    exact absurd hsize (by decide)
  · rw [load_eq hcodec hread]
    exact validate_eq_ok_iff.mpr ⟨by decide, rfl, rfl, rfl, rfl, _, hformulas⟩

end ExternalStore

end Formulary
